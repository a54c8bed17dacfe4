import Peg.Workbench.Report

/-! # Commands of the workbench

A session is a list of commands, each of which is carried out on what the ones before
it left and gives an answer. A fault spoils only the answer of its own command.
-/
namespace Peg

inductive SpanQuery
  | length
  | isEmpty
  | text
  | bytes
  | forward
  | position
  | describe
  deriving DecidableEq, Repr

inductive Command
  | name (name : String) (p : Expr)
  | render (p : Expr)
  | describe (p : Expr)
  | sameNode (a b : Expr)
  | slot (grammar name : String)
  | define (grammar name : String) (p : Expr)
  | body (grammar name : String)
  | nameBody (grammar rule name : String)
  /-- The name that a grammar has for the slot of a rule of another one. -/
  | slotName (grammar other rule : String)
  | compare (grammar rule other otherRule : String)
  | survey (grammar : String)
  | reset (grammar : String)
  | station (name : String) (s : Station)
  | cloneStation (name source : String)
  | seek (station : String) (pos : Nat)
  | read (station : String) (count : Nat)
  | look (station : String)
  /-- Empties a sink if asked to, writes to it and shows what it holds. -/
  | sink (name : String) (clear : Bool) (bytes : Array UInt8)
  | span (start stop : Nat) (extensions : List (Nat × Nat)) (station : Option String)
      (sink : String) (queries : List SpanQuery)
  | eval (p : Expr) (station : String) (grammar context : Option String)

inductive SpanAnswer
  | number (n : Nat)
  | flag (b : Bool)
  | text (s : String)
  | bytes (bs : Array UInt8)
  | copied (count : Nat) (held : Array UInt8)
  | fault (f : Fault)
  deriving Repr

inductive Answer
  | done
  | text (s : Option String)
  | flag (b : Bool)
  | number (n : Nat)
  | comparison (sameGrammar : Bool) (slots : Ordering)
  | survey (size : Nat) (empty : Bool) (names : List String) (check : Except Undefined Unit)
  | place (pos : Nat) (atEnd : Option Bool) (read : List (Option UInt8))
  | bytes (bs : Array UInt8)
  | span (m : Span) (answers : List SpanAnswer)
  | report (r : RunReport)
  | fault (f : Fault)

namespace Work

def readBytes : Nat → Cursor → List (Option UInt8) × Cursor
  | 0, c => ([], c)
  | n + 1, c =>
    let (b, c') := c.read
    let (bs, after) := readBytes n c'
    (b :: bs, after)

def place (s : Station) (read : List (Option UInt8) := []) : Answer :=
  .place s.cursor.pos (if s.tellsEnd then some s.cursor.atEnd else none) read

def askSpan (m : Span) (sink : SinkId) (c : Cursor) : SpanQuery → Work (SpanAnswer × Cursor)
  | .length => return (either m.length .number, c)
  | .isEmpty => return (.flag m.isEmpty, c)
  | .text => let (r, c') := m.text c; return (either r .text, c')
  | .bytes => let (r, c') := m.bytes c; return (either r .bytes, c')
  | .forward => do
    let b ← get
    match m.forward c (b.desk.sinks.content sink) with
    | (.error f, c') => return (.fault f, c')
    | (.ok (count, held), c') =>
      let sinks := (b.desk.sinks.clear sink).append sink held
      set { b with desk := { b.desk with sinks } }
      return (.copied count held, c')
  | .position => return (.number c.pos, c)
  | .describe => return (.text m.describe, c)
where
  either {α : Type} (r : Except Fault α) (answer : α → SpanAnswer) : SpanAnswer :=
    match r with
    | .ok a => answer a
    | .error f => .fault f

def askAll (m : Span) (sink : SinkId) (c : Cursor) :
    List SpanQuery → Work (List SpanAnswer × Cursor)
  | [] => return ([], c)
  | q :: rest => do
    let (a, c') ← askSpan m sink c q
    let (as, after) ← askAll m sink c' rest
    return (a :: as, after)

def extend (m : Span) : List (Nat × Nat) → Except Fault Span
  | [] => .ok m
  | (b, e) :: rest =>
    match Span.between b e with
    | .ok n => extend (m.upTo n) rest
    | .error f => .error f

def moveStation (name : String) (move : Cursor → List (Option UInt8) × Cursor) : Work Answer := do
  let s ← station name
  let (read, cursor) := move s.cursor
  setStation name { s with cursor }
  return place { s with cursor } read

/-- The sink is made only once the whole span is: a fault leaves the bench as it was. -/
def spanCommand (start stop : Nat) (extensions : List (Nat × Nat)) (name : Option String)
    (sinkName : String) (queries : List SpanQuery) : Work Answer := do
  match Span.between start stop >>= (extend · extensions) with
  | .error f => return .fault f
  | .ok m =>
    let id ← sink sinkName
    match name with
    | none =>
      let (answers, _) ← askAll m id { input := #[] } queries
      return .span m answers
    | some name =>
      let s ← station name
      let (answers, cursor) ← askAll m id s.cursor queries
      setStation name { s with cursor }
      return .span m answers

def evalCommand (p : Expr) (name : String) (grammarName context : Option String) : Work Answer := do
  let n ← p.build
  let g ← grammarName.mapM grammar
  let s ← station name
  let captures ← match context with
    | none => newContext
    | some key =>
      match (← get).contexts.lookup key with
      | some kept => pure kept
      | none => newContext
  let (report, cursor, captured) ← evaluate n.pattern g s.cursor captures
  setStation name { s with cursor }
  match context with
  | none => pure ()
  | some key => modify fun b => { b with contexts := Named.bind b.contexts key captured }
  return .report report

def perform : Command → Work Answer
  | .name name p => do
    bindPattern name (← p.build)
    return .done
  | .render p => do return .text (some (← p.build).pattern.render)
  | .describe p => do return .text (some (← p.build).pattern.describe)
  | .sameNode a b => do
    let x ← a.build
    let y ← b.build
    return .flag (x.same y)
  | .slot g name => do return .number (← slot g name)
  | .define g name p => do return .number (← define g name (← p.build))
  | .body g name => do return .text (((← grammar g).get? name).map Pattern.render)
  | .nameBody g rule name => do
    match ← body? g rule with
    | some n =>
      bindPattern name n
      return .flag true
    | none => return .flag false
  | .slotName g other rule => do
    let i ← slot other rule
    return .text ((← grammar g).name? i)
  | .compare g rule other otherRule => do
    let i ← slot g rule
    let j ← slot other otherRule
    return .comparison ((← grammar g).id == (← grammar other).id) (Ord.compare i j)
  | .survey name => do
    let g ← grammar name
    match g.check with
    | .ok _ => pure ()
    | .error u => notice (.undefined u.names)
    return .survey g.size g.isEmpty g.names g.check
  | .reset g => do
    resetGrammar g
    return .done
  | .station name s => do
    setStation name s
    return .done
  | .cloneStation name source => do
    setStation name (← station source)
    return .done
  | .seek name pos => moveStation name fun c => ([], c.seek pos)
  | .read name count => moveStation name (readBytes count)
  | .look name => do return place (← station name)
  | .sink name clear bytes => do
    let id ← sink name
    modify fun b =>
      let sinks := if clear then b.desk.sinks.clear id else b.desk.sinks
      { b with desk := { b.desk with sinks := sinks.append id bytes } }
    return .bytes ((← get).desk.sinks.content id)
  | .span start stop extensions name sinkName queries =>
    spanCommand start stop extensions name sinkName queries
  | .eval p name g context => evalCommand p name g context

end Work

structure Session where
  commands : List Command
  tracing : Bool := false
  capturing : Bool := true

def Session.run (s : Session) : Except Misuse (List (Answer × Array Entry)) := do
  let bench : Bench := { capturing := s.capturing, desk := { tracing := s.tracing } }
  let work : Work (List (Answer × Array Entry)) := s.commands.mapM fun command => do
    let answer ← Work.perform command
    return (answer, ← Work.takeLog)
  return (← work.run bench).1

end Peg
