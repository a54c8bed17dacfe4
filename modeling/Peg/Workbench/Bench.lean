import Peg.Workbench.Node
import Peg.Workbench.Script

/-! # The workbench

Named patterns, grammars, sinks, cursors and contexts, with all that is handed out to
them in turn. Grammars and sinks come into being when they are first mentioned.
-/
namespace Peg

abbrev Named (α : Type) := List (String × α)

def Named.bind {α : Type} (table : Named α) (name : String) (a : α) : Named α :=
  (name, a) :: table.filter fun entry => entry.1 ≠ name

/-- A cursor on the workbench; only some kinds of input can tell their end. -/
structure Station where
  cursor : Cursor
  tellsEnd : Bool := true
  deriving Repr

structure Bench where
  patterns : Named Node := []
  grammars : Named Grammar := []
  /-- The nodes of the rule bodies, by grammar and slot. -/
  bodies : List ((GrammarId × Nat) × Node) := []
  sinkNames : Named SinkId := []
  stations : Named Station := []
  contexts : Named (Option (Array Span)) := []
  scripts : Array (List Action) := #[]
  desk : Desk := {}
  capturing : Bool := true
  identities : IdentitySupply := {}
  nextLabel : Nat := 0
  nextSink : SinkId := 0
  deriving Inhabited

inductive Misuse
  | noPattern (name : String)
  | noCursor (name : String)
  deriving DecidableEq, Repr

def Misuse.message : Misuse → String
  | .noPattern name => "no pattern is called " ++ name
  | .noCursor name => "no cursor is called " ++ name

abbrev Work := StateT Bench (Except Misuse)

namespace Work

def label : Work Nat := modifyGet fun b => (b.nextLabel, { b with nextLabel := b.nextLabel + 1 })

def node (p : Pattern) : Work Node := do return { pattern := p, label := ← label }

def pattern (name : String) : Work Node := do
  match (← get).patterns.lookup name with
  | some n => return n
  | none => throw (.noPattern name)

def bindPattern (name : String) (n : Node) : Work Unit :=
  modify fun b => { b with patterns := Named.bind b.patterns name n }

def grammar (name : String) : Work Grammar := do
  let b ← get
  match b.grammars.lookup name with
  | some g => return g
  | none =>
    let (g, identities) := b.identities.fresh
    set { b with identities, grammars := Named.bind b.grammars name g }
    return g

def setGrammar (name : String) (g : Grammar) : Work Unit :=
  modify fun b => { b with grammars := Named.bind b.grammars name g }

def resetGrammar (name : String) : Work Unit :=
  modify fun b =>
    let (g, identities) := b.identities.fresh
    { b with identities, grammars := Named.bind b.grammars name g }

def privateSink : Work SinkId :=
  modifyGet fun b => (b.nextSink, { b with nextSink := b.nextSink + 1 })

def sink (name : String) : Work SinkId := do
  match (← get).sinkNames.lookup name with
  | some id => return id
  | none =>
    let id ← privateSink
    modify fun b => { b with sinkNames := Named.bind b.sinkNames name id }
    return id

def script (actions : List Action) : Work HookId :=
  modifyGet fun b =>
    (b.scripts.size,
      { b with
        scripts := b.scripts.push actions
        desk := { b.desk with calls := b.desk.calls.push 0 } })

def notice (n : Notice) : Work Unit := modify fun b => { b with desk := b.desk.notice n }

def slot (grammarName name : String) : Work Nat := do
  let (i, g) := (← grammar grammarName).slot name
  setGrammar grammarName g
  return i

def define (grammarName name : String) (body : Node) : Work Nat := do
  let old ← grammar grammarName
  let (i, g) := old.define name body.pattern
  notice (.defined name body.pattern (old.get? name).isSome)
  setGrammar grammarName g
  modify fun b => { b with bodies := ((g.id, i), body) :: b.bodies }
  return i

def body? (grammarName name : String) : Work (Option Node) := do
  let g ← grammar grammarName
  let b ← get
  return (g.find? name).bind fun i => b.bodies.lookup (g.id, i)

def station (name : String) : Work Station := do
  match (← get).stations.lookup name with
  | some s => return s
  | none => throw (.noCursor name)

def setStation (name : String) (s : Station) : Work Unit :=
  modify fun b => { b with stations := Named.bind b.stations name s }

def takeLog : Work (Array Entry) :=
  modifyGet fun b => (b.desk.log, { b with desk := { b.desk with log := #[] } })

end Work

end Peg
