import Peg.Eval.Run
import Peg.Workbench.Expr

/-! # Evaluations on the workbench

An evaluation on the workbench is reported by its end together with all that it left
in the context and in the named sinks, also when it was broken off.
-/
namespace Peg

inductive Ending
  | settled (m : Option Span) (pos : Nat) (text : Option String)
  | failed (e : HookError)
  | broken (f : Fault)
  | outOfRounds
  deriving DecidableEq, Repr

structure RunReport where
  ending : Ending
  captures : List (Span × Option String)
  sinks : List (String × Array UInt8)
  deriving Repr

namespace Ending

def ofMatch (m : Span) (c : Cursor) : Ending :=
  match m.text? c with
  | .ok text => .settled (some m) c.pos text
  | .error f => .broken f

def ofVerdict (v : Verdict) (c : Cursor) : Ending :=
  match v with
  | .hit m => ofMatch m c
  | .miss => .settled none c.pos none
  | .stop (.hook e) => .failed e
  | .stop (.fault f) => .broken f

end Ending

namespace Work

def sinkContents : Work (List (String × Array UInt8)) := do
  let b ← get
  return b.sinkNames.map fun entry => (entry.1, b.desk.sinks.content entry.2)

/-- Evaluates a pattern at a cursor with the given captures as its context. The
cursor and the captures afterwards come with the report. -/
def evaluate (p : Pattern) (grammar : Option Grammar) (c : Cursor)
    (captures : Option (Array Span)) : Work (RunReport × Cursor × Option (Array Span)) := do
  let b ← get
  let desk := { b.desk with captures }
  set { b with desk := {} }
  let σ : Setting Desk := { host := Desk.host b.scripts, input := c.input, grammar }
  match σ.eval p ⟨c.pos, desk⟩ with
  | none =>
    set { b with desk }
    return (⟨.outOfRounds, [], []⟩, c, captures)
  | some (v, s) =>
    let after := c.seek s.pos
    let captured := s.ctx.captures
    set { b with desk := { s.ctx with captures := none } }
    let report : RunReport :=
      { ending := Ending.ofVerdict v after
        captures := ((captured.getD #[]).toList).map fun m => (m, (m.text? after).toOption.join)
        sinks := ← sinkContents }
    return (report, after, captured)

def newContext : Work (Option (Array Span)) := do
  return if (← get).capturing then some #[] else none

def emptySinks : Work Unit := modify fun b => { b with desk := { b.desk with sinks := {} } }

end Work

end Peg
