import Peg.Eval.Step

/-! # Running patterns

The step of a pattern is put together from the steps of its parts, given what its rules
mean. A rule means the step of its body at that moment, for a limited number of calls
inside each other; a run that needs more of them, or more rounds of a loop, than the
limit allows has no result.
-/
namespace Peg

variable {κ : Type}

/-- The step of a pattern, given the step of each rule and the rounds of each loop. -/
def Pattern.step (σ : Setting κ) (rounds : Nat) (call : RuleRef → Step κ) : Pattern → Step κ
  | literal bytes => fun s => Step.literal σ.input s.pos bytes s
  | set members => Step.oneByte σ.input members.contains
  | cls c => Step.oneByte σ.input c.holds
  | any => Step.oneByte σ.input fun _ => true
  | seq a b => Step.seq (a.step σ rounds call) (b.step σ rounds call)
  | choice a b => Step.choice (a.step σ rounds call) (b.step σ rounds call)
  | not p => Step.not (p.step σ rounds call)
  | ahead p => Step.ahead (p.step σ rounds call)
  | exactly p n => Step.exactly (p.step σ rounds call) n
  | atLeast p n => Step.atLeast (p.step σ rounds call) rounds n
  | atMost p n => Step.atMost (p.step σ rounds call) n
  | rule r => call r
  | hook p h => Step.hook σ.input (σ.host.callback h) (p.step σ rounds call)
  | forward p sink => Step.forward σ.host σ.input sink (p.step σ rounds call)
  | capture p => Step.capture σ.host (p.step σ rounds call)

namespace Setting

/-- The step of a rule: that of its body, or a miss that says why there is none. -/
def call (σ : Setting κ) : Nat → RuleRef → Step κ
  | 0, _ => fun _ => none
  | limit + 1, r =>
    match σ.grammar with
    | none => Step.performing σ.host (.noticed (.outside r.name)) (Step.give .miss)
    | some g =>
      match g.resolve? r with
      | none => Step.performing σ.host (.noticed (.unresolved r.name)) (Step.give .miss)
      | some body => body.step σ limit (σ.call limit)

/-- Runs a pattern within a limit on nested rules and on the rounds of a loop. -/
def run (σ : Setting κ) (limit : Nat) (p : Pattern) : Step κ := p.step σ limit (σ.call limit)

/-- A limit that the input and the number of rules never reach unless a rule gets back
to itself without having moved, with ample room for callbacks that move the cursor. -/
def limit (σ : Setting κ) : Nat :=
  (σ.input.size + 2) * ((σ.grammar.map Grammar.size).getD 0 + 2) + (1 <<< 62)

def eval (σ : Setting κ) (p : Pattern) : Step κ := fun s =>
  Step.performing σ.host (.noticed (.evaluating s.pos)) (σ.run σ.limit p) s

end Setting

end Peg
