import Mathlib.Logic.Relation
import Peg.Eval.Store
import Peg.Proofs.Rewriting
import Peg.Proofs.Steps

/-! # Regrouping changes nothing

A sequence of three may be read as two and one or as one and two, and so may a choice. The
steps are the same either way: what is overwritten, put back or closed twice on the way
comes out as if it had been done once, also where callbacks move the cursor.
-/
namespace Peg

variable {κ : Type}

namespace Step

theorem seq_assoc (p q r : Step κ) : seq (seq p q) r = seq p (seq q r) := by
  simp only [seq, branch_branch, branch_give_hit, branch_give_miss]
  rfl

def choiceAt (start : Nat) (p q : Step κ) : Step κ :=
  branch p (fun _ => close start)
    (movedTo start (branch q (fun _ => close start) (movedTo start (give .miss))))

theorem choiceAt_assoc (start : Nat) (p q r : Step κ) :
    choiceAt start (choiceAt start p q) r = choiceAt start p (choiceAt start q r) := by
  simp only [choiceAt, branch_branch, branch_close, branch_movedTo, branch_give_miss,
    movedTo_movedTo]

theorem choice_assoc (p q r : Step κ) : choice (choice p q) r = choice p (choice q r) := by
  funext s
  have hleft : choice (choice p q) r s = choiceAt s.pos (choiceAt s.pos p q) r s := rfl
  have hright : choice p (choice q r) s = choiceAt s.pos p (choiceAt s.pos q r) s := rfl
  rw [hleft, hright, choiceAt_assoc]

end Step

namespace Pattern

inductive Rotates : Pattern → Pattern → Prop
  | seq (a b c : Pattern) : Rotates (seq (seq a b) c) (seq a (seq b c))
  | choice (a b c : Pattern) : Rotates (choice (choice a b) c) (choice a (choice b c))

/-- The patterns differ in the grouping of sequences and choices, anywhere and any number of
times, and in nothing else. -/
def Regroups : Pattern → Pattern → Prop := Relation.EqvGen (Rewrites Rotates)

variable {p q : Pattern} {σ : Setting κ} {n : Nat} {call : RuleRef → Step κ}

/-- Grouped either way, three patterns are one and the same step. -/
theorem Rotates.step_eq (h : Rotates p q) : p.step σ n call = q.step σ n call := by
  cases h with
  | seq a b c => exact Step.seq_assoc _ _ _
  | choice a b c => exact Step.choice_assoc _ _ _

theorem Regroups.step_eq (h : Regroups p q) : p.step σ n call = q.step σ n call := by
  induction h with
  | rel p q h => exact h.step_eq fun _ _ => Rotates.step_eq
  | refl p => rfl
  | symm p q _ ih => exact ih.symm
  | trans p q r _ _ ih ih' => exact ih.trans ih'

end Pattern

namespace Setting

variable {σ : Setting κ} {g' : Option Grammar}

theorem call_regrouped (h : Option.Rel (Grammar.Bodywise Pattern.Regroups) σ.grammar g')
    (n : Nat) : (σ.under g').call n = σ.call n := by
  induction n with
  | zero => rfl
  | succ n ih =>
    funext r
    rcases rule_cases h r with ⟨body, body', hbody, _, hcall⟩ | hmiss
    · obtain ⟨hfirst, hsecond⟩ := hcall n
      rw [hfirst, hsecond, run, run, ih, step_under, hbody.step_eq]
    · exact hmiss n

/-- Regrouped patterns under regrouped rules run alike within every limit. -/
theorem run_regrouped (h : Option.Rel (Grammar.Bodywise Pattern.Regroups) σ.grammar g')
    {p p' : Pattern} (hp : p.Regroups p') (n : Nat) : (σ.under g').run n p' = σ.run n p := by
  rw [run, run, call_regrouped h, step_under, hp.step_eq]

/-- However a pattern and the bodies of the rules are grouped, every evaluation comes out the
same within every limit, whatever the callbacks do: as the same match, miss or stop, with the
cursor and the context the same, and after the same effects and calls in the same order. -/
theorem run_eq_of_regroups (h : Option.Rel (Grammar.Bodywise Pattern.Regroups) σ.grammar g')
    {p p' : Pattern} (hp : p.Regroups p') (n : Nat) (s : State κ) (record : List Event) :
    (σ.under g').run n p' s = σ.run n p s ∧
      (σ.under g').recording.run n p' ⟨s.pos, s.ctx, record⟩ =
        σ.recording.run n p ⟨s.pos, s.ctx, record⟩ := by
  refine ⟨by rw [run_regrouped h hp], ?_⟩
  rw [recording_under, run_regrouped (σ := σ.recording) h hp]

/-- A callback goes back to the start of the input, so that a choice is closed before its own
start; the choice stands in a rule that calls itself, and a capture has been made on the way. -/
theorem seeking_regroups :
    let tail : Pattern := .rule ⟨0, 0, "tail"⟩
    let more : Pattern := .seq (.seq (.capture .any) tail) .any
    let more' : Pattern := .seq (.capture .any) (.seq tail .any)
    let body : Pattern := .choice (.choice (.literal [98]) more) (.hook .any 1)
    let body' : Pattern := .choice (.literal [98]) (.choice more' (.hook .any 1))
    let σ : Setting Store :=
      { host := { Store.host with callback := fun _ _ _ ctx => { pos := 0, ctx } }
        input := #[97, 97, 98]
        grammar := some { id := 0, slots := #[⟨"tail", some body⟩] } }
    let g' : Option Grammar := some { id := 0, slots := #[⟨"tail", some body'⟩] }
    Option.Rel (Grammar.Bodywise Pattern.Regroups) σ.grammar g' ∧
      Pattern.Regroups (.seq (.seq .any .empty) tail) (.seq .any (.seq .empty tail)) ∧
      ((σ.under g').recording.run 3 (.seq .any (.seq .empty tail)) ⟨0, {}, []⟩).map
          (fun r => (r.1, r.2.pos, r.2.ctx.1.captures, r.2.ctx.2)) =
        some (.stop (.fault (.inverted 1 0)), 0, #[⟨1, 2⟩],
          [.performed (.captured ⟨1, 2⟩), .called 1 2 (some ⟨1, 2⟩) none]) := by
  intro tail more more' body body' σ g'
  have hbody : body.Regroups body' :=
    .trans _ _ _ (.rel _ _ (.part (.choice _ _ _)))
      (.rel _ _ (.choice (.refl _) (.choice (.part (.seq _ _ _)) (.refl _))))
  have hg : Option.Rel (Grammar.Bodywise Pattern.Regroups) σ.grammar g' :=
    .some (.of_slots rfl (.cons (.some hbody) .nil))
  have hp : Pattern.Regroups (.seq (.seq .any .empty) tail) (.seq .any (.seq .empty tail)) :=
    .rel _ _ (.part (.seq _ _ _))
  refine ⟨hg, hp, ?_⟩
  rw [(run_eq_of_regroups hg hp 3 ⟨0, {}⟩ []).2]
  decide +kernel

end Setting

end Peg
