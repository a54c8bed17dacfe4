import Mathlib.Data.Finset.Card
import Mathlib.Data.Finset.Range
import Mathlib.Logic.Relation
import Peg.Proofs.Reach

/-! # What comes before anything is consumed

A pattern is nullable if it may match without moving, and exposes the references that it
may come to before it has moved. A rule reaches another on the left if its body exposes
it. Where no rule gets back to itself that way, each has a rank that falls on the way.
-/
namespace Peg

namespace Pattern

inductive Nullable (rules : Rules) : Pattern → Prop
  | literal : Nullable rules (literal [])
  | seq {a b : Pattern} (ha : Nullable rules a) (hb : Nullable rules b) : Nullable rules (seq a b)
  | choiceLeft {a : Pattern} (b : Pattern) (ha : Nullable rules a) : Nullable rules (choice a b)
  | choiceRight (a : Pattern) {b : Pattern} (hb : Nullable rules b) : Nullable rules (choice a b)
  | not (p : Pattern) : Nullable rules (not p)
  | ahead (p : Pattern) : Nullable rules (ahead p)
  | exactlyZero (p : Pattern) : Nullable rules (exactly p 0)
  | exactly {p : Pattern} (n : Nat) (hp : Nullable rules p) : Nullable rules (exactly p n)
  | atLeastZero (p : Pattern) : Nullable rules (atLeast p 0)
  | atLeast {p : Pattern} (n : Nat) (hp : Nullable rules p) : Nullable rules (atLeast p n)
  | atMost (p : Pattern) (n : Nat) : Nullable rules (atMost p n)
  | body {ref : RuleRef} {p : Pattern} (h : rules ref = some p) (hp : Nullable rules p) :
      Nullable rules (rule ref)
  | hook {p : Pattern} (id : HookId) (hp : Nullable rules p) : Nullable rules (hook p id)
  | forward {p : Pattern} (sink : SinkId) (hp : Nullable rules p) : Nullable rules (forward p sink)
  | capture {p : Pattern} (hp : Nullable rules p) : Nullable rules (capture p)

/-- The pattern may come to the reference before it has consumed anything. The right side
of a sequence counts only behind a nullable left one. -/
inductive Exposes (rules : Rules) : Pattern → RuleRef → Prop
  | rule (ref : RuleRef) : Exposes rules (rule ref) ref
  | seqLeft {a : Pattern} (b : Pattern) {ref : RuleRef} (h : Exposes rules a ref) :
      Exposes rules (seq a b) ref
  | seqRight {a b : Pattern} {ref : RuleRef} (ha : Nullable rules a) (h : Exposes rules b ref) :
      Exposes rules (seq a b) ref
  | choiceLeft {a : Pattern} (b : Pattern) {ref : RuleRef} (h : Exposes rules a ref) :
      Exposes rules (choice a b) ref
  | choiceRight (a : Pattern) {b : Pattern} {ref : RuleRef} (h : Exposes rules b ref) :
      Exposes rules (choice a b) ref
  | not {p : Pattern} {ref : RuleRef} (h : Exposes rules p ref) : Exposes rules (not p) ref
  | ahead {p : Pattern} {ref : RuleRef} (h : Exposes rules p ref) : Exposes rules (ahead p) ref
  | exactly {p : Pattern} (n : Nat) {ref : RuleRef} (h : Exposes rules p ref) :
      Exposes rules (exactly p n) ref
  | atLeast {p : Pattern} (n : Nat) {ref : RuleRef} (h : Exposes rules p ref) :
      Exposes rules (atLeast p n) ref
  | atMost {p : Pattern} (n : Nat) {ref : RuleRef} (h : Exposes rules p ref) :
      Exposes rules (atMost p n) ref
  | hook {p : Pattern} (id : HookId) {ref : RuleRef} (h : Exposes rules p ref) :
      Exposes rules (hook p id) ref
  | forward {p : Pattern} (sink : SinkId) {ref : RuleRef} (h : Exposes rules p ref) :
      Exposes rules (forward p sink) ref
  | capture {p : Pattern} {ref : RuleRef} (h : Exposes rules p ref) :
      Exposes rules (capture p) ref

/-- What a pattern exposes can be met below it. -/
theorem Exposes.reaches {rules : Rules} {p : Pattern} {ref : RuleRef}
    (h : Exposes rules p ref) : Reaches rules p (.rule ref) := by
  induction h with
  | rule ref => exact .refl _
  | seqLeft b _ ih => exact .part (.seqLeft _ b) ih
  | seqRight _ _ ih => exact .part (.seqRight _ _) ih
  | choiceLeft b _ ih => exact .part (.choiceLeft _ b) ih
  | choiceRight a _ ih => exact .part (.choiceRight a _) ih
  | not _ ih => exact .part (.not _) ih
  | ahead _ ih => exact .part (.ahead _) ih
  | exactly n _ ih => exact .part (.exactly _ n) ih
  | atLeast n _ ih => exact .part (.atLeast _ n) ih
  | atMost n _ ih => exact .part (.atMost _ n) ih
  | hook id _ ih => exact .part (.hook _ id) ih
  | forward sink _ ih => exact .part (.forward _ sink) ih
  | capture _ ih => exact .part (.capture _) ih

end Pattern

namespace Grammar

variable (g : Grammar)

def LeftReaches (i j : Nat) : Prop :=
  ∃ body ref, g.bodyAt? i = some body ∧ body.Exposes g.resolve? ref ∧
    ref.grammar = g.id ∧ ref.slot = j

open Classical in
/-- The number of slots that a slot reaches on the left, through any number of others. -/
noncomputable def rank (i : Nat) : Nat :=
  ((Finset.range g.size).filter fun j => Relation.TransGen g.LeftReaches i j).card

variable {g}

theorem rank_le (i : Nat) : g.rank i ≤ g.size := by
  classical
  simpa [rank] using Finset.card_filter_le (Finset.range g.size)
    fun j => Relation.TransGen g.LeftReaches i j

theorem lt_size_of_bodyAt? {i : Nat} {body : Pattern} (h : g.bodyAt? i = some body) :
    i < g.size := by
  obtain ⟨slot, hslot, _⟩ := Option.bind_eq_some_iff.mp h
  exact (Array.getElem?_eq_some_iff.mp hslot).1

/-- The rank falls along every step to a slot that does not reach itself. -/
theorem rank_lt_rank {i j : Nat} (h : g.LeftReaches i j) (hj : j < g.size)
    (hcycle : ¬ Relation.TransGen g.LeftReaches j j) : g.rank j < g.rank i := by
  classical
  refine Finset.card_lt_card (Finset.ssubset_iff_subset_ne.mpr ⟨?_, fun heq => ?_⟩)
  · intro k hk
    simp only [Finset.mem_filter] at hk ⊢
    exact ⟨hk.1, .head h hk.2⟩
  · have hmem : j ∈ (Finset.range g.size).filter fun k => Relation.TransGen g.LeftReaches i k :=
      Finset.mem_filter.mpr ⟨Finset.mem_range.mpr hj, .single h⟩
    rw [← heq] at hmem
    exact hcycle (Finset.mem_filter.mp hmem).2

/-- Where bodies expose lower slots only, no slot comes back to itself. -/
theorem acyclic_of_lt (h : ∀ i j, g.LeftReaches i j → j < i) (i : Nat) :
    ¬ Relation.TransGen g.LeftReaches i i := by
  have hlt : ∀ j, Relation.TransGen g.LeftReaches i j → j < i := by
    intro j hj
    induction hj with
    | single hj => exact h _ _ hj
    | tail _ hj ih => exact (h _ _ hj).trans ih
  exact fun hi => Nat.lt_irrefl i (hlt i hi)

end Grammar

end Peg
