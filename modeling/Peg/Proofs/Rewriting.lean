import Mathlib.Data.List.Forall2
import Peg.Proofs.Recording

/-! # Rewriting patterns and grammars

A pattern is rewritten by replacing some of its parts, a grammar by rewriting the bodies
of its rules. The step of a rewritten pattern is put together in the same way as before,
so it is enough to know what the replaced parts do.
-/
namespace Peg

variable {κ : Type}

/-- Some parts of the first pattern are replaced by patterns that they are related to. -/
inductive Pattern.Rewrites (R : Pattern → Pattern → Prop) : Pattern → Pattern → Prop
  | part {p q : Pattern} (h : R p q) : Rewrites R p q
  | refl (p : Pattern) : Rewrites R p p
  | seq {a a' b b' : Pattern} (ha : Rewrites R a a') (hb : Rewrites R b b') :
      Rewrites R (.seq a b) (.seq a' b')
  | choice {a a' b b' : Pattern} (ha : Rewrites R a a') (hb : Rewrites R b b') :
      Rewrites R (.choice a b) (.choice a' b')
  | not {p p' : Pattern} (hp : Rewrites R p p') : Rewrites R (.not p) (.not p')
  | ahead {p p' : Pattern} (hp : Rewrites R p p') : Rewrites R (.ahead p) (.ahead p')
  | exactly {p p' : Pattern} (hp : Rewrites R p p') (n : Nat) :
      Rewrites R (.exactly p n) (.exactly p' n)
  | atLeast {p p' : Pattern} (hp : Rewrites R p p') (n : Nat) :
      Rewrites R (.atLeast p n) (.atLeast p' n)
  | atMost {p p' : Pattern} (hp : Rewrites R p p') (n : Nat) :
      Rewrites R (.atMost p n) (.atMost p' n)
  | hook {p p' : Pattern} (hp : Rewrites R p p') (id : HookId) :
      Rewrites R (.hook p id) (.hook p' id)
  | forward {p p' : Pattern} (hp : Rewrites R p p') (sink : SinkId) :
      Rewrites R (.forward p sink) (.forward p' sink)
  | capture {p p' : Pattern} (hp : Rewrites R p p') : Rewrites R (.capture p) (.capture p')

namespace Pattern.Rewrites

variable {R : Pattern → Pattern → Prop} {p q : Pattern} {σ : Setting κ} {n m : Nat}
  {call call' : RuleRef → Step κ}

theorem flip (h : Rewrites R p q) : Rewrites (fun a b => R b a) q p := by
  induction h with
  | part h => exact .part h
  | refl p => exact .refl p
  | seq _ _ iha ihb => exact .seq iha ihb
  | choice _ _ iha ihb => exact .choice iha ihb
  | not _ ih => exact .not ih
  | ahead _ ih => exact .ahead ih
  | exactly _ n ih => exact .exactly ih n
  | atLeast _ n ih => exact .atLeast ih n
  | atMost _ n ih => exact .atMost ih n
  | hook _ id ih => exact .hook ih id
  | forward _ sink ih => exact .forward ih sink
  | capture _ ih => exact .capture ih

theorem step_eq (h : Rewrites R p q)
    (hR : ∀ a b, R a b → a.step σ n call = b.step σ n call) : p.step σ n call = q.step σ n call := by
  induction h with
  | part h => exact hR _ _ h
  | refl p => rfl
  | seq _ _ iha ihb | choice _ _ iha ihb => simp only [step, iha, ihb]
  | not _ ih | ahead _ ih | exactly _ _ ih | atLeast _ _ ih | atMost _ _ ih | hook _ _ ih
  | forward _ _ ih | capture _ ih => simp only [step, ih]

theorem step_below (h : Rewrites R p q) (hnm : n ≤ m) (hcall : ∀ r, (call r).Below (call' r))
    (hR : ∀ a b, R a b → (a.step σ n call).Below (b.step σ m call')) :
    (p.step σ n call).Below (q.step σ m call') := by
  induction h with
  | part h => exact hR _ _ h
  | refl p => exact Pattern.step_below σ hnm hcall p
  | seq _ _ iha ihb => exact iha.seq ihb
  | choice _ _ iha ihb => exact iha.choice ihb
  | not _ ih => exact ih.not
  | ahead _ ih => exact ih.ahead
  | exactly _ k ih => exact ih.exactly k
  | atLeast _ k ih => exact ih.atLeast hnm k
  | atMost _ k ih => exact ih.atMost k
  | hook _ id ih => exact ih.hook _ _
  | forward _ sink ih => exact ih.forward _ _ sink
  | capture _ ih => exact ih.capture _

end Pattern.Rewrites

/-- The second grammar has the identity of the first, and where that has a body it has a
related one. -/
structure Grammar.Bodywise (R : Pattern → Pattern → Prop) (g g' : Grammar) : Prop where
  id : g'.id = g.id
  body : ∀ i, Option.Rel R (g.bodyAt? i) (g'.bodyAt? i)

theorem Grammar.Bodywise.of_slots {R : Pattern → Pattern → Prop} {g g' : Grammar}
    (hid : g'.id = g.id)
    (h : List.Forall₂ (fun slot slot' : Slot => Option.Rel R slot.body slot'.body)
      g.slots.toList g'.slots.toList) : g.Bodywise R g' := by
  refine ⟨hid, fun i => ?_⟩
  simp only [bodyAt?, ← Array.getElem?_toList]
  generalize g.slots.toList = slots, g'.slots.toList = slots' at h
  induction h generalizing i with
  | nil => exact .none
  | cons hbody _ ih =>
    cases i with
    | zero => exact hbody
    | succ i => exact ih i

theorem Grammar.Bodywise.resolve? {R : Pattern → Pattern → Prop} {g g' : Grammar}
    (h : g.Bodywise R g') (r : RuleRef) : Option.Rel R (g.resolve? r) (g'.resolve? r) := by
  unfold Grammar.resolve?
  rw [h.id]
  split
  · exact h.body r.slot
  · exact .none

def Grammar.mapBodies (f : Pattern → Pattern) (g : Grammar) : Grammar :=
  { g with slots := g.slots.map fun slot => { slot with body := slot.body.map f } }

theorem Grammar.mapBodies_mapBodies (f f' : Pattern → Pattern) (g : Grammar) :
    (g.mapBodies f).mapBodies f' = g.mapBodies (f' ∘ f) := by
  simp [mapBodies, Function.comp_def]

theorem Grammar.resolve?_mapBodies (f : Pattern → Pattern) (g : Grammar) (r : RuleRef) :
    (g.mapBodies f).resolve? r = (g.resolve? r).map f := by
  have hbody : (g.mapBodies f).bodyAt? r.slot = (g.bodyAt? r.slot).map f := by
    simp only [bodyAt?, mapBodies, Array.getElem?_map]
    cases g.slots[r.slot]? <;> rfl
  have hid : (g.mapBodies f).id = g.id := rfl
  simp only [resolve?, hbody, hid]
  split <;> rfl

namespace Setting

variable {σ : Setting κ} {R : Pattern → Pattern → Prop} {g' : Option Grammar}

def under (σ : Setting κ) (g : Option Grammar) : Setting κ := { σ with grammar := g }

@[simp] theorem under_host (σ : Setting κ) (g : Option Grammar) : (σ.under g).host = σ.host := rfl

@[simp] theorem under_input (σ : Setting κ) (g : Option Grammar) :
    (σ.under g).input = σ.input := rfl

@[simp] theorem under_grammar (σ : Setting κ) (g : Option Grammar) : (σ.under g).grammar = g := rfl

theorem recording_under (σ : Setting κ) (g : Option Grammar) :
    (σ.under g).recording = σ.recording.under g := rfl

theorem step_under (σ : Setting κ) (g : Option Grammar) (n : Nat) (call : RuleRef → Step κ)
    (p : Pattern) : p.step (σ.under g) n call = p.step σ n call := by
  induction p with
  | literal | set | cls | any | rule => rfl
  | seq a b iha ihb | choice a b iha ihb => simp only [Pattern.step, iha, ihb]
  | not p ih | ahead p ih | exactly p _ ih | atLeast p _ ih | atMost p _ ih =>
    simp only [Pattern.step, ih]
  | hook p _ ih | forward p _ ih | capture p ih =>
    simp only [Pattern.step, ih, under_host, under_input]

/-- Rules with mapped bodies stand for the mapped bodies. -/
theorem rules_mapBodies {κ' : Type} {σ' : Setting κ'} {φ : Pattern → Pattern}
    (h : σ'.grammar = σ.grammar.map (Grammar.mapBodies φ)) (r : RuleRef) :
    σ'.rules r = (σ.rules r).map φ := by
  simp only [rules, h]
  cases σ.grammar with
  | none => rfl
  | some g => exact g.resolve?_mapBodies φ r

/-- Rules with related bodies give each reference a related body, or none on both sides. -/
theorem rel_rules (h : Option.Rel (Grammar.Bodywise R) σ.grammar g') (r : RuleRef) :
    Option.Rel R (σ.rules r) ((σ.under g').rules r) := by
  simp only [rules, under_grammar]
  generalize σ.grammar = g at h
  cases h with
  | none => exact .none
  | some h => exact h.resolve? r

theorem absence_under (h : Option.Rel (Grammar.Bodywise R) σ.grammar g') (r : RuleRef) :
    (σ.under g').absence r = σ.absence r := by
  simp only [absence, under_grammar]
  generalize σ.grammar = g at h
  cases h <;> rfl

/-- A rule of rewritten rules either has a body on both sides or is missed in the same way
on both. -/
theorem rule_cases (h : Option.Rel (Grammar.Bodywise R) σ.grammar g') (r : RuleRef) :
    (∃ body body', R body body' ∧ σ.rules r = some body ∧
      ∀ n, σ.call (n + 1) r = σ.run n body ∧ (σ.under g').call (n + 1) r = (σ.under g').run n body') ∨
      ∀ n, (σ.under g').call (n + 1) r = σ.call (n + 1) r := by
  have hrel := rel_rules h r
  generalize hb : σ.rules r = b at hrel
  generalize hb' : (σ.under g').rules r = b' at hrel
  cases hrel with
  | none =>
    refine .inr fun n => ?_
    have hmiss := (σ.under g').run_rule_none hb' n
    rw [absence_under h] at hmiss
    exact hmiss.trans (σ.run_rule_none hb n).symm
  | some hR =>
    exact .inl ⟨_, _, hR, rfl, fun n =>
      ⟨σ.run_rule_body hb n, (σ.under g').run_rule_body hb' n⟩⟩

end Setting

end Peg
