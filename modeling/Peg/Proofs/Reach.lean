import Peg.Eval.Limit

/-! # What an evaluation can get to

A pattern leads to its parts and a reference to the body of its rule. What holds of a
run is shown by induction on the limit and the pattern together, in the order in which
the evaluator descends.
-/
namespace Peg

variable {κ : Type}

abbrev Rules := RuleRef → Option Pattern

/-- The body that a reference stands for during an evaluation, if it has one. -/
def Setting.rules (σ : Setting κ) : Rules := fun r => σ.grammar.bind (·.resolve? r)

namespace Pattern

inductive Part : Pattern → Pattern → Prop
  | seqLeft (a b : Pattern) : Part (seq a b) a
  | seqRight (a b : Pattern) : Part (seq a b) b
  | choiceLeft (a b : Pattern) : Part (choice a b) a
  | choiceRight (a b : Pattern) : Part (choice a b) b
  | not (p : Pattern) : Part (not p) p
  | ahead (p : Pattern) : Part (ahead p) p
  | exactly (p : Pattern) (n : Nat) : Part (exactly p n) p
  | atLeast (p : Pattern) (n : Nat) : Part (atLeast p n) p
  | atMost (p : Pattern) (n : Nat) : Part (atMost p n) p
  | hook (p : Pattern) (id : HookId) : Part (hook p id) p
  | forward (p : Pattern) (sink : SinkId) : Part (forward p sink) p
  | capture (p : Pattern) : Part (capture p) p

inductive Reaches (rules : Rules) : Pattern → Pattern → Prop
  | refl (p : Pattern) : Reaches rules p p
  | part {p q r : Pattern} (hp : Part p q) (hr : Reaches rules q r) : Reaches rules p r
  | body {ref : RuleRef} {p r : Pattern} (hp : rules ref = some p) (hr : Reaches rules p r) :
      Reaches rules (rule ref) r

theorem Reaches.trans {rules : Rules} {p q r : Pattern} (h : Reaches rules p q)
    (hr : Reaches rules q r) : Reaches rules p r := by
  induction h with
  | refl => exact hr
  | part hp _ ih => exact .part hp (ih hr)
  | body hp _ ih => exact .body hp (ih hr)

theorem Reaches.toPart {rules : Rules} {p q r : Pattern} (h : Reaches rules p q)
    (hr : Part q r) : Reaches rules p r := h.trans (.part hr (.refl r))

theorem Reaches.toBody {rules : Rules} {p q : Pattern} {ref : RuleRef}
    (h : Reaches rules p (rule ref)) (hq : rules ref = some q) : Reaches rules p q :=
  h.trans (.body hq (.refl q))

/-- What the parts of a pattern have from it and the bodies of all rules have, everything has
that is met below a pattern that has it. -/
theorem Reaches.keeps {rules : Rules} {P : Pattern → Prop} {p q : Pattern}
    (h : Reaches rules p q) (hpart : ∀ {p q}, Part p q → P p → P q)
    (hrules : ∀ ref body, rules ref = some body → P body) (hp : P p) : P q := by
  induction h with
  | refl => exact hp
  | part hpq _ ih => exact ih (hpart hpq hp)
  | body href _ ih => exact ih (hrules _ _ href)

def HookFree (rules : Rules) (p : Pattern) : Prop := ∀ q id, ¬ Reaches rules p (hook q id)

theorem HookFree.reached {rules : Rules} {p q : Pattern} (h : HookFree rules p)
    (hq : Reaches rules p q) : HookFree rules q := fun r id hr => h r id (hq.trans hr)

theorem HookFree.part {rules : Rules} {p q : Pattern} (h : HookFree rules p) (hp : Part p q) :
    HookFree rules q := fun r id hr => h r id (.part hp hr)

theorem HookFree.body {rules : Rules} {ref : RuleRef} {p : Pattern}
    (h : HookFree rules (rule ref)) (hp : rules ref = some p) : HookFree rules p :=
  fun r id hr => h r id (.body hp hr)

theorem HookFree.of_parts {rules : Rules} {p : Pattern} (hhook : ∀ q id, p ≠ hook q id)
    (hrule : ∀ ref, p ≠ rule ref) (h : ∀ q, Part p q → HookFree rules q) : HookFree rules p := by
  intro q id hq
  cases hq with
  | refl => exact hhook q id rfl
  | part hp hr => exact h _ hp q id hr
  | body => exact hrule _ rfl

theorem HookFree.exactly {rules : Rules} {p : Pattern} (h : HookFree rules p) (n : Nat) :
    HookFree rules (exactly p n) :=
  .of_parts (by simp) (by simp) fun q hq => by cases hq; exact h

theorem HookFree.atLeast {rules : Rules} {p : Pattern} (h : HookFree rules p) (n : Nat) :
    HookFree rules (atLeast p n) :=
  .of_parts (by simp) (by simp) fun q hq => by cases hq; exact h

theorem HookFree.atMost {rules : Rules} {p : Pattern} (h : HookFree rules p) (n : Nat) :
    HookFree rules (atMost p n) :=
  .of_parts (by simp) (by simp) fun q hq => by cases hq; exact h

def hooks : Pattern → List HookId
  | seq a b | choice a b => a.hooks ++ b.hooks
  | not p | ahead p | exactly p _ | atLeast p _ | atMost p _ | forward p _ | capture p => p.hooks
  | hook p id => id :: p.hooks
  | literal _ | set _ | cls _ | any | rule _ => []

theorem Part.hooks_subset {p q : Pattern} (h : Part p q) : q.hooks ⊆ p.hooks := by
  cases h <;> simp [hooks]

theorem HookFree.of_hooks {rules : Rules} {p : Pattern}
    (hrules : ∀ ref body, rules ref = some body → body.hooks = []) (hp : p.hooks = []) :
    HookFree rules p := by
  intro q id hq
  have hnil := hq.keeps (P := fun r => r.hooks = [])
    (fun hpart hp => List.subset_nil.mp (hp ▸ hpart.hooks_subset)) hrules hp
  simp [hooks] at hnil

def refs : Pattern → List RuleRef
  | seq a b | choice a b => a.refs ++ b.refs
  | not p | ahead p | exactly p _ | atLeast p _ | atMost p _ | hook p _ | forward p _
  | capture p => p.refs
  | rule ref => [ref]
  | literal _ | set _ | cls _ | any => []

theorem Part.refs_subset {p q : Pattern} (h : Part p q) : q.refs ⊆ p.refs := by
  cases h <;> simp [refs]

/-- What is named below a pattern is named in it or in the body of a rule. -/
theorem Reaches.refs_subset {rules : Rules} {p q : Pattern} {named : List RuleRef}
    (h : Reaches rules p q) (hrules : ∀ ref body, rules ref = some body → body.refs ⊆ named)
    (hp : p.refs ⊆ named) : q.refs ⊆ named :=
  h.keeps (P := fun r => r.refs ⊆ named) (fun hpart hp _ hr => hp (hpart.refs_subset hr)) hrules hp

theorem Reaches.of_mem_refs {rules : Rules} {p : Pattern} {ref : RuleRef} (h : ref ∈ p.refs) :
    Reaches rules p (rule ref) := by
  induction p with
  | seq a b iha ihb | choice a b iha ihb =>
    obtain h | h := List.mem_append.mp h
    · exact .part (by constructor) (iha h)
    · exact .part (by constructor) (ihb h)
  | not p ih | ahead p ih | exactly p n ih | atLeast p n ih | atMost p n ih | hook p id ih
  | forward p sink ih | capture p ih => exact .part (by constructor) (ih h)
  | rule r =>
    obtain rfl := List.mem_singleton.mp h
    exact .refl _
  | literal | set | cls | any => simp [refs] at h

theorem Reaches.refs_eq_nil {rules : Rules} {p q : Pattern} (h : Reaches rules p q)
    (hp : p.refs = []) : q.refs = [] := by
  induction h with
  | refl => exact hp
  | part hpart _ ih => exact ih (List.subset_nil.mp (hp ▸ hpart.refs_subset))
  | body => simp [refs] at hp

/-- A step asks for the steps of the rules that its pattern names, and for no others. -/
theorem step_congr {σ : Setting κ} {n : Nat} {call call' : RuleRef → Step κ} {p : Pattern}
    (h : ∀ r ∈ p.refs, call r = call' r) : p.step σ n call = p.step σ n call' := by
  induction p with
  | seq a b iha ihb | choice a b iha ihb =>
    simp only [step]
    rw [iha fun r hr => h r (List.mem_append_left _ hr),
      ihb fun r hr => h r (List.mem_append_right _ hr)]
  | not p ih | ahead p ih | exactly p k ih | atLeast p k ih | atMost p k ih | hook p id ih
  | forward p sink ih | capture p ih =>
    simp only [step]
    rw [ih h]
  | rule r => exact h r (List.mem_singleton_self r)
  | literal | set | cls | any => rfl

def accepts? : Pattern → Option (UInt8 → Bool)
  | set members => some members.contains
  | cls c => some c.holds
  | any => some fun _ => true
  | _ => Option.none

end Pattern

theorem Grammar.exists_slot_of_resolve? (g : Grammar) {r : RuleRef} {body : Pattern}
    (h : g.resolve? r = some body) : ∃ slot ∈ g.slots, slot.body = some body := by
  unfold resolve? at h
  split at h
  · obtain ⟨slot, hslot, hbody⟩ := Option.bind_eq_some_iff.mp h
    exact ⟨slot, Array.mem_of_getElem? hslot, hbody⟩
  · simp at h

namespace Setting

variable (σ : Setting κ)

theorem rules_eq {σ : Setting κ} {g : Grammar} (h : σ.grammar = some g) :
    σ.rules = g.resolve? := by
  funext r
  rw [rules, h, Option.bind_some]

/-- A reference stands for the body in its slot if it is one into the grammar of the evaluation. -/
theorem rules_eq_some_iff {σ : Setting κ} {r : RuleRef} {body : Pattern} :
    σ.rules r = some body ↔
      ∃ g, σ.grammar = some g ∧ r.grammar = g.id ∧ g.bodyAt? r.slot = some body := by
  simp only [rules, Option.bind_eq_some_iff, Grammar.resolve?, Option.ite_none_right_eq_some]

/-- A reference stands for nothing if it is one into another grammar, if there is no body in its
slot, and if the evaluation has no grammar. -/
theorem rules_eq_none_iff {σ : Setting κ} {r : RuleRef} :
    σ.rules r = none ↔
      ∀ g, σ.grammar = some g → r.grammar = g.id → g.bodyAt? r.slot = none := by
  simp only [rules, Option.bind_eq_none_iff, Grammar.resolve?, ite_eq_right_iff]

theorem exists_slot_of_rules {σ : Setting κ} {r : RuleRef} {body : Pattern}
    (h : σ.rules r = some body) :
    ∃ g, σ.grammar = some g ∧ ∃ slot ∈ g.slots, slot.body = some body := by
  obtain ⟨g, hg, hr⟩ := Option.bind_eq_some_iff.mp h
  exact ⟨g, hg, g.exists_slot_of_resolve? hr⟩

/-- What the bodies in all slots have, the bodies of all rules have. -/
theorem body_of_slots {σ : Setting κ} {g : Grammar} {P : Pattern → Prop}
    (hg : σ.grammar = some g)
    (hslots : ∀ slot ∈ g.slots, ∀ body, slot.body = some body → P body) :
    ∀ r body, σ.rules r = some body → P body := by
  intro r body h
  obtain ⟨g', hg', slot, hslot, hbody⟩ := exists_slot_of_rules h
  obtain rfl := Option.some.inj (hg.symm.trans hg')
  exact hslots slot hslot body hbody

theorem hookFree_of_slots {σ : Setting κ} {g : Grammar} {p : Pattern} (hg : σ.grammar = some g)
    (hslots : ∀ slot ∈ g.slots, ∀ body, slot.body = some body → body.hooks = [])
    (hp : p.hooks = []) : p.HookFree σ.rules := .of_hooks (body_of_slots hg hslots) hp

/-- Every callback that can be met below `p` leaves the position of the cursor alone. -/
def KeepsPosition (p : Pattern) : Prop :=
  ∀ q id, Pattern.Reaches σ.rules p (.hook q id) →
    ∀ c m ctx, (σ.host.callback id c m ctx).pos = c.pos

variable {σ}

theorem KeepsPosition.part {p q : Pattern} (h : σ.KeepsPosition p) (hp : p.Part q) :
    σ.KeepsPosition q := fun r id hr => h r id (.part hp hr)

theorem KeepsPosition.body {ref : RuleRef} {p : Pattern} (h : σ.KeepsPosition (.rule ref))
    (hp : σ.rules ref = some p) : σ.KeepsPosition p := fun r id hr => h r id (.body hp hr)

theorem KeepsPosition.of_hookFree {p : Pattern} (h : p.HookFree σ.rules) : σ.KeepsPosition p :=
  fun q id hq => absurd hq (h q id)

/-- Every callback that can be met below `p` leaves the position of the cursor alone and never
asks to stop. -/
def Quiet (σ : Setting κ) (p : Pattern) : Prop :=
  ∀ q id, Pattern.Reaches σ.rules p (.hook q id) → ∀ c m ctx,
    (σ.host.callback id c m ctx).pos = c.pos ∧ (σ.host.callback id c m ctx).abort = none

theorem Quiet.reached {p q : Pattern} (h : σ.Quiet p) (hq : Pattern.Reaches σ.rules p q) :
    σ.Quiet q := fun r id hr => h r id (hq.trans hr)

theorem Quiet.part {p q : Pattern} (h : σ.Quiet p) (hp : p.Part q) : σ.Quiet q :=
  fun r id hr => h r id (.part hp hr)

theorem Quiet.of_parts {p : Pattern} (hhook : ∀ q id, p ≠ .hook q id)
    (hrule : ∀ ref, p ≠ .rule ref) (h : ∀ q, p.Part q → σ.Quiet q) : σ.Quiet p := by
  intro q id hq
  cases hq with
  | refl => exact absurd rfl (hhook q id)
  | part hp hr => exact h _ hp q id hr
  | body => exact absurd rfl (hrule _)

theorem Quiet.keepsPosition {p : Pattern} (h : σ.Quiet p) : σ.KeepsPosition p :=
  fun q id hr c m ctx => (h q id hr c m ctx).1

theorem Quiet.of_hookFree {p : Pattern} (h : p.HookFree σ.rules) : σ.Quiet p :=
  fun q id hq => absurd hq (h q id)

variable (σ)

/-! A pattern runs as its combinator on the runs of its parts. -/

theorem run_oneByte {p : Pattern} {accept : UInt8 → Bool} (h : p.accepts? = some accept)
    (n : Nat) : σ.run n p = Step.oneByte σ.input accept := by
  cases p <;> simp only [Pattern.accepts?, Option.some.injEq, reduceCtorEq] at h <;> subst h <;> rfl

theorem run_seq (n : Nat) (a b : Pattern) :
    σ.run n (.seq a b) = Step.seq (σ.run n a) (σ.run n b) := rfl

theorem run_choice (n : Nat) (a b : Pattern) :
    σ.run n (.choice a b) = Step.choice (σ.run n a) (σ.run n b) := rfl

theorem run_exactly (n : Nat) (p : Pattern) (k : Nat) :
    σ.run n (.exactly p k) = Step.exactly (σ.run n p) k := rfl

theorem run_atLeast (n : Nat) (p : Pattern) (k : Nat) :
    σ.run n (.atLeast p k) = Step.atLeast (σ.run n p) n k := rfl

theorem run_atMost (n : Nat) (p : Pattern) (k : Nat) :
    σ.run n (.atMost p k) = Step.atMost (σ.run n p) k := rfl

theorem run_forward (n : Nat) (p : Pattern) (sink : SinkId) :
    σ.run n (.forward p sink) = Step.forward σ.host σ.input sink (σ.run n p) := rfl

theorem run_rule_zero (r : RuleRef) : σ.run 0 (.rule r) = fun _ => none := rfl

theorem run_rule_body {r : RuleRef} {body : Pattern} (h : σ.rules r = some body) (n : Nat) :
    σ.run (n + 1) (.rule r) = σ.run n body := by
  obtain ⟨g, hg, hr⟩ := Option.bind_eq_some_iff.mp h
  change σ.call (n + 1) r = _
  simp only [call, hg, hr]
  rfl

def absence (r : RuleRef) : Notice :=
  match σ.grammar with
  | none => .outside r.name
  | some _ => .unresolved r.name

/-- A reference that stands for nothing misses, with a notice and without moving. -/
theorem run_rule_none {r : RuleRef} (h : σ.rules r = none) (n : Nat) :
    σ.run (n + 1) (.rule r) =
      Step.performing σ.host (.noticed (σ.absence r)) (Step.give .miss) := by
  change σ.call (n + 1) r = _
  cases hg : σ.grammar with
  | none => simp only [call, absence, hg]
  | some g =>
    have hr : g.resolve? r = none := by simpa [rules, hg] using h
    simp only [call, absence, hg, hr]

/-- Induction in the order of the descent: parts within the same limit, and the body of a
rule within the next smaller one. -/
theorem run_induct {motive : Nat → Pattern → Prop}
    (literal : ∀ n bytes, motive n (.literal bytes))
    (oneByte : ∀ n p accept, p.accepts? = some accept → motive n p)
    (seq : ∀ n a b, motive n a → motive n b → motive n (.seq a b))
    (choice : ∀ n a b, motive n a → motive n b → motive n (.choice a b))
    (not : ∀ n p, motive n p → motive n (.not p))
    (ahead : ∀ n p, motive n p → motive n (.ahead p))
    (exactly : ∀ n p k, motive n p → motive n (.exactly p k))
    (atLeast : ∀ n p k, motive n p → motive n (.atLeast p k))
    (atMost : ∀ n p k, motive n p → motive n (.atMost p k))
    (spent : ∀ r, motive 0 (.rule r))
    (body : ∀ n r p, σ.rules r = some p → motive n p → motive (n + 1) (.rule r))
    (unresolved : ∀ n r, σ.rules r = none → motive (n + 1) (.rule r))
    (hook : ∀ n p id, motive n p → motive n (.hook p id))
    (forward : ∀ n p sink, motive n p → motive n (.forward p sink))
    (capture : ∀ n p, motive n p → motive n (.capture p)) (n : Nat) (p : Pattern) :
    motive n p := by
  have parts : ∀ n, (∀ r, motive n (.rule r)) → ∀ p, motive n p := by
    intro n rule p
    induction p with
    | literal bytes => exact literal n bytes
    | set | cls | any => exact oneByte n _ _ rfl
    | seq a b iha ihb => exact seq n a b iha ihb
    | choice a b iha ihb => exact choice n a b iha ihb
    | not p ih => exact not n p ih
    | ahead p ih => exact ahead n p ih
    | exactly p k ih => exact exactly n p k ih
    | atLeast p k ih => exact atLeast n p k ih
    | atMost p k ih => exact atMost n p k ih
    | rule r => exact rule r
    | hook p id ih => exact hook n p id ih
    | forward p sink ih => exact forward n p sink ih
    | capture p ih => exact capture n p ih
  -- the limit comes first, since a body may be larger than the reference to it
  induction n generalizing p with
  | zero => exact parts 0 spent p
  | succ n ih =>
    refine parts (n + 1) (fun r => ?_) p
    cases hr : σ.rules r with
    | none => exact unresolved n r hr
    | some q => exact body n r q hr (ih q)

end Setting

end Peg
