import Peg.Proofs.Histories

/-! # Checked grammars

When every name that was mentioned has a body, every reference made so far stands for one,
and so do those that an evaluation gets to from them. What an evaluation does about a
reference without a body then makes no difference: it never comes to that.
-/
namespace Peg

variable {κ : Type}

namespace Setting

def callElse (σ : Setting κ) (absent : RuleRef → Step κ) : Nat → RuleRef → Step κ
  | 0, _ => fun _ => none
  | limit + 1, r =>
    match σ.rules r with
    | none => absent r
    | some body => body.step σ limit (σ.callElse absent limit)

/-- Runs a pattern with `absent` for what happens at a rule that stands for nothing. -/
def runElse (σ : Setting κ) (absent : RuleRef → Step κ) (limit : Nat) (p : Pattern) : Step κ :=
  p.step σ limit (σ.callElse absent limit)

variable (σ : Setting κ)

def noticedMiss (r : RuleRef) : Step κ :=
  Step.performing σ.host (.noticed (σ.absence r)) (Step.give .miss)

theorem callElse_noticedMiss (limit : Nat) : σ.callElse σ.noticedMiss limit = σ.call limit := by
  induction limit with
  | zero => rfl
  | succ limit ih =>
    funext r
    rw [callElse]
    split
    · rename_i hr
      exact (σ.run_rule_none hr limit).symm
    · rename_i body hr
      rw [ih]
      exact (σ.run_rule_body hr limit).symm

/-- The evaluator is the one that misses with a notice at a rule that stands for nothing. -/
theorem runElse_noticedMiss (limit : Nat) (p : Pattern) :
    σ.runElse σ.noticedMiss limit p = σ.run limit p := by
  rw [runElse, callElse_noticedMiss]
  rfl

variable {σ} in
/-- Where every reference that can be got to stands for a body, it makes no difference what
happens at one that does not. -/
theorem runElse_congr {absent absent' : RuleRef → Step κ} {limit : Nat} {p : Pattern}
    (h : ∀ r, Pattern.Reaches σ.rules p (.rule r) → ∃ body, σ.rules r = some body) :
    σ.runElse absent limit p = σ.runElse absent' limit p := by
  induction limit generalizing p with
  | zero => exact Pattern.step_congr fun _ _ => rfl
  | succ limit ih =>
    refine Pattern.step_congr fun r hr => ?_
    have hreach : Pattern.Reaches σ.rules p (.rule r) := .of_mem_refs hr
    obtain ⟨body, hbody⟩ := h r hreach
    rw [callElse, callElse, hbody]
    exact ih fun q hq => h q (hreach.trans (.body hbody hq))

end Setting

namespace Grammar

variable {id : GrammarId} {calls : List Call}

theorem latest_of_check (h : (ofCalls id calls).check = .ok ()) {n : String}
    (hn : n ∈ firsts calls) : ∃ body, latest calls n = some body := by
  rw [check_eq_ok_iff, (ofCalls_holds id calls).undefinedNames_eq, List.filter_eq_nil_iff] at h
  exact Option.ne_none_iff_exists'.mp fun hnone => h n hn (Option.isNone_iff_eq_none.mpr hnone)

/-- Once the check passes, every reference that the grammar has given out has a body. -/
theorem Made.resolve?_of_check {r : RuleRef} (hr : Made calls id r)
    (h : (ofCalls id calls).check = .ok ()) : ∃ body, (ofCalls id calls).resolve? r = some body := by
  rw [hr.resolve?_eq]
  exact latest_of_check h (List.mem_of_getElem? hr.points.2)

/-- Under a checked grammar every reference that can be got to stands for a body, so that no
evaluation comes to what would happen at one that does not. -/
theorem check_sound (id : GrammarId) (calls : List Call) (p : Pattern)
    (hmade : ∀ r, Pattern.Reaches (ofCalls id calls).resolve? p (.rule r) → Made calls id r)
    (hcheck : (ofCalls id calls).check = .ok ()) :
    (∀ r, Pattern.Reaches (ofCalls id calls).resolve? p (.rule r) →
      ∃ body, (ofCalls id calls).resolve? r = some body) ∧
    ∀ {κ : Type} (σ : Setting κ), σ.grammar = some (ofCalls id calls) →
      ∀ absent limit, σ.runElse absent limit p = σ.run limit p := by
  have hresolve : ∀ r, Pattern.Reaches (ofCalls id calls).resolve? p (.rule r) →
      ∃ body, (ofCalls id calls).resolve? r = some body :=
    fun r hr => (hmade r hr).resolve?_of_check hcheck
  refine ⟨hresolve, fun σ hg absent limit => ?_⟩
  rw [← Setting.rules_eq hg] at hresolve
  exact (Setting.runElse_congr hresolve).trans (σ.runElse_noticedMiss limit p)

/-- Two rules that refer to each other, mentioned before they were defined and one of them
defined anew, with a callback that moves on. -/
theorem items_sound :
    let item : Pattern := .rule ⟨3, 0, "item"⟩
    let items : Pattern := .rule ⟨3, 1, "items"⟩
    let group : Pattern := .seq (.literal [40]) (.seq items (.literal [41]))
    let calls : List Call :=
      [.rule "item", .rule "items", .define "items" item,
        .define "item" (.choice (.cls .digit) group), .define "items" (.atLeast (.hook item 0) 1)]
    let g := ofCalls 3 calls
    let σ : Setting (List Effect) :=
      { host :=
          { perform := fun e ctx => ctx ++ [e]
            callback := fun _ c _ ctx => { pos := c.pos + 1, ctx } }
        input := #[40, 49, 44, 41, 44]
        grammar := some g }
    g.check = .ok () ∧ (∀ r, Pattern.Reaches g.resolve? items (.rule r) → Made calls 3 r) ∧
      ∀ absent, σ.runElse absent 5 items ⟨0, []⟩ = some (.hit ⟨0, 5⟩, ⟨5, []⟩) := by
  intro item items group calls g σ
  have hcheck : g.check = .ok () := by decide +kernel
  have hnamed : ∀ slot ∈ g.slots, ∀ body, slot.body = some body →
      body.refs ⊆ [⟨3, 0, "item"⟩, ⟨3, 1, "items"⟩] := by
    decide +kernel
  have hmade : ∀ r, Pattern.Reaches g.resolve? items (.rule r) → Made calls 3 r := by
    intro r hr
    have hr : r ∈ [(⟨3, 0, "item"⟩ : RuleRef), ⟨3, 1, "items"⟩] := by
      refine hr.refs_subset (fun ref body h => ?_) (by decide) (List.mem_singleton_self r)
      obtain ⟨slot, hslot, hbody⟩ := g.exists_slot_of_resolve? h
      exact hnamed slot hslot body hbody
    obtain rfl | hr := List.mem_cons.mp hr
    · exact ⟨[], "item", _, rfl, rfl⟩
    · obtain rfl := List.mem_singleton.mp hr
      exact ⟨[.rule "item"], "items", _, rfl, rfl⟩
  refine ⟨hcheck, hmade, fun absent => ?_⟩
  rw [(check_sound 3 calls items hmade hcheck).2 σ rfl]
  decide +kernel

end Grammar

end Peg
