import Peg.Demo
import Peg.Proofs.Termination

/-! # The small languages come to a decision

No rule of theirs gets back to itself without a byte in between, so an evaluation of a language
ends on every input, with a match or a miss. What it captures lies in the input, and with the
anchor behind it a match reaches to the end.
-/
namespace Peg

namespace Demo

open Pattern

/-- The demo of groups has two rules, each of which is defined by the other. -/
theorem parens_eq (id : GrammarId) (sink : SinkId) : parens id sink =
    ⟨{ id
       slots := #[
         ⟨"group", some (capture (seq (seq (lit "(") (.rule ⟨id, 1, "groups"⟩)) (lit ")")))⟩,
         ⟨"groups", some (atLeast (.rule ⟨id, 0, "group"⟩) 0)⟩]
       byName := [("groups", 1), ("group", 0)] },
     forward (atLeast (.rule ⟨id, 0, "group"⟩) 1) sink⟩ := by
  have h₁ : ("group" == "groups") = false := by decide
  have h₂ : ("groups" == "group") = false := by decide
  simp [parens, Grammar.rule, Grammar.slot, Grammar.find?, Grammar.define, quantify,
    List.lookup_nil, List.lookup_cons, h₁, h₂]

/-- Every rule that a language mentions is defined. -/
theorem check_build (l : Language) (id : GrammarId) (sink : SinkId) :
    (build l id sink).grammar.check = .ok () := by
  cases l with
  | words | dottedName | number => rfl
  | parens =>
    rw [build, parens_eq]
    rfl

def setting (d : Demo) (input : Array UInt8) : Setting Store :=
  { host := Store.host, input, grammar := some d.grammar }

/-- Behind a parenthesis no rule is met without having moved. -/
theorem not_exposes_of_parenthesis {rules : Rules} {p : Pattern} {r : RuleRef} :
    ¬ (capture (seq (seq (lit "(") p) (lit ")"))).Exposes rules r := by
  rw [show lit "(" = literal [40] by decide +kernel]
  intro h
  cases h with
  | capture h => cases h with
    | seqLeft _ h => cases h with
      | seqLeft _ h => cases h
      | seqRight hnull _ => cases hnull
    | seqRight hnull _ => cases hnull with
      | seq hnull _ => cases hnull

/-- Before anything is consumed, a body only comes to rules in front of its own. -/
theorem slot_lt_of_exposes {l : Language} {id : GrammarId} {sink : SinkId} {r r' : RuleRef}
    {body : Pattern} (hbody : (build l id sink).grammar.resolve? r = some body)
    (h : body.Exposes (build l id sink).grammar.resolve? r') : r'.slot < r.slot := by
  cases l with
  | words | dottedName | number => simp [build, Grammar.resolve?, Grammar.bodyAt?] at hbody
  | parens =>
    rw [build, parens_eq, Grammar.resolve?, Option.ite_none_right_eq_some] at hbody
    obtain ⟨-, hbody⟩ := hbody
    obtain ⟨_, i, _⟩ := r
    rcases i with _ | _ | i
    · obtain rfl := Option.some.inj hbody
      exact absurd h not_exposes_of_parenthesis
    · obtain rfl := Option.some.inj hbody
      cases h with
      | atLeast _ h => cases h; exact Nat.zero_lt_one
    · simp [Grammar.bodyAt?] at hbody

section Evaluation

variable {l : Language} {id : GrammarId} {sink : SinkId} {κ : Type} {σ : Setting κ} {p : Pattern}
variable (hσ : σ.grammar = some (build l id sink).grammar)
include hσ

theorem ranked (p : Pattern) : σ.Ranked σ.ruleCount RuleRef.slot p := by
  intro r body _ hbody
  rw [Setting.rules_eq hσ] at hbody ⊢
  refine ⟨?_, fun r' _ hr' _ => slot_lt_of_exposes hbody hr'⟩
  have hslot := (Option.ite_none_right_eq_some.mp hbody).2
  rw [Setting.ruleCount, hσ]
  exact Nat.le_of_lt (Grammar.lt_size_of_bodyAt? hslot)

/-- Under the grammar of a language, every evaluation ends within the limit. -/
theorem run_limit_isSome (hp : σ.KeepsPosition p) (s : State κ) :
    (σ.run σ.limit p s).isSome :=
  Setting.run_isSome σ.limit p hp s
    ((ranked hσ p).room (Nat.le_add_right _ _) s.pos)

end Evaluation

end Demo

namespace Store

variable {σ : Setting Store} (hσ : σ.host = Store.host)
include hσ

theorem keepsPosition (p : Pattern) : σ.KeepsPosition p := by
  intro q id _ c m ctx
  rw [hσ]
  rfl

/-- The plain host never stops an evaluation, and what it lists lies in the input. -/
theorem run_kept (n : Nat) (p : Pattern) :
    (σ.run n p).Ensures ⟨0, {}⟩ (σ.Kept
      (fun ctx => ∀ m ∈ ctx.captures, m.Within 0 σ.input.size) (fun _ _ => False) 0) := by
  refine σ.run_keeps _ _ 0 (Nat.le_refl _) ?_ n p ?_ ⟨0, {}⟩ (by simp) (Nat.le_refl _)
    (Nat.zero_le _)
  · intro e ctx hctx hspan
    rw [hσ]
    cases e with
    | captured m =>
      intro k hk
      rcases Array.mem_push.mp hk with hold | rfl
      · exact hctx k hold
      · exact hspan k rfl
    | forwarded | noticed => exact hctx
  · intro q id _ c m ctx hctx _ _ _
    rw [hσ]
    exact ⟨rfl, hctx, nofun⟩

end Store

namespace Setting

variable {κ : Type} {σ : Setting κ}

/-- A byte is missed at the end of the input only. -/
theorem run_any_ensures (n : Nat) (s : State κ) :
    (σ.run n .any).Ensures s fun v _ => v = .miss → σ.input.size ≤ s.pos := by
  refine .oneByte (fun h _ => Array.getElem?_eq_none_iff.mp h) ?_ (by simp)
  intro b _ haccept
  cases haccept

/-- With the anchor behind it, a pattern matches no further than to the end of the input. -/
theorem run_anchored_ensures (n : Nat) (p : Pattern) (s : State κ) :
    (σ.run n (.seq p .none)).Ensures s fun v t => ∀ m, v = .hit m → σ.input.size ≤ t.pos := by
  have htrue : (σ.run n p).Ensures s fun _ _ => True := fun _ _ _ => trivial
  refine htrue.branch (fun m u _ => ?_) (fun u _ => .give (by simp)) (by simp)
  have hnone : (σ.run n .none).Ensures u fun v t => ∀ k, v = .hit k → σ.input.size ≤ t.pos := by
    refine Step.Ensures.branch (run_any_ensures n u) (fun _ _ _ => .movedTo (.give (by simp)))
      (fun t ht => .movedTo (.give fun _ _ => ht rfl)) (by simp)
  exact hnone.branch (fun k t ht => .give fun _ _ => ht k rfl) (fun t _ => .give (by simp))
    (by simp)

end Setting

end Peg
