import Peg.Eval.Store
import Peg.Proofs.Rewriting

/-! # Inlining rules changes nothing

A body may stand where a reference to its rule stands, in the pattern that is evaluated and
in any body, that of the rule itself included. What is evaluated is then another recursion,
but it does the same: it needs no more calls inside each other than before, and before it
needed at most twice as many.
-/
namespace Peg

variable {κ : Type}

namespace Pattern

def Unfolds (rules : Rules) (p q : Pattern) : Prop := ∃ r, p = rule r ∧ rules r = some q

/-- Some references, to whichever rules, are replaced by the bodies that they stand for. -/
def Inlines (rules : Rules) : Pattern → Pattern → Prop := Rewrites (Unfolds rules)

end Pattern

namespace Setting

variable {σ : Setting κ} {g' : Option Grammar}
  (h : Option.Rel (Grammar.Bodywise (Pattern.Inlines σ.rules)) σ.grammar g')
include h

/-- Inlining needs no larger limit. -/
theorem run_below_inlined (n : Nat) {p p' : Pattern} (hp : p.Inlines σ.rules p') :
    (σ.run n p).Below ((σ.under g').run n p') := by
  induction n generalizing p p' with
  | zero =>
    rw [run, run, step_under]
    refine hp.step_below (Nat.le_refl 0) (fun r s x hx => by simp [call] at hx) ?_
    rintro _ body ⟨r, rfl, _⟩ s x hx
    simp [Pattern.step, call] at hx
  | succ n ih =>
    have hcall : ∀ r, (σ.call (n + 1) r).Below ((σ.under g').call (n + 1) r) := by
      intro r
      rcases rule_cases h r with ⟨body, body', hbody, _, hcall⟩ | hmiss
      · obtain ⟨hfirst, hsecond⟩ := hcall n
        rw [hfirst, hsecond]
        exact ih hbody
      · rw [hmiss n]
        exact .refl _
    rw [run, run, step_under]
    refine hp.step_below (Nat.le_refl _) hcall ?_
    -- the call that is saved leaves room for the body as it stands
    rintro _ body ⟨r, rfl, hr⟩ s x hx
    have hbody : σ.run n body s = some x := by rwa [← σ.run_rule_body hr]
    have hlater := (σ.under g').run_below (Nat.le_succ n) body s x (ih (.refl body) s x hbody)
    rwa [run, step_under] at hlater

omit h in
/-- Where the calls after inlining are calls before it, one more of these makes up for the
references that were replaced. -/
theorem inlined_below_of_call {n : Nat}
    (hcall : ∀ r, ((σ.under g').call n r).Below (σ.call (2 * n) r)) {p p' : Pattern}
    (hp : p.Inlines σ.rules p') : ((σ.under g').run n p').Below (σ.run (2 * n + 1) p) := by
  rw [run, run, step_under]
  refine hp.flip.step_below (by omega)
    (fun r s x hx => σ.call_below (Nat.le_succ _) r s x (hcall r s x hx)) ?_
  rintro body _ ⟨r, rfl, hr⟩
  change (body.step σ n ((σ.under g').call n)).Below (σ.run (2 * n + 1) (.rule r))
  rw [σ.run_rule_body hr]
  exact Pattern.step_below σ (by omega) hcall body

theorem inlined_call_below (n : Nat) (r : RuleRef) :
    ((σ.under g').call n r).Below (σ.call (2 * n) r) := by
  induction n generalizing r with
  | zero => exact fun s x hx => by simp [call] at hx
  | succ n ih =>
    rcases rule_cases h r with ⟨body, body', hbody, _, hcall⟩ | hmiss
    · rw [(hcall n).2, show 2 * (n + 1) = 2 * n + 1 + 1 by omega, (hcall _).1]
      exact inlined_below_of_call ih hbody
    · rw [hmiss n]
      exact σ.call_below (by omega) r

/-- The inlined pattern under the inlined rules comes to just the results of the other one, although
each of them may need a larger limit than the other. -/
theorem run_inlined_iff {p p' : Pattern} (hp : p.Inlines σ.rules p') (s : State κ)
    (x : Verdict × State κ) :
    (∃ n, (σ.under g').run n p' s = some x) ↔ ∃ n, σ.run n p s = some x := by
  constructor
  · rintro ⟨n, hn⟩
    exact ⟨2 * n + 1, inlined_below_of_call (inlined_call_below h n) hp s x hn⟩
  · rintro ⟨n, hn⟩
    exact ⟨n, run_below_inlined h n hp s x hn⟩

/-- A pattern evaluates to a result under its grammar if and only if it does with references
inlined, in it and in the bodies of the grammar, by the bodies that these stand for: to the
same match, miss or stop, with the cursor and the context the same, and after the same effects
and calls in the same order, whatever the callbacks do. So an evaluation that does not end
does not end either way. -/
theorem run_iff_of_inlines {p p' : Pattern} (hp : p.Inlines σ.rules p') (s : State κ) :
    (∀ x, (∃ n, (σ.under g').run n p' s = some x) ↔ ∃ n, σ.run n p s = some x) ∧
      ∀ record x, (∃ n, (σ.under g').recording.run n p' ⟨s.pos, s.ctx, record⟩ = some x) ↔
        ∃ n, σ.recording.run n p ⟨s.pos, s.ctx, record⟩ = some x := by
  refine ⟨run_inlined_iff h hp s, fun record x => ?_⟩
  rw [recording_under]
  exact run_inlined_iff (σ := σ.recording) h hp _ x

omit h in
/-- A rule that calls itself is inlined in its own body and in the pattern that starts with
it. Its callback adds to the captures. -/
theorem nest_inlines :
    let nest : Pattern := .rule ⟨0, 0, "nest"⟩
    let around : Pattern → Pattern := fun p =>
      .choice (.seq (.literal [40]) (.seq (.hook (.capture p) 7) (.literal [41]))) .empty
    let marks : Callback Store := fun c _ ctx =>
      { pos := c.pos, ctx := { ctx with captures := ctx.captures.push ⟨c.pos, c.pos⟩ } }
    let σ : Setting Store :=
      { host := { Store.host with callback := fun _ => marks }
        input := #[40, 40, 41, 41]
        grammar := some { id := 0, slots := #[⟨"nest", some (around nest)⟩] } }
    let g' : Option Grammar := some { id := 0, slots := #[⟨"nest", some (around (around nest))⟩] }
    Option.Rel (Grammar.Bodywise (Pattern.Inlines σ.rules)) σ.grammar g' ∧
      Pattern.Inlines σ.rules (.seq nest .none) (.seq (around nest) .none) ∧
      ∃ n, (σ.under g').run n (.seq (around nest) .none) ⟨0, {}⟩ =
        some (.hit ⟨0, 4⟩, ⟨4, { captures := #[⟨2, 2⟩, ⟨2, 2⟩, ⟨1, 3⟩, ⟨3, 3⟩] }⟩) := by
  intro nest around marks σ g'
  have hnest : Pattern.Inlines σ.rules nest (around nest) := .part ⟨_, rfl, rfl⟩
  have hbody : Pattern.Inlines σ.rules (around nest) (around (around nest)) :=
    .choice (.seq (.refl _) (.seq (.hook (.capture hnest) 7) (.refl _))) (.refl _)
  have hg : Option.Rel (Grammar.Bodywise (Pattern.Inlines σ.rules)) σ.grammar g' :=
    .some (.of_slots rfl (.cons (.some hbody) .nil))
  have hp : Pattern.Inlines σ.rules (.seq nest .none) (.seq (around nest) .none) :=
    .seq hnest (.refl _)
  exact ⟨hg, hp, ((run_iff_of_inlines hg hp ⟨0, {}⟩).1 _).mpr ⟨3, rfl⟩⟩

end Setting

end Peg
