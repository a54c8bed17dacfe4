import Peg.Proofs.Bounds
import Peg.Proofs.Rewriting

/-! # Side effects are transparent

Callbacks that leave the cursor alone and never ask to stop, copies to sinks and records of
matches change the context and nothing else. Without them a pattern evaluates to the same
match or miss with the cursor at the same place, under every host.
-/
namespace Peg

variable {κ κ' : Type}

namespace Step.Follows

variable {f : κ' → κ} {p' : Step κ'} {p : Step κ}

/-! A step with an effect that `f` forgets does the same as without it. -/

theorem capture_forgotten {host : Host κ'} (hf : ∀ e ctx, f (host.perform e ctx) = f ctx)
    (hp : Follows 0 f p' p) : Follows 0 f (Step.capture host p') p := by
  rw [← branch_give p]
  refine hp.branch (fun m s => ?_) (give _)
  simp [Step.performing, Step.give, State.map, hf]

/-- Reading the bytes of a match again puts the cursor back, if the match is in order. -/
theorem forward_forgotten {host : Host κ'} (hf : ∀ e ctx, f (host.perform e ctx) = f ctx)
    (input : Array UInt8) (sink : SinkId)
    (hordered : ∀ s m t, p' s = some (.hit m, t) → m.start ≤ m.stop) (hp : Follows 0 f p' p) :
    Follows 0 f (Step.forward host input sink p') p := by
  intro s
  rw [hp s]
  simp only [Step.forward, Step.branch]
  cases h : p' s with
  | none => rfl
  | some r =>
    obtain ⟨v, t⟩ := r
    cases v with
    | hit m =>
      simp only [Span.replay_of_le (hordered s m t h)]
      simp [Step.performing, Step.movedTo, Step.give, State.map, hf]
    | miss | stop => rfl

theorem hook_forgotten {input : Array UInt8} {callback : Callback κ'}
    (hc : ∀ c m ctx, (callback c m ctx).pos = c.pos ∧ (callback c m ctx).abort = none)
    (hf : ∀ c m ctx, f (callback c m ctx).ctx = f ctx) (hp : Follows 0 f p' p) :
    Follows 0 f (Step.hook input callback p') p := by
  intro s
  rw [hp s]
  unfold Step.hook
  cases p' s with
  | none => rfl
  | some r =>
    obtain ⟨v, t⟩ := r
    cases v with
    | hit | miss =>
      simp only [(hc _ _ _).2]
      simp [State.map, (hc _ _ _).1, hf]
    | stop => rfl

end Step.Follows

namespace Pattern

/-- The pattern without its callbacks, copies and records. -/
def bare : Pattern → Pattern
  | seq a b => seq a.bare b.bare
  | choice a b => choice a.bare b.bare
  | not p => not p.bare
  | ahead p => ahead p.bare
  | exactly p n => exactly p.bare n
  | atLeast p n => atLeast p.bare n
  | atMost p n => atMost p.bare n
  | hook p _ | forward p _ | capture p => p.bare
  | literal bytes => literal bytes
  | set members => set members
  | cls c => cls c
  | any => any
  | rule ref => rule ref

@[simp] theorem bare_bare (p : Pattern) : p.bare.bare = p.bare := by
  induction p <;> simp_all [bare]

@[simp] theorem hooks_bare (p : Pattern) : p.bare.hooks = [] := by
  induction p <;> simp_all [bare, hooks]

theorem accepts?_bare {p : Pattern} {accept : UInt8 → Bool} (h : p.accepts? = some accept) :
    p.bare = p := by
  cases p <;> first | rfl | cases h

theorem Structural.bare : Structural Pattern.bare := by
  constructor
  case oneByte => exact fun _ _ => accepts?_bare
  all_goals intros; rfl

end Pattern

def Host.blank : Host Unit := { perform := fun _ _ => () }

namespace Setting

variable {σ : Setting κ} {p : Pattern}

def bare (σ : Setting κ) (host : Host κ') : Setting κ' where
  host := host
  input := σ.input
  grammar := σ.grammar.map (Grammar.mapBodies Pattern.bare)

theorem rules_bare (σ : Setting κ) (host : Host κ') (r : RuleRef) :
    (σ.bare host).rules r = (σ.rules r).map Pattern.bare := rules_mapBodies rfl r

/-- Nothing that is bare meets a callback. -/
theorem hookFree_bare (σ : Setting κ) (host : Host κ') (p : Pattern) :
    p.bare.HookFree (σ.bare host).rules := by
  refine .of_hooks (fun r body hr => ?_) p.hooks_bare
  rw [rules_bare] at hr
  obtain ⟨q, _, rfl⟩ := Option.map_eq_some_iff.mp hr
  exact q.hooks_bare

theorem bare_bare (σ : Setting κ) (host : Host κ') :
    (σ.bare host).bare Host.blank = σ.bare Host.blank := by
  simp only [bare, Option.map_map, Function.comp_def, Grammar.mapBodies_mapBodies,
    Pattern.bare_bare]

/-- A run of a quiet pattern goes the way of its bare run. -/
theorem run_follows_bare (n : Nat) (p : Pattern) (hp : σ.Quiet p) :
    (σ.run n p).Follows 0 (fun _ => ()) ((σ.bare Host.blank).run n p.bare) := by
  apply run_follows_map (σ := σ.bare Host.blank) .bare (.refl σ.input) (σ.rules_bare Host.blank)
  · exact fun _ _ => rfl
  · intro n q id hr hq
    exact hq.hook_forgotten (hp q id hr) fun _ _ _ => rfl
  · intro n q sink hr hq
    have hquiet := hp.reached (hr.toPart (.forward q sink))
    have hordered := run_ordered hquiet.keepsPosition n
    exact hq.forward_forgotten (fun _ _ => rfl) σ.input sink fun s m t h =>
      hordered s _ t h m rfl
  · intro n q _ hq
    exact hq.capture_forgotten fun _ _ => rfl

/-- Within every limit a run and its bare run come out alike, or not at all. -/
theorem run_bare (hp : σ.Quiet p) (host : Host κ') (n start : Nat) (ctx : κ) (ctx' : κ') :
    ((σ.bare host).run n p.bare ⟨start, ctx'⟩).map (fun r => (r.1, r.2.pos)) =
      (σ.run n p ⟨start, ctx⟩).map fun r => (r.1, r.2.pos) := by
  -- what is bare stays as it is, so both runs are followed by the same one
  have hquiet : (σ.bare host).Quiet p.bare := .of_hookFree (hookFree_bare σ host p)
  have hbare := run_follows_bare n p.bare hquiet ⟨start, ctx'⟩
  rw [bare_bare, Pattern.bare_bare] at hbare
  have hboth := hbare.symm.trans (run_follows_bare n p hp ⟨start, ctx⟩)
  simpa [State.map, Function.comp_def] using
    congrArg (Option.map fun r : Verdict × State Unit => (r.1, r.2.pos)) hboth

/-- As long as callbacks leave the cursor alone and never ask to stop, a pattern ends if and only
if it ends without its callbacks, copies and records, in it and in the bodies of the rules, and
then either both match with the same span or both miss, and the cursor is at the same place,
whatever the contexts are at the start. -/
theorem bare_agrees (hp : σ.Quiet p) (host : Host κ') (start : Nat) (ctx : κ) (ctx' : κ') :
    ((∃ n, (σ.run n p ⟨start, ctx⟩).isSome) ↔
      ∃ n, ((σ.bare host).run n p.bare ⟨start, ctx'⟩).isSome) ∧
    ∀ n n' v v' t t', σ.run n p ⟨start, ctx⟩ = some (v, t) →
      (σ.bare host).run n' p.bare ⟨start, ctx'⟩ = some (v', t') →
      v' = v ∧ t'.pos = t.pos ∧ ((∃ m, v = .hit m) ∨ v = .miss) := by
  have hrun := run_bare hp host
  refine ⟨exists_congr fun n => ?_, fun n n' v v' t t' h h' => ?_⟩
  · have hsome := congrArg Option.isSome (hrun n start ctx ctx')
    simp only [Option.isSome_map] at hsome
    rw [hsome]
  · have hsame := hrun n start ctx ctx'
    rw [h, Option.map_some, Option.map_eq_some_iff] at hsame
    obtain ⟨x, hx, heq⟩ := hsame
    obtain rfl := run_unique _ h' hx
    obtain ⟨rfl, hpos⟩ := Prod.mk.inj heq
    refine ⟨rfl, hpos, ?_⟩
    cases v' with
    | hit m => exact .inl ⟨m, rfl⟩
    | miss => exact .inr rfl
    | stop why => exact absurd hx (run_ne_stop (hookFree_bare σ host p))

/-- A loop over a rule that copies a word and records it before it goes back, and whose callback
adds to the captures. A negated record of a negation stays a double negation. -/
theorem words_agree :
    let marks : Callback Store := fun c _ ctx =>
      { pos := c.pos, ctx := { ctx with captures := ctx.captures.push ⟨c.pos, c.pos⟩ } }
    let copied : Pattern := .capture (.atLeast (.forward (.cls .alpha) 1) 1)
    let seen : Pattern := .seq (.ahead (.forward (.literal [97, 98]) 2)) (.capture .any)
    let word : Pattern := .choice (.seq copied (.literal [33])) (.hook seen 3)
    let p : Pattern :=
      .seq (.atMost (.rule ⟨0, 0, "word"⟩) 2) (.not (.capture (.not (.cls .alpha))))
    let σ : Setting Store :=
      { host := { Store.host with callback := fun _ => marks }
        input := #[97, 98, 49]
        grammar := some { id := 0, slots := #[⟨"word", some word⟩] } }
    σ.Quiet p ∧ ∀ store : Store, ∃ n t,
      (σ.bare Store.host).run n p.bare ⟨0, store⟩ = some (.hit ⟨0, 1⟩, t) ∧ t.pos = 1 := by
  intro marks copied seen word p σ
  have hquiet : σ.Quiet p := fun _ _ _ _ _ _ => ⟨rfl, rfl⟩
  refine ⟨hquiet, fun store => ?_⟩
  obtain ⟨hends, hagree⟩ := bare_agrees hquiet Store.host 0 {} store
  have hrun : (σ.run 4 p ⟨0, {}⟩).map (fun r => (r.1, r.2.pos)) = some (.hit ⟨0, 1⟩, 1) := by
    decide +kernel
  obtain ⟨⟨v, t⟩, hvt, heq⟩ := Option.map_eq_some_iff.mp hrun
  obtain ⟨rfl, hpos⟩ := Prod.mk.inj heq
  obtain ⟨n, hn⟩ := hends.mp ⟨4, by rw [hvt]; rfl⟩
  obtain ⟨⟨v', t'⟩, hbare⟩ := Option.isSome_iff_exists.mp hn
  obtain ⟨rfl, hpos', _⟩ := hagree _ _ _ _ _ _ hvt hbare
  exact ⟨n, t', hbare, hpos'.trans hpos⟩

end Setting

end Peg
