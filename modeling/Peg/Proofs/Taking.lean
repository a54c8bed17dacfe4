import Peg.Proofs.Adequacy
import Peg.Proofs.Repetition
import Peg.Proofs.Trails

/-! # What a pattern takes, and what it leaves behind

A match told together with its effects: where it ends, and the trail of everything that was done
on the way. Both are the same in every context and within every limit that is large enough. For
a composed pattern they follow from what its parts take and leave behind; what was done for a part
that missed stays in front.
-/
namespace Peg.Setting

variable {κ : Type}

/-- From `start`, in every context and within every limit from some one on, `p` matches up to
`stop` with the cursor there, after the effects of the trail. -/
structure Takes (σ : Setting κ) (p : Pattern) (start stop : Nat) (trail : Trail) : Prop where
  le : start ≤ stop
  runs : Eventually fun limit ctx ctx' => ctx' = σ.act ctx trail ∧
    σ.run limit p ⟨start, ctx⟩ = some (.hit ⟨start, stop⟩, ⟨stop, ctx'⟩)

def Misses (σ : Setting κ) (p : Pattern) (start : Nat) (trail : Trail) : Prop :=
  Eventually fun limit ctx ctx' => ctx' = σ.act ctx trail ∧
    ∃ stop, σ.run limit p ⟨start, ctx⟩ = some (.miss, ⟨stop, ctx'⟩)

variable {σ : Setting κ} {p a b : Pattern} {s u e : Nat} {l l' : Trail}

/-- Any run that ends has taken what the pattern takes. -/
theorem Takes.run_eq (h : σ.Takes p s e l) {n : Nat} {ctx : κ}
    (hends : (σ.run n p ⟨s, ctx⟩).isSome) :
    σ.run n p ⟨s, ctx⟩ = some (.hit ⟨s, e⟩, ⟨e, σ.act ctx l⟩) := by
  obtain ⟨x, hx⟩ := Option.isSome_iff_exists.mp hends
  obtain ⟨k, hk⟩ := h.runs
  obtain ⟨_, rfl, hrun⟩ := hk k (Nat.le_refl k) ctx
  rw [hx, σ.run_unique hx hrun]

theorem Misses.run_eq (h : σ.Misses p s l) {n : Nat} {ctx : κ}
    (hends : (σ.run n p ⟨s, ctx⟩).isSome) :
    ∃ stop, σ.run n p ⟨s, ctx⟩ = some (.miss, ⟨stop, σ.act ctx l⟩) := by
  obtain ⟨x, hx⟩ := Option.isSome_iff_exists.mp hends
  obtain ⟨k, hk⟩ := h
  obtain ⟨_, rfl, stop, hrun⟩ := hk k (Nat.le_refl k) ctx
  exact ⟨stop, by rw [hx, σ.run_unique hx hrun]⟩

/-! One byte, several bytes, and none. -/

theorem takes_oneByte {accept : UInt8 → Bool} {c : UInt8} (hp : p.accepts? = some accept)
    (hc : (σ.remaining s).head? = some c) (ha : accept c = true) : σ.Takes p s (s + 1) [] := by
  rw [head?_remaining] at hc
  refine ⟨Nat.le_succ s, 0, fun limit _ ctx => ⟨ctx, rfl, ?_⟩⟩
  rw [σ.run_oneByte hp, Step.oneByte]
  simp only [hc, ha, if_true]
  exact Step.close_of_le (Nat.le_succ s)

theorem misses_oneByte {accept : UInt8 → Bool} (hp : p.accepts? = some accept)
    (hc : ∀ c, (σ.remaining s).head? = some c → accept c = false) : σ.Misses p s [] := by
  rw [head?_remaining] at hc
  refine ⟨0, fun limit _ ctx => ⟨ctx, rfl, ?_⟩⟩
  rw [σ.run_oneByte hp, Step.oneByte]
  cases hb : σ.input[s]? with
  | none => exact ⟨s, rfl⟩
  | some c => exact ⟨s + 1, by simp [hc c hb]⟩

theorem takes_literal {bytes : List UInt8} (h : bytes <+: σ.remaining s) :
    σ.Takes (.literal bytes) s (s + bytes.length) [] := by
  refine ⟨Nat.le_add_right _ _, 0, fun limit _ ctx => ⟨ctx, rfl, ?_⟩⟩
  have hensures : (Step.literal σ.input s bytes).Ensures ⟨s, ctx⟩ fun v t =>
      v = .hit ⟨s, s + bytes.length⟩ ∧ t = ⟨s + bytes.length, ctx⟩ :=
    .literal bytes (Nat.le_refl _) (fun _ => ⟨rfl, rfl⟩) fun _ _ hmiss => absurd h hmiss
  obtain ⟨⟨v, t⟩, ht⟩ := Option.isSome_iff_exists.mp (Step.isSome_literal σ.input s bytes ⟨s, ctx⟩)
  obtain ⟨rfl, rfl⟩ := hensures v t ht
  exact ht

theorem misses_literal {bytes : List UInt8} (h : ¬ bytes <+: σ.remaining s) :
    σ.Misses (.literal bytes) s [] := by
  refine ⟨0, fun limit _ ctx => ⟨ctx, rfl, ?_⟩⟩
  have hensures : (Step.literal σ.input s bytes).Ensures ⟨s, ctx⟩ fun v t =>
      v = .miss ∧ t.ctx = ctx :=
    .literal bytes (Nat.le_refl _) (fun hhit => absurd hhit h) fun _ _ _ => ⟨rfl, rfl⟩
  obtain ⟨⟨v, t⟩, ht⟩ := Option.isSome_iff_exists.mp (Step.isSome_literal σ.input s bytes ⟨s, ctx⟩)
  obtain ⟨rfl, rfl⟩ := hensures v t ht
  exact ⟨t.pos, ht⟩

theorem takes_none (h : σ.remaining s = []) : σ.Takes .none s s [] := by
  have hmiss : σ.Misses .any s [] := misses_oneByte rfl (by simp [h])
  refine ⟨Nat.le_refl s, hmiss.mono ?_⟩
  rintro limit ctx ctx' ⟨hctx, stop, hrun⟩
  exact ⟨hctx, Step.branch_miss hrun⟩

theorem misses_none (h : σ.remaining s ≠ []) : σ.Misses .none s [] := by
  have hhit : σ.Takes .any s (s + 1) [] :=
    takes_oneByte rfl (List.head?_eq_some_head h) rfl
  apply hhit.runs.mono
  rintro limit ctx ctx' ⟨hctx, hrun⟩
  exact ⟨hctx, s, Step.branch_hit hrun⟩

/-! Sequences and choices. -/

theorem Takes.seq (ha : σ.Takes a s u l) (hb : σ.Takes b u e l') :
    σ.Takes (.seq a b) s e (l ++ l') := by
  refine ⟨ha.le.trans hb.le, (ha.runs.andThen hb.runs).mono ?_⟩
  rintro limit ctx _ ⟨_, ⟨rfl, hrun⟩, rfl, hrun'⟩
  refine ⟨(σ.act_append ctx l l').symm, ?_⟩
  rw [run_seq, Step.seq, Step.branch_hit hrun, Step.branch_hit hrun']
  rfl

theorem Misses.seq (ha : σ.Misses a s l) (b : Pattern) : σ.Misses (.seq a b) s l := by
  apply ha.mono
  rintro limit ctx _ ⟨rfl, stop, hrun⟩
  refine ⟨rfl, stop, ?_⟩
  rw [run_seq, Step.seq, Step.branch_miss hrun]
  rfl

theorem Takes.seq_misses (ha : σ.Takes a s u l) (hb : σ.Misses b u l') :
    σ.Misses (.seq a b) s (l ++ l') := by
  apply (ha.runs.andThen hb).mono
  rintro limit ctx _ ⟨_, ⟨rfl, hrun⟩, rfl, stop, hrun'⟩
  refine ⟨(σ.act_append ctx l l').symm, stop, ?_⟩
  rw [run_seq, Step.seq, Step.branch_hit hrun, Step.branch_miss hrun']
  rfl

theorem Takes.choice (ha : σ.Takes a s e l) (b : Pattern) : σ.Takes (.choice a b) s e l := by
  refine ⟨ha.le, ha.runs.mono ?_⟩
  rintro limit ctx _ ⟨rfl, hrun⟩
  refine ⟨rfl, ?_⟩
  rw [run_choice, Step.choice, Step.branch_hit hrun]
  exact Step.close_of_le ha.le

theorem Misses.choice_takes (ha : σ.Misses a s l) (hb : σ.Takes b s e l') :
    σ.Takes (.choice a b) s e (l ++ l') := by
  refine ⟨hb.le, (ha.andThen hb.runs).mono ?_⟩
  rintro limit ctx _ ⟨_, ⟨rfl, stop, hrun⟩, rfl, hrun'⟩
  refine ⟨(σ.act_append ctx l l').symm, ?_⟩
  rw [run_choice, Step.choice, Step.branch_miss hrun, Step.movedTo, Step.branch_hit hrun']
  exact Step.close_of_le hb.le

theorem Misses.choice (ha : σ.Misses a s l) (hb : σ.Misses b s l') :
    σ.Misses (.choice a b) s (l ++ l') := by
  apply (ha.andThen hb).mono
  rintro limit ctx _ ⟨_, ⟨rfl, stop, hrun⟩, rfl, stop', hrun'⟩
  refine ⟨(σ.act_append ctx l l').symm, s, ?_⟩
  rw [run_choice, Step.choice, Step.branch_miss hrun, Step.movedTo, Step.branch_miss hrun']
  rfl

/-! Loops. -/

theorem Takes.once (h : σ.Takes p s e l) : σ.Takes (.exactly p 1) s e l := by
  refine ⟨h.le, h.runs.mono ?_⟩
  rintro limit ctx _ ⟨rfl, hrun⟩
  refine ⟨rfl, ?_⟩
  rw [run_exactly, Step.exactly, Step.repeated_hit hrun]
  exact Step.close_of_le h.le

theorem Takes.optional (h : σ.Takes p s e l) : σ.Takes (.atMost p 1) s e l := by
  refine ⟨h.le, h.runs.mono ?_⟩
  rintro limit ctx _ ⟨rfl, hrun⟩
  refine ⟨rfl, ?_⟩
  rw [run_atMost, Step.atMost, Step.upTo_hit hrun]
  exact Step.close_of_le h.le

theorem Misses.optional (h : σ.Misses p s l) : σ.Takes (.atMost p 1) s s l := by
  refine ⟨Nat.le_refl s, h.mono ?_⟩
  rintro limit ctx _ ⟨rfl, stop, hrun⟩
  refine ⟨rfl, ?_⟩
  rw [run_atMost, Step.atMost, Step.upTo_miss hrun]
  exact Step.close_of_le (Nat.le_refl s)

/-- A loop ends where its pattern misses. -/
theorem Misses.loop (h : σ.Misses p s l) : σ.Takes (.atLeast p 0) s s l := by
  refine ⟨Nat.le_refl s, (h.beyond 0).mono ?_⟩
  rintro limit ctx _ ⟨hlimit, rfl, stop, hrun⟩
  obtain ⟨k, rfl⟩ := Nat.exists_eq_add_of_lt hlimit
  refine ⟨rfl, ?_⟩
  rw [run_atLeast, Step.atLeast, Step.repeated, Step.greedy, Step.branch_miss hrun]
  exact Step.close_of_le (Nat.le_refl s)

section KeepsPosition

variable (hp : σ.KeepsPosition p)
include hp

/-- A match that moves is a round of the loop, which goes on from there. -/
theorem Takes.loop (h : σ.Takes p s u l) (hmoved : u ≠ s) (hrest : σ.Takes (.atLeast p 0) u e l') :
    σ.Takes (.atLeast p 0) s e (l ++ l') := by
  have hle := h.le.trans hrest.le
  refine ⟨hle, ?_⟩
  obtain ⟨n, hn⟩ := h.runs
  obtain ⟨n', hn'⟩ := hrest.runs
  refine ⟨max n n' + 1, fun limit hlimit ctx => ⟨_, rfl, ?_⟩⟩
  obtain ⟨k, rfl⟩ : ∃ k, limit = k + 1 := ⟨limit - 1, by omega⟩
  obtain ⟨_, rfl, hround⟩ := hn (k + 1) (by omega) ctx
  obtain ⟨_, rfl, hloop⟩ := hn' k (by omega) (σ.act ctx l)
  have hspent : Step.greedy (σ.run (k + 1) p) u k u ⟨u, σ.act ctx l⟩ =
      some (.hit ⟨u, e⟩, ⟨e, σ.act (σ.act ctx l) l'⟩) :=
    Step.Below.greedy (σ.run_below (Nat.le_succ k) p) u (Nat.le_refl k) u _ _ hloop
  have hearlier := Step.restarts_greedy (run_onward hp (k + 1)) k s u ⟨u, σ.act ctx l⟩ h.le
    (Nat.le_refl u)
  have hrestart : Step.greedy (σ.run (k + 1) p) s k u ⟨u, σ.act ctx l⟩ =
      some (.hit ⟨s, e⟩, ⟨e, σ.act (σ.act ctx l) l'⟩) := hearlier.symm.trans (Step.branch_hit hspent)
  calc σ.run (k + 1) (.atLeast p 0) ⟨s, ctx⟩
      = Step.greedy (σ.run (k + 1) p) s k u ⟨u, σ.act ctx l⟩ :=
        (Step.branch_hit hround).trans (if_neg hmoved)
    _ = some (.hit ⟨s, e⟩, ⟨e, σ.act (σ.act ctx l) l'⟩) := hrestart
    _ = some (.hit ⟨s, e⟩, ⟨e, σ.act ctx (l ++ l')⟩) := by rw [act_append]

theorem Takes.atLeast_one (h : σ.Takes p s u l) (hrest : σ.Takes (.atLeast p 0) u e l') :
    σ.Takes (.atLeast p 1) s e (l ++ l') := by
  have hseq := h.once.seq hrest
  refine ⟨hseq.le, hseq.runs.mono ?_⟩
  rintro limit ctx _ ⟨rfl, hrun⟩
  exact ⟨rfl, run_atLeast_add hp limit 1 0 ▸ hrun⟩

end KeepsPosition

theorem Misses.atLeast_one (h : σ.Misses p s l) : σ.Misses (.atLeast p 1) s l := by
  apply h.mono
  rintro limit ctx _ ⟨rfl, stop, hrun⟩
  refine ⟨rfl, stop, ?_⟩
  rw [run_atLeast, Step.atLeast, Step.repeated_miss hrun]

/-! Rules and side effects. -/

theorem Takes.body {r : RuleRef} (hr : σ.rules r = some p) (h : σ.Takes p s e l) :
    σ.Takes (.rule r) s e l := by
  refine ⟨h.le, Eventually.later (h.runs.mono ?_)⟩
  intro limit ctx ctx' hrun
  rw [σ.run_rule_body hr]
  exact hrun

theorem Misses.body {r : RuleRef} (hr : σ.rules r = some p) (h : σ.Misses p s l) :
    σ.Misses (.rule r) s l := by
  refine Eventually.later (h.mono ?_)
  intro limit ctx ctx' hrun
  rw [σ.run_rule_body hr]
  exact hrun

theorem Takes.capture (h : σ.Takes p s e l) :
    σ.Takes (.capture p) s e (l ++ [.captured ⟨s, e⟩]) := by
  obtain ⟨n, hn⟩ := h.runs
  refine ⟨h.le, n, fun limit hlimit ctx => ⟨_, rfl, ?_⟩⟩
  obtain ⟨_, rfl, hrun⟩ := hn limit hlimit ctx
  have hcapture : σ.run limit (.capture p) ⟨s, ctx⟩ = _ := Step.branch_hit hrun
  rw [hcapture, act_append]
  rfl

theorem Misses.capture (h : σ.Misses p s l) : σ.Misses (.capture p) s l := by
  apply h.mono
  rintro limit ctx _ ⟨rfl, stop, hrun⟩
  exact ⟨rfl, stop, Step.branch_miss hrun⟩

theorem Takes.forward (h : σ.Takes p s e l) (sink : SinkId) : σ.Takes (.forward p sink) s e
    (l ++ [.forwarded sink ⟨s, e⟩ (σ.input.extract s e)]) := by
  obtain ⟨n, hn⟩ := h.runs
  refine ⟨h.le, n, fun limit hlimit ctx => ⟨_, rfl, ?_⟩⟩
  obtain ⟨_, rfl, hrun⟩ := hn limit hlimit ctx
  rw [run_forward, Step.forward, Step.branch_hit hrun, Span.replay_of_le h.le, act_append]
  rfl

theorem Misses.forward (h : σ.Misses p s l) (sink : SinkId) :
    σ.Misses (.forward p sink) s l := by
  apply h.mono
  rintro limit ctx _ ⟨rfl, stop, hrun⟩
  exact ⟨rfl, stop, Step.branch_miss hrun⟩

end Peg.Setting
