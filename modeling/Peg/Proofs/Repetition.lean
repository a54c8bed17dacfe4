import Peg.Proofs.Termination
import Peg.Proofs.Walks

/-! # Repetitions in a row

A loop that is cut in two is the same loop: the second half begins where the first one ended, and
the sequence of both puts the start back into the span. Where the halves stop at the first miss
instead of passing it on, only the attempt that misses is made twice.
-/
namespace Peg

variable {κ : Type}

namespace Step

variable {p next : Step κ}

/-- What `p` matches, as if it had begun at `start`. -/
def begunAt (start : Nat) (p : Step κ) : Step κ :=
  branch p (fun m => give (.hit ⟨start, m.stop⟩)) (give .miss)

theorem repeated_add (p next : Step κ) (m n : Nat) :
    repeated p next (m + n) = repeated p (repeated p next n) m := by
  induction m with
  | zero => rw [Nat.zero_add]; rfl
  | succ m ih => rw [Nat.succ_add]; simp only [repeated, ih]

/-- What comes after a loop that must match comes after its last round. -/
theorem branch_repeated (p next : Step κ) (f : Span → Step κ) (n : Nat) :
    branch (repeated p next n) f (give .miss) = repeated p (branch next f (give .miss)) n := by
  induction n with
  | zero => rfl
  | succ n ih => simp only [repeated, branch_branch, branch_give_miss, ih]

theorem branch_at {q : Step κ} {s : State κ} (h : p s = q s) (f : Span → Step κ) (g : Step κ) :
    branch p f g s = branch q f g s := by
  simp only [branch, h]

theorem branch_congr {f f' : Span → Step κ} {g g' : Step κ} {s : State κ}
    (hit : ∀ m u, p s = some (.hit m, u) → f m u = f' m u)
    (miss : ∀ u, p s = some (.miss, u) → g u = g' u) : branch p f g s = branch p f' g' s := by
  unfold branch
  cases h : p s with
  | none => rfl
  | some r =>
    obtain ⟨v, u⟩ := r
    cases v with
    | hit m => exact hit m u h
    | miss => exact miss u h
    | stop why => rfl

/-- Only what comes next behind the start of a loop matters for it. -/
theorem repeated_congr {next' : Step κ} {lo : Nat} (hp : p.Onward)
    (h : ∀ u, lo ≤ u.pos → next u = next' u) (n : Nat) :
    ∀ s, lo ≤ s.pos → repeated p next n s = repeated p next' n s := by
  induction n with
  | zero => exact h
  | succ n ih =>
    intro s hs
    exact branch_congr (fun m u hu => ih u (Nat.le_trans hs (hp s _ u hu))) fun _ _ => rfl

def Restarts (last : Nat → Step κ) : Prop :=
  ∀ start first s, start ≤ s.pos → first ≤ s.pos → (last first).begunAt start s = last start s

theorem restarts_close : Restarts (close (κ := κ)) := by
  intro start first s hstart hfirst
  rw [begunAt, branch_hit (close_of_le hfirst), close_of_le hstart]
  rfl

theorem restarts_greedy (hp : p.Onward) (rounds : Nat) :
    Restarts fun start t => greedy p start rounds t.pos t := by
  intro start first
  induction rounds with
  | zero => exact fun _ _ _ => rfl
  | succ rounds ih =>
    intro s hstart hfirst
    have hback : ∀ u : State κ, (movedTo s.pos (close first)).begunAt start u =
        movedTo s.pos (close start) u :=
      fun u => restarts_close start first { u with pos := s.pos } hstart hfirst
    change (branch p _ _).begunAt start s = branch p _ _ s
    rw [begunAt, branch_branch]
    refine branch_congr (fun m u hu => ?_) fun u _ => hback u
    have hafter : s.pos ≤ u.pos := hp s _ u hu
    by_cases hstayed : u.pos = s.pos
    · rw [if_pos hstayed]
      exact (branch_at (if_pos hstayed) _ _).trans (hback u)
    · rw [if_neg hstayed]
      have hrest := ih u (Nat.le_trans hstart hafter) (Nat.le_trans hfirst hafter)
      exact (branch_at (if_neg hstayed) _ _).trans hrest

theorem seq_exactly (hp : p.Onward) {last : Nat → Step κ} (hlast : Restarts last) (m n : Nat)
    (s : State κ) :
    seq (exactly p m) (fun t => repeated p (last t.pos) n t) s =
      repeated p (last s.pos) (m + n) s := by
  -- no round goes back, so the span of the second half may be told to begin where the first did
  have hrest : ∀ u, s.pos ≤ u.pos →
      begunAt s.pos (fun t => repeated p (last t.pos) n t) u = repeated p (last s.pos) n u := by
    intro u hu
    calc begunAt s.pos (fun t => repeated p (last t.pos) n t) u
        = begunAt s.pos (repeated p (last u.pos) n) u := branch_at rfl _ _
      _ = repeated p ((last u.pos).begunAt s.pos) n u := by rw [begunAt, branch_repeated]; rfl
      _ = repeated p (last s.pos) n u := repeated_congr hp
          (fun w hw => hlast s.pos u.pos w (Nat.le_trans hu hw) hw) n u (Nat.le_refl _)
  unfold seq
  rw [branch_at (show exactly p m s = repeated p (close s.pos) m s from rfl), branch_repeated,
    repeated_add]
  refine repeated_congr hp (fun u hu => ?_) m s (Nat.le_refl _)
  rw [branch_hit (close_of_le hu)]
  exact hrest u hu

end Step

namespace Setting

variable {σ : Setting κ} {p q : Pattern} {start stop m n i j u : Nat} {v : Verdict}

/-- Repetitions in two portions are repetitions in one, down to the cursor after a miss. -/
theorem run_exactly_add (hp : σ.KeepsPosition p) (limit m n : Nat) :
    σ.run limit (.exactly p (m + n)) = σ.run limit (.seq (.exactly p m) (.exactly p n)) := by
  funext s
  exact (Step.seq_exactly (run_onward hp limit) Step.restarts_close m n s).symm

theorem run_atLeast_add (hp : σ.KeepsPosition p) (limit m n : Nat) :
    σ.run limit (.atLeast p (m + n)) = σ.run limit (.seq (.exactly p m) (.atLeast p n)) := by
  funext s
  have honward := run_onward hp limit
  exact (Step.seq_exactly honward (Step.restarts_greedy honward limit) m n s).symm

theorem KeepsPosition.recording (hp : σ.KeepsPosition p) : σ.recording.KeepsPosition p :=
  fun q id hq c m ctx => hp q id hq c m ctx.1

section Nonempty

variable [Nonempty κ]

/-- A bounded repetition goes on for all of its matches, or up to the first miss. -/
theorem settles_atMost (hp : σ.Quiet p) :
    σ.Settles (.atMost p n) start v stop ↔ v = .hit ⟨start, stop⟩ ∧
      (σ.Iterate p start n stop ∨
        ∃ i, i < n ∧ σ.Iterate p start i stop ∧ ∃ u, σ.Settles p stop .miss u) := by
  rw [(traces_atMost hp start n).settles]
  constructor
  · rintro ⟨tries, h⟩
    cases h with
    | done h => exact ⟨rfl, .inl h⟩
    | fails hi h hmiss => exact ⟨rfl, .inr ⟨_, hi, h, _, hmiss⟩⟩
  · rintro ⟨rfl, h | ⟨i, hi, h, u, hmiss⟩⟩
    · exact ⟨n, .done h⟩
    · exact ⟨i + 1, .fails hi h hmiss⟩

theorem Iterate.eq_of_miss (h : σ.Iterate p start i stop) (hmiss : σ.Settles p start .miss u) :
    stop = start := h.eq_of_rests (Nat.zero_le i) .zero (.inl ⟨u, hmiss⟩)

theorem settles_atMost_add (hp : σ.Quiet p) :
    σ.Settles (.atMost p (m + n)) start v stop ↔
      σ.Settles (.seq (.atMost p m) (.atMost p n)) start v stop := by
  rw [settles_atMost hp, settles_seq (hp.atMost m) (hp.atMost n)]
  simp only [settles_atMost hp]
  constructor
  · rintro ⟨rfl, h | ⟨i, hi, h, u, hmiss⟩⟩
    · obtain ⟨mid, hfirst, hrest⟩ := h.split
      exact .inl ⟨_, _, mid, rfl, ⟨rfl, .inl hfirst⟩, rfl, .inl hrest⟩
    · rcases Nat.lt_or_ge i m with hlt | hle
      · refine .inl ⟨_, _, stop, rfl, ⟨rfl, .inr ⟨i, hlt, h, u, hmiss⟩⟩, rfl, ?_⟩
        rcases Nat.eq_zero_or_pos n with rfl | hn
        · exact .inl .zero
        · exact .inr ⟨0, hn, .zero, u, hmiss⟩
      · obtain ⟨k, rfl⟩ := Nat.exists_eq_add_of_le hle
        obtain ⟨mid, hfirst, hrest⟩ := h.split
        exact .inl ⟨_, _, mid, rfl, ⟨rfl, .inl hfirst⟩, rfl,
          .inr ⟨k, by omega, hrest, u, hmiss⟩⟩
  · rintro (⟨k, l, mid, rfl, ⟨hk, hfirst⟩, hl, hrest⟩ | ⟨rfl, ⟨hv, -⟩ | ⟨k, mid, -, hv, -⟩⟩)
    · obtain rfl := Verdict.hit.inj hk
      obtain rfl := Verdict.hit.inj hl
      refine ⟨rfl, ?_⟩
      obtain hfirst | ⟨i, hi, hfirst, u, hmiss⟩ := hfirst
      · obtain hrest | ⟨j, hj, hrest, u, hmiss⟩ := hrest
        · exact .inl (hfirst.trans hrest)
        · exact .inr ⟨m + j, by omega, hfirst.trans hrest, u, hmiss⟩
      · have hstop : stop = mid := by
          obtain hrest | ⟨j, -, hrest, -⟩ := hrest
          · exact hrest.eq_of_miss hmiss
          · exact hrest.eq_of_miss hmiss
        subst hstop
        exact .inr ⟨i, by omega, hfirst, u, hmiss⟩
    · cases hv
    · cases hv

/-- An unbounded repetition goes on up to the first iterate that rests. -/
theorem settles_atLeast_zero (hp : σ.Quiet p) :
    σ.Settles (.atLeast p 0) start v stop ↔
      v = .hit ⟨start, stop⟩ ∧ ∃ j, σ.RestsFirst p start 0 j stop := by
  rw [(traces_atLeast hp start 0).settles]
  constructor
  · rintro ⟨tries, h⟩
    cases h with
    | done h => exact ⟨rfl, _, h⟩
    | fails hi => exact absurd hi (Nat.not_lt_zero _)
  · rintro ⟨rfl, j, h⟩
    exact ⟨j + 1, .done h⟩

/-- Behind a loop without a lower bound the same loop matches nothing. -/
theorem Settles.atLeast_zero_again (hp : σ.Quiet p) (h : σ.Settles (.atLeast p 0) start v stop) :
    σ.Settles (.atLeast p 0) stop (.hit ⟨stop, stop⟩) stop := by
  obtain ⟨-, j, hj⟩ := (settles_atLeast_zero hp).mp h
  refine (settles_atLeast_zero hp).mpr ⟨rfl, 0, Nat.le_refl 0, .zero, hj.rests, ?_⟩
  exact fun i pos _ hi => absurd hi (Nat.not_lt_zero i)

theorem settles_atLeast_atLeast_zero (hp : σ.Quiet p) :
    σ.Settles (.atLeast (.atLeast p 0) n) start v stop ↔
      σ.Settles (.atLeast p 0) start v stop := by
  have hq : σ.Quiet (.atLeast p 0) := hp.atLeast 0
  have hhit : ∀ {pos w c}, σ.Settles (.atLeast p 0) pos w c → w = .hit ⟨pos, c⟩ :=
    fun h => ((settles_atLeast_zero hp).mp h).1
  rw [(traces_atLeast hq start n).settles]
  constructor
  · rintro ⟨tries, h⟩
    cases h with
    | fails hi h hmiss => cases hhit hmiss
    | @done j _ h =>
      cases j with
      | zero =>
        obtain rfl := h.iterate.unique .zero
        obtain ⟨u, hmiss⟩ | ⟨k, hk⟩ := h.rests
        · cases hhit hmiss
        · rw [← hhit hk]
          exact hk
      | succ j =>
        obtain ⟨first, hfirst⟩ := h.iterate.exists_of_le (Nat.succ_le_succ (Nat.zero_le j))
        cases hfirst with
        | succ hzero hmatch =>
          obtain rfl := hzero.unique .zero
          obtain rfl := h.iterate.eq_of_rests (Nat.succ_le_succ (Nat.zero_le j))
            (Iterate.zero.succ hmatch) (.inr ⟨_, hmatch.atLeast_zero_again hp⟩)
          rw [← hhit hmatch]
          exact hmatch
  · intro h
    obtain rfl := hhit h
    have hagain := h.atLeast_zero_again hp
    have hiter := (Iterate.zero.succ h).stays hagain n
    obtain ⟨k, hk⟩ := hiter.restsFirst (n := n) (by omega) (.inr ⟨_, hagain⟩)
    exact ⟨k + 1, .done hk⟩

/-- As long as callbacks leave the cursor alone, a repetition of `m + n` matches, or of at least
so many, is one of `m` matches and then one of `n`: within every limit and from every state both
come out the same, with the same cursor and context and after the same effects and calls, also
where they miss or stop. If the callbacks never ask to stop, either, then two upper bounds add up,
and a repetition of a loop without a lower bound is that loop, as far as the match and the
cursor go. -/
theorem repetitions_add (hp : σ.KeepsPosition p) (m n : Nat) :
    (∀ limit,
      σ.run limit (.exactly p (m + n)) = σ.run limit (.seq (.exactly p m) (.exactly p n)) ∧
      σ.recording.run limit (.exactly p (m + n)) =
        σ.recording.run limit (.seq (.exactly p m) (.exactly p n)) ∧
      σ.run limit (.atLeast p (m + n)) = σ.run limit (.seq (.exactly p m) (.atLeast p n)) ∧
      σ.recording.run limit (.atLeast p (m + n)) =
        σ.recording.run limit (.seq (.exactly p m) (.atLeast p n))) ∧
    (σ.Quiet p → ∀ start v stop,
      (σ.Settles (.atMost p (m + n)) start v stop ↔
        σ.Settles (.seq (.atMost p m) (.atMost p n)) start v stop) ∧
      (σ.Settles (.atLeast (.atLeast p 0) n) start v stop ↔
        σ.Settles (.atLeast p 0) start v stop)) := by
  refine ⟨fun limit => ⟨?_, ?_, ?_, ?_⟩, fun hquiet start v stop => ⟨?_, ?_⟩⟩
  · exact run_exactly_add hp limit m n
  · exact run_exactly_add hp.recording limit m n
  · exact run_atLeast_add hp limit m n
  · exact run_atLeast_add hp.recording limit m n
  · exact settles_atMost_add hquiet
  · exact settles_atLeast_atLeast_zero hquiet

end Nonempty

/-- Two letters where three are asked for: the callback is called for the attempt that fails, and
the cursor stays behind the byte that was read. -/
theorem letters_add :
    let p : Pattern := .hook (.capture (.forward (.cls .alpha) 2)) 1
    let marks : Callback Store := fun c _ ctx =>
      { pos := c.pos, ctx := { ctx with captures := ctx.captures.push ⟨c.pos, c.pos⟩ } }
    let σ : Setting Store :=
      { host := { Store.host with callback := fun _ => marks }, input := #[97, 98, 49] }
    σ.Quiet p ∧
      (σ.recording.run 0 (.seq (.exactly p 1) (.exactly p 2)) ⟨0, {}, []⟩).map
          (fun r => (r.1, r.2.pos, r.2.ctx.1.captures, r.2.ctx.2)) =
        some (.miss, 3, #[⟨0, 1⟩, ⟨1, 1⟩, ⟨1, 2⟩, ⟨2, 2⟩, ⟨3, 3⟩],
          [.performed (.forwarded 2 ⟨0, 1⟩ #[97]), .performed (.captured ⟨0, 1⟩),
            .called 1 1 (some ⟨0, 1⟩) none,
            .performed (.forwarded 2 ⟨1, 2⟩ #[98]), .performed (.captured ⟨1, 2⟩),
            .called 1 2 (some ⟨1, 2⟩) none, .called 1 3 none none]) ∧
      σ.Settles (.seq (.atMost p 1) (.atMost p 2)) 0 (.hit ⟨0, 2⟩) 2 ∧
      σ.Settles (.atLeast (.atLeast p 0) 2) 0 (.hit ⟨0, 2⟩) 2 := by
  intro p marks σ
  have hquiet : σ.Quiet p := fun _ _ _ _ _ _ => ⟨rfl, rfl⟩
  have : Nonempty Store := ⟨{}⟩
  obtain ⟨hruns, hsettles⟩ := repetitions_add hquiet.keepsPosition 1 2
  refine ⟨hquiet, ?_, ?_, ?_⟩
  · rw [← (hruns 0).2.1]
    decide +kernel
  · refine ((hsettles hquiet 0 _ 2).1).mp ((hquiet.atMost 3).settles (n := 4) (s := ⟨0, {}⟩) ?_)
    decide +kernel
  · refine ((hsettles hquiet 0 _ 2).2).mpr ((hquiet.atLeast 0).settles (n := 4) (s := ⟨0, {}⟩) ?_)
    decide +kernel

end Setting

end Peg
