import Peg.Proofs.Transparency

/-! # What a pattern settles for

Where callbacks leave the cursor alone and never ask to stop, the context has no say in how an
evaluation comes out. So a pattern settles for one verdict and one place of the cursor at every
start from which it ends, and for a composed pattern both follow from those of its parts.
-/
namespace Peg

variable {κ : Type}

/-- Within every limit from some one on, whatever the context is before, there is a context
afterwards of which this holds. -/
def Eventually (P : Nat → κ → κ → Prop) : Prop :=
  ∃ n, ∀ limit, n ≤ limit → ∀ ctx, ∃ ctx', P limit ctx ctx'

namespace Eventually

variable {P Q : Nat → κ → κ → Prop}

theorem mono (h : Eventually P) (hPQ : ∀ limit ctx ctx', P limit ctx ctx' → Q limit ctx ctx') :
    Eventually Q := by
  obtain ⟨n, hn⟩ := h
  refine ⟨n, fun limit hlimit ctx => ?_⟩
  obtain ⟨ctx', h⟩ := hn limit hlimit ctx
  exact ⟨ctx', hPQ limit ctx ctx' h⟩

/-- What holds eventually, and what holds eventually behind it, hold in a row. -/
theorem andThen (h : Eventually P) (h' : Eventually Q) :
    Eventually fun limit ctx ctx' => ∃ ctx₁, P limit ctx ctx₁ ∧ Q limit ctx₁ ctx' := by
  obtain ⟨n, hn⟩ := h
  obtain ⟨n', hn'⟩ := h'
  refine ⟨max n n', fun limit hlimit ctx => ?_⟩
  obtain ⟨ctx₁, h⟩ := hn limit (by omega) ctx
  obtain ⟨ctx₂, h'⟩ := hn' limit (by omega) ctx₁
  exact ⟨ctx₂, ctx₁, h, h'⟩

theorem later (h : Eventually fun limit => P (limit + 1)) : Eventually P := by
  obtain ⟨n, hn⟩ := h
  refine ⟨n + 1, fun limit hlimit ctx => ?_⟩
  obtain ⟨k, rfl⟩ := Nat.exists_eq_add_of_le hlimit
  rw [Nat.add_right_comm]
  exact hn (n + k) (Nat.le_add_right n k) ctx

theorem beyond (h : Eventually P) (k : Nat) :
    Eventually fun limit ctx ctx' => k < limit ∧ P limit ctx ctx' := by
  obtain ⟨n, hn⟩ := h
  refine ⟨max n (k + 1), fun limit hlimit ctx => ?_⟩
  obtain ⟨ctx', h⟩ := hn limit (by omega) ctx
  exact ⟨ctx', by omega, h⟩

end Eventually

namespace Setting

/-- From `start`, whatever the context and within every limit from some one on, `p` comes out
as `v` with the cursor at `stop`. -/
def Settles (σ : Setting κ) (p : Pattern) (start : Nat) (v : Verdict) (stop : Nat) : Prop :=
  Eventually fun limit ctx ctx' => σ.run limit p ⟨start, ctx⟩ = some (v, ⟨stop, ctx'⟩)

variable {σ : Setting κ} {p a b : Pattern} {start stop : Nat} {v : Verdict}

theorem Quiet.run_anyContext (hp : σ.Quiet p) (n start : Nat) (ctx ctx' : κ) :
    (σ.run n p ⟨start, ctx⟩).map (fun r => (r.1, r.2.pos)) =
      (σ.run n p ⟨start, ctx'⟩).map fun r => (r.1, r.2.pos) :=
  (run_bare hp Host.blank n start ctx ()).symm.trans (run_bare hp Host.blank n start ctx' ())

/-- One run of a quiet pattern tells what it settles for. -/
theorem Quiet.settles (hp : σ.Quiet p) {n : Nat} {s : State κ}
    (h : (σ.run n p s).map (fun r => (r.1, r.2.pos)) = some (v, stop)) :
    σ.Settles p s.pos v stop := by
  obtain ⟨r, hr, _⟩ := Option.map_eq_some_iff.mp h
  -- a larger limit changes nothing, and another context only the context
  refine ⟨n, fun limit hlimit ctx => ?_⟩
  have hlarger : σ.run limit p s = σ.run n p s := by
    rw [hr, σ.run_below hlimit p s r hr]
  have hmap := hp.run_anyContext limit s.pos ctx s.ctx
  rw [hlarger, h] at hmap
  obtain ⟨⟨w, t⟩, ht, heq⟩ := Option.map_eq_some_iff.mp hmap
  obtain ⟨rfl, rfl⟩ := Prod.mk.inj heq
  exact ⟨t.ctx, ht⟩

theorem Quiet.goesOn (hp : σ.Quiet p) (n : Nat) (s : State κ) :
    (σ.run n p).Ensures s fun v _ => ∀ why, v ≠ .stop why := by
  rintro v t ht why rfl
  have hbare := run_bare hp Host.blank n s.pos s.ctx ()
  rw [ht] at hbare
  obtain ⟨⟨w, u⟩, hu, heq⟩ := Option.map_eq_some_iff.mp hbare
  obtain ⟨rfl, -⟩ := Prod.mk.inj heq
  exact run_ne_stop (hookFree_bare σ Host.blank p) hu

structure Attempt (σ : Setting κ) (p : Pattern) (start : Nat) (v : Verdict) (stop : Nat) :
    Prop where
  settles : σ.Settles p start v stop
  goesOn : ∀ why, v ≠ .stop why

theorem Quiet.attempt (hp : σ.Quiet p) (n : Nat) (s : State κ) :
    (σ.run n p).Ensures s fun v t => σ.Attempt p s.pos v t.pos := fun v t ht =>
  ⟨hp.settles (by rw [ht]; rfl), hp.goesOn n s v t ht⟩

/-- An evaluation that ends comes to a match or a miss that the pattern settles for. -/
theorem Quiet.ends_iff (hp : σ.Quiet p) (s : State κ) :
    (∃ n, (σ.run n p s).isSome) ↔
      (∃ m stop, σ.Settles p s.pos (.hit m) stop) ∨ ∃ stop, σ.Settles p s.pos .miss stop := by
  constructor
  · rintro ⟨n, h⟩
    obtain ⟨⟨v, t⟩, ht⟩ := Option.isSome_iff_exists.mp h
    have hattempt := hp.attempt n s v t ht
    cases v with
    | hit m => exact .inl ⟨m, t.pos, hattempt.settles⟩
    | miss => exact .inr ⟨t.pos, hattempt.settles⟩
    | stop why => exact absurd rfl (hattempt.goesOn why)
  · rintro (⟨m, stop, n, h⟩ | ⟨stop, n, h⟩)
    · obtain ⟨ctx, hrun⟩ := h n (Nat.le_refl n) s.ctx
      exact ⟨n, Option.isSome_of_eq_some hrun⟩
    · obtain ⟨ctx, hrun⟩ := h n (Nat.le_refl n) s.ctx
      exact ⟨n, Option.isSome_of_eq_some hrun⟩

theorem Quiet.seq (ha : σ.Quiet a) (hb : σ.Quiet b) : σ.Quiet (.seq a b) := by
  refine .of_parts (by simp) (by simp) fun q hq => ?_
  cases hq
  · exact ha
  · exact hb

theorem Quiet.choice (ha : σ.Quiet a) (hb : σ.Quiet b) : σ.Quiet (.choice a b) := by
  refine .of_parts (by simp) (by simp) fun q hq => ?_
  cases hq
  · exact ha
  · exact hb

theorem Quiet.not (hp : σ.Quiet p) : σ.Quiet (.not p) :=
  .of_parts (by simp) (by simp) fun q hq => by cases hq; exact hp

theorem Quiet.atLeast (hp : σ.Quiet p) (n : Nat) : σ.Quiet (.atLeast p n) :=
  .of_parts (by simp) (by simp) fun q hq => by cases hq; exact hp

theorem Quiet.atMost (hp : σ.Quiet p) (n : Nat) : σ.Quiet (.atMost p n) :=
  .of_parts (by simp) (by simp) fun q hq => by cases hq; exact hp

section Nonempty

variable [hκ : Nonempty κ]
include hκ

/-- A pattern settles for one verdict and one position at most. -/
theorem Settles.unique {v' : Verdict} {stop' : Nat} (h : σ.Settles p start v stop)
    (h' : σ.Settles p start v' stop') : v = v' ∧ stop = stop' := by
  obtain ⟨ctx⟩ := hκ
  obtain ⟨n, hn⟩ := h
  obtain ⟨n', hn'⟩ := h'
  obtain ⟨t, ht⟩ := hn _ (Nat.le_max_left n n') ctx
  obtain ⟨t', ht'⟩ := hn' _ (Nat.le_max_right n n') ctx
  rw [ht] at ht'
  cases ht'
  exact ⟨rfl, rfl⟩

theorem Settles.exists_run (h : σ.Settles p start v stop) :
    ∃ n ctx ctx', σ.run n p ⟨start, ctx⟩ = some (v, ⟨stop, ctx'⟩) := by
  obtain ⟨ctx⟩ := hκ
  obtain ⟨n, hn⟩ := h
  exact ⟨n, ctx, hn n (Nat.le_refl n) ctx⟩

theorem Settles.kept (hp : σ.Quiet p) (h : σ.Settles p start v stop) :
    (start ≤ stop ∧ stop ≤ max start σ.input.size) ∧
      ∀ m, v = .hit m → m.start = start ∧ stop ≤ m.stop ∧ m.stop ≤ max start σ.input.size := by
  obtain ⟨n, ctx, ctx', hrun⟩ := h.exists_run
  have hkept := run_inRange hp.keepsPosition n _ _ _ hrun
  exact ⟨⟨hkept.after, hkept.before⟩, hkept.span⟩

theorem Settles.hit_start {m : Span} (hp : σ.Quiet p) (h : σ.Settles p start (.hit m) stop) :
    m.start = start := ((h.kept hp).2 m rfl).1

theorem Settles.attempt (hp : σ.Quiet p) (h : σ.Settles p start v stop) :
    σ.Attempt p start v stop := by
  obtain ⟨n, ctx, ctx', hrun⟩ := h.exists_run
  exact hp.attempt n _ _ _ hrun

/-- A sequence settles for what its right side does where its left side left the cursor. -/
theorem settles_seq (ha : σ.Quiet a) (hb : σ.Quiet b) :
    σ.Settles (.seq a b) start v stop ↔
      (∃ m k u, v = .hit (m.upTo k) ∧ σ.Settles a start (.hit m) u ∧ σ.Settles b u (.hit k) stop) ∨
      (v = .miss ∧ (σ.Settles a start .miss stop ∨
        ∃ m u, σ.Settles a start (.hit m) u ∧ σ.Settles b u .miss stop)) := by
  constructor
  · intro h
    obtain ⟨n, ctx, ctx', hrun⟩ := h.exists_run
    have hensures : (σ.run n (.seq a b)).Ensures ⟨start, ctx⟩ fun v t =>
        (∃ m k u, v = .hit (m.upTo k) ∧ σ.Settles a start (.hit m) u ∧
          σ.Settles b u (.hit k) t.pos) ∨
        (v = .miss ∧ (σ.Settles a start .miss t.pos ∨
          ∃ m u, σ.Settles a start (.hit m) u ∧ σ.Settles b u .miss t.pos)) := by
      refine (ha.attempt n _).branch (fun m u hm => ?_) (fun u hu => ?_)
        (fun why _ hu => absurd rfl (hu.goesOn why))
      · refine (hb.attempt n u).branch (fun k t hk => ?_) (fun t ht => ?_)
          (fun why _ ht => absurd rfl (ht.goesOn why))
        · exact .give (.inl ⟨m, k, u.pos, rfl, hm.settles, hk.settles⟩)
        · exact .give (.inr ⟨rfl, .inr ⟨m, u.pos, hm.settles, ht.settles⟩⟩)
      · exact .give (.inr ⟨rfl, .inl hu.settles⟩)
    exact hensures v _ hrun
  · rintro (⟨m, k, u, rfl, hm, hk⟩ | ⟨rfl, hmiss | ⟨m, u, hm, hmiss⟩⟩)
    · apply (hm.andThen hk).mono
      rintro limit ctx ctx' ⟨ctx₁, ha, hb⟩
      rw [run_seq, Step.seq, Step.branch_hit ha, Step.branch_hit hb]
      rfl
    · apply hmiss.mono
      intro limit ctx ctx' ha
      rw [run_seq, Step.seq, Step.branch_miss ha]
      rfl
    · apply (hm.andThen hmiss).mono
      rintro limit ctx ctx' ⟨ctx₁, ha, hb⟩
      rw [run_seq, Step.seq, Step.branch_hit ha, Step.branch_miss hb]
      rfl

theorem settles_seq_hit {m : Span} (ha : σ.Quiet a) (hb : σ.Quiet b) :
    σ.Settles (.seq a b) start (.hit m) stop ↔
      ∃ k u l, σ.Settles a start (.hit k) u ∧ σ.Settles b u (.hit l) stop ∧
        m = ⟨start, l.stop⟩ := by
  rw [settles_seq ha hb]
  constructor
  · rintro (⟨k, l, u, heq, hk, hl⟩ | ⟨heq, -⟩)
    · obtain rfl := Verdict.hit.inj heq
      refine ⟨k, u, l, hk, hl, ?_⟩
      rw [Span.upTo, hk.hit_start ha]
    · cases heq
  · rintro ⟨k, u, l, hk, hl, rfl⟩
    refine .inl ⟨k, l, u, ?_, hk, hl⟩
    rw [Span.upTo, hk.hit_start ha]

/-- A choice settles for the match of the first side that matches, closed where that side left
the cursor, and else at its start. -/
theorem settles_choice (ha : σ.Quiet a) (hb : σ.Quiet b) :
    σ.Settles (.choice a b) start v stop ↔
      (v = .hit ⟨start, stop⟩ ∧ ((∃ m, σ.Settles a start (.hit m) stop) ∨
        ∃ u m, σ.Settles a start .miss u ∧ σ.Settles b start (.hit m) stop)) ∨
      (v = .miss ∧ stop = start ∧ ∃ u u', σ.Settles a start .miss u ∧
        σ.Settles b start .miss u') := by
  constructor
  · intro h
    obtain ⟨n, ctx, ctx', hrun⟩ := h.exists_run
    have hensures : (σ.run n (.choice a b)).Ensures ⟨start, ctx⟩ fun v t =>
        (v = .hit ⟨start, t.pos⟩ ∧ ((∃ m, σ.Settles a start (.hit m) t.pos) ∨
          ∃ u m, σ.Settles a start .miss u ∧ σ.Settles b start (.hit m) t.pos)) ∨
        (v = .miss ∧ t.pos = start ∧ ∃ u u', σ.Settles a start .miss u ∧
          σ.Settles b start .miss u') := by
      refine Step.Ensures.branch (ha.attempt n _) (fun m u hm => ?_) (fun u hu => ?_)
        (fun why _ hu => absurd rfl (hu.goesOn why))
      · exact .close (hm.settles.kept ha).1.1 (.inl ⟨rfl, .inl ⟨m, hm.settles⟩⟩)
      · refine .movedTo (Step.Ensures.branch (hb.attempt n _) (fun m t hm => ?_)
          (fun t ht => .movedTo (.give ?_)) (fun why _ ht => absurd rfl (ht.goesOn why)))
        · exact .close (hm.settles.kept hb).1.1
            (.inl ⟨rfl, .inr ⟨u.pos, m, hu.settles, hm.settles⟩⟩)
        · exact .inr ⟨rfl, rfl, u.pos, t.pos, hu.settles, ht.settles⟩
    exact hensures v _ hrun
  · rintro (⟨rfl, ⟨m, hm⟩ | ⟨u, m, hmiss, hm⟩⟩ | ⟨rfl, rfl, u, u', hmiss, hmiss'⟩)
    · have hle := (hm.kept ha).1.1
      apply hm.mono
      intro limit ctx ctx' ha
      rw [run_choice, Step.choice, Step.branch_hit ha]
      exact Step.close_of_le hle
    · have hle := (hm.kept hb).1.1
      apply (hmiss.andThen hm).mono
      rintro limit ctx ctx' ⟨ctx₁, ha, hb⟩
      rw [run_choice, Step.choice, Step.branch_miss ha, Step.movedTo, Step.branch_hit hb]
      exact Step.close_of_le hle
    · apply (hmiss.andThen hmiss').mono
      rintro limit ctx ctx' ⟨ctx₁, ha, hb⟩
      rw [run_choice, Step.choice, Step.branch_miss ha, Step.movedTo, Step.branch_miss hb]
      rfl

/-- A negation settles at its start, for the opposite of what its part does. -/
theorem settles_not (hp : σ.Quiet p) :
    σ.Settles (.not p) start v stop ↔ stop = start ∧
      ((v = .hit (Span.emptyAt start) ∧ ∃ u, σ.Settles p start .miss u) ∨
        (v = .miss ∧ ∃ m u, σ.Settles p start (.hit m) u)) := by
  constructor
  · intro h
    obtain ⟨n, ctx, ctx', hrun⟩ := h.exists_run
    have hensures : (σ.run n (.not p)).Ensures ⟨start, ctx⟩ fun v t => t.pos = start ∧
        ((v = .hit (Span.emptyAt start) ∧ ∃ u, σ.Settles p start .miss u) ∨
          (v = .miss ∧ ∃ m u, σ.Settles p start (.hit m) u)) := by
      refine Step.Ensures.branch (hp.attempt n _) (fun m u hm => ?_) (fun u hu => ?_)
        (fun why _ hu => absurd rfl (hu.goesOn why))
      · exact .movedTo (.give ⟨rfl, .inr ⟨rfl, m, u.pos, hm.settles⟩⟩)
      · exact .movedTo (.give ⟨rfl, .inl ⟨rfl, u.pos, hu.settles⟩⟩)
    exact hensures v _ hrun
  · rintro ⟨rfl, ⟨rfl, u, hmiss⟩ | ⟨rfl, m, u, hhit⟩⟩
    · exact hmiss.mono fun _ _ _ h => Step.branch_miss h
    · exact hhit.mono fun _ _ _ h => Step.branch_hit h

theorem Settles.not_of_miss (hp : σ.Quiet p) (h : σ.Settles p start .miss stop) :
    σ.Settles (.not p) start (.hit (Span.emptyAt start)) start :=
  (settles_not hp).mpr ⟨rfl, .inl ⟨rfl, stop, h⟩⟩

theorem Settles.not_of_hit {m : Span} (hp : σ.Quiet p) (h : σ.Settles p start (.hit m) stop) :
    σ.Settles (.not p) start .miss start :=
  (settles_not hp).mpr ⟨rfl, .inr ⟨rfl, m, stop, h⟩⟩

end Nonempty

end Setting

end Peg
