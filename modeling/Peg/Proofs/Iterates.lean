import Peg.Proofs.Settling

/-! # Repetitions by iterates

A repetition takes its pattern up again wherever the match before left the cursor. These places
are the iterates of the pattern from the start. Each of the three loops goes through them one
after the other, and where it ends is told by the first iterate at which the pattern misses or
stays where it is.
-/
namespace Peg

variable {κ : Type}

namespace Setting

/-- Some matches of `p` in a row, each from where the one before left the cursor, lead from
`start` to a position. -/
inductive Iterate (σ : Setting κ) (p : Pattern) (start : Nat) : Nat → Nat → Prop
  | zero : Iterate σ p start 0 start
  | succ {i pos stop : Nat} {m : Span} (h : Iterate σ p start i pos)
      (hp : σ.Settles p pos (.hit m) stop) : Iterate σ p start (i + 1) stop

/-- At this position `p` either misses or matches without moving. -/
def Rests (σ : Setting κ) (p : Pattern) (pos : Nat) : Prop :=
  (∃ u, σ.Settles p pos .miss u) ∨ ∃ m, σ.Settles p pos (.hit m) pos

/-! How the loops come out, and after how many attempts. -/

inductive ExactlyEnds (σ : Setting κ) (p : Pattern) (start n : Nat) : Nat → Verdict → Nat → Prop
  | done {stop : Nat} (h : σ.Iterate p start n stop) :
      ExactlyEnds σ p start n n (.hit ⟨start, stop⟩) stop
  | fails {i pos stop : Nat} (hi : i < n) (h : σ.Iterate p start i pos)
      (hp : σ.Settles p pos .miss stop) : ExactlyEnds σ p start n (i + 1) .miss stop

inductive AtMostEnds (σ : Setting κ) (p : Pattern) (start n : Nat) : Nat → Verdict → Nat → Prop
  | done {stop : Nat} (h : σ.Iterate p start n stop) :
      AtMostEnds σ p start n n (.hit ⟨start, stop⟩) stop
  | fails {i stop u : Nat} (hi : i < n) (h : σ.Iterate p start i stop)
      (hp : σ.Settles p stop .miss u) : AtMostEnds σ p start n (i + 1) (.hit ⟨start, stop⟩) stop

/-- Of the iterates from number `n` on, the one with number `j` is the first to rest. -/
structure RestsFirst (σ : Setting κ) (p : Pattern) (start n j stop : Nat) : Prop where
  le : n ≤ j
  iterate : σ.Iterate p start j stop
  rests : σ.Rests p stop
  least : ∀ i pos, n ≤ i → i < j → σ.Iterate p start i pos → ¬ σ.Rests p pos

inductive AtLeastEnds (σ : Setting κ) (p : Pattern) (start n : Nat) : Nat → Verdict → Nat → Prop
  | done {j stop : Nat} (h : σ.RestsFirst p start n j stop) :
      AtLeastEnds σ p start n (j + 1) (.hit ⟨start, stop⟩) stop
  | fails {i pos stop : Nat} (hi : i < n) (h : σ.Iterate p start i pos)
      (hp : σ.Settles p pos .miss stop) : AtLeastEnds σ p start n (i + 1) .miss stop

variable {σ : Setting κ} {p : Pattern} {start n i j pos stop : Nat}

theorem Iterate.exists_of_le (h : σ.Iterate p start j stop) (hij : i ≤ j) :
    ∃ pos, σ.Iterate p start i pos := by
  induction h with
  | zero => exact ⟨start, by obtain rfl := Nat.le_zero.mp hij; exact .zero⟩
  | @succ j pos stop m h hp ih =>
    rcases Nat.lt_or_eq_of_le hij with hlt | rfl
    · exact ih (Nat.le_of_lt_succ hlt)
    · exact ⟨stop, h.succ hp⟩

theorem Iterate.trans (h : σ.Iterate p start i pos) (h' : σ.Iterate p pos j stop) :
    σ.Iterate p start (i + j) stop := by
  induction h' with
  | zero => exact h
  | succ _ hp ih => exact ih.succ hp

theorem Iterate.stays {k : Span} (h : σ.Iterate p start i stop)
    (hp : σ.Settles p stop (.hit k) stop) (n : Nat) : σ.Iterate p start (i + n) stop := by
  induction n with
  | zero => exact h
  | succ n ih => exact ih.succ hp

/-- A row of matches may be divided anywhere. -/
theorem Iterate.split (h : σ.Iterate p start (i + j) stop) :
    ∃ pos, σ.Iterate p start i pos ∧ σ.Iterate p pos j stop := by
  induction j generalizing stop with
  | zero => exact ⟨stop, h, .zero⟩
  | succ j ih =>
    cases h with
    | succ h hp =>
      obtain ⟨pos, hfirst, hrest⟩ := ih h
      exact ⟨pos, hfirst, hrest.succ hp⟩

section Nonempty

variable [Nonempty κ]

/-- So many matches from one start lead to one position. -/
theorem Iterate.unique (h : σ.Iterate p start i pos) (h' : σ.Iterate p start i stop) :
    pos = stop := by
  induction h generalizing stop with
  | zero =>
    cases h'
    rfl
  | succ _ hp ih =>
    cases h' with
    | succ h' hp' =>
      obtain rfl := ih h'
      exact (hp.unique hp').2

theorem Iterate.inRange (hp : σ.Quiet p) (h : σ.Iterate p start i pos) :
    start ≤ pos ∧ pos ≤ max start σ.input.size := by
  induction h with
  | zero => exact ⟨Nat.le_refl _, Nat.le_max_left _ _⟩
  | succ _ hp' ih =>
    have hkept := (hp'.kept hp).1
    omega

theorem Rests.not_moves {m : Span} (h : σ.Rests p pos) (hp : σ.Settles p pos (.hit m) stop) :
    stop = pos := by
  rcases h with ⟨u, hmiss⟩ | ⟨k, hk⟩
  · cases (hmiss.unique hp).1
  · exact (hp.unique hk).2

/-- Where a pattern rests, it stays. -/
theorem Iterate.eq_of_rests (h : σ.Iterate p start j stop) (hij : i ≤ j)
    (hi : σ.Iterate p start i pos) (hrests : σ.Rests p pos) : stop = pos := by
  induction h with
  | zero =>
    obtain rfl := Nat.le_zero.mp hij
    exact Iterate.zero.unique hi
  | @succ j mid stop m h hp ih =>
    rcases Nat.lt_or_eq_of_le hij with hlt | rfl
    · obtain rfl := ih (Nat.le_of_lt_succ hlt)
      exact hrests.not_moves hp
    · exact (h.succ hp).unique hi

/-- If `p` ends at every iterate, then it rests at one from number `n` on, since the cursor moves
on between the others and comes no further than the end of the input. -/
theorem Iterate.exists_rests (hp : σ.Quiet p)
    (hends : ∀ i pos, σ.Iterate p start i pos → ∃ v u, σ.Settles p pos v u)
    (h : σ.Iterate p start n pos) :
    ∃ j, n ≤ j ∧ ∃ stop, σ.Iterate p start j stop ∧ σ.Rests p stop := by
  induction hleft : max start σ.input.size - pos using Nat.strongRecOn generalizing n pos with
  | ind left ih =>
    obtain ⟨v, u, hv⟩ := hends n pos h
    cases v with
    | stop why => exact absurd rfl ((hv.attempt hp).goesOn why)
    | miss => exact ⟨n, Nat.le_refl n, pos, h, .inl ⟨u, hv⟩⟩
    | hit m =>
      rcases eq_or_ne u pos with rfl | hmoved
      · exact ⟨n, Nat.le_refl n, u, h, .inr ⟨m, hv⟩⟩
      · have hkept := (hv.kept hp).1
        have hnext := h.succ hv
        have hrange := hnext.inRange hp
        obtain ⟨j, hj, stop, hstop⟩ := ih _ (by omega) hnext rfl
        exact ⟨j, by omega, stop, hstop⟩

/-- If the pattern rests at some iterate from number `n` on, then the first one at which it rests
is at the same position. -/
theorem Iterate.restsFirst (h : σ.Iterate p start j stop) (hj : n ≤ j) (hrests : σ.Rests p stop) :
    ∃ k, σ.RestsFirst p start n k stop := by
  induction j using Nat.strongRecOn with
  | ind j ih =>
    by_cases hbefore : ∃ i pos, n ≤ i ∧ i < j ∧ σ.Iterate p start i pos ∧ σ.Rests p pos
    · obtain ⟨i, pos, hi, hlt, hpos, hposrests⟩ := hbefore
      obtain rfl := h.eq_of_rests (Nat.le_of_lt hlt) hpos hposrests
      exact ih i hlt hpos hi
    · exact ⟨j, hj, h, hrests, fun i pos hi hlt hpos hposrests =>
        hbefore ⟨i, pos, hi, hlt, hpos, hposrests⟩⟩

/-- If every attempt ends, some iterate is the first to rest. -/
theorem Iterate.exists_restsFirst (hp : σ.Quiet p)
    (hends : ∀ i pos, σ.Iterate p start i pos → ∃ v u, σ.Settles p pos v u)
    (h : σ.Iterate p start n pos) : ∃ j stop, σ.RestsFirst p start n j stop := by
  obtain ⟨j, hj, stop, hstop, hrests⟩ := h.exists_rests hp hends
  obtain ⟨k, hk⟩ := hstop.restsFirst hj hrests
  exact ⟨k, stop, hk⟩

/-- The pattern misses at one of the first `n` iterates, or there is one with number `n`. -/
theorem exists_iterate (hp : σ.Quiet p)
    (hends : ∀ i pos, σ.Iterate p start i pos → ∃ v u, σ.Settles p pos v u) (n : Nat) :
    (∃ pos, σ.Iterate p start n pos) ∨
      ∃ i pos u, i < n ∧ σ.Iterate p start i pos ∧ σ.Settles p pos .miss u := by
  induction n with
  | zero => exact .inl ⟨start, .zero⟩
  | succ n ih =>
    rcases ih with ⟨pos, h⟩ | ⟨i, pos, u, hi, h, hmiss⟩
    · obtain ⟨v, u, hv⟩ := hends n pos h
      cases v with
      | hit m => exact .inl ⟨u, h.succ hv⟩
      | miss => exact .inr ⟨n, pos, u, Nat.lt_succ_self n, h, hv⟩
      | stop why => exact absurd rfl ((hv.attempt hp).goesOn why)
    · exact .inr ⟨i, pos, u, Nat.lt_succ_of_lt hi, h, hmiss⟩

end Nonempty

/-! A run of a loop passes the iterates: what is left of the loop goes on from there. -/

/-- Whatever goes on with one round less after every match on the way gets to the iterate with
its rounds left. -/
theorem Iterate.passes (h : σ.Iterate p start i pos) :
    Eventually fun limit ctx ctx' => ∀ loop : Nat → Step κ,
      (∀ k s m t, k < i → σ.Iterate p start k s.pos → σ.Settles p s.pos (.hit m) t.pos →
        σ.run limit p s = some (.hit m, t) → ∀ rounds, loop (rounds + 1) s = loop rounds t) →
      ∀ rounds, loop (i + rounds) ⟨start, ctx⟩ = loop rounds ⟨pos, ctx'⟩ := by
  induction h with
  | zero => exact ⟨0, fun limit _ ctx => ⟨ctx, fun loop _ rounds => by rw [Nat.zero_add]⟩⟩
  | @succ i pos stop m h hp ih =>
    apply (ih.andThen hp).mono
    rintro limit ctx ctx' ⟨ctx₁, hpass, hhit⟩ loop hloop rounds
    have hbefore := hpass loop
      (fun k s m t hk hs hm ht => hloop k s m t (by omega) hs hm ht) (rounds + 1)
    rw [Nat.add_assoc, Nat.add_comm 1 rounds, hbefore]
    exact hloop i _ m _ (Nat.lt_succ_self i) h hp hhit rounds

theorem Iterate.repeated (h : σ.Iterate p start i pos) :
    Eventually fun limit ctx ctx' => ∀ next k,
      Step.repeated (σ.run limit p) next (i + k) ⟨start, ctx⟩ =
        Step.repeated (σ.run limit p) next k ⟨pos, ctx'⟩ := by
  apply h.passes.mono
  intro limit ctx ctx' hpass next
  exact hpass (Step.repeated _ next) fun _ _ _ _ _ _ _ hhit k => Step.repeated_hit hhit k

theorem Iterate.repeated_fails (h : σ.Iterate p start i pos) (hi : i < n)
    (hmiss : σ.Settles p pos .miss stop) :
    Eventually fun limit ctx ctx' => ∀ next,
      Step.repeated (σ.run limit p) next n ⟨start, ctx⟩ = some (.miss, ⟨stop, ctx'⟩) := by
  obtain ⟨k, rfl⟩ := Nat.exists_eq_add_of_lt hi
  apply (h.repeated.andThen hmiss).mono
  rintro limit ctx ctx' ⟨ctx₁, hpass, hmiss⟩ next
  rw [Nat.add_assoc, hpass next (k + 1), Step.repeated_miss hmiss]

theorem Iterate.upTo (h : σ.Iterate p start i pos) (first : Nat) :
    Eventually fun limit ctx ctx' => ∀ k,
      Step.upTo (σ.run limit p) first (i + k) ⟨start, ctx⟩ =
        Step.upTo (σ.run limit p) first k ⟨pos, ctx'⟩ := by
  apply h.passes.mono
  intro limit ctx ctx' hpass
  exact hpass (Step.upTo _ first) fun _ _ _ _ _ _ _ hhit k => Step.upTo_hit hhit first k

/-- The greedy part of a loop passes the iterates as long as the pattern does not rest. -/
theorem Iterate.greedy [Nonempty κ] (h : σ.Iterate p start i pos)
    (hmoves : ∀ k q, k < i → σ.Iterate p start k q → ¬ σ.Rests p q) (first : Nat) :
    Eventually fun limit ctx ctx' => ∀ k,
      Step.greedy (σ.run limit p) first (i + k) start ⟨start, ctx⟩ =
        Step.greedy (σ.run limit p) first k pos ⟨pos, ctx'⟩ := by
  apply h.passes.mono
  intro limit ctx ctx' hpass
  apply hpass fun k s => Step.greedy _ first k s.pos s
  intro k s m t hk hs hm hhit rounds
  have hmoved : t.pos ≠ s.pos := fun heq => hmoves k s.pos hk hs (.inr ⟨m, heq ▸ hm⟩)
  exact (Step.branch_hit hhit).trans (if_neg hmoved)

theorem Rests.greedy (h : σ.Rests p pos) {first : Nat} (hfirst : first ≤ pos) :
    Eventually fun limit ctx ctx' => ∀ k,
      Step.greedy (σ.run limit p) first (k + 1) pos ⟨pos, ctx⟩ =
        some (.hit ⟨first, pos⟩, ⟨pos, ctx'⟩) := by
  rcases h with ⟨u, hmiss⟩ | ⟨m, hhit⟩
  · apply hmiss.mono
    intro limit ctx ctx' h k
    exact (Step.branch_miss h).trans (Step.close_of_le hfirst)
  · apply hhit.mono
    intro limit ctx ctx' h k
    exact ((Step.branch_hit h).trans (if_pos rfl)).trans (Step.close_of_le hfirst)

section Nonempty

variable [Nonempty κ] {tries : Nat} {v : Verdict}

theorem ExactlyEnds.settles (hp : σ.Quiet p) (h : σ.ExactlyEnds p start n tries v stop) :
    σ.Settles (.exactly p n) start v stop := by
  cases h with
  | done h =>
    apply h.repeated.mono
    intro limit ctx ctx' hpass
    exact (hpass (Step.close start) 0).trans (Step.close_of_le (h.inRange hp).1)
  | fails hi h hmiss => exact (h.repeated_fails hi hmiss).mono fun _ _ _ hloop => hloop _

theorem AtMostEnds.settles (hp : σ.Quiet p) (h : σ.AtMostEnds p start n tries v stop) :
    σ.Settles (.atMost p n) start v stop := by
  cases h with
  | done h =>
    apply (h.upTo start).mono
    intro limit ctx ctx' hpass
    exact (hpass 0).trans (Step.close_of_le (h.inRange hp).1)
  | fails hi h hmiss =>
    obtain ⟨k, rfl⟩ := Nat.exists_eq_add_of_lt hi
    apply ((h.upTo start).andThen hmiss).mono
    rintro limit ctx ctx' ⟨ctx₁, hpass, hmiss⟩
    have hclose := (Step.upTo_miss hmiss start k).trans (Step.close_of_le (h.inRange hp).1)
    exact (hpass (k + 1)).trans hclose

theorem AtLeastEnds.settles (hp : σ.Quiet p) (h : σ.AtLeastEnds p start n tries v stop) :
    σ.Settles (.atLeast p n) start v stop := by
  cases h with
  | @done j _ h =>
    obtain ⟨d, rfl⟩ := Nat.exists_eq_add_of_le h.le
    obtain ⟨q, hfirst, hrest⟩ := h.iterate.split
    have hmoves : ∀ k r, k < d → σ.Iterate p q k r → ¬ σ.Rests p r := fun k r hk hr =>
      h.least (n + k) r (Nat.le_add_right n k) (by omega) (hfirst.trans hr)
    have hlast := h.rests.greedy (h.iterate.inRange hp).1
    -- the limit leaves a round for each iterate behind the minimum and for the last attempt
    apply ((hfirst.repeated.andThen ((hrest.greedy hmoves start).andThen hlast)).beyond d).mono
    rintro limit ctx ctx' ⟨hlimit, ctx₁, hrepeated, ctx₂, hgreedy, hclose⟩
    obtain ⟨k, hk⟩ := Nat.exists_eq_add_of_lt hlimit
    calc σ.run limit (.atLeast p n) ⟨start, ctx⟩
        = Step.greedy (σ.run limit p) start limit q ⟨q, ctx₁⟩ := hrepeated _ 0
      _ = Step.greedy (σ.run limit p) start (d + (k + 1)) q ⟨q, ctx₁⟩ := by
          rw [show d + (k + 1) = limit by omega]
      _ = Step.greedy (σ.run limit p) start (k + 1) stop ⟨stop, ctx₂⟩ := hgreedy (k + 1)
      _ = some (.hit ⟨start, stop⟩, ⟨stop, ctx'⟩) := hclose k
  | fails hi h hmiss => exact (h.repeated_fails hi hmiss).mono fun _ _ _ hloop => hloop _

end Nonempty

end Setting

end Peg
