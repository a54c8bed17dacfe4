import Mathlib.Data.List.Forall2
import Peg.Proofs.Iterates

/-! # Walks through the iterates

A loop that writes down where its pattern is taken up walks through the iterates: before every
attempt the cursor is at the next one, and all that was written down is the iterates so far. How
the loop comes out, and after which attempt, follows from the attempt that ends it.
-/
namespace Peg

variable {κ : Type}

namespace Step

def logged (p : Step κ) : Step (κ × List Nat) := fun s =>
  (p ⟨s.pos, s.ctx.1⟩).map fun r => (r.1, ⟨r.2.pos, r.2.ctx, s.ctx.2 ++ [s.pos]⟩)

theorem logged_follows (p : Step κ) : p.logged.Follows 0 Prod.fst p := by
  intro s
  simp [logged, State.map, Function.comp_def]

theorem Ensures.logged {p : Step κ} {s : State (κ × List Nat)} {post : Verdict → State κ → Prop}
    (h : p.Ensures ⟨s.pos, s.ctx.1⟩ post) :
    p.logged.Ensures s fun v t => post v ⟨t.pos, t.ctx.1⟩ ∧ t.ctx.2 = s.ctx.2 ++ [s.pos] := by
  intro v t ht
  obtain ⟨⟨w, u⟩, hu, heq⟩ := Option.map_eq_some_iff.mp ht
  cases heq
  exact ⟨h w u hu, rfl⟩

end Step

namespace Setting

/-- The positions that were written down are the first `k` iterates in order. -/
def Tried (σ : Setting κ) (p : Pattern) (start k : Nat) (log : List Nat) : Prop :=
  List.Forall₂ (σ.Iterate p start) (List.range k) log

/-- The repetition `q` of `p` is a loop that comes out as told, and every run of it takes `p` up
just at the iterates up to the attempt that ends it. -/
structure Traces (σ : Setting κ) (p q : Pattern) (start : Nat)
    (loop : ∀ κ : Type, Nat → Step κ → Step κ) (Ends : Nat → Verdict → Nat → Prop) : Prop where
  run_eq : ∀ limit, σ.run limit q = loop κ limit (σ.run limit p)
  settles : ∀ v stop, σ.Settles q start v stop ↔ ∃ tries, Ends tries v stop
  logged : ∀ limit ctx v t, σ.run limit q ⟨start, ctx⟩ = some (v, t) → ∃ log tries,
    loop (κ × List Nat) limit (σ.run limit p).logged ⟨start, ctx, []⟩ =
      some (v, ⟨t.pos, t.ctx, log⟩) ∧
    Ends tries v t.pos ∧ σ.Tried p start tries log

variable {σ : Setting κ} {p : Pattern} {start n i pos stop limit : Nat}

theorem Tried.succ {log : List Nat} (h : σ.Tried p start i log) (hi : σ.Iterate p start i pos) :
    σ.Tried p start (i + 1) (log ++ [pos]) := by
  rw [Tried, List.range_succ]
  exact List.rel_append h (.cons hi .nil)

structure Walked (σ : Setting κ) (p : Pattern) (start i : Nat) (u : State (κ × List Nat)) :
    Prop where
  iterate : σ.Iterate p start i u.pos
  tried : σ.Tried p start i u.ctx.2

def Told (σ : Setting κ) (p : Pattern) (start : Nat) (Ends : Nat → Verdict → Nat → Prop)
    (v : Verdict) (t : State (κ × List Nat)) : Prop :=
  ∃ tries, Ends tries v t.pos ∧ σ.Tried p start tries t.ctx.2

theorem Walked.refl (start : Nat) (ctx : κ) : σ.Walked p start 0 ⟨start, ctx, []⟩ :=
  ⟨.zero, .nil⟩

section Loops

variable {Ends : Nat → Verdict → Nat → Prop} {u : State (κ × List Nat)}

structure Attempted (σ : Setting κ) (p : Pattern) (start i : Nat) (u : State (κ × List Nat))
    (v : Verdict) (t : State (κ × List Nat)) : Prop extends σ.Attempt p u.pos v t.pos where
  tried : σ.Tried p start (i + 1) t.ctx.2

theorem Walked.attempt (hp : σ.Quiet p) (h : σ.Walked p start i u) :
    (σ.run limit p).logged.Ensures u (σ.Attempted p start i u) := by
  refine (hp.attempt limit ⟨u.pos, u.ctx.1⟩).logged.mono fun v t ht => ⟨ht.1, ?_⟩
  rw [ht.2]
  exact h.tried.succ h.iterate

theorem Walked.succ {m : Span} {t : State (κ × List Nat)} (h : σ.Walked p start i u)
    (ht : σ.Attempted p start i u (.hit m) t) : σ.Walked p start (i + 1) t :=
  ⟨h.iterate.succ ht.settles, ht.tried⟩

theorem Attempted.false {why : Abort} {t : State (κ × List Nat)} {P : Prop}
    (ht : σ.Attempted p start i u (.stop why) t) : P := absurd rfl (ht.goesOn why)

theorem Walked.repeated (hp : σ.Quiet p) {next : Step (κ × List Nat)}
    (hnext : ∀ u, σ.Walked p start n u → next.Ensures u (σ.Told p start Ends))
    (hfails : ∀ i pos stop, i < n → σ.Iterate p start i pos → σ.Settles p pos .miss stop →
      Ends (i + 1) .miss stop) (k : Nat) (hk : i + k = n) (h : σ.Walked p start i u) :
    (Step.repeated (σ.run limit p).logged next k).Ensures u (σ.Told p start Ends) := by
  induction k generalizing i u with
  | zero =>
    obtain rfl : i = n := hk
    exact hnext u h
  | succ k ih =>
    refine (h.attempt hp).branch (fun m t ht => ih (by omega) (h.succ ht)) (fun t ht => .give ?_)
      fun why t ht => ht.false
    exact ⟨i + 1, hfails i u.pos t.pos (by omega) h.iterate ht.settles, ht.tried⟩

theorem Walked.upTo [Nonempty κ] (hp : σ.Quiet p) (k : Nat) (hk : i + k = n)
    (h : σ.Walked p start i u) :
    (Step.upTo (σ.run limit p).logged start k).Ensures u
      (σ.Told p start (σ.AtMostEnds p start n)) := by
  induction k generalizing i u with
  | zero =>
    obtain rfl : i = n := hk
    exact .close (h.iterate.inRange hp).1 ⟨i, .done h.iterate, h.tried⟩
  | succ k ih =>
    refine Step.Ensures.branch (h.attempt hp) (fun m t ht => ih (by omega) (h.succ ht))
      (fun t ht => .movedTo (.close (h.iterate.inRange hp).1 ?_)) fun why t ht => ht.false
    exact ⟨i + 1, .fails (by omega) h.iterate ht.settles, ht.tried⟩

/-- The rounds behind the minimum go on to the first iterate that rests. -/
theorem Walked.greedy [Nonempty κ] (hp : σ.Quiet p) (rounds : Nat) (hi : n ≤ i)
    (hmoves : ∀ k q, n ≤ k → k < i → σ.Iterate p start k q → ¬ σ.Rests p q)
    (h : σ.Walked p start i u) :
    (Step.greedy (σ.run limit p).logged start rounds u.pos).Ensures u
      (σ.Told p start (σ.AtLeastEnds p start n)) := by
  induction rounds generalizing i u with
  | zero => exact fun v t ht => by cases ht
  | succ rounds ih =>
    have hrests : ∀ v t, σ.Attempted p start i u v t → σ.Rests p u.pos →
        (Step.movedTo u.pos (Step.close start)).Ensures t
          (σ.Told p start (σ.AtLeastEnds p start n)) := fun v t ht hr =>
      .movedTo (.close (h.iterate.inRange hp).1
        ⟨i + 1, .done ⟨hi, h.iterate, hr, hmoves⟩, ht.tried⟩)
    refine (h.attempt hp).branch (fun m t ht => ?_)
      (fun t ht => hrests _ t ht (.inl ⟨t.pos, ht.settles⟩)) fun why t ht => ht.false
    intro v r hr
    dsimp only at hr
    split at hr
    · rename_i hstayed
      exact hrests _ t ht (.inr ⟨m, hstayed ▸ ht.settles⟩) v r hr
    · rename_i hmoved
      refine ih (Nat.le_succ_of_le hi) (fun k q hn hk hq hqrests => ?_) (h.succ ht) v r hr
      rcases Nat.lt_or_eq_of_le (Nat.le_of_lt_succ hk) with hlt | rfl
      · exact hmoves k q hn hlt hq hqrests
      · obtain rfl := h.iterate.unique hq
        exact hmoved (hqrests.not_moves ht.settles)

end Loops

section Nonempty

variable [Nonempty κ]

theorem Traces.of_told {q : Pattern} {loop : ∀ κ : Type, Nat → Step κ → Step κ}
    {Ends : Nat → Verdict → Nat → Prop}
    (hrun : ∀ limit, σ.run limit q = loop κ limit (σ.run limit p))
    (hfollows : ∀ limit, (loop (κ × List Nat) limit (σ.run limit p).logged).Follows 0 Prod.fst
      (loop κ limit (σ.run limit p)))
    (htold : ∀ limit ctx, (loop (κ × List Nat) limit (σ.run limit p).logged).Ensures
      ⟨start, ctx, []⟩ (σ.Told p start Ends))
    (hsettles : ∀ tries v stop, Ends tries v stop → σ.Settles q start v stop) :
    σ.Traces p q start loop Ends := by
  have hlogged : ∀ limit ctx v t, σ.run limit q ⟨start, ctx⟩ = some (v, t) → ∃ log tries,
      loop (κ × List Nat) limit (σ.run limit p).logged ⟨start, ctx, []⟩ =
        some (v, ⟨t.pos, t.ctx, log⟩) ∧ Ends tries v t.pos ∧ σ.Tried p start tries log := by
    intro limit ctx v t ht
    rw [hrun limit] at ht
    obtain ⟨u, hu, rfl⟩ := (hfollows limit).exists_of_some ⟨start, ctx, []⟩ ht
    obtain ⟨tries, hends, htried⟩ := htold limit ctx _ _ hu
    exact ⟨u.ctx.2, tries, hu, hends, htried⟩
  refine ⟨hrun, fun v stop => ⟨fun h => ?_, fun ⟨tries, h⟩ => hsettles tries v stop h⟩, hlogged⟩
  obtain ⟨n, ctx, ctx', hn⟩ := h.exists_run
  obtain ⟨log, tries, -, hends, -⟩ := hlogged n ctx v _ hn
  exact ⟨tries, hends⟩

/-- A counted repetition attempts its part at each iterate up to the first miss. -/
theorem traces_exactly (hp : σ.Quiet p) (start n : Nat) :
    σ.Traces p (.exactly p n) start (fun _ _ P => Step.exactly P n) (σ.ExactlyEnds p start n) := by
  refine .of_told (fun _ => rfl) (fun limit => (Step.logged_follows _).exactly n)
    (fun limit ctx => ?_) fun _ _ _ h => h.settles hp
  refine (Walked.refl start ctx).repeated hp (fun u h => ?_)
    (fun i pos stop hi h hmiss => .fails hi h hmiss) n (Nat.zero_add n)
  exact .close (h.iterate.inRange hp).1 ⟨n, .done h.iterate, h.tried⟩

theorem traces_atMost (hp : σ.Quiet p) (start n : Nat) :
    σ.Traces p (.atMost p n) start (fun _ _ P => Step.atMost P n) (σ.AtMostEnds p start n) := by
  refine .of_told (fun _ => rfl) (fun limit => (Step.logged_follows _).atMost n)
    (fun limit ctx => ?_) fun _ _ _ h => h.settles hp
  exact (Walked.refl start ctx).upTo hp n (Nat.zero_add n)

theorem traces_atLeast (hp : σ.Quiet p) (start n : Nat) :
    σ.Traces p (.atLeast p n) start (fun _ rounds P => Step.atLeast P rounds n)
      (σ.AtLeastEnds p start n) := by
  refine .of_told (fun _ => rfl) (fun limit => (Step.logged_follows _).atLeast limit n)
    (fun limit ctx => ?_) fun _ _ _ h => h.settles hp
  refine (Walked.refl start ctx).repeated hp (fun u h => ?_)
    (fun i pos stop hi h hmiss => .fails hi h hmiss) n (Nat.zero_add n)
  exact h.greedy hp limit (Nat.le_refl n) fun k q hn hk => absurd hk (by omega)

/-- Where every attempt ends, so do all repetitions. -/
theorem exists_settles (hp : σ.Quiet p)
    (hends : ∀ i pos, σ.Iterate p start i pos → ∃ v u, σ.Settles p pos v u) :
    (∃ v stop, σ.Settles (.exactly p n) start v stop) ∧
    (∃ stop, σ.Settles (.atMost p n) start (.hit ⟨start, stop⟩) stop) ∧
    ∃ v stop, σ.Settles (.atLeast p n) start v stop := by
  rcases exists_iterate hp hends n with ⟨pos, h⟩ | ⟨i, pos, u, hi, h, hmiss⟩
  · obtain ⟨k, stop, hk⟩ := h.exists_restsFirst hp hends
    exact ⟨⟨_, _, (ExactlyEnds.done h).settles hp⟩, ⟨_, (AtMostEnds.done h).settles hp⟩,
      ⟨_, _, (AtLeastEnds.done hk).settles hp⟩⟩
  · exact ⟨⟨_, _, (ExactlyEnds.fails hi h hmiss).settles hp⟩,
      ⟨_, (AtMostEnds.fails hi h hmiss).settles hp⟩,
      ⟨_, _, (AtLeastEnds.fails hi h hmiss).settles hp⟩⟩

/-- Where no callback moves the cursor or asks to stop, each kind of repetition comes out as the
iterates tell, in the one direction and in the other, and takes its pattern up just at the
iterates, in order and once each, up to the attempt that ends it. If the pattern ends at every
iterate, then so do the repetitions, one with an upper bound with a match, and from every iterate
on there is a first one to rest. An upper bound ends at the iterate of that number, or of the
first one that misses if that comes before. Where a lower bound is reached, every smaller one
gives the same match, and behind it the pattern rests. -/
theorem repetitions_by_iterates (hp : σ.Quiet p) (start n : Nat) :
    σ.Traces p (.exactly p n) start (fun _ _ P => Step.exactly P n) (σ.ExactlyEnds p start n) ∧
    σ.Traces p (.atMost p n) start (fun _ _ P => Step.atMost P n) (σ.AtMostEnds p start n) ∧
    σ.Traces p (.atLeast p n) start (fun _ rounds P => Step.atLeast P rounds n)
      (σ.AtLeastEnds p start n) ∧
    ((∀ i pos, σ.Iterate p start i pos → ∃ v u, σ.Settles p pos v u) →
      (∃ v stop, σ.Settles (.exactly p n) start v stop) ∧
      (∃ stop, σ.Settles (.atMost p n) start (.hit ⟨start, stop⟩) stop) ∧
      (∃ v stop, σ.Settles (.atLeast p n) start v stop) ∧
      ∀ pos, σ.Iterate p start n pos → ∃ j stop, σ.RestsFirst p start n j stop) ∧
    (∀ k pos u stop, σ.Iterate p start k pos → σ.Settles p pos .miss u →
      σ.Iterate p start (min n k) stop →
      σ.Settles (.atMost p n) start (.hit ⟨start, stop⟩) stop) ∧
    ∀ m k stop, m ≤ n → σ.Settles (.atLeast p n) start (.hit k) stop →
      σ.Settles (.atLeast p m) start (.hit k) stop ∧ σ.Rests p stop := by
  have hloop := traces_atLeast hp start n
  refine ⟨traces_exactly hp start n, traces_atMost hp start n, hloop, fun hends => ?_,
    fun k pos u stop hk hmiss hstop => ?_, fun m k stop hm hk => ?_⟩
  · obtain ⟨hexactly, hatMost, hatLeast⟩ := exists_settles (n := n) hp hends
    exact ⟨hexactly, hatMost, hatLeast, fun pos h => h.exists_restsFirst hp hends⟩
  · rcases Nat.lt_or_ge k n with hlt | hle
    · rw [Nat.min_eq_right (Nat.le_of_lt hlt)] at hstop
      obtain rfl := hk.unique hstop
      exact (AtMostEnds.fails hlt hk hmiss).settles hp
    · rw [Nat.min_eq_left hle] at hstop
      exact (AtMostEnds.done hstop).settles hp
  · obtain ⟨tries, hends⟩ := (hloop.settles _ _).mp hk
    cases hends with
    | done h =>
      obtain ⟨j, hj⟩ := h.iterate.restsFirst (Nat.le_trans hm h.le) h.rests
      exact ⟨(AtLeastEnds.done hj).settles hp, h.rests⟩

/-- Two pairs and a half: the last attempt reads the half and gives it back. -/
theorem pairs_by_iterates :
    let p : Pattern := .literal [97, 98]
    let σ : Setting Unit := { host := Host.blank, input := #[97, 98, 97, 98, 97] }
    σ.Quiet p ∧ (∀ i pos, σ.Iterate p 0 i pos → ∃ v u, σ.Settles p pos v u) ∧
      (∃ log tries, Step.atLeast (σ.run 4 p).logged 4 1 ⟨0, (), []⟩ =
        some (.hit ⟨0, 4⟩, ⟨4, (), log⟩) ∧ σ.Tried p 0 tries log) ∧
      (∃ stop, σ.Settles (.atMost p 1) 0 (.hit ⟨0, stop⟩) stop) ∧
      σ.Settles (.atLeast p 0) 0 (.hit ⟨0, 4⟩) 4 ∧ σ.Rests p 4 := by
  intro p σ
  have hquiet : σ.Quiet p := .of_hookFree (.of_hooks (fun r body h => by cases h) rfl)
  have hends : ∀ i pos, σ.Iterate p 0 i pos → ∃ v u, σ.Settles p pos v u := fun i pos _ => by
    have hsome : (σ.run 0 p ⟨pos, ()⟩).isSome := Step.isSome_literal _ _ _ _
    obtain ⟨⟨v, t⟩, ht⟩ := Option.isSome_iff_exists.mp hsome
    exact ⟨v, t.pos, (hquiet.attempt 0 _ v t ht).settles⟩
  have hrun : σ.run 4 (.atLeast p 1) ⟨0, ()⟩ = some (.hit ⟨0, 4⟩, ⟨4, ()⟩) := by decide +kernel
  obtain ⟨-, -, htraces, hall, -, hsmaller⟩ := repetitions_by_iterates hquiet 0 1
  obtain ⟨log, tries, hlogged, -, htried⟩ := htraces.logged 4 () _ _ hrun
  have hmatch : σ.Settles (.atLeast p 1) 0 (.hit ⟨0, 4⟩) 4 :=
    (hquiet.atLeast 1).settles (s := ⟨0, ()⟩) (congrArg (Option.map _) hrun)
  obtain ⟨hfewer, hrests⟩ := hsmaller 0 _ 4 (Nat.zero_le 1) hmatch
  exact ⟨hquiet, hends, ⟨log, tries, hlogged, htried⟩, (hall hends).2.1, hfewer, hrests⟩

end Nonempty

end Setting

end Peg
