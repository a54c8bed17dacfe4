import Peg.Proofs.Negation
import Peg.Proofs.Settling

/-! # Differences

A difference is the negated form of its right side, then its left side. So it excludes what the
right side matches where that form is a negation. The negated form of a negation is what it
stood around, though, and that of a repetition with one bound is the other one: a difference
takes these up and goes on behind them.
-/
namespace Peg

variable {κ : Type}

namespace Setting

variable {σ : Setting κ} {p a b : Pattern} {start stop : Nat} {m : Span}

theorem Quiet.negate (hp : σ.Quiet p) : σ.Quiet p.negate := by
  cases p with
  | not q => exact hp.part (.not q)
  | atLeast q n => exact (hp.part (.atLeast q n)).atMost n
  | atMost q n => exact (hp.part (.atMost q n)).atLeast n
  | _ => exact hp.not

section Nonempty

variable [Nonempty κ]

/-- Where the guard misses, a difference comes out as its left side does. -/
theorem Settles.minus_of_miss {v : Verdict} {u : Nat} (ha : σ.Quiet a) (hb : σ.Quiet b)
    (hopposite : b.hasOpposite = false) (hguard : σ.Settles b start .miss u)
    (h : σ.Attempt a start v stop) : σ.Settles (a.minus b) start v stop := by
  rw [Pattern.minus, Pattern.negate_of_not_hasOpposite hopposite, settles_seq hb.not ha]
  cases v with
  | hit k =>
    have hk : k = (Span.emptyAt start).upTo k := by
      rw [Span.upTo, Span.emptyAt, ← h.settles.hit_start ha]
    exact .inl ⟨_, k, start, congrArg _ hk, hguard.not_of_miss hb, h.settles⟩
  | miss => exact .inr ⟨rfl, .inr ⟨_, start, hguard.not_of_miss hb, h.settles⟩⟩
  | stop why => exact absurd rfl (h.goesOn why)

/-- Where the guard matches, a difference misses at its start. -/
theorem Settles.minus_of_hit {u : Nat} (ha : σ.Quiet a) (hb : σ.Quiet b)
    (hopposite : b.hasOpposite = false) (hguard : σ.Settles b start (.hit m) u) :
    σ.Settles (a.minus b) start .miss start := by
  rw [Pattern.minus, Pattern.negate_of_not_hasOpposite hopposite, settles_seq hb.not ha]
  exact .inr ⟨rfl, .inl (hguard.not_of_hit hb)⟩

end Nonempty

/-- Where both sides end and the right side has no opposite, a difference ends, and it matches
just where its left side does and its right side misses, with the span and the cursor of the left
side. With or without an opposite, a match of a difference is a match of the negated form and one
of the left side behind it, and the span reaches over both. -/
theorem minus_matches (ha : σ.Quiet a) (hb : σ.Quiet b) {n k : Nat} {s : State κ}
    (hna : (σ.run n a s).isSome) (hnb : (σ.run k b s).isSome) :
    (b.hasOpposite = false →
      (∃ v stop, σ.Settles (a.minus b) s.pos v stop) ∧
      ∀ m stop, σ.Settles (a.minus b) s.pos (.hit m) stop ↔
        σ.Settles a s.pos (.hit m) stop ∧ ∃ u, σ.Settles b s.pos .miss u) ∧
    ∀ m stop, σ.Settles (a.minus b) s.pos (.hit m) stop ↔
      ∃ k u l, σ.Settles b.negate s.pos (.hit k) u ∧ σ.Settles a u (.hit l) stop ∧
        m = ⟨s.pos, l.stop⟩ := by
  have : Nonempty κ := ⟨s.ctx⟩
  refine ⟨fun hopposite => ?_, fun m stop => settles_seq_hit hb.negate ha⟩
  obtain ⟨⟨v, t⟩, hv⟩ := Option.isSome_iff_exists.mp hna
  obtain ⟨⟨w, u⟩, hw⟩ := Option.isSome_iff_exists.mp hnb
  have hattempt := ha.attempt n s v t hv
  have hguard := hb.attempt k s w u hw
  cases w with
  | stop why => exact absurd rfl (hguard.goesOn why)
  | hit k =>
    have hminus := hguard.settles.minus_of_hit ha hb hopposite
    refine ⟨⟨_, _, hminus⟩, fun m stop => ⟨fun h => ?_, fun ⟨_, i, hmiss⟩ => ?_⟩⟩
    · cases (h.unique hminus).1
    · cases (hmiss.unique hguard.settles).1
  | miss =>
    have hminus := hguard.settles.minus_of_miss ha hb hopposite hattempt
    refine ⟨⟨_, _, hminus⟩, fun m stop => ⟨fun h => ⟨?_, u.pos, hguard.settles⟩, fun h => ?_⟩⟩
    · obtain ⟨rfl, rfl⟩ := h.unique hminus
      exact hattempt.settles
    · obtain ⟨rfl, rfl⟩ := h.1.unique hattempt.settles
      exact hminus

/-- A keyword is excluded from the words, but not the words that begin with it. -/
theorem keyword_excluded :
    let word : Pattern := .atLeast (.cls .alpha) 1
    let keyword : Pattern := .seq (.literal [105, 102]) (.not (.cls .alpha))
    let longer : Setting Unit := { host := Host.blank, input := #[105, 102, 102, 121] }
    let alone : Setting Unit := { host := Host.blank, input := #[105, 102, 33] }
    longer.Settles (word.minus keyword) 0 (.hit ⟨0, 4⟩) 4 ∧
      ∀ m stop, ¬ alone.Settles (word.minus keyword) 0 (.hit m) stop := by
  intro word keyword longer alone
  have hquiet : ∀ (σ : Setting Unit), (∀ r, σ.rules r = none) → σ.Quiet word ∧ σ.Quiet keyword :=
    fun σ hσ => by
      have hrules : ∀ r body, σ.rules r = some body → body.hooks = [] :=
        fun r body h => by rw [hσ r] at h; cases h
      exact ⟨.of_hookFree (.of_hooks hrules rfl), .of_hookFree (.of_hooks hrules rfl)⟩
  constructor
  · obtain ⟨hword, hkeyword⟩ := hquiet longer fun _ => rfl
    have hminus := (minus_matches (n := 6) (k := 6) (s := ⟨0, ()⟩) hword hkeyword
      (by decide +kernel) (by decide +kernel)).1 rfl
    refine (hminus.2 _ _).mpr ⟨?_, 2, ?_⟩
    · exact hword.settles (n := 6) (s := ⟨0, ()⟩) (by decide +kernel)
    · exact hkeyword.settles (n := 6) (s := ⟨0, ()⟩) (by decide +kernel)
  · obtain ⟨hword, hkeyword⟩ := hquiet alone fun _ => rfl
    have hminus := (minus_matches (n := 6) (k := 6) (s := ⟨0, ()⟩) hword hkeyword
      (by decide +kernel) (by decide +kernel)).1 rfl
    intro m stop h
    obtain ⟨u, hmiss⟩ := ((hminus.2 m stop).mp h).2
    have hhit : alone.Settles keyword 0 (.hit ⟨0, 2⟩) 2 :=
      hkeyword.settles (n := 6) (s := ⟨0, ()⟩) (by decide +kernel)
    cases (hmiss.unique hhit).1

/-- The end of the input does not match in front of it. Still the difference with it is any byte
and then the left side, and misses where the left side matches; and the difference with a
repetition is a match where the repetition matches. -/
theorem minus_takes_up_opposite :
    let σ : Setting Unit := { host := Host.blank, input := #[97, 98] }
    let a : Pattern := .literal [97, 98]
    let letters : Pattern := .quantify (.cls .alpha) 1
    (a.Built ∧ Pattern.none.Built ∧ a.HookFree σ.rules ∧ Pattern.none.HookFree σ.rules ∧
      σ.Settles a 0 (.hit ⟨0, 2⟩) 2 ∧ σ.Settles .none 0 .miss 0 ∧
      σ.Settles (a.minus .none) 0 .miss 2) ∧
    (Pattern.any.Built ∧ letters.Built ∧ letters.HookFree σ.rules ∧
      σ.Settles letters 0 (.hit ⟨0, 2⟩) 2 ∧
      σ.Settles (Pattern.any.minus letters) 0 (.hit ⟨0, 2⟩) 2) := by
  intro σ a letters
  have hfree : ∀ p : Pattern, p.hooks = [] → p.HookFree σ.rules :=
    fun p hp => .of_hooks (fun r body h => by cases h) hp
  have hsettles : ∀ (p : Pattern) v stop, p.hooks = [] →
      (σ.run 3 p ⟨0, ()⟩).map (fun r => (r.1, r.2.pos)) = some (v, stop) →
      σ.Settles p 0 v stop :=
    fun p v stop hp h => (Quiet.of_hookFree (hfree p hp)).settles h
  refine ⟨⟨.literal _, .none, hfree _ rfl, hfree _ rfl, ?_, ?_, ?_⟩,
    .any, .quantify (.cls _) 1, hfree _ rfl, ?_, ?_⟩
  all_goals exact hsettles _ _ _ rfl (by decide +kernel)

end Setting

end Peg
