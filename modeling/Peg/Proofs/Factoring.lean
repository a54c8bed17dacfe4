import Peg.Proofs.Settling

/-! # Left factoring

Where both sides of a choice begin with the same pattern, that pattern may be put in front of the
choice. Told apart, it is evaluated a second time after the first side was given up behind it, and
since the context has no say in that, it comes out as it did the first time.
-/
namespace Peg

variable {κ : Type}

namespace Setting

variable {σ : Setting κ} {p a b c : Pattern} {start stop u : Nat} {m : Span} {v : Verdict}

section Nonempty

variable [Nonempty κ]

/-- Behind a match of its left side, a sequence misses just where its right side does. -/
theorem Settles.seq_miss_iff (ha : σ.Quiet a) (hb : σ.Quiet b) (h : σ.Settles a start (.hit m) u) :
    σ.Settles (.seq a b) start .miss stop ↔ σ.Settles b u .miss stop := by
  rw [settles_seq ha hb]
  constructor
  · rintro (⟨_, _, _, heq, -⟩ | ⟨-, hmiss | ⟨k, w, hk, hmiss⟩⟩)
    · cases heq
    · cases (h.unique hmiss).1
    · obtain ⟨-, rfl⟩ := h.unique hk
      exact hmiss
  · intro hmiss
    exact .inr ⟨rfl, .inr ⟨m, u, h, hmiss⟩⟩

theorem Settles.seq_miss_of_miss (ha : σ.Quiet a) (hb : σ.Quiet b)
    (h : σ.Settles a start .miss stop) : σ.Settles (.seq a b) start .miss stop :=
  (settles_seq ha hb).mpr (.inr ⟨rfl, .inl h⟩)

variable (ha : σ.Quiet a) (hb : σ.Quiet b) (hc : σ.Quiet c)
include ha hb hc

/-- The common front does not change for what a choice of sequences matches. -/
theorem settles_factored_hit :
    σ.Settles (.seq a (.choice b c)) start (.hit m) stop ↔
      σ.Settles (.choice (.seq a b) (.seq a c)) start (.hit m) stop := by
  rw [settles_seq_hit ha (hb.choice hc), settles_choice (ha.seq hb) (ha.seq hc)]
  constructor
  · rintro ⟨k, u, l, hk, hl, rfl⟩
    rcases (settles_choice hb hc).mp hl with ⟨heq, hsides⟩ | ⟨heq, -⟩
    · obtain rfl := Verdict.hit.inj heq
      refine .inl ⟨rfl, ?_⟩
      rcases hsides with ⟨l, hl⟩ | ⟨w, l, hmiss, hl⟩
      · exact .inl ⟨_, (settles_seq_hit ha hb).mpr ⟨k, u, l, hk, hl, rfl⟩⟩
      · exact .inr ⟨w, _, (hk.seq_miss_iff ha hb).mpr hmiss,
          (settles_seq_hit ha hc).mpr ⟨k, u, l, hk, hl, rfl⟩⟩
    · cases heq
  · rintro (⟨heq, ⟨k, hk⟩ | ⟨w, k, hmiss, hk⟩⟩ | ⟨heq, -⟩)
    · obtain rfl := Verdict.hit.inj heq
      obtain ⟨k, u, l, hk, hl, -⟩ := (settles_seq_hit ha hb).mp hk
      exact ⟨k, u, ⟨u, stop⟩, hk, (settles_choice hb hc).mpr (.inl ⟨rfl, .inl ⟨l, hl⟩⟩), rfl⟩
    · obtain rfl := Verdict.hit.inj heq
      obtain ⟨k, u, l, hk, hl, -⟩ := (settles_seq_hit ha hc).mp hk
      have hmiss := (hk.seq_miss_iff ha hb).mp hmiss
      exact ⟨k, u, ⟨u, stop⟩, hk, (settles_choice hb hc).mpr (.inl ⟨rfl, .inr ⟨w, l, hmiss, hl⟩⟩),
        rfl⟩
    · cases heq

/-- The factored form misses just where the choice of sequences does, wherever either of them leaves
the cursor. -/
theorem settles_factored_miss :
    (∃ stop, σ.Settles (.seq a (.choice b c)) start .miss stop) ↔
      ∃ stop, σ.Settles (.choice (.seq a b) (.seq a c)) start .miss stop := by
  constructor
  · rintro ⟨stop, h⟩
    refine ⟨start, (settles_choice (ha.seq hb) (ha.seq hc)).mpr (.inr ⟨rfl, rfl, ?_⟩)⟩
    rcases (settles_seq ha (hb.choice hc)).mp h with ⟨_, _, _, heq, -⟩ | ⟨-, hmiss | ⟨k, u, hk, h⟩⟩
    · cases heq
    · exact ⟨stop, stop, hmiss.seq_miss_of_miss ha hb, hmiss.seq_miss_of_miss ha hc⟩
    · rcases (settles_choice hb hc).mp h with ⟨heq, -⟩ | ⟨-, -, w, w', hmiss, hmiss'⟩
      · cases heq
      · exact ⟨w, w', (hk.seq_miss_iff ha hb).mpr hmiss, (hk.seq_miss_iff ha hc).mpr hmiss'⟩
  · rintro ⟨stop, h⟩
    rcases (settles_choice (ha.seq hb) (ha.seq hc)).mp h with
      ⟨heq, -⟩ | ⟨-, -, w, w', hmiss, hmiss'⟩
    · cases heq
    · rcases (settles_seq ha hb).mp hmiss with ⟨_, _, _, heq, -⟩ | ⟨-, hmiss | ⟨k, u, hk, hmiss⟩⟩
      · cases heq
      · exact ⟨w, hmiss.seq_miss_of_miss ha (hb.choice hc)⟩
      · have hmiss' := (hk.seq_miss_iff ha hc).mp hmiss'
        exact ⟨u, (hk.seq_miss_iff ha (hb.choice hc)).mpr
          ((settles_choice hb hc).mpr (.inr ⟨rfl, rfl, w, w', hmiss, hmiss'⟩))⟩

end Nonempty

/-- As long as callbacks leave the cursor alone and never ask to stop, a sequence with a choice
behind it ends if and only if the choice between the two sequences does, and one matches just
where the other does, with the same span and the cursor at the same place. -/
theorem factored_agrees (ha : σ.Quiet a) (hb : σ.Quiet b) (hc : σ.Quiet c) (s : State κ) :
    ((∃ n, (σ.run n (.seq a (.choice b c)) s).isSome) ↔
      ∃ n, (σ.run n (.choice (.seq a b) (.seq a c)) s).isSome) ∧
    ∀ m stop, σ.Settles (.seq a (.choice b c)) s.pos (.hit m) stop ↔
      σ.Settles (.choice (.seq a b) (.seq a c)) s.pos (.hit m) stop := by
  have : Nonempty κ := ⟨s.ctx⟩
  refine ⟨?_, fun m stop => settles_factored_hit ha hb hc⟩
  rw [(ha.seq (hb.choice hc)).ends_iff, ((ha.seq hb).choice (ha.seq hc)).ends_iff,
    settles_factored_miss ha hb hc]
  simp only [settles_factored_hit ha hb hc]

/-- Groups in parentheses in front, which are captured twice when they are told apart. The first
side reads a byte and copies it before it is given up, the second one only looks ahead, so that
its own match reaches further than the cursor. -/
theorem groups_factored :
    let nest : Pattern := .rule ⟨0, 0, "nest"⟩
    let around : Pattern := .choice (.seq (.literal [40]) (.seq nest (.literal [41]))) .empty
    let a : Pattern := .capture nest
    let b : Pattern := .seq (.forward .any 1) (.literal [33])
    let c : Pattern := .ahead (.literal [121])
    let σ : Setting Store :=
      { host := Store.host
        input := #[40, 40, 41, 41, 121]
        grammar := some { id := 0, slots := #[⟨"nest", some around⟩] } }
    (a.HookFree σ.rules ∧ b.HookFree σ.rules ∧ c.HookFree σ.rules) ∧
      (∃ n, (σ.run n (.choice (.seq a b) (.seq a c)) ⟨0, {}⟩).isSome) ∧
      σ.Settles (.choice (.seq a b) (.seq a c)) 0 (.hit ⟨0, 4⟩) 4 := by
  intro nest around a b c σ
  have hfree : ∀ p : Pattern, p.hooks = [] → p.HookFree σ.rules :=
    fun p hp => hookFree_of_slots rfl (by decide +kernel) hp
  have ha : σ.Quiet a := .of_hookFree (hfree a rfl)
  have hb : σ.Quiet b := .of_hookFree (hfree b rfl)
  have hc : σ.Quiet c := .of_hookFree (hfree c rfl)
  obtain ⟨hends, hmatches⟩ := factored_agrees ha hb hc ⟨0, {}⟩
  refine ⟨⟨hfree a rfl, hfree b rfl, hfree c rfl⟩, hends.mp ⟨8, by decide +kernel⟩, ?_⟩
  apply (hmatches _ _).mp
  exact (ha.seq (hb.choice hc)).settles (n := 8) (s := ⟨0, {}⟩) (by decide +kernel)

end Setting

end Peg
