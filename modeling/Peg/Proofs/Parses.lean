import Peg.Proofs.Reach

/-! # What a pattern means

The meaning of a pattern without callbacks, told without a cursor: a list of bytes is
what is left of the input, a success says how many of them it consumes, and a failure
consumes none, so that every alternative and every further attempt is judged on the same
bytes. A pattern means at most one thing on a list of bytes.
-/
namespace Peg

/-- The pattern succeeds on the bytes and consumes so many of them, or fails. -/
inductive Parses (rules : Rules) : Pattern → List UInt8 → Option Nat → Prop
  | literal {bytes input : List UInt8} (h : bytes <+: input) :
      Parses rules (.literal bytes) input (some bytes.length)
  | literalMiss {bytes input : List UInt8} (h : ¬ bytes <+: input) :
      Parses rules (.literal bytes) input none
  | oneByte {p : Pattern} {accept : UInt8 → Bool} {b : UInt8} {input : List UInt8}
      (hp : p.accepts? = some accept) (hb : input.head? = some b) (ha : accept b = true) :
      Parses rules p input (some 1)
  | oneByteMiss {p : Pattern} {accept : UInt8 → Bool} {input : List UInt8}
      (hp : p.accepts? = some accept) (hb : ∀ b, input.head? = some b → accept b = false) :
      Parses rules p input none
  | seq {a b : Pattern} {input : List UInt8} {i j : Nat} (ha : Parses rules a input (some i))
      (hb : Parses rules b (input.drop i) (some j)) : Parses rules (.seq a b) input (some (i + j))
  | seqLeftMiss {a b : Pattern} {input : List UInt8} (ha : Parses rules a input none) :
      Parses rules (.seq a b) input none
  | seqRightMiss {a b : Pattern} {input : List UInt8} {i : Nat}
      (ha : Parses rules a input (some i)) (hb : Parses rules b (input.drop i) none) :
      Parses rules (.seq a b) input none
  | choiceLeft {a b : Pattern} {input : List UInt8} {i : Nat}
      (ha : Parses rules a input (some i)) : Parses rules (.choice a b) input (some i)
  | choiceRight {a b : Pattern} {input : List UInt8} {r : Option Nat}
      (ha : Parses rules a input none) (hb : Parses rules b input r) :
      Parses rules (.choice a b) input r
  | not {p : Pattern} {input : List UInt8} (hp : Parses rules p input none) :
      Parses rules (.not p) input (some 0)
  | notMiss {p : Pattern} {input : List UInt8} {i : Nat} (hp : Parses rules p input (some i)) :
      Parses rules (.not p) input none
  | ahead {p : Pattern} {input : List UInt8} {i : Nat} (hp : Parses rules p input (some i)) :
      Parses rules (.ahead p) input (some 0)
  | aheadMiss {p : Pattern} {input : List UInt8} (hp : Parses rules p input none) :
      Parses rules (.ahead p) input none
  | exactlyZero {p : Pattern} {input : List UInt8} : Parses rules (.exactly p 0) input (some 0)
  | exactlySucc {p : Pattern} {input : List UInt8} {n i : Nat} {r : Option Nat}
      (hp : Parses rules p input (some i)) (hr : Parses rules (.exactly p n) (input.drop i) r) :
      Parses rules (.exactly p (n + 1)) input (r.map (i + ·))
  | exactlyMiss {p : Pattern} {input : List UInt8} {n : Nat} (hp : Parses rules p input none) :
      Parses rules (.exactly p (n + 1)) input none
  | atLeastSucc {p : Pattern} {input : List UInt8} {n i : Nat} {r : Option Nat}
      (hp : Parses rules p input (some i)) (hr : Parses rules (.atLeast p n) (input.drop i) r) :
      Parses rules (.atLeast p (n + 1)) input (r.map (i + ·))
  | atLeastMiss {p : Pattern} {input : List UInt8} {n : Nat} (hp : Parses rules p input none) :
      Parses rules (.atLeast p (n + 1)) input none
  /-- The greedy part stops before the first failure. -/
  | greedyEnd {p : Pattern} {input : List UInt8} (hp : Parses rules p input none) :
      Parses rules (.atLeast p 0) input (some 0)
  /-- It stops after a success that consumes nothing. -/
  | greedyStill {p : Pattern} {input : List UInt8} (hp : Parses rules p input (some 0)) :
      Parses rules (.atLeast p 0) input (some 0)
  | greedyMore {p : Pattern} {input : List UInt8} {i j : Nat}
      (hp : Parses rules p input (some (i + 1)))
      (hr : Parses rules (.atLeast p 0) (input.drop (i + 1)) (some j)) :
      Parses rules (.atLeast p 0) input (some (i + 1 + j))
  | atMostZero {p : Pattern} {input : List UInt8} : Parses rules (.atMost p 0) input (some 0)
  | atMostEnd {p : Pattern} {input : List UInt8} {n : Nat} (hp : Parses rules p input none) :
      Parses rules (.atMost p (n + 1)) input (some 0)
  | atMostSucc {p : Pattern} {input : List UInt8} {n i j : Nat}
      (hp : Parses rules p input (some i))
      (hr : Parses rules (.atMost p n) (input.drop i) (some j)) :
      Parses rules (.atMost p (n + 1)) input (some (i + j))
  | body {ref : RuleRef} {p : Pattern} {input : List UInt8} {r : Option Nat}
      (h : rules ref = some p) (hp : Parses rules p input r) : Parses rules (.rule ref) input r
  | unresolved {ref : RuleRef} {input : List UInt8} (h : rules ref = none) :
      Parses rules (.rule ref) input none
  | forward {p : Pattern} {sink : SinkId} {input : List UInt8} {r : Option Nat}
      (hp : Parses rules p input r) : Parses rules (.forward p sink) input r
  | capture {p : Pattern} {input : List UInt8} {r : Option Nat} (hp : Parses rules p input r) :
      Parses rules (.capture p) input r

namespace Parses

variable {rules : Rules} {p a b : Pattern} {input : List UInt8} {r r' : Option Nat} {n : Nat}

theorem oneByte_cases {accept : UInt8 → Bool} (h : Parses rules p input r)
    (hp : p.accepts? = some accept) :
    (∃ b, input.head? = some b ∧ accept b = true ∧ r = some 1) ∨
      ((∀ b, input.head? = some b → accept b = false) ∧ r = none) := by
  cases h with
  | oneByte hp' hb ha =>
    obtain rfl := Option.some.inj (hp.symm.trans hp')
    exact .inl ⟨_, hb, ha, rfl⟩
  | oneByteMiss hp' hb =>
    obtain rfl := Option.some.inj (hp.symm.trans hp')
    exact .inr ⟨hb, rfl⟩
  | _ => cases hp

theorem literal_eq {bytes : List UInt8} (h : Parses rules (.literal bytes) input r) :
    r = if bytes <+: input then some bytes.length else none := by
  cases h with
  | literal h => rw [if_pos h]
  | literalMiss h => rw [if_neg h]
  | oneByte hp | oneByteMiss hp => cases hp

/-- One pattern and then another one behind it, as in a sequence and in the required part of a
repetition: where the first fails, both do. -/
def InTurn (rules : Rules) (p q : Pattern) (input : List UInt8) (r : Option Nat) : Prop :=
  (Parses rules p input none ∧ r = none) ∨
    ∃ i k, Parses rules p input (some i) ∧ Parses rules q (input.drop i) k ∧ r = k.map (i + ·)

theorem seq_inTurn (h : Parses rules (.seq a b) input r) : InTurn rules a b input r := by
  cases h with
  | seq ha hb | seqRightMiss ha hb => exact .inr ⟨_, _, ha, hb, rfl⟩
  | seqLeftMiss ha => exact .inl ⟨ha, rfl⟩
  | oneByte hp | oneByteMiss hp => cases hp

theorem exactly_inTurn (h : Parses rules (.exactly p (n + 1)) input r) :
    InTurn rules p (.exactly p n) input r := by
  cases h with
  | exactlySucc hp hr => exact .inr ⟨_, _, hp, hr, rfl⟩
  | exactlyMiss hp => exact .inl ⟨hp, rfl⟩
  | oneByte hp | oneByteMiss hp => cases hp

theorem atLeast_inTurn (h : Parses rules (.atLeast p (n + 1)) input r) :
    InTurn rules p (.atLeast p n) input r := by
  cases h with
  | atLeastSucc hp hr => exact .inr ⟨_, _, hp, hr, rfl⟩
  | atLeastMiss hp => exact .inl ⟨hp, rfl⟩
  | oneByte hp | oneByteMiss hp => cases hp

/-- The right side of a choice has a say only where the left one fails. -/
theorem choice_cases (h : Parses rules (.choice a b) input r) :
    (∃ i, Parses rules a input (some i) ∧ r = some i) ∨
      (Parses rules a input none ∧ Parses rules b input r) := by
  cases h with
  | choiceLeft ha => exact .inl ⟨_, ha, rfl⟩
  | choiceRight ha hb => exact .inr ⟨ha, hb⟩
  | oneByte hp | oneByteMiss hp => cases hp

theorem not_cases (h : Parses rules (.not p) input r) :
    ∃ k, Parses rules p input k ∧ r = if k.isSome then none else some 0 := by
  cases h with
  | not h | notMiss h => exact ⟨_, h, rfl⟩
  | oneByte hp | oneByteMiss hp => cases hp

theorem ahead_cases (h : Parses rules (.ahead p) input r) :
    ∃ k, Parses rules p input k ∧ r = k.map fun _ => 0 := by
  cases h with
  | ahead h | aheadMiss h => exact ⟨_, h, rfl⟩
  | oneByte hp | oneByteMiss hp => cases hp

theorem exactly_zero_eq (h : Parses rules (.exactly p 0) input r) : r = some 0 := by
  cases h with
  | exactlyZero => rfl
  | oneByte hp | oneByteMiss hp => cases hp

/-- A greedy repetition ends with nothing, or goes on behind a success that consumes something. -/
theorem greedy_cases (h : Parses rules (.atLeast p 0) input r) :
    (r = some 0 ∧ ∃ k, Parses rules p input k ∧ ∀ i, k ≠ some (i + 1)) ∨
      ∃ i j, Parses rules p input (some (i + 1)) ∧
        Parses rules (.atLeast p 0) (input.drop (i + 1)) (some j) ∧ r = some (i + 1 + j) := by
  cases h with
  | greedyEnd hp | greedyStill hp => exact .inl ⟨rfl, _, hp, by simp⟩
  | greedyMore hp hr => exact .inr ⟨_, _, hp, hr, rfl⟩
  | oneByte hp | oneByteMiss hp => cases hp

theorem atMost_zero_eq (h : Parses rules (.atMost p 0) input r) : r = some 0 := by
  cases h with
  | atMostZero => rfl
  | oneByte hp | oneByteMiss hp => cases hp

theorem atMost_cases (h : Parses rules (.atMost p (n + 1)) input r) :
    (Parses rules p input none ∧ r = some 0) ∨
      ∃ i j, Parses rules p input (some i) ∧
        Parses rules (.atMost p n) (input.drop i) (some j) ∧ r = some (i + j) := by
  cases h with
  | atMostEnd hp => exact .inl ⟨hp, rfl⟩
  | atMostSucc hp hr => exact .inr ⟨_, _, hp, hr, rfl⟩
  | oneByte hp | oneByteMiss hp => cases hp

/-- A reference means what its body means, or fails if it has none. -/
theorem rule_cases {ref : RuleRef} (h : Parses rules (.rule ref) input r) :
    (∃ body, rules ref = some body ∧ Parses rules body input r) ∨
      (rules ref = none ∧ r = none) := by
  cases h with
  | body h hp => exact .inl ⟨_, h, hp⟩
  | unresolved h => exact .inr ⟨h, rfl⟩
  | oneByte hp | oneByteMiss hp => cases hp

theorem forward_inner {sink : SinkId} (h : Parses rules (.forward p sink) input r) :
    Parses rules p input r := by
  cases h with
  | forward h => exact h
  | oneByte hp | oneByteMiss hp => cases hp

theorem capture_inner (h : Parses rules (.capture p) input r) : Parses rules p input r := by
  cases h with
  | capture h => exact h
  | oneByte hp | oneByteMiss hp => cases hp

theorem InTurn.eq_map {q : Pattern} {i : Nat} {k : Option Nat} (h : InTurn rules p q input r)
    (hp : ∀ {r'}, Parses rules p input r' → some i = r')
    (hq : ∀ {r'}, Parses rules q (input.drop i) r' → k = r') : k.map (i + ·) = r := by
  obtain ⟨hmiss, -⟩ | ⟨i', k', hi, hk, rfl⟩ := h
  · cases hp hmiss
  · cases hp hi
    rw [hq hk]

theorem InTurn.eq_none {q : Pattern} (h : InTurn rules p q input r)
    (hp : ∀ {r'}, Parses rules p input r' → none = r') : none = r := by
  obtain ⟨-, rfl⟩ | ⟨i, k, hi, -⟩ := h
  · rfl
  · cases hp hi

/-- A pattern means at most one thing: a second derivation ends with the same rule as the
first, since their premises agree. -/
theorem unique (h : Parses rules p input r) (h' : Parses rules p input r') : r = r' := by
  induction h generalizing r' with
  | literal h => rw [h'.literal_eq, if_pos h]
  | literalMiss h => rw [h'.literal_eq, if_neg h]
  | oneByte hp hb ha =>
    obtain ⟨-, -, -, rfl⟩ | ⟨hmiss, -⟩ := h'.oneByte_cases hp
    · rfl
    · simp [hmiss _ hb] at ha
  | oneByteMiss hp hmiss =>
    obtain ⟨b, hb, ha, -⟩ | ⟨-, rfl⟩ := h'.oneByte_cases hp
    · simp [hmiss b hb] at ha
    · rfl
  | seq _ _ iha ihb | seqRightMiss _ _ iha ihb => exact h'.seq_inTurn.eq_map iha ihb
  | seqLeftMiss _ iha => exact h'.seq_inTurn.eq_none iha
  | choiceLeft _ iha =>
    obtain ⟨i, ha, rfl⟩ | ⟨ha, -⟩ := h'.choice_cases
    · exact iha ha
    · cases iha ha
  | choiceRight _ _ iha ihb =>
    obtain ⟨i, ha, -⟩ | ⟨-, hb⟩ := h'.choice_cases
    · cases iha ha
    · exact ihb hb
  | not _ ih | notMiss _ ih =>
    obtain ⟨k, hk, rfl⟩ := h'.not_cases
    rw [← ih hk]
    rfl
  | ahead _ ih | aheadMiss _ ih =>
    obtain ⟨k, hk, rfl⟩ := h'.ahead_cases
    rw [← ih hk]
    rfl
  | exactlyZero => exact h'.exactly_zero_eq.symm
  | exactlySucc _ _ ihp ihr => exact h'.exactly_inTurn.eq_map ihp ihr
  | exactlyMiss _ ihp => exact h'.exactly_inTurn.eq_none ihp
  | atLeastSucc _ _ ihp ihr => exact h'.atLeast_inTurn.eq_map ihp ihr
  | atLeastMiss _ ihp => exact h'.atLeast_inTurn.eq_none ihp
  | greedyEnd _ ihp | greedyStill _ ihp =>
    obtain ⟨rfl, -⟩ | ⟨i, j, hp, -⟩ := h'.greedy_cases
    · rfl
    · cases ihp hp
  | greedyMore _ _ ihp ihr =>
    obtain ⟨-, k, hp, hk⟩ | ⟨i, j, hp, hr, rfl⟩ := h'.greedy_cases
    · exact absurd (ihp hp).symm (hk _)
    · cases ihp hp
      cases ihr hr
      rfl
  | atMostZero => exact h'.atMost_zero_eq.symm
  | atMostEnd _ ihp =>
    obtain ⟨-, rfl⟩ | ⟨i, j, hp, -⟩ := h'.atMost_cases
    · rfl
    · cases ihp hp
  | atMostSucc _ _ ihp ihr =>
    obtain ⟨hp, -⟩ | ⟨i, j, hp, hr, rfl⟩ := h'.atMost_cases
    · cases ihp hp
    · cases ihp hp
      cases ihr hr
      rfl
  | body h _ ih =>
    obtain ⟨body, hbody, hp⟩ | ⟨hnone, -⟩ := h'.rule_cases
    · obtain rfl := Option.some.inj (h.symm.trans hbody)
      exact ih hp
    · cases h.symm.trans hnone
  | unresolved h =>
    obtain ⟨body, hbody, -⟩ | ⟨-, rfl⟩ := h'.rule_cases
    · cases h.symm.trans hbody
    · rfl
  | forward _ ih => exact ih h'.forward_inner
  | capture _ ih => exact ih h'.capture_inner

end Parses

end Peg
