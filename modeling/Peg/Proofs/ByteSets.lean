import Peg.ByteSet

/-! # Sets as lists

A set is known by its members, and its list names each of them once, in ascending order.
-/
namespace Peg.ByteSet

/-- The byte with the number `64 * i + j` has the bit `j` of the word `i`. -/
theorem contains_place (s : ByteSet) {i j : Nat} (hi : i < 4) (hj : j < 64) :
    s.contains (.ofNat (64 * i + j)) = (s.word i).toNat.testBit j := by
  have hval : (UInt8.ofNat (64 * i + j)).toNat = 64 * i + j := by
    simpa using Nat.mod_eq_of_lt (show 64 * i + j < 256 by omega)
  have hdiv : (64 * i + j) / 64 = i := by omega
  have hmod : (64 * i + j) % 64 = j := by omega
  rw [contains, hval, hdiv, hmod]

/-- Sets with the same members are equal, bit for bit. -/
theorem eq_of_contains {s t : ByteSet} (h : ∀ b, s.contains b = t.contains b) : s = t := by
  have hword : ∀ i, i < 4 → s.word i = t.word i := by
    intro i hi
    refine UInt64.toNat_inj.mp (Nat.eq_of_testBit_eq fun j => ?_)
    by_cases hj : j < 64
    · rw [← contains_place s hi hj, ← contains_place t hi hj]
      exact h _
    · have hlt : ∀ w : UInt64, w.toNat < 2 ^ j := fun w =>
        Nat.lt_of_lt_of_le w.toNat_lt (Nat.pow_le_pow_right (by decide) (Nat.le_of_not_lt hj))
      rw [Nat.testBit_lt_two_pow (hlt _), Nat.testBit_lt_two_pow (hlt _)]
  have h0 := hword 0 (by decide)
  have h1 := hword 1 (by decide)
  have h2 := hword 2 (by decide)
  have h3 := hword 3 (by decide)
  cases s
  cases t
  simp_all [word]

theorem mem_allBytes (b : UInt8) : b ∈ allBytes :=
  List.mem_map.mpr ⟨b.toNat, List.mem_range.mpr b.toNat_lt, UInt8.ofNat_toNat⟩

instance decidableForall (P : UInt8 → Prop) [DecidablePred P] : Decidable (∀ b, P b) :=
  decidable_of_iff ((allBytes.all fun b => decide (P b)) = true) <| by
    rw [List.all_eq_true]
    exact ⟨fun h b => of_decide_eq_true (h b (mem_allBytes b)), fun h b _ => decide_eq_true (h b)⟩

theorem mem_toList {s : ByteSet} {b : UInt8} : b ∈ s.toList ↔ s.contains b = true := by
  simp [toList, mem_allBytes]

@[simp] theorem ofList_toList (s : ByteSet) : ofList s.toList = s := by
  refine eq_of_contains fun b => ?_
  simp [mem_toList]

theorem pairwise_allBytes : allBytes.Pairwise (· < ·) := by
  refine List.pairwise_map.mpr (List.pairwise_lt_range.imp_of_mem fun {m n} hm hn h => ?_)
  rw [List.mem_range] at hm hn
  rw [UInt8.lt_iff_toNat_lt]
  simpa [Nat.mod_eq_of_lt hm, Nat.mod_eq_of_lt hn] using h

theorem pairwise_toList (s : ByteSet) : s.toList.Pairwise (· < ·) := pairwise_allBytes.filter _

end Peg.ByteSet
