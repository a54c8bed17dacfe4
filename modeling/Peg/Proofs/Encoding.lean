import Peg.Text.Utf8

/-! # Reading back what was written

The reader takes the bytes of a character one after the other and gives the character, so a
text that was written as UTF-8 is read without a gap. Bytes below 128 stand for themselves.
-/
namespace Peg.Utf8

section Bytes

variable {b : UInt8} {p : Partial} {read : Array (Option Char)}

theorem lead_one (h : b.toNat < 0x80) : lead b = .whole b.toNat := by
  rw [lead, if_pos (UInt8.lt_iff_toNat_lt.mpr h)]

theorem lead_two (hlow : 0xc2 ≤ b.toNat) (hhigh : b.toNat < 0xe0) :
    lead b = .opens ⟨1, 0x80, 0xbf, b.toNat - 0xc0⟩ := by
  have h₁ : ¬ b < 0x80 := by rw [UInt8.lt_iff_toNat_lt]; simp; omega
  have h₂ : ¬ b < 0xc2 := by rw [UInt8.lt_iff_toNat_lt]; simp; omega
  have h₃ : b < 0xe0 := UInt8.lt_iff_toNat_lt.mpr hhigh
  rw [lead, if_neg h₁, if_neg h₂, if_pos h₃]

theorem lead_three (hlow : 0xe0 ≤ b.toNat) (hhigh : b.toNat < 0xf0) :
    ∃ low high, lead b = .opens ⟨2, low, high, b.toNat - 0xe0⟩ ∧
      low.toNat = (if b.toNat = 0xe0 then 0xa0 else 0x80) ∧
      high.toNat = (if b.toNat = 0xed then 0x9f else 0xbf) := by
  have h₁ : ¬ b < 0x80 := by rw [UInt8.lt_iff_toNat_lt]; simp; omega
  have h₂ : ¬ b < 0xc2 := by rw [UInt8.lt_iff_toNat_lt]; simp; omega
  have h₃ : ¬ b < 0xe0 := by rw [UInt8.lt_iff_toNat_lt]; simp; omega
  have h₄ : b < 0xf0 := UInt8.lt_iff_toNat_lt.mpr hhigh
  refine ⟨_, _, by rw [lead, if_neg h₁, if_neg h₂, if_neg h₃, if_pos h₄], ?_, ?_⟩
  · simp only [← UInt8.toNat_inj, apply_ite UInt8.toNat, UInt8.reduceToNat]
  · simp only [← UInt8.toNat_inj, apply_ite UInt8.toNat, UInt8.reduceToNat]

theorem lead_four (hlow : 0xf0 ≤ b.toNat) (hhigh : b.toNat < 0xf5) :
    ∃ low high, lead b = .opens ⟨3, low, high, b.toNat - 0xf0⟩ ∧
      low.toNat = (if b.toNat = 0xf0 then 0x90 else 0x80) ∧
      high.toNat = (if b.toNat = 0xf4 then 0x8f else 0xbf) := by
  have h₁ : ¬ b < 0x80 := by rw [UInt8.lt_iff_toNat_lt]; simp; omega
  have h₂ : ¬ b < 0xc2 := by rw [UInt8.lt_iff_toNat_lt]; simp; omega
  have h₃ : ¬ b < 0xe0 := by rw [UInt8.lt_iff_toNat_lt]; simp; omega
  have h₄ : ¬ b < 0xf0 := by rw [UInt8.lt_iff_toNat_lt]; simp; omega
  have h₅ : b < 0xf5 := UInt8.lt_iff_toNat_lt.mpr hhigh
  refine ⟨_, _, by rw [lead, if_neg h₁, if_neg h₂, if_neg h₃, if_neg h₄, if_pos h₅], ?_, ?_⟩
  · simp only [← UInt8.toNat_inj, apply_ite UInt8.toNat, UInt8.reduceToNat]
  · simp only [← UInt8.toNat_inj, apply_ite UInt8.toNat, UInt8.reduceToNat]

theorem push_whole {v : Nat} (h : lead b = .whole v) :
    Reader.push ⟨none, read⟩ b = ⟨none, read.push (some (Char.ofNat v))⟩ := by
  simp only [Reader.push, Reader.start, h]

theorem push_opens (h : lead b = .opens p) : Reader.push ⟨none, read⟩ b = ⟨some p, read⟩ := by
  simp only [Reader.push, Reader.start, h]

/-- The bounds that a byte has to keep are met, and the bits so far with those of the byte make
the value. -/
structure Continues (p : Partial) (b : UInt8) (value : Nat) : Prop where
  low : p.low.toNat ≤ b.toNat
  high : b.toNat ≤ p.high.toNat
  value : p.value * 64 + (b.toNat - 0x80) = value

theorem push_more {v : Nat} (n : Nat) (h : Continues p b v) (hneeded : p.needed = n + 2) :
    Reader.push ⟨some p, read⟩ b = ⟨some ⟨n + 1, 0x80, 0xbf, v⟩, read⟩ := by
  have hb : p.low ≤ b ∧ b ≤ p.high :=
    ⟨UInt8.le_iff_toNat_le.mpr h.low, UInt8.le_iff_toNat_le.mpr h.high⟩
  simp only [Reader.push, if_pos hb, hneeded, h.value]
  rw [if_neg (by omega)]
  rfl

theorem push_last {v : Nat} (h : Continues p b v) (hneeded : p.needed = 1) :
    Reader.push ⟨some p, read⟩ b = ⟨none, read.push (some (Char.ofNat v))⟩ := by
  have hb : p.low ≤ b ∧ b ≤ p.high :=
    ⟨UInt8.le_iff_toNat_le.mpr h.low, UInt8.le_iff_toNat_le.mpr h.high⟩
  simp only [Reader.push, if_pos hb, if_pos (Nat.le_of_eq hneeded), h.value]

end Bytes

theorem toNat_ofNat {k : Nat} (h : k < 256) : (UInt8.ofNat k).toNat = k :=
  UInt8.toNat_ofNat_of_lt' h

theorem Continues.tail {u v : Nat} (needed : Nat) {k : Nat} (hlow : 0x80 ≤ k) (hhigh : k ≤ 0xbf)
    (h : u * 64 + (k - 0x80) = v) : Continues ⟨needed, 0x80, 0xbf, u⟩ (UInt8.ofNat k) v := by
  have hk := toNat_ofNat (k := k) (by omega)
  exact ⟨hk.symm ▸ hlow, hk.symm ▸ hhigh, hk.symm ▸ h⟩

/-- Between two characters, the bytes of a character are read as that character. -/
theorem foldl_utf8EncodeChar (c : Char) (read : Array (Option Char)) :
    (String.utf8EncodeChar c).foldl Reader.push ⟨none, read⟩ = ⟨none, read.push (some c)⟩ := by
  have hvalid : c.toNat < 0xd800 ∨ 0xdfff < c.toNat ∧ c.toNat < 0x110000 := c.valid
  rw [show some c = some (Char.ofNat c.toNat) by rw [Char.ofNat_toNat]]
  unfold String.utf8EncodeChar
  simp only [show c.val.toNat = c.toNat from rfl]
  generalize c.toNat = v at hvalid
  split
  · have h₀ := toNat_ofNat (k := v) (by omega)
    rw [List.foldl_cons, push_whole (lead_one (by omega)), h₀, List.foldl_nil]
  split
  · have h₀ := toNat_ofNat (k := v / 64 % 0x20 + 0xc0) (by omega)
    have hlead := lead_two (b := UInt8.ofNat (v / 64 % 0x20 + 0xc0)) (by omega) (by omega)
    have h₁ := Continues.tail 1 (u := v / 64) (k := v % 0x40 + 0x80) (v := v) (by omega)
      (by omega) (by omega)
    rw [h₀, show v / 64 % 0x20 + 0xc0 - 0xc0 = v / 64 by omega] at hlead
    rw [List.foldl_cons, push_opens hlead, List.foldl_cons, push_last h₁ rfl, List.foldl_nil]
  split
  · have h₀ := toNat_ofNat (k := v / 4096 % 0x10 + 0xe0) (by omega)
    obtain ⟨low, high, hlead, hlow, hhigh⟩ :=
      lead_three (b := UInt8.ofNat (v / 4096 % 0x10 + 0xe0)) (by omega) (by omega)
    rw [h₀, show v / 4096 % 0x10 + 0xe0 - 0xe0 = v / 4096 by omega] at hlead
    have hsecond := toNat_ofNat (k := v / 64 % 0x40 + 0x80) (by omega)
    have h₁ : Continues ⟨2, low, high, v / 4096⟩ (UInt8.ofNat (v / 64 % 0x40 + 0x80)) (v / 64) := by
      refine ⟨?_, ?_, ?_⟩ <;> dsimp only <;> split at hlow <;> split at hhigh <;> omega
    have h₂ := Continues.tail 1 (u := v / 64) (k := v % 0x40 + 0x80) (v := v) (by omega)
      (by omega) (by omega)
    rw [List.foldl_cons, push_opens hlead, List.foldl_cons, push_more 0 h₁ rfl,
      List.foldl_cons, push_last h₂ rfl, List.foldl_nil]
  · have h₀ := toNat_ofNat (k := v / 262144 % 0x08 + 0xf0) (by omega)
    obtain ⟨low, high, hlead, hlow, hhigh⟩ :=
      lead_four (b := UInt8.ofNat (v / 262144 % 0x08 + 0xf0)) (by omega) (by omega)
    rw [h₀, show v / 262144 % 0x08 + 0xf0 - 0xf0 = v / 262144 by omega] at hlead
    have hsecond := toNat_ofNat (k := v / 4096 % 0x40 + 0x80) (by omega)
    have h₁ : Continues ⟨3, low, high, v / 262144⟩ (UInt8.ofNat (v / 4096 % 0x40 + 0x80))
        (v / 4096) := by
      refine ⟨?_, ?_, ?_⟩ <;> dsimp only <;> split at hlow <;> split at hhigh <;> omega
    have h₂ := Continues.tail 2 (u := v / 4096) (k := v / 64 % 0x40 + 0x80) (v := v / 64)
      (by omega) (by omega) (by omega)
    have h₃ := Continues.tail 1 (u := v / 64) (k := v % 0x40 + 0x80) (v := v) (by omega)
      (by omega) (by omega)
    rw [List.foldl_cons, push_opens hlead, List.foldl_cons, push_more 1 h₁ rfl,
      List.foldl_cons, push_more 0 h₂ rfl, List.foldl_cons, push_last h₃ rfl, List.foldl_nil]

theorem utf8EncodeChar_of_lt {c : Char} (h : c.toNat < 0x80) :
    String.utf8EncodeChar c = [UInt8.ofNat c.toNat] := by
  have hle : c.val.toNat ≤ 0x7f := Nat.le_of_lt_succ h
  simp only [String.utf8EncodeChar, if_pos hle]
  rfl

/-- Only bytes from 128 on are written for the characters from 128 on. -/
theorem le_of_mem_utf8EncodeChar {c : Char} (h : 0x80 ≤ c.toNat) :
    ∀ b ∈ String.utf8EncodeChar c, 0x80 ≤ b.toNat := by
  have hbyte : ∀ k, 0x80 ≤ k → k < 0x100 → 0x80 ≤ (UInt8.ofNat k).toNat := by
    intro k hlow hhigh
    rwa [toNat_ofNat hhigh]
  have hle : ¬ c.val.toNat ≤ 0x7f := Nat.not_le.mpr h
  simp only [String.utf8EncodeChar, if_neg hle]
  generalize c.val.toNat = v
  split
  · simp only [List.forall_mem_cons]
    exact ⟨hbyte _ (by omega) (by omega), hbyte _ (by omega) (by omega), by simp⟩
  split
  · simp only [List.forall_mem_cons]
    exact ⟨hbyte _ (by omega) (by omega), hbyte _ (by omega) (by omega),
      hbyte _ (by omega) (by omega), by simp⟩
  · simp only [List.forall_mem_cons]
    exact ⟨hbyte _ (by omega) (by omega), hbyte _ (by omega) (by omega),
      hbyte _ (by omega) (by omega), hbyte _ (by omega) (by omega), by simp⟩

/-- A text is written character by character. -/
theorem encode_toList (s : String) :
    (encode s).toList = s.toList.flatMap String.utf8EncodeChar := by
  have hs : s.toUTF8 = s.toList.utf8Encode := by
    rw [String.toUTF8_eq_toByteArray, String.utf8Encode_toList]
  rw [encode, hs]
  exact congrArg Array.toList List.data_toByteArray

/-- A written text is read character by character. -/
theorem scan_encode (s : String) : scan (encode s) = (s.toList.map some).toArray := by
  have hread : ∀ (cs : List Char) read,
      (cs.flatMap String.utf8EncodeChar).foldl Reader.push ⟨none, read⟩ =
        ⟨none, read ++ (cs.map some).toArray⟩ := by
    intro cs
    induction cs with
    | nil => simp
    | cons c cs ih =>
      intro read
      rw [List.flatMap_cons, List.foldl_append, foldl_utf8EncodeChar, ih]
      simp
  rw [scan, ← Array.foldl_toList, encode_toList, hread s.toList #[]]
  simp [Reader.finish]

@[simp] theorem isValid_encode (s : String) : isValid (encode s) = true := by
  simp [isValid, scan_encode]

/-- A written text is read back as it is, without a replacement character. -/
@[simp] theorem decodeLossy_encode (s : String) : decodeLossy (encode s) = s := by
  have hget : (fun c : Option Char => c.getD '\ufffd') ∘ some = id := rfl
  simp [decodeLossy, scan_encode, hget]

theorem encode_injective : Function.Injective encode := fun s t h => by
  rw [← decodeLossy_encode s, h, decodeLossy_encode]

@[simp] theorem encode_append (s t : String) : encode (s ++ t) = encode s ++ encode t := by
  apply Array.toList_inj.mp
  rw [Array.toList_append, encode_toList, encode_toList, encode_toList, String.toList_append,
    List.flatMap_append]

section Ascii

variable {a : Char} (ha : a.toNat < 0x80) {s : String}
include ha

theorem eq_of_mem_utf8EncodeChar {c : Char} (h : UInt8.ofNat a.toNat ∈ String.utf8EncodeChar c) :
    c = a := by
  have hbyte := toNat_ofNat (k := a.toNat) (by omega)
  rcases Nat.lt_or_ge c.toNat 0x80 with hc | hc
  · rw [utf8EncodeChar_of_lt hc, List.mem_singleton, ← UInt8.toNat_inj, hbyte,
      toNat_ofNat (by omega)] at h
    exact Char.toNat_inj.mp h.symm
  · have hle := le_of_mem_utf8EncodeChar hc _ h
    omega

/-- A byte below 128 in a written text stands for the character itself. -/
theorem mem_of_mem_encode (h : UInt8.ofNat a.toNat ∈ encode s) : a ∈ s.toList := by
  rw [← Array.mem_toList_iff, encode_toList, List.mem_flatMap] at h
  obtain ⟨c, hc, hbyte⟩ := h
  exact eq_of_mem_utf8EncodeChar ha hbyte ▸ hc

theorem getLast?_of_back?_encode (h : (encode s).back? = some (UInt8.ofNat a.toNat)) :
    s.toList.getLast? = some a := by
  rw [← Array.getLast?_toList, encode_toList] at h
  rcases List.eq_nil_or_concat s.toList with hnil | ⟨cs, c, hcs⟩
  · simp [hnil] at h
  · have hne := String.utf8EncodeChar_ne_nil (c := c)
    rw [List.concat_eq_append] at hcs
    rw [hcs, List.flatMap_append, List.flatMap_singleton, List.getLast?_append,
      List.getLast?_eq_some_getLast hne, Option.some_or, ← List.getLast?_eq_some_getLast hne] at h
    rw [hcs, List.getLast?_concat, eq_of_mem_utf8EncodeChar ha (List.mem_of_getLast? h)]

end Ascii

end Peg.Utf8
