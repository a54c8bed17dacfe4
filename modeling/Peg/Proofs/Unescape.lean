import Peg.Proofs.ByteSets

/-! # Reading escaped bytes

The escapes of the bytes can be told apart, so that a row of them is read back byte by
byte, up to whatever ends it. A literal ends at its quote. A set ends at a bracket, which
may also be one of its members, but the members ascend: behind a bracket among them there
is a byte above it or a second bracket, and behind the one that ends the set there is not.
-/
namespace Peg

namespace Escape

def hexValue (c : Char) : Nat := if c.toNat < 97 then c.toNat - 48 else c.toNat - 87

theorem hexValue_hexDigit : ∀ n, n < 16 → hexValue (hexDigit n) = n := by decide

def readByte : List Char → Option (UInt8 × List Char)
  | [] => none
  | '\\' :: 't' :: rest => some (9, rest)
  | '\\' :: 'n' :: rest => some (10, rest)
  | '\\' :: 'r' :: rest => some (13, rest)
  | '\\' :: 'x' :: high :: low :: rest =>
    some (.ofNat (16 * hexValue high + hexValue low), rest)
  | '\\' :: c :: rest => some (.ofNat c.toNat, rest)
  | c :: rest => some (.ofNat c.toNat, rest)

theorem readByte_plain {c : Char} (h : c ≠ '\\') (rest : List Char) :
    readByte (c :: rest) = some (.ofNat c.toNat, rest) := by
  rw [readByte.eq_def]
  split <;> simp_all

theorem toNat_ofNat_byte (b : UInt8) : (Char.ofNat b.toNat).toNat = b.toNat := by
  have hvalid : b.toNat.isValidChar := .inl (by have := b.toNat_lt; omega)
  rw [Char.ofNat, dif_pos hvalid]
  rfl

theorem eq_of_ofNat_eq {b : UInt8} {c : Char} (h : Char.ofNat b.toNat = c) :
    b = .ofNat c.toNat := by
  rw [← h, toNat_ofNat_byte, UInt8.ofNat_toNat]

/-- A byte is read back from the characters that stand for it. -/
@[simp] theorem readByte_byte (b : UInt8) (rest : List Char) :
    readByte (byte b ++ rest) = some (b, rest) := by
  unfold byte
  split
  · subst b; rfl
  split
  · subst b; rfl
  split
  · subst b; rfl
  split
  · rename_i h
    rcases h with rfl | rfl | rfl <;> rfl
  split
  · rename_i hquote _
    have hne : Char.ofNat b.toNat ≠ '\\' := fun h => hquote (.inr (.inr (eq_of_ofNat_eq h)))
    rw [List.singleton_append, readByte_plain hne, toNat_ofNat_byte, UInt8.ofNat_toNat]
  · have hb := b.toNat_lt
    simp only [hexPair, List.cons_append, List.nil_append, readByte]
    rw [hexValue_hexDigit _ (by omega), hexValue_hexDigit _ (by omega), Nat.div_add_mod,
      UInt8.ofNat_toNat]

/-- The escape of a byte begins with a backslash, or is the byte itself as a character
other than a quote. -/
theorem byte_cases (b : UInt8) : (∃ cs, byte b = '\\' :: cs) ∨
    (b ≠ 34 ∧ byte b = [Char.ofNat b.toNat]) := by
  unfold byte
  split
  · exact .inl ⟨_, rfl⟩
  split
  · exact .inl ⟨_, rfl⟩
  split
  · exact .inl ⟨_, rfl⟩
  split
  · exact .inl ⟨_, rfl⟩
  split
  · rename_i hquote _
    exact .inr ⟨fun h => hquote (.inl h), rfl⟩
  · exact .inl ⟨_, rfl⟩

theorem byte_ne_nil (b : UInt8) : byte b ≠ [] := by
  obtain ⟨cs, h⟩ | ⟨_, h⟩ := byte_cases b <;> simp [h]

def readBytes (stop : List Char → Bool) (cs : List Char) : Option (List UInt8 × List Char) :=
  if stop cs then some ([], cs)
  else match readByte cs with
    | none => none
    | some (b, rest) =>
      if rest.length < cs.length then (readBytes stop rest).map fun r => (b :: r.1, r.2)
      else none
termination_by cs.length

/-- A row of bytes is read back if its rendering stops at its end and not before. -/
theorem readBytes_bytes {stop : List Char → Bool} {rest : List Char} (hstop : stop rest)
    (bs : List UInt8)
    (hgo : ∀ b tail, b :: tail <:+ bs → stop (byte b ++ (bytes tail ++ rest)) = false) :
    readBytes stop (bytes bs ++ rest) = some (bs, rest) := by
  induction bs with
  | nil =>
    rw [readBytes]
    simp [bytes, hstop]
  | cons b bs ih =>
    have hcons : bytes (b :: bs) ++ rest = byte b ++ (bytes bs ++ rest) := by simp [bytes]
    have hrest := ih fun c tail h => hgo c tail (h.trans (List.suffix_cons b bs))
    rw [hcons, readBytes, hgo b bs (List.suffix_refl _), readByte_byte]
    simp [hrest, byte_ne_nil]

def atQuote (cs : List Char) : Bool := cs.head? == some '"'

theorem atQuote_byte (b : UInt8) (rest : List Char) : atQuote (byte b ++ rest) = false := by
  obtain ⟨cs, h⟩ | ⟨hb, h⟩ := byte_cases b
  · rw [h]
    rfl
  · have hne : Char.ofNat b.toNat ≠ '"' := fun h => hb (eq_of_ofNat_eq h)
    simp [h, atQuote, hne]

/-- Quoted bytes are read back up to the quotation mark that ends them. -/
theorem readBytes_quoted (bs : List UInt8) (rest : List Char) :
    readBytes atQuote (bytes bs ++ '"' :: rest) = some (bs, '"' :: rest) :=
  readBytes_bytes rfl bs fun b _ _ => atQuote_byte b _

end Escape

/-- The rendering goes on as behind a whole part of a pattern: it ends, or there is a
space, a dot or a closing parenthesis. -/
def Pattern.follows : List Char → Bool
  | [] => true
  | c :: _ => c == ' ' || c == '.' || c == ')'

namespace ByteSet

def closes : List Char → Bool
  | ']' :: rest => Pattern.follows rest
  | _ => false

def read (cs : List Char) : Option (ByteSet × List Char) :=
  (Escape.readBytes closes cs).map fun r => (ofList r.1, r.2)

theorem closes_plain {c : Char} (h : c ≠ ']') (rest : List Char) : closes (c :: rest) = false := by
  rw [closes.eq_def]
  split <;> simp_all

theorem follows_byte {b : UInt8} (hb : 93 < b) (rest : List Char) :
    Pattern.follows (Escape.byte b ++ rest) = false := by
  obtain ⟨cs, h⟩ | ⟨_, h⟩ := Escape.byte_cases b
  · rw [h]
    rfl
  · have hne : ∀ c : Char, c.toNat ≤ 93 → Char.ofNat b.toNat ≠ c := by
      rintro _ hc rfl
      rw [Escape.toNat_ofNat_byte] at hc
      exact absurd (UInt8.le_iff_toNat_le.mpr hc) (UInt8.not_le.mpr hb)
    simp [h, Pattern.follows, hne]

/-- A set does not end at one of its members. -/
theorem closes_member (b : UInt8) (tail : List UInt8) (h : ∀ c ∈ tail, b < c) (rest : List Char) :
    closes (Escape.byte b ++ (Escape.bytes tail ++ ']' :: rest)) = false := by
  obtain ⟨cs, hb⟩ | ⟨_, hb⟩ := Escape.byte_cases b
  · rw [hb]
    rfl
  by_cases hbracket : Char.ofNat b.toNat = ']'
  · obtain rfl : b = 93 := Escape.eq_of_ofNat_eq hbracket
    cases tail with
    | nil => rfl
    | cons c tail =>
      have hc := follows_byte (h c List.mem_cons_self) (Escape.bytes tail ++ ']' :: rest)
      simpa [hb, closes, Escape.bytes] using hc
  · rw [hb]
    exact closes_plain hbracket _

theorem read_members (s : ByteSet) {rest : List Char} (hrest : Pattern.follows rest) :
    read (Escape.bytes s.toList ++ ']' :: rest) = some (s, ']' :: rest) := by
  have hgo : ∀ b tail, b :: tail <:+ s.toList →
      closes (Escape.byte b ++ (Escape.bytes tail ++ ']' :: rest)) = false := by
    intro b tail hsuffix
    have hascend := s.pairwise_toList.sublist hsuffix.sublist
    exact closes_member b tail (List.pairwise_cons.mp hascend).1 rest
  have hbytes := Escape.readBytes_bytes (show closes (']' :: rest) from hrest) s.toList hgo
  simp [read, hbytes]

end ByteSet

end Peg
