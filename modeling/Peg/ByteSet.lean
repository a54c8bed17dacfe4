import Peg.Text.Escape

/-! # Sets of bytes

A set keeps one bit for each of the 256 values, in four words of 64. Its members are
listed and rendered in ascending order.
-/
namespace Peg

structure ByteSet where
  w0 : UInt64 := 0
  w1 : UInt64 := 0
  w2 : UInt64 := 0
  w3 : UInt64 := 0
  deriving DecidableEq, Repr

namespace ByteSet

def empty : ByteSet := {}

def bit (b : UInt8) : UInt64 := UInt64.ofNat (1 <<< (b.toNat % 64))

def word (s : ByteSet) : Nat → UInt64
  | 0 => s.w0
  | 1 => s.w1
  | 2 => s.w2
  | _ => s.w3

def setWord (s : ByteSet) (w : UInt64) : Nat → ByteSet
  | 0 => { s with w0 := w }
  | 1 => { s with w1 := w }
  | 2 => { s with w2 := w }
  | _ => { s with w3 := w }

def insert (s : ByteSet) (b : UInt8) : ByteSet :=
  s.setWord (s.word (b.toNat / 64) ||| bit b) (b.toNat / 64)

def contains (s : ByteSet) (b : UInt8) : Bool :=
  (s.word (b.toNat / 64)).toNat.testBit (b.toNat % 64)

def allBytes : List UInt8 := (List.range 256).map UInt8.ofNat

/-- Inserts the bytes from `lo` to `hi`, both included; none if `hi` comes first. -/
def insertRange (s : ByteSet) (lo hi : UInt8) : ByteSet :=
  (allBytes.filter fun b => lo ≤ b && b ≤ hi).foldl insert s

def ofList (bytes : List UInt8) : ByteSet := bytes.foldl insert empty

def toList (s : ByteSet) : List UInt8 := allBytes.filter s.contains

def countBits (w : UInt64) : Nat := (List.range 64).countP fun i => w.toNat.testBit i

def size (s : ByteSet) : Nat :=
  countBits s.w0 + countBits s.w1 + countBits s.w2 + countBits s.w3

def isEmpty (s : ByteSet) : Bool := s.w0 == 0 && s.w1 == 0 && s.w2 == 0 && s.w3 == 0

theorem toNat_bit (b : UInt8) : (bit b).toNat = 1 <<< (b.toNat % 64) := by
  have h : 2 ^ (b.toNat % 64) < 2 ^ 64 :=
    Nat.pow_lt_pow_right (by decide) (Nat.mod_lt _ (by decide))
  simpa [bit, Nat.one_shiftLeft] using Nat.mod_eq_of_lt h

theorem word_setWord (s : ByteSet) (w : UInt64) {i j : Nat} (hi : i < 4) (hj : j < 4) :
    (s.setWord w i).word j = if i = j then w else s.word j := by
  match i, j with
  | 0, 0 | 0, 1 | 0, 2 | 0, 3 | 1, 0 | 1, 1 | 1, 2 | 1, 3 => rfl
  | 2, 0 | 2, 1 | 2, 2 | 2, 3 | 3, 0 | 3, 1 | 3, 2 | 3, 3 => rfl

@[simp] theorem contains_empty (b : UInt8) : empty.contains b = false := by
  have h : empty.word (b.toNat / 64) = 0 := by
    unfold word
    split <;> rfl
  simp [contains, h]

/-- The byte inserted is a member, and the rest is as before. -/
@[simp] theorem contains_insert (s : ByteSet) (b c : UInt8) :
    (s.insert b).contains c = (decide (c = b) || s.contains c) := by
  have hb : b.toNat / 64 < 4 := by have := b.toNat_lt; omega
  have hc : c.toNat / 64 < 4 := by have := c.toNat_lt; omega
  have heq : c = b ↔ b.toNat / 64 = c.toNat / 64 ∧ b.toNat % 64 = c.toNat % 64 := by
    rw [← UInt8.toNat_inj]
    omega
  unfold insert contains
  rw [word_setWord _ _ hb hc]
  by_cases h : b.toNat / 64 = c.toNat / 64
  · simp [h, heq, toNat_bit, Nat.one_shiftLeft, Nat.testBit_two_pow, Bool.or_comm]
  · simp [h, heq]

theorem contains_foldl_insert (s : ByteSet) (bytes : List UInt8) (c : UInt8) :
    (bytes.foldl insert s).contains c = (s.contains c || decide (c ∈ bytes)) := by
  induction bytes generalizing s with
  | nil => simp
  | cons b rest ih =>
    rw [List.foldl_cons, ih, contains_insert]
    by_cases h : c = b <;> simp [h]

/-- The members of a set made from a list are those of the list. -/
@[simp] theorem contains_ofList (bytes : List UInt8) (c : UInt8) :
    (ofList bytes).contains c = decide (c ∈ bytes) := by
  simp [ofList, contains_foldl_insert]

def chars (s : ByteSet) : List Char := '[' :: Escape.bytes s.toList ++ [']']

def render (s : ByteSet) : String := String.ofList s.chars

def describe (s : ByteSet) : String := "ByteSet" ++ s.render

end ByteSet

end Peg
