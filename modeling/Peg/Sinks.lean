import Peg.Pattern

/-! # Byte sinks

A row of sinks, each of which only grows until it is emptied. A sink that nothing was
written to is empty.
-/
namespace Peg

structure Sinks where
  cells : List (SinkId × Array UInt8) := []
  deriving Repr, Inhabited

namespace Sinks

def heldIn (id : SinkId) : List (SinkId × Array UInt8) → Array UInt8
  | [] => #[]
  | (k, held) :: rest => if id = k then held else heldIn id rest

def writtenTo (id : SinkId) (bytes : Array UInt8) :
    List (SinkId × Array UInt8) → List (SinkId × Array UInt8)
  | [] => [(id, bytes)]
  | (k, held) :: rest =>
    if id = k then (k, held ++ bytes) :: rest else (k, held) :: writtenTo id bytes rest

def content (s : Sinks) (id : SinkId) : Array UInt8 := heldIn id s.cells

def append (s : Sinks) (id : SinkId) (bytes : Array UInt8) : Sinks :=
  ⟨writtenTo id bytes s.cells⟩

def clear (s : Sinks) (id : SinkId) : Sinks := ⟨s.cells.filter fun cell => id ≠ cell.1⟩

theorem content_append (s : Sinks) (id other : SinkId) (bytes : Array UInt8) :
    (s.append id bytes).content other =
      if other = id then s.content other ++ bytes else s.content other := by
  obtain ⟨cells⟩ := s
  simp only [content, append]
  induction cells with
  | nil => by_cases h : other = id <;> simp [writtenTo, heldIn, h]
  | cons cell rest ih =>
    obtain ⟨k, held⟩ := cell
    by_cases hk : id = k
    · subst hk
      by_cases h : other = id <;> simp [writtenTo, heldIn, h]
    · by_cases h : other = k
      · subst h
        simp [writtenTo, heldIn, hk, Ne.symm hk]
      · simpa [writtenTo, heldIn, hk, h] using ih

theorem content_clear (s : Sinks) (id other : SinkId) :
    (s.clear id).content other = if other = id then #[] else s.content other := by
  obtain ⟨cells⟩ := s
  simp only [content, clear]
  induction cells with
  | nil => simp [heldIn]
  | cons cell rest ih =>
    obtain ⟨k, held⟩ := cell
    by_cases hk : id = k
    · subst hk
      by_cases h : other = id <;> simp_all [heldIn]
    · by_cases h : other = k
      · subst h
        simp [heldIn, hk, Ne.symm hk]
      · simpa [heldIn, hk, h] using ih

end Sinks

end Peg
