import Peg.ByteSet

/-! # Edits of a byte set

A set is built by a series of edits, each of which adds bytes to it or replaces it.
-/
namespace Peg.ByteSet

inductive Edit
  | insert (b : UInt8)
  | insertRange (lo hi : UInt8)
  | replace (bytes : List UInt8)
  deriving DecidableEq, Repr

def edit (s : ByteSet) : Edit → ByteSet
  | .insert b => s.insert b
  | .insertRange lo hi => s.insertRange lo hi
  | .replace bytes => ofList bytes

def ofEdits (edits : List Edit) : ByteSet := edits.foldl edit empty

end Peg.ByteSet
