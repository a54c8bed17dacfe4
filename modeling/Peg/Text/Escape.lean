/-! # Writing bytes as printable characters

A byte is written as itself if it is a printable character, as a short escape if it
is a tab, a line end, a quote or a backslash, and by its two hexadecimal digits
otherwise.
-/
namespace Peg.Escape

def hexDigit (n : Nat) : Char :=
  if n < 10 then Char.ofNat (48 + n) else Char.ofNat (87 + n)

def hexPair (b : UInt8) : List Char := [hexDigit (b.toNat / 16), hexDigit (b.toNat % 16)]

def byte (b : UInt8) : List Char :=
  if b = 9 then ['\\', 't']
  else if b = 10 then ['\\', 'n']
  else if b = 13 then ['\\', 'r']
  else if b = 34 ∨ b = 39 ∨ b = 92 then ['\\', Char.ofNat b.toNat]
  else if 32 ≤ b ∧ b < 127 then [Char.ofNat b.toNat]
  else '\\' :: 'x' :: hexPair b

def bytes (bs : List UInt8) : List Char := bs.flatMap byte

def hex (bs : Array UInt8) : String := String.ofList (bs.toList.flatMap hexPair)

end Peg.Escape
