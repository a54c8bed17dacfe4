/-! # Reading UTF-8

Bytes are read one at a time. Each scalar value gives its character; each longest
run of bytes that starts a scalar value but cannot be continued to one, and each
byte that starts none, gives a single gap.
-/
namespace Peg.Utf8

/-- A scalar value of which some bytes are read: how many more it needs, the bounds
of the next one, and the value of the bits so far. -/
structure Partial where
  needed : Nat
  low : UInt8
  high : UInt8
  value : Nat
  deriving DecidableEq, Repr

inductive Lead
  | whole (value : Nat)
  | opens (p : Partial)
  | invalid
  deriving DecidableEq, Repr

/-- The bounds of the second byte rule out overlong forms, surrogates and values
past the last scalar value. -/
def lead (b : UInt8) : Lead :=
  if b < 0x80 then .whole b.toNat
  else if b < 0xc2 then .invalid
  else if b < 0xe0 then .opens ⟨1, 0x80, 0xbf, b.toNat - 0xc0⟩
  else if b < 0xf0 then
    .opens ⟨2, if b = 0xe0 then 0xa0 else 0x80, if b = 0xed then 0x9f else 0xbf, b.toNat - 0xe0⟩
  else if b < 0xf5 then
    .opens ⟨3, if b = 0xf0 then 0x90 else 0x80, if b = 0xf4 then 0x8f else 0xbf, b.toNat - 0xf0⟩
  else .invalid

structure Reader where
  pending : Option Partial := none
  read : Array (Option Char) := #[]
  deriving Repr

namespace Reader

def start (read : Array (Option Char)) (b : UInt8) : Reader :=
  match lead b with
  | .whole v => ⟨none, read.push (some (Char.ofNat v))⟩
  | .opens p => ⟨some p, read⟩
  | .invalid => ⟨none, read.push none⟩

/-- Takes the next byte; one that cannot continue a scalar value leaves a gap for it
and is then taken anew. -/
def push (r : Reader) (b : UInt8) : Reader :=
  match r.pending with
  | none => start r.read b
  | some p =>
    if p.low ≤ b ∧ b ≤ p.high then
      let value := p.value * 64 + (b.toNat - 0x80)
      if p.needed ≤ 1 then ⟨none, r.read.push (some (Char.ofNat value))⟩
      else ⟨some ⟨p.needed - 1, 0x80, 0xbf, value⟩, r.read⟩
    else start (r.read.push none) b

def finish (r : Reader) : Array (Option Char) :=
  match r.pending with
  | none => r.read
  | some _ => r.read.push none

end Reader

def scan (bytes : Array UInt8) : Array (Option Char) :=
  (bytes.foldl Reader.push {}).finish

/-- The text with a replacement character in each gap. -/
def decodeLossy (bytes : Array UInt8) : String :=
  String.ofList ((scan bytes).toList.map (·.getD '\ufffd'))

def isValid (bytes : Array UInt8) : Bool := (scan bytes).all Option.isSome

def encode (s : String) : Array UInt8 := s.toUTF8.data

end Peg.Utf8
