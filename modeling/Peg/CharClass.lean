/-! # Named classes of bytes

Every class is made of ASCII bytes only; a byte from `0x80` on is in none.
-/
namespace Peg

inductive CharClass
  | alpha
  | alnum
  | digit
  | hexDigit
  | lower
  | upper
  | spaceOrNewline
  | blank
  deriving DecidableEq, Repr

namespace CharClass

def isLower (b : UInt8) : Bool := 97 ≤ b && b ≤ 122

def isUpper (b : UInt8) : Bool := 65 ≤ b && b ≤ 90

def isDigit (b : UInt8) : Bool := 48 ≤ b && b ≤ 57

def holds : CharClass → UInt8 → Bool
  | alpha, b => isLower b || isUpper b
  | alnum, b => isLower b || isUpper b || isDigit b
  | digit, b => isDigit b
  | hexDigit, b => isDigit b || (65 ≤ b && b ≤ 70) || (97 ≤ b && b ≤ 102)
  | lower, b => isLower b
  | upper, b => isUpper b
  | spaceOrNewline, b => b == 32 || (9 ≤ b && b ≤ 13)
  | blank, b => b == 32 || b == 9

def all : List CharClass :=
  [alnum, alpha, blank, digit, lower, spaceOrNewline, upper, hexDigit]

def name : CharClass → String
  | alpha => "alpha"
  | alnum => "alnum"
  | digit => "digit"
  | hexDigit => "xdigit"
  | lower => "lower"
  | upper => "upper"
  | spaceOrNewline => "space_or_newline"
  | blank => "blank"

def title : CharClass → String
  | alpha => "Alpha"
  | alnum => "Alnum"
  | digit => "Digit"
  | hexDigit => "HexDigit"
  | lower => "Lower"
  | upper => "Upper"
  | spaceOrNewline => "SpaceOrNewline"
  | blank => "Blank"

def ofName? (name : String) : Option CharClass := all.find? (·.name == name)

theorem mem_all (c : CharClass) : c ∈ all := by cases c <;> decide

@[simp] theorem ofName?_name (c : CharClass) : ofName? c.name = some c := by
  cases c <;> decide

end CharClass

end Peg
