import Mathlib.Data.List.Infix
import Peg.Pattern.Printer
import Peg.Proofs.Unescape

/-! # Reading patterns

A reader takes a pattern off the front of a rendering. There is one for each degree of
tightness, and the one for enclosed patterns is the reader for whole ones, within a limit
on their nesting. On what is no rendering a reader may give any pattern.
-/
namespace Peg.Pattern

abbrev Reader := List Char → Option (Pattern × List Char)

def isWordChar (c : Char) : Bool := c.isLower || c == '_'

def ofWord? (word : String) : Option Pattern :=
  if word = "any" then some any
  else if word = "none" then some (not any)
  else (CharClass.ofName? word).map cls

/-- The kind of pattern that is written as a call, with 0 for what the rendering omits. -/
def ofCall? (name : String) : Option (Pattern → Pattern) :=
  if name = "on_eval" then some (hook · 0)
  else if name = "forward" then some (forward · 0)
  else if name = "capt" then some capture
  else Option.none

def readWord (enclosed : Reader) (word rest : List Char) : Option (Pattern × List Char) :=
  match rest with
  | '(' :: rest => (ofCall? (String.ofList word)).bind fun f =>
      (enclosed rest).map fun r => (f r.1, r.2.tail)
  | rest => (ofWord? (String.ofList word)).map fun p => (p, rest)

def readAtom (enclosed : Reader) : Reader
  | '"' :: cs => (Escape.readBytes Escape.atQuote cs).map fun r => (literal r.1, r.2.tail)
  | '[' :: cs => (ByteSet.read cs).map fun r => (set r.1, r.2.tail)
  | '<' :: cs =>
    let (name, rest) := cs.span (· != '>')
    some (rule ⟨0, 0, String.ofList name⟩, rest.tail)
  | '(' :: cs => (enclosed cs).map fun r => (r.1, r.2.tail)
  | cs => let (word, rest) := cs.span isWordChar; readWord enclosed word rest

def readPrefix (enclosed : Reader) : Reader
  | '-' :: cs => (readPrefix enclosed cs).map fun r => (not r.1, r.2)
  | '&' :: cs => (readPrefix enclosed cs).map fun r => (ahead r.1, r.2)
  | cs => readAtom enclosed cs

def readCount (make : Nat → Pattern) (cs : List Char) : Pattern × List Char :=
  let (digits, rest) := cs.span Char.isDigit
  (make (Nat.ofDigitChars 10 digits 0), rest)

def readTimes (p : Pattern) : List Char → Pattern × List Char
  | '.' :: cs => (atMost p 0, cs.drop "at_most(0)".length)
  | ' ' :: '*' :: ' ' :: cs => readCount (exactly p) cs
  | ' ' :: '%' :: ' ' :: '-' :: cs => readCount (atMost p) cs
  | ' ' :: '%' :: ' ' :: cs => readCount (atLeast p) cs
  | cs => (p, cs)

def readRepeat (enclosed : Reader) : Reader := fun cs =>
  (readPrefix enclosed cs).map fun r => readTimes r.1 r.2

def readChain (operator : List Char) (join : Pattern → Pattern → Pattern) (operand : Reader)
    (p : Pattern) (cs : List Char) : Option (Pattern × List Char) :=
  match cs.dropPrefix? operator with
  | Option.none => some (p, cs)
  | some rest =>
    match operand rest with
    | Option.none => Option.none
    | some (q, rest') =>
      if rest'.length < cs.length then readChain operator join operand (join p q) rest'
      else Option.none
termination_by cs.length

def readSeqs (enclosed : Reader) : Pattern → Reader :=
  readChain " >> ".toList seq (readRepeat enclosed)

def readSeq (enclosed : Reader) : Reader := fun cs =>
  (readRepeat enclosed cs).bind fun r => readSeqs enclosed r.1 r.2

def readChoices (enclosed : Reader) : Pattern → Reader :=
  readChain " | ".toList choice (readSeq enclosed)

def readChoice (enclosed : Reader) : Reader := fun cs =>
  (readSeq enclosed cs).bind fun r => readChoices enclosed r.1 r.2

def read : Nat → Reader
  | 0 => fun _ => Option.none
  | limit + 1 => readChoice (read limit)

end Peg.Pattern
