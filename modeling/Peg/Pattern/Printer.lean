import Peg.Pattern

/-! # Rendering patterns

A pattern is written in operator notation, with parentheses only where an operator
binds less tightly than its place asks for. What a rendering leaves out is the
callback of a hook, the sink of a forward and the slot behind the name of a rule.
-/
namespace Peg.Pattern

/-- How tightly the outermost operator binds: choices least, then sequences,
repetitions and prefixes, and everything else most. -/
def tightness : Pattern → Nat
  | choice _ _ => 1
  | seq _ _ => 2
  | exactly _ _ | atLeast _ _ | atMost _ _ => 3
  | not any => 5
  | not _ | ahead _ => 4
  | _ => 5

def enclose (least : Nat) (p : Pattern) (rendering : List Char) : List Char :=
  if p.tightness < least then '(' :: rendering ++ [')'] else rendering

def call (name : String) (rendering : List Char) : List Char :=
  name.toList ++ '(' :: rendering ++ [')']

def digits (n : Nat) : List Char := Nat.toDigits 10 n

def chars : Pattern → List Char
  | literal bytes => '"' :: Escape.bytes bytes ++ ['"']
  | set members => members.chars
  | cls c => c.name.toList
  | any => "any".toList
  | seq a b => enclose 2 a (chars a) ++ " >> ".toList ++ enclose 3 b (chars b)
  | choice a b => enclose 1 a (chars a) ++ " | ".toList ++ enclose 2 b (chars b)
  | not any => "none".toList
  | not p => '-' :: enclose 4 p (chars p)
  | ahead p => '&' :: enclose 4 p (chars p)
  | exactly p n => enclose 4 p (chars p) ++ " * ".toList ++ digits n
  | atLeast p n => enclose 4 p (chars p) ++ " % ".toList ++ digits n
  | atMost p 0 => enclose 5 p (chars p) ++ ".at_most(0)".toList
  | atMost p (n + 1) => enclose 4 p (chars p) ++ " % -".toList ++ digits (n + 1)
  | rule r => '<' :: r.name.toList ++ ['>']
  | hook p _ => call "on_eval" (chars p)
  | forward p _ => call "forward" (chars p)
  | capture p => call "capt" (chars p)

def render (p : Pattern) : String := String.ofList p.chars

def describe (p : Pattern) : String := "Pattern(" ++ p.render ++ ")"

end Peg.Pattern
