import Peg.Text.Printable

/-! # Quoted text

A text in double quotes, with escapes for the quote, the backslash and what does not
print, and lists of such texts.
-/
namespace Peg.Quoted

def codePoint (c : Char) : List Char :=
  "\\u\x7b".toList ++ Nat.toDigits 16 c.toNat ++ ['\x7d']

def char (c : Char) : List Char :=
  if c = '\x00' then ['\\', '0']
  else if c = '\t' then ['\\', 't']
  else if c = '\n' then ['\\', 'n']
  else if c = '\r' then ['\\', 'r']
  else if c = '"' ∨ c = '\\' then ['\\', c]
  else if isPrintable c then [c]
  else codePoint c

def text (s : String) : String := String.ofList ('"' :: s.toList.flatMap char ++ ['"'])

def list (texts : List String) : String := "[" ++ ", ".intercalate (texts.map text) ++ "]"

end Peg.Quoted
