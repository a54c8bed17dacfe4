import Peg.ByteSet
import Peg.CharClass

/-! # Patterns

A pattern is a tree of fifteen kinds of node. A reference to a rule keeps the identity
of its grammar and the number of its slot; callbacks and sinks are kept by number and
get their meaning from the host of an evaluation.
-/
namespace Peg

abbrev GrammarId := UInt32

abbrev HookId := Nat

abbrev SinkId := Nat

/-- A slot of a grammar, with the name it was asked for by. -/
structure RuleRef where
  grammar : GrammarId
  slot : Nat
  name : String
  deriving DecidableEq, Repr

inductive Pattern
  | literal (bytes : List UInt8)
  | set (members : ByteSet)
  | cls (c : CharClass)
  | any
  | seq (lhs rhs : Pattern)
  | choice (lhs rhs : Pattern)
  /-- Nothing, where the inner pattern misses. -/
  | not (inner : Pattern)
  | ahead (inner : Pattern)
  | exactly (inner : Pattern) (count : Nat)
  | atLeast (inner : Pattern) (min : Nat)
  | atMost (inner : Pattern) (max : Nat)
  /-- Whatever the slot holds at that moment. -/
  | rule (ref : RuleRef)
  /-- The inner pattern, then the callback, whether it matched or not. -/
  | hook (inner : Pattern) (callback : HookId)
  | forward (inner : Pattern) (sink : SinkId)
  | capture (inner : Pattern)
  deriving DecidableEq, Repr, Inhabited

namespace Pattern

def lit (s : String) : Pattern := literal (s.toUTF8.data.toList)

def oneOf (s : String) : Pattern := set (ByteSet.ofList s.toUTF8.data.toList)

def empty : Pattern := literal []

def space : Pattern := set (ByteSet.ofList [32, 9, 11])

/-- The negated form: a negation is unwrapped, a lower bound on repetitions becomes the
upper bound of the same count and the other way round, and anything else is wrapped. -/
def negate : Pattern → Pattern
  | not inner => inner
  | atLeast inner n => atMost inner n
  | atMost inner n => atLeast inner n
  | p => not p

def none : Pattern := negate any

/-- The pattern `a` where `b` does not match: the negated form of `b`, then `a`. -/
def minus (a b : Pattern) : Pattern := seq (negate b) a

/-- At least `n` repetitions, or at most `-n` if `n` is negative. -/
def quantify (p : Pattern) (n : Int) : Pattern :=
  if n < 0 then atMost p n.natAbs else atLeast p n.natAbs

@[simp] theorem none_eq : none = not any := rfl

end Pattern

end Peg
