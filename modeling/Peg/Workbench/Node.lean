import Peg.Pattern

/-! # Nodes with an identity

Equal patterns may still be different nodes. A node carries a label of its own, and a
negation also the label of the node that it wraps, which is what negating it gives back.
-/
namespace Peg

structure Node where
  pattern : Pattern
  label : Nat
  wrapped : Option Nat := none
  deriving DecidableEq, Repr

namespace Node

def same (a b : Node) : Bool := a.label == b.label

/-- The negated form of a node. The label given is used up only by a new node, which
is what the second part tells. -/
def negate (n : Node) (label : Nat) : Node × Bool :=
  match n.pattern, n.wrapped with
  | .not inner, some under => ({ pattern := inner, label := under }, false)
  | .atLeast .., _ | .atMost .., _ => ({ pattern := n.pattern.negate, label }, true)
  | p, _ => ({ pattern := p.negate, label, wrapped := some n.label }, true)

theorem negate_pattern (n : Node) (label : Nat) :
    (n.negate label).1.pattern = n.pattern.negate := by
  obtain ⟨p, l, w⟩ := n
  cases p <;> cases w <;> rfl

end Node

end Peg
