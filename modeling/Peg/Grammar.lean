import Peg.Pattern

/-! # Grammars

A grammar is a row of named slots, one for each name in the order of first mention, with
an index from the names back to the slots. A slot may hold a body; a reference to it sees
the body of the moment, so that rules may be mentioned before they are defined and defined
anew later on.
-/
namespace Peg

structure Slot where
  name : String
  body : Option Pattern := none
  deriving DecidableEq, Repr, Inhabited

structure Grammar where
  id : GrammarId
  slots : Array Slot := #[]
  byName : List (String × Nat) := []
  deriving DecidableEq, Repr, Inhabited

/-- Hands out the identities of grammars in turn, around again after the last one. -/
structure IdentitySupply where
  next : GrammarId := 0
  deriving DecidableEq, Repr

structure Undefined where
  names : List String
  deriving DecidableEq, Repr

def Undefined.message (u : Undefined) : String :=
  (if u.names.length = 1 then "Undefined grammar rule: " else "Undefined grammar rules: ")
    ++ ", ".intercalate u.names

def IdentitySupply.fresh (s : IdentitySupply) : Grammar × IdentitySupply :=
  ({ id := s.next }, { next := s.next + 1 })

namespace Grammar

def size (g : Grammar) : Nat := g.slots.size

def isEmpty (g : Grammar) : Bool := g.slots.isEmpty

def names (g : Grammar) : List String := g.slots.toList.map Slot.name

def find? (g : Grammar) (name : String) : Option Nat := g.byName.lookup name

def slot (g : Grammar) (name : String) : Nat × Grammar :=
  match g.find? name with
  | some i => (i, g)
  | none =>
    let i := g.slots.size
    (i, { g with slots := g.slots.push { name }, byName := (name, i) :: g.byName })

def rule (g : Grammar) (name : String) : Pattern × Grammar :=
  let (i, g') := g.slot name
  (.rule ⟨g.id, i, name⟩, g')

def define (g : Grammar) (name : String) (body : Pattern) : Nat × Grammar :=
  let (i, g') := g.slot name
  (i, { g' with slots := g'.slots.modify i fun s => { s with body := some body } })

def bodyAt? (g : Grammar) (i : Nat) : Option Pattern := g.slots[i]?.bind Slot.body

def get? (g : Grammar) (name : String) : Option Pattern := (g.find? name).bind g.bodyAt?

def name? (g : Grammar) (i : Nat) : Option String := g.slots[i]?.map Slot.name

def undefinedNames (g : Grammar) : List String :=
  (g.slots.toList.filter fun s => s.body.isNone).map Slot.name

def check (g : Grammar) : Except Undefined Unit :=
  if g.undefinedNames.isEmpty then .ok () else .error ⟨g.undefinedNames⟩

/-- The body that a reference stands for; one to another grammar has none here. -/
def resolve? (g : Grammar) (r : RuleRef) : Option Pattern :=
  if r.grammar = g.id then g.bodyAt? r.slot else none

end Grammar

end Peg
