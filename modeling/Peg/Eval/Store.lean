import Peg.Sinks
import Peg.Eval.Run

/-! # Evaluation into a store

The plain host: captured spans are listed in the order of their matches, forwarded
bytes go to the sinks, and notices are dropped.
-/
namespace Peg

structure Store where
  captures : Array Span := #[]
  sinks : Sinks := {}
  deriving Repr, Inhabited

namespace Store

def perform : Effect → Store → Store
  | .captured m, s => { s with captures := s.captures.push m }
  | .forwarded sink _ bytes, s => { s with sinks := s.sinks.append sink bytes }
  | .noticed _, s => s

def host : Host Store := { perform }

end Store

end Peg
