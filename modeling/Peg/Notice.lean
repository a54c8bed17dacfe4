import Peg.Pattern.Printer
import Peg.Text.Quoted

/-! # Notices

What grammars and evaluations report about their work, as records of a level, a
message and named fields.
-/
namespace Peg

inductive Notice
  | evaluating (pos : Nat)
  | defined (rule : String) (body : Pattern) (again : Bool)
  | unresolved (rule : String)
  /-- A rule was met with no grammar at hand. -/
  | outside (rule : String)
  | undefined (names : List String)
  deriving DecidableEq, Repr

namespace Notice

inductive Level
  | debug
  | trace
  deriving DecidableEq, Repr

def Level.name : Level → String
  | debug => "DEBUG"
  | trace => "TRACE"

inductive Field
  | text (s : String)
  | number (n : Nat)
  | flag (b : Bool)
  deriving DecidableEq, Repr

def level : Notice → Level
  | defined .. => .trace
  | _ => .debug

/-- The named fields; every notice but the start of an evaluation has a message. -/
def fields : Notice → List (String × Field)
  | evaluating pos => [("pos", .number pos)]
  | defined rule body again =>
    [("message", .text "define rule"), ("rule", .text rule), ("body", .text body.render),
      ("redefined", .flag again)]
  | unresolved rule => [("message", .text "unresolved rule"), ("rule", .text rule)]
  | outside rule =>
    [("message", .text "rule evaluated outside its grammar"), ("rule", .text rule)]
  | undefined names =>
    [("message", .text "grammar has undefined rules"), ("missing", .text (Quoted.list names))]

end Notice

end Peg
