import Peg.Cursor
import Peg.Grammar
import Peg.Notice

/-! # The host of an evaluation

Matching itself only reads the input and moves the position. Whatever else a pattern
does reaches the outside as an effect on the context of a host, or through a callback,
which may change the context, move the cursor and break the evaluation off.
-/
namespace Peg

structure HookError where
  message : String
  causes : List String := []
  deriving DecidableEq, Repr

def HookError.report (e : HookError) : String := "Pattern handler failed: " ++ e.message

inductive Abort
  | hook (e : HookError)
  | fault (f : Fault)
  deriving DecidableEq, Repr

inductive Verdict
  | hit (m : Span)
  | miss
  | stop (why : Abort)
  deriving DecidableEq, Repr

def Verdict.span? : Verdict → Option Span
  | .hit m => some m
  | _ => none

inductive Effect
  | captured (m : Span)
  | forwarded (sink : SinkId) (m : Span) (bytes : Array UInt8)
  | noticed (n : Notice)
  deriving DecidableEq, Repr

/-- What a callback leaves behind: the position of the cursor, the context, and why the
evaluation is to be broken off, if it is. -/
structure Reaction (κ : Type) where
  pos : Nat
  ctx : κ
  abort : Option Abort := none

abbrev Callback (κ : Type) := Cursor → Option Span → κ → Reaction κ

def Callback.idle {κ : Type} : Callback κ := fun c _ ctx => { pos := c.pos, ctx }

/-- What effects do to the context, and the callback behind each number. -/
structure Host (κ : Type) where
  perform : Effect → κ → κ
  callback : HookId → Callback κ := fun _ => Callback.idle

/-- All that stays the same during an evaluation. -/
structure Setting (κ : Type) where
  host : Host κ
  input : Array UInt8
  grammar : Option Grammar := none

structure State (κ : Type) where
  pos : Nat
  ctx : κ
  deriving DecidableEq, Repr

end Peg
