import Peg.ByteSet.Edit
import Peg.Workbench.Bench

/-! # Pattern expressions

An expression says how a pattern is put together out of constructors, operators and
names. Building one proceeds from left to right, which settles the order in which
grammars get their slots.
-/
namespace Peg

inductive Expr
  | literal (bytes : List UInt8)
  | set (bytes : List UInt8)
  | byteSet (edits : List ByteSet.Edit)
  | cls (c : CharClass)
  | space
  | empty
  | any
  | none
  | seq (a b : Expr)
  | choice (a b : Expr)
  | minus (a b : Expr)
  | negate (p : Expr)
  | exactly (p : Expr) (count : Nat)
  | quantify (p : Expr) (n : Int)
  | atLeast (p : Expr) (min : Nat)
  | atMost (p : Expr) (max : Nat)
  | ahead (p : Expr)
  | capture (p : Expr)
  /-- Forwards to a named sink, or to one that nobody can read. -/
  | forward (p : Expr) (sink : Option String)
  | hook (p : Expr) (script : List Action)
  | rule (grammar name : String)
  | ref (name : String)
  /-- The last of `n` patterns, each of them built while the name stands for the one
  before, beginning with `init`. -/
  | fold (n : Nat) (init : Expr) (name : String) (body : Expr)
  deriving Inhabited

namespace Work

def negated (n : Node) : Work Node :=
  modifyGet fun b =>
    let (m, new) := n.negate b.nextLabel
    (m, { b with nextLabel := if new then b.nextLabel + 1 else b.nextLabel })

/-- Builds `n` times, each time with the name standing for the node before. -/
def iterate (name : String) (build : Work Node) : Nat → Node → Work Node
  | 0, x => return x
  | n + 1, x => do
    bindPattern name x
    iterate name build n (← build)

end Work

namespace Expr

open Work in
def build : Expr → Work Node
  | literal bytes => node (.literal bytes)
  | set bytes => node (.set (ByteSet.ofList bytes))
  | byteSet edits => node (.set (ByteSet.ofEdits edits))
  | cls c => node (.cls c)
  | space => node .space
  | empty => node .empty
  | any => node .any
  | none => do negated (← node .any)
  | seq a b => do
    let x ← build a
    let y ← build b
    node (.seq x.pattern y.pattern)
  | choice a b => do
    let x ← build a
    let y ← build b
    node (.choice x.pattern y.pattern)
  | minus a b => do
    let x ← build a
    let y ← negated (← build b)
    node (.seq y.pattern x.pattern)
  | negate p => do negated (← build p)
  | exactly p n => do node (.exactly (← build p).pattern n)
  | quantify p n => do node ((← build p).pattern.quantify n)
  | atLeast p n => do node (.atLeast (← build p).pattern n)
  | atMost p n => do node (.atMost (← build p).pattern n)
  | ahead p => do node (.ahead (← build p).pattern)
  | capture p => do node (.capture (← build p).pattern)
  | forward p name => do
    let id ← match name with
      | some s => sink s
      | Option.none => privateSink
    node (.forward (← build p).pattern id)
  | hook p actions => do
    let x ← build p
    let id ← script actions
    node (.hook x.pattern id)
  | rule grammarName name => do
    let (p, g) := (← grammar grammarName).rule name
    setGrammar grammarName g
    node p
  | ref name => pattern name
  | fold n init name body => do iterate name (build body) n (← build init)

def chain (join : Expr → Expr → Expr) (first : Expr) (rest : List Expr) : Expr :=
  rest.foldl join first

end Expr

end Peg
