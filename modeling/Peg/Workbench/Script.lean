import Peg.Sinks
import Peg.Eval.Host

/-! # Scripted callbacks

A script is a callback written down as a list of actions. It runs against a desk, the
context of evaluations on the workbench, which keeps captures, sinks, a log and the
number of times that each callback was called.
-/
namespace Peg

inductive Entry
  | called (tag : String) (call : Nat) (m : Option Span) (pos captured : Nat)
  | text (s : Option String)
  | read (b : Option UInt8)
  | notice (n : Notice)
  deriving DecidableEq, Repr

structure Desk where
  /-- The captured spans, if the context keeps any. -/
  captures : Option (Array Span) := some #[]
  sinks : Sinks := {}
  calls : Array Nat := #[]
  log : Array Entry := #[]
  tracing : Bool := false
  deriving Repr, Inhabited

namespace Desk

def write (d : Desk) (e : Entry) : Desk := { d with log := d.log.push e }

def notice (d : Desk) (n : Notice) : Desk := if d.tracing then d.write (.notice n) else d

def capture (d : Desk) (m : Span) : Desk := { d with captures := d.captures.map (·.push m) }

def captured (d : Desk) : Nat := (d.captures.map Array.size).getD 0

def perform : Effect → Desk → Desk
  | .captured m, d => d.capture m
  | .forwarded sink _ bytes, d => { d with sinks := d.sinks.append sink bytes }
  | .noticed n, d => d.notice n

end Desk

inductive Action
  | log (tag : String)
  | text
  | seek (pos : Nat)
  | read (count : Nat)
  | push
  | fail (e : HookError)
  | ifMatch (inner : List Action)
  | ifMiss (inner : List Action)
  /-- Runs the inner actions on one particular call. -/
  | ifCall (call : Nat) (inner : List Action)
  deriving Repr, Inhabited

structure Scene where
  cursor : Cursor
  desk : Desk

namespace Scene

def read (s : Scene) : Scene :=
  let (b, c) := s.cursor.read
  ⟨c, s.desk.write (.read b)⟩

def readTimes : Nat → Scene → Scene
  | 0, s => s
  | n + 1, s => readTimes n s.read

end Scene

mutual

def Action.run (call : Nat) (m : Option Span) (s : Scene) : Action → Scene × Option Abort
  | .log tag =>
    ({ s with desk := s.desk.write (.called tag call m s.cursor.pos s.desk.captured) }, none)
  | .text =>
    match m.elim (.ok none) (·.text? s.cursor) with
    | .ok t => ({ s with desk := s.desk.write (.text t) }, none)
    | .error f => (s, some (.fault f))
  | .seek pos => ({ s with cursor := s.cursor.seek pos }, none)
  | .read count => (s.readTimes count, none)
  | .push => ((m.map fun m => { s with desk := s.desk.capture m }).getD s, none)
  | .fail e => (s, some (.hook e))
  | .ifMatch inner => if m.isSome then runAll call m s inner else (s, none)
  | .ifMiss inner => if m.isSome then (s, none) else runAll call m s inner
  | .ifCall k inner => if call = k then runAll call m s inner else (s, none)

def Action.runAll (call : Nat) (m : Option Span) (s : Scene) :
    List Action → Scene × Option Abort
  | [] => (s, none)
  | a :: rest =>
    match a.run call m s with
    | (t, none) => runAll call m t rest
    | (t, some why) => (t, some why)

end

/-- The callback of a script, which counts its own calls from one. -/
def Action.callback (id : HookId) (script : List Action) : Callback Desk := fun c m d =>
  let call := (d.calls[id]?).getD 0 + 1
  let (s, abort) := Action.runAll call m ⟨c, { d with calls := d.calls.modify id (· + 1) }⟩ script
  { pos := s.cursor.pos, ctx := s.desk, abort }

def Desk.host (scripts : Array (List Action)) : Host Desk where
  perform := Desk.perform
  callback id := Action.callback id ((scripts[id]?).getD [])

end Peg
