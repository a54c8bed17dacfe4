import Peg.Eval.Store

/-! # Four small languages

Each language is a grammar with a pattern to start from. It captures the parts of its
input that matter and forwards one part of it to a sink.
-/
namespace Peg

structure Demo where
  grammar : Grammar
  start : Pattern
  deriving DecidableEq, Repr

namespace Demo

inductive Language
  | words
  | dottedName
  | number
  | parens
  deriving DecidableEq, Repr

namespace Language

def all : List Language := [words, dottedName, number, parens]

def name : Language → String
  | words => "ident"
  | dottedName => "macro"
  | number => "number"
  | parens => "parens"

def ofName? (name : String) : Option Language := all.find? (·.name == name)

def names : String := ", ".intercalate (all.map name)

@[simp] theorem ofName?_name (l : Language) : ofName? l.name = some l := by
  cases l <;> decide

end Language

open Pattern

def word : Pattern :=
  seq (choice (cls .alpha) (lit "_")) (quantify (choice (cls .alnum) (lit "_")) 0)

def words (sink : SinkId) : Pattern :=
  let part := forward (capture word) sink
  let blank := cls .blank
  seq (seq (seq (quantify blank 0) part) (quantify (seq (quantify blank 1) part) 0))
    (quantify blank 0)

/-- A dollar sign and a dotted name. Each part is captured, then the whole name, which
is forwarded, too. -/
def dottedName (sink : SinkId) : Pattern :=
  seq (lit "$")
    (forward (capture (seq (capture word) (quantify (seq (lit ".") (capture word)) 0))) sink)

/-- An optional sign, then hexadecimal digits behind their mark or else decimal ones.
The sign and the digits are captured; the digits are forwarded. -/
def number (sink : SinkId) : Pattern :=
  let hexadecimal := seq (choice (lit "0x") (lit "0X"))
    (forward (capture (quantify (cls .hexDigit) 1)) sink)
  let decimal := forward (capture (quantify (cls .digit) 1)) sink
  seq (capture (quantify (oneOf "+-") (-1))) (choice hexadecimal decimal)

/-- Groups in parentheses, one after the other and inside each other. Each group is
captured; the whole match is forwarded. -/
def parens (id : GrammarId) (sink : SinkId) : Demo :=
  let (group, g) := ({ id } : Grammar).rule "group"
  let (groups, g) := g.rule "groups"
  let (_, g) := g.define "group" (capture (seq (seq (lit "(") groups) (lit ")")))
  let (_, g) := g.define "groups" (quantify group 0)
  ⟨g, forward (quantify group 1) sink⟩

def build (l : Language) (id : GrammarId) (sink : SinkId) : Demo :=
  match l with
  | .words => ⟨{ id }, words sink⟩
  | .dottedName => ⟨{ id }, dottedName sink⟩
  | .number => ⟨{ id }, number sink⟩
  | .parens => parens id sink

def anchored (d : Demo) : Demo := { d with start := seq d.start Pattern.none }

def rules (d : Demo) : List (String × Pattern) :=
  d.grammar.slots.toList.filterMap fun s => s.body.map fun body => (s.name, body)

def notices (d : Demo) : List Notice := d.rules.map fun r => .defined r.1 r.2 false

def run (d : Demo) (input : Array UInt8) : Option (Verdict × State Store) :=
  Setting.eval { host := Store.host, input, grammar := some d.grammar } d.start ⟨0, {}⟩

end Demo

end Peg
