import Peg.Workbench.Report
import Peg.Demo

/-! # Batches of evaluations

One pattern is built and then evaluated on several inputs, each from a context of its
own and with empty sinks. The same is done with a demo.
-/
namespace Peg

structure Batch where
  lets : List (String × Expr) := []
  /-- Rules defined in order in the batch's grammar, if rules are to be resolved. -/
  rules : Option (List (String × Expr)) := none
  pattern : Expr
  inputs : List (Array UInt8)
  start : Nat := 0
  shown : Bool := true
  tracing : Bool := false
  capturing : Bool := true

structure BatchReport where
  shown : Option String
  runs : List (RunReport × Array Entry)
  deriving Repr

namespace Batch

def grammarName : String := "g"

def prepare (b : Batch) : Work (Node × Option Grammar) := do
  for (name, e) in b.lets do
    Work.bindPattern name (← e.build)
  for (name, e) in b.rules.getD [] do
    discard <| Work.define grammarName name (← e.build)
  let p ← b.pattern.build
  let grammar := (← get).grammars.lookup grammarName
  return (p, if b.rules.isSome then grammar else none)

def work (b : Batch) : Work BatchReport := do
  modify fun w => { w with capturing := b.capturing, desk := { w.desk with tracing := b.tracing } }
  let (p, grammar) ← b.prepare
  let runs ← b.inputs.mapM fun input => do
    let (report, _, _) ←
      Work.evaluate p.pattern grammar ⟨input, b.start⟩ (← Work.newContext)
    Work.emptySinks
    return (report, ← Work.takeLog)
  return { shown := if b.shown then some p.pattern.render else none, runs }

def run (b : Batch) : Except Misuse BatchReport := (·.1) <$> b.work.run {}

end Batch

structure Showcase where
  language : Demo.Language
  inputs : List (Array UInt8)
  anchored : Bool := false
  tracing : Bool := false

structure ShowcaseReport where
  start : String
  rules : List (String × String)
  checked : Bool
  runs : List (RunReport × Array UInt8)
  log : Array Entry
  deriving Repr

namespace Showcase

def work (c : Showcase) : Work ShowcaseReport := do
  modify fun w => { w with desk := { w.desk with tracing := c.tracing } }
  let sink ← Work.privateSink
  let built := Demo.build c.language 0 sink
  for n in built.notices do
    Work.notice n
  let demo := if c.anchored then built.anchored else built
  let runs ← c.inputs.mapM fun input => do
    let (report, _, _) ← Work.evaluate demo.start (some demo.grammar) ⟨input, 0⟩ (some #[])
    let forwarded := (← get).desk.sinks.content sink
    Work.emptySinks
    return (report, forwarded)
  return {
    start := demo.start.render
    rules := demo.rules.map fun r => (r.1, r.2.render)
    checked := demo.grammar.check.isOk
    runs
    log := ← Work.takeLog }

def run (c : Showcase) : Except Misuse ShowcaseReport := (·.1) <$> c.work.run {}

end Showcase

end Peg
