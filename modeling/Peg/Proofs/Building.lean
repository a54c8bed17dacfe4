import Peg.Proofs.Negation
import Peg.Workbench.Expr

/-! # What expressions build

On a bench whose names stand for patterns that the constructors put together, an expression
builds such a pattern again and leaves such a bench behind. So two rounds of negation around what
it built change nothing.
-/
namespace Peg

open Pattern (Built)

def Bench.AllBuilt (b : Bench) : Prop := ∀ entry ∈ b.patterns, Built entry.2.pattern

namespace Work

variable {α β : Type} {x : Work α} {f : α → Work β} {Q : α → Prop} {R : β → Prop}

/-- The work leaves such a bench behind, and its result is as the predicate says. -/
def Yields (x : Work α) (Q : α → Prop) : Prop :=
  ∀ b a b', b.AllBuilt → x.run b = .ok (a, b') → Q a ∧ b'.AllBuilt

namespace Yields

theorem pure {a : α} (h : Q a) : Yields (Pure.pure a) Q := by
  intro b a' b' hb hrun
  cases hrun
  exact ⟨h, hb⟩

theorem throw (m : Misuse) : Yields (MonadExcept.throw m) Q := by
  intro b a b' _ hrun
  cases hrun

theorem bind (hx : Yields x Q) (hf : ∀ a, Q a → Yields (f a) R) : Yields (x >>= f) R := by
  intro b c b' hb hrun
  rw [StateT.run_bind] at hrun
  cases hres : x.run b with
  | error e =>
    rw [hres] at hrun
    cases hrun
  | ok r =>
    rw [hres] at hrun
    obtain ⟨ha, hb₁⟩ := hx b r.1 r.2 hb hres
    exact hf r.1 ha r.2 c b' hb₁ hrun

theorem get : Yields MonadState.get Bench.AllBuilt := by
  intro b a b' hb hrun
  cases hrun
  exact ⟨hb, hb⟩

/-- Work that does not fail and keeps the names. -/
theorem modifyGet {change : Bench → α × Bench} (hchange : ∀ b, Q (change b).1)
    (hnames : ∀ b, (change b).2.patterns = b.patterns) :
    Yields (MonadState.modifyGet change) Q := by
  intro b a b' hb hrun
  have heq : change b = (a, b') := Except.ok.inj hrun
  have ha := hchange b
  have hb' := hnames b
  rw [heq] at ha hb'
  refine ⟨ha, ?_⟩
  rw [Bench.AllBuilt, hb']
  exact hb

theorem modified {change : Bench → Bench} (hnames : ∀ b, (change b).patterns = b.patterns) :
    Yields (modify change) fun _ => True :=
  .modifyGet (fun _ => trivial) hnames

theorem set {b : Bench} (h : b.AllBuilt) : Yields (MonadStateOf.set b) fun _ => True := by
  intro _ a b' _ hrun
  cases hrun
  exact ⟨trivial, h⟩

end Yields

theorem node_yields {p : Pattern} (h : Built p) : Yields (node p) fun n => Built n.pattern := by
  have hlabel : Yields label fun _ => True := .modifyGet (fun _ => trivial) fun _ => rfl
  exact hlabel.bind fun _ _ => .pure h

theorem negated_yields {n : Node} (h : Built n.pattern) :
    Yields (negated n) fun m => Built m.pattern := by
  refine .modifyGet (fun b => ?_) fun _ => rfl
  have hpattern := n.negate_pattern b.nextLabel
  exact hpattern ▸ h.negate

theorem pattern_yields (name : String) : Yields (pattern name) fun n => Built n.pattern := by
  refine Yields.get.bind fun b hb => ?_
  split
  · rename_i n hn
    obtain ⟨front, rest, hpatterns, -⟩ := List.lookup_eq_some_iff.mp hn
    have hmem : (name, n) ∈ b.patterns := hpatterns ▸ List.mem_append_right front List.mem_cons_self
    exact .pure (hb _ hmem)
  · exact .throw _

theorem bindPattern_yields {n : Node} (name : String) (h : Built n.pattern) :
    Yields (bindPattern name n) fun _ => True := by
  intro b a b' hb hrun
  cases hrun
  refine ⟨trivial, fun entry hentry => ?_⟩
  rcases List.mem_cons.mp hentry with rfl | hold
  · exact h
  · exact hb entry (List.mem_filter.mp hold).1

theorem grammar_yields (name : String) : Yields (grammar name) fun _ => True := by
  refine Yields.get.bind fun b hb => ?_
  split
  · exact .pure trivial
  · exact Yields.bind (.set hb) fun _ _ => .pure trivial

theorem privateSink_yields : Yields privateSink fun _ => True :=
  .modifyGet (fun _ => trivial) fun _ => rfl

theorem sink_yields (name : String) : Yields (sink name) fun _ => True := by
  refine Yields.get.bind fun b _ => ?_
  split
  · exact .pure trivial
  · refine privateSink_yields.bind fun _ _ => ?_
    exact Yields.bind (.modified fun _ => rfl) fun _ _ => .pure trivial

/-- Building any number of times, each time on the node before, yields what one step yields. -/
theorem iterate_yields (name : String) {build : Work Node}
    (h : Yields build fun n => Built n.pattern) (k : Nat) {n : Node} (hn : Built n.pattern) :
    Yields (iterate name build k n) fun m => Built m.pattern := by
  induction k generalizing n with
  | zero => exact .pure hn
  | succ k ih => exact (bindPattern_yields name hn).bind fun _ _ => h.bind fun _ hm => ih hm

end Work

open Work

/-- Whatever an expression builds was put together by the constructors. -/
theorem Expr.build_yields (e : Expr) : Yields e.build fun n => Built n.pattern := by
  induction e with
  | literal bytes => exact node_yields (.literal bytes)
  | set bytes => exact node_yields (.set _)
  | byteSet edits => exact node_yields (.set _)
  | cls c => exact node_yields (.cls c)
  | space => exact node_yields (.set _)
  | empty => exact node_yields (.literal _)
  | any => exact node_yields .any
  | none => exact (node_yields .any).bind fun _ hx => negated_yields hx
  | seq a b iha ihb => exact iha.bind fun _ hx => ihb.bind fun _ hy => node_yields (.seq hx hy)
  | choice a b iha ihb =>
    exact iha.bind fun _ hx => ihb.bind fun _ hy => node_yields (.choice hx hy)
  | minus a b iha ihb =>
    exact iha.bind fun _ hx => ihb.bind fun _ hy => (negated_yields hy).bind fun _ hz =>
      node_yields (.seq hz hx)
  | negate p ih => exact ih.bind fun _ hx => negated_yields hx
  | exactly p n ih => exact ih.bind fun _ hx => node_yields (.exactly hx n)
  | quantify p n ih => exact ih.bind fun _ hx => node_yields (.quantify hx n)
  | atLeast p n ih => exact ih.bind fun _ hx => node_yields (.atLeast hx n)
  | atMost p n ih => exact ih.bind fun _ hx => node_yields (.atMost hx n)
  | ahead p ih => exact ih.bind fun _ hx => node_yields (.ahead hx)
  | capture p ih => exact ih.bind fun _ hx => node_yields (.capture hx)
  | forward p name ih =>
    cases name with
    | none =>
      exact privateSink_yields.bind fun _ _ => ih.bind fun _ hx => node_yields (.forward hx _)
    | some s =>
      exact (sink_yields s).bind fun _ _ => ih.bind fun _ hx => node_yields (.forward hx _)
  | hook p actions ih =>
    have hscript : Yields (script actions) fun _ => True :=
      .modifyGet (fun _ => trivial) fun _ => rfl
    exact ih.bind fun _ hx => hscript.bind fun _ _ => node_yields (.hook hx _)
  | rule grammarName name =>
    refine (grammar_yields grammarName).bind fun g _ => ?_
    exact Yields.bind (.modified fun _ => rfl) fun _ _ => node_yields (.rule g name)
  | ref name => exact pattern_yields name
  | fold n init name body ihinit ihbody =>
    exact ihinit.bind fun _ hx => iterate_yields name ihbody n hx

/-- What an expression builds is the negated form of its negated form. -/
theorem Expr.build_negate_negate {e : Expr} {b b' : Bench} {n : Node} (hb : b.AllBuilt)
    (h : e.build.run b = .ok (n, b')) : n.pattern.negate.negate = n.pattern := by
  have hbuilt : Built n.pattern := (e.build_yields b n b' hb h).1
  exact hbuilt.normal.negate_negate

end Peg
