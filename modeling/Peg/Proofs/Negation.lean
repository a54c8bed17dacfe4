import Peg.Grammar
import Peg.Proofs.Reach
import Peg.Workbench.Node

/-! # Negating twice

The negated form of a negation is what it stood around, and bounds on repetitions are swapped,
so two negations in a row would not always cancel. They do in every pattern that was put
together by the constructors, since these never leave a negation around such a pattern.
-/
namespace Peg

variable {κ : Type}

namespace Pattern

def hasOpposite : Pattern → Bool
  | not _ | atLeast _ _ | atMost _ _ => true
  | _ => false

/-- The patterns that constructors, operators and references to rules put together. -/
inductive Built : Pattern → Prop
  | literal (bytes : List UInt8) : Built (literal bytes)
  | set (members : ByteSet) : Built (set members)
  | cls (c : CharClass) : Built (cls c)
  | any : Built any
  | none : Built none
  | seq {a b : Pattern} (ha : Built a) (hb : Built b) : Built (seq a b)
  | choice {a b : Pattern} (ha : Built a) (hb : Built b) : Built (choice a b)
  | negate {p : Pattern} (hp : Built p) : Built p.negate
  | minus {a b : Pattern} (ha : Built a) (hb : Built b) : Built (a.minus b)
  | ahead {p : Pattern} (hp : Built p) : Built (ahead p)
  | exactly {p : Pattern} (hp : Built p) (n : Nat) : Built (exactly p n)
  | atLeast {p : Pattern} (hp : Built p) (n : Nat) : Built (atLeast p n)
  | atMost {p : Pattern} (hp : Built p) (n : Nat) : Built (atMost p n)
  | quantify {p : Pattern} (hp : Built p) (n : Int) : Built (p.quantify n)
  | rule (g : Grammar) (name : String) : Built (g.rule name).1
  | hook {p : Pattern} (hp : Built p) (id : HookId) : Built (hook p id)
  | forward {p : Pattern} (hp : Built p) (sink : SinkId) : Built (forward p sink)
  | capture {p : Pattern} (hp : Built p) : Built (capture p)

/-- At no depth does a negation stand around a pattern that has an opposite. -/
def Normal (p : Pattern) : Prop :=
  ∀ q, Reaches (fun _ => Option.none) p (not q) → q.hasOpposite = false

variable {p q : Pattern}

theorem Normal.part (h : Normal p) (hp : Part p q) : Normal q :=
  fun r hr => h r (.part hp hr)

theorem Normal.of_parts (hnot : ∀ q, p = not q → q.hasOpposite = false)
    (h : ∀ q, Part p q → Normal q) : Normal p := by
  intro q hq
  cases hq with
  | refl => exact hnot q rfl
  | part hp hr => exact h _ hp q hr
  | body href => cases href

theorem Normal.atLeast (h : Normal p) (n : Nat) : Normal (atLeast p n) :=
  .of_parts nofun fun q hq => by cases hq; exact h

theorem Normal.atMost (h : Normal p) (n : Nat) : Normal (atMost p n) :=
  .of_parts nofun fun q hq => by cases hq; exact h

theorem negate_of_not_hasOpposite (h : p.hasOpposite = false) : p.negate = not p := by
  cases p with
  | not | atLeast | atMost => cases h
  | _ => rfl

/-- The negated form of a normal pattern is normal. -/
theorem Normal.negate (h : Normal p) : Normal p.negate := by
  cases hp : p.hasOpposite with
  | false =>
    rw [negate_of_not_hasOpposite hp]
    refine .of_parts (fun q hq => ?_) fun q hq => ?_
    · obtain rfl := Pattern.not.inj hq
      exact hp
    · cases hq
      exact h
  | true =>
    cases p with
    | not q => exact h.part (.not q)
    | atLeast q n => exact (h.part (.atLeast q n)).atMost n
    | atMost q n => exact (h.part (.atMost q n)).atLeast n
    | _ => cases hp

/-- Patterns come out normal from whatever puts them together. -/
theorem Built.normal (h : Built p) : Normal p := by
  have leaf : ∀ p, (∀ q, ¬ Part p q) → Normal p := fun p hp =>
    .of_parts (fun q hq => absurd (hq ▸ .not q) (hp q)) fun q hq => absurd hq (hp q)
  induction h with
  | literal | set | cls | any => exact leaf _ nofun
  | rule g name => exact leaf _ nofun
  | none => exact Normal.negate (leaf Pattern.any nofun)
  | negate _ ih => exact ih.negate
  | seq _ _ iha ihb | choice _ _ iha ihb =>
    refine .of_parts nofun fun q hq => ?_
    cases hq
    · exact iha
    · exact ihb
  | minus _ _ iha ihb =>
    refine .of_parts nofun fun q hq => ?_
    cases hq
    · exact ihb.negate
    · exact iha
  | ahead _ ih | exactly _ n ih | hook _ id ih | forward _ sink ih | capture _ ih =>
    refine .of_parts nofun fun q hq => ?_
    cases hq
    exact ih
  | atLeast _ n ih => exact ih.atLeast n
  | atMost _ n ih => exact ih.atMost n
  | quantify _ n ih =>
    unfold Pattern.quantify
    split
    · exact ih.atMost _
    · exact ih.atLeast _

theorem Normal.negate_negate (h : Normal p) : p.negate.negate = p := by
  cases p with
  | not q =>
    have hq : q.hasOpposite = false := h q (.refl _)
    exact negate_of_not_hasOpposite hq
  | _ => rfl

end Pattern

namespace Node

end Node

def Step.negated (start : Nat) : Verdict × State κ → Verdict × State κ
  | (.hit _, t) => (.miss, { t with pos := start })
  | (.miss, t) => (.hit (Span.emptyAt start), { t with pos := start })
  | (.stop why, t) => (.stop why, t)

namespace Pattern

variable {p : Pattern}

end Pattern

end Peg
