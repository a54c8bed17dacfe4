import Peg.Proofs.WordLists

/-! # Dotted names are recognized

The language of dotted names behind a dollar sign, and the demo for it. A dot without a word behind
it is taken by the loop and given back, and nothing of the attempt is left behind. The parts that
are captured are the pieces between the dots of the name, and the name itself is captured last.
-/
namespace Peg

open Pattern
open WordList (Initial Inner heads_word madeOf_word munches_word nil_not_mem_word word)
open scoped Computability

namespace DottedName

def dollar : UInt8 := '$'.toUInt8

def dot : UInt8 := '.'.toUInt8

def marked : Language UInt8 := {[dollar]} * word

def dotted : Language UInt8 := {[dot]} * word

def names : Language UInt8 := marked * dotted∗

/-- Where parts stand from `start` on that have one byte between each and the next one. -/
def partSpans : Nat → List (List UInt8) → List Span
  | _, [] => []
  | start, part :: rest => ⟨start, start + part.length⟩ :: partSpans (start + part.length + 1) rest

/-- The parts of the name have been captured from left to right, and then the whole name, which has
been forwarded as well. -/
def Kept (sink : SinkId) (w : List UInt8) (store : Store) : Prop :=
  store.captures.toList = partSpans 1 (w.tail.splitOn dot) ++ [⟨1, w.length⟩] ∧
    store.sinks.content sink = w.tail.toArray

theorem exists_prefix_iff {x : List UInt8} :
    (∃ w ∈ names, w <+: x) ↔ ∃ w ∈ marked, w <+: x := by
  constructor
  · rintro ⟨w, hw, hstarts⟩
    obtain ⟨u, hu, v, -, rfl⟩ := Language.mem_mul.mp hw
    exact ⟨u, hu, (List.prefix_append u v).trans hstarts⟩
  · rintro ⟨w, hw, hstarts⟩
    refine ⟨w, ?_, hstarts⟩
    rw [← List.append_nil w]
    exact Language.append_mem_mul hw (Language.nil_mem_kstar _)

/-! Where one part ends and the next one begins. -/

variable {u v : List UInt8} {parts : List (List UInt8)}

theorem not_dot_of_inner (b : UInt8) (hb : Inner b) : ¬ b = dot := by
  rintro rfl
  exact absurd hb (by decide)

theorem not_initial_of_dot (b : UInt8) (hb : b = dot) : ¬ Initial b := by
  subst hb
  decide

theorem dot_not_mem_word (hu : u ∈ word) : dot ∉ u :=
  fun hdot => not_dot_of_inner dot (madeOf_word u hu dot hdot) rfl

theorem madeOf_dot : MadeOf {[dot]} (· = dot) := by
  rintro _ rfl b hb
  exact List.mem_singleton.mp hb

theorem heads_dotted : Heads dotted∗ (· = dot) :=
  (madeOf_dot.heads.mul fun hnil => nomatch hnil).kstar

theorem commits_word : Commits word dotted∗ :=
  .of_follows madeOf_word.follows heads_dotted not_dot_of_inner

theorem commits_dotted : Commits dotted dotted∗ :=
  .of_follows (madeOf_dot.follows.mul madeOf_word.follows heads_word not_initial_of_dot
    nil_not_mem_word) heads_dotted not_dot_of_inner

/-- The parts of a name are found again by its dots. -/
theorem splitOn_parts (hu : dot ∉ u) (hparts : ∀ part ∈ parts, dot ∉ part) :
    (u ++ parts.flatMap (dot :: ·)).splitOn dot = u :: parts := by
  induction parts generalizing u with
  | nil => simpa using List.splitOn_eq_singleton hu
  | cons part rest ih =>
    have hrest := ih (hparts part List.mem_cons_self) fun p hp => hparts p (List.mem_cons_of_mem _ hp)
    rw [List.flatMap_cons, List.cons_append, List.splitOn_append_cons_self_of_not_mem hu, hrest]

example : partSpans 1 ([97, 98, dot, 99].splitOn dot) = [⟨1, 3⟩, ⟨4, 5⟩] := by decide

/-! What the parts of the pattern take. -/

def DottedCaptured : Setting.Imprint := fun start w l =>
  ∃ parts, w = parts.flatMap (dot :: ·) ∧ (∀ part ∈ parts, dot ∉ part) ∧
    l = (partSpans (start + 1) parts).map .captured

variable {σ : Setting Store} (hσ : σ.host = Store.host) (sink : SinkId)
include hσ

/-- The parts behind the first one are taken up to the last dot that a word follows. -/
theorem munches_dotted : σ.Munches (quantify (seq (lit ".") (capture Demo.word)) 0)
    dotted∗ DottedCaptured fun _ => False := by
  have hdot : σ.Munches (lit ".") {[dot]} .silent (· = []) := Setting.munches_literal _
  have htail := hdot.seq_silent (munches_word hσ).captured (.singleton _ _) rfl
  refine (htail.loop (Store.keepsPosition hσ _) (nil_not_mem_mul_right nil_not_mem_word _)
    commits_dotted fun _ => False).mono ?_ fun _ hl => hl
  rintro s w l - - hl
  induction hl with
  | nil s => exact ⟨[], rfl, nofun, rfl⟩
  | cons hk hrest ih =>
    obtain ⟨-, _, part, _, _, rfl, rfl, ⟨rfl, rfl⟩, hpart, rfl⟩ := hk
    obtain ⟨parts, rfl, hparts, rfl⟩ := ih
    refine ⟨part :: parts, rfl, List.forall_mem_cons.mpr ⟨dot_not_mem_word hpart, hparts⟩, ?_⟩
    simp [partSpans, Nat.add_assoc, Nat.add_comm 1]

/-- A dot that no word follows is given back before anything is captured for it. -/
theorem munches_parts :
    σ.Munches (seq (capture Demo.word) (quantify (seq (lit ".") (capture Demo.word)) 0))
      (word * dotted∗)
      (fun s w l => l = (partSpans s (w.splitOn dot)).map .captured) (· = []) := by
  refine ((munches_word hσ).captured.seq (munches_dotted hσ) commits_word (fun _ hl => hl)
    fun _ _ _ _ _ _ hfalse => hfalse.elim).mono ?_ fun _ hl => hl
  rintro s _ _ - - ⟨u, _, _, _, rfl, rfl, ⟨hu, rfl⟩, -, parts, rfl, hparts, rfl⟩
  rw [splitOn_parts (dot_not_mem_word hu) hparts]
  rfl

theorem munches_dottedName : σ.Munches (Demo.dottedName sink) names
    (fun s w l => l = (partSpans (s + 1) (w.tail.splitOn dot)).map .captured ++
      [.captured ⟨s + 1, s + w.length⟩, .forwarded sink ⟨s + 1, s + w.length⟩ w.tail.toArray])
    (· = []) := by
  have hdollar : σ.Munches (lit "$") {[dollar]} .silent (· = []) := Setting.munches_literal _
  have hname := (munches_parts hσ).capture.forward sink
  rw [names, marked, mul_assoc]
  refine (hdollar.seq_silent hname (.singleton _ _) rfl).mono ?_ fun _ hl => hl
  rintro s _ _ - - ⟨_, v, _, _, rfl, rfl, ⟨rfl, rfl⟩, -, _, ⟨_, rfl, rfl⟩, rfl⟩
  simp [Nat.add_assoc, Nat.add_comm 1]

end DottedName

/-- The demo of dotted names matches the longest prefix that is a dotted name behind a dollar sign,
captures the parts of the name and then the name, and forwards the name. One word behind the dollar
sign is enough for a match. -/
theorem recognizes_dottedName (id : GrammarId) (sink : SinkId) :
    Recognizes (Demo.build .dottedName id sink) DottedName.names (DottedName.Kept sink) ∧
      ∀ x, (∃ m t, (Demo.build .dottedName id sink).run x = some (.hit m, t)) ↔
        ∃ w ∈ DottedName.marked, w <+: x.toList := by
  have hrecognizes : Recognizes (Demo.build .dottedName id sink) DottedName.names
      (DottedName.Kept sink) := by
    refine recognizes (fun x => DottedName.munches_dottedName rfl sink) ?_
    rintro x w _ - - rfl
    refine ⟨?_, ?_⟩
    · rw [Store.captures_act rfl]
      simp [Trail.spans]
    · rw [Store.content_act rfl]
      simp [Trail.bytesTo]
  exact ⟨hrecognizes, fun x => (hrecognizes.matches_iff x).trans DottedName.exists_prefix_iff⟩

end Peg
