import Peg.Proofs.Coverage
import Peg.Proofs.Locality
import Peg.Proofs.Repetition

/-! # A loop as a rule

A rule may go around by naming itself: its pattern and then the rule again, or nothing. A pattern
that moves with every match goes around in this way just as in a loop without a lower bound. The
calls inside each other are the rounds of the loop, and on the way back every call closes its
match behind the last round.
-/
namespace Peg

variable {κ : Type}

namespace Step

variable {p : Step κ}

def Moves (p : Step κ) : Prop := ∀ s m t, p s = some (.hit m, t) → t.pos ≠ s.pos

/-- `p` and then the same again, or nothing, so many times inside each other. -/
def nested (p : Step κ) : Nat → Step κ
  | 0 => fun _ => none
  | n + 1 => choice (seq p (nested p n)) fun s => close s.pos s

theorem close_ne_miss (start : Nat) (s : State κ) :
    (Step.close start).Ensures s fun v _ => v ≠ .miss := by
  intro v t ht
  unfold Step.close at ht
  split at ht <;> cases ht <;> simp

theorem greedy_ne_miss (p : Step κ) (start rounds reached : Nat) (s : State κ) :
    (greedy p start rounds reached).Ensures s fun v _ => v ≠ .miss := by
  induction rounds generalizing reached s with
  | zero =>
    intro v t ht
    cases ht
  | succ rounds ih =>
    have hbefore : p.Ensures s fun _ _ => True := fun _ _ _ => trivial
    refine hbefore.branch (fun m u _ v t ht => ?_) (fun u _ => close_ne_miss start _) (by simp)
    split at ht
    · exact close_ne_miss start _ v t ht
    · exact ih u.pos u v t ht

/-- Closing behind a loop that began later gives the match of a loop that began earlier. -/
theorem close_greedy (hp : p.Onward) (rounds start first : Nat) (g : Step κ) {s : State κ}
    (hstart : start ≤ s.pos) (hfirst : first ≤ s.pos) :
    branch (fun t => greedy p first rounds t.pos t) (fun _ => close start) g s =
      greedy p start rounds s.pos s := by
  have hearlier : begunAt start (fun t => greedy p first rounds t.pos t) s =
      greedy p start rounds s.pos s := restarts_greedy hp rounds start first s hstart hfirst
  rw [← hearlier, begunAt]
  apply branch_congr
  · intro m t ht
    have hafter := hp.greedy first rounds s _ t ht
    obtain rfl := Covers.greedy p first rounds s.pos s _ t ht m rfl
    rw [close_of_le (Nat.le_trans hstart hafter)]
    rfl
  · intro t ht
    exact absurd rfl (greedy_ne_miss p first rounds s.pos s _ t ht)

/-- As often as a loop may go around, calls may be inside each other. -/
theorem nested_eq_greedy (hp : p.Onward) (hmoves : p.Moves) (rounds : Nat) (s : State κ) :
    nested p rounds s = greedy p s.pos rounds s.pos s := by
  induction rounds generalizing s with
  | zero => rfl
  | succ rounds ih =>
    rw [nested, choice, seq, branch_branch]
    apply branch_congr
    · intro m u hu
      have hafter : s.pos ≤ u.pos := hp s _ u hu
      rw [if_neg (hmoves s m u hu), branch_branch]
      exact (branch_at (ih u) _ _).trans (close_greedy hp rounds s.pos u.pos _ hafter (Nat.le_refl _))
    · intro u _
      exact congrFun (branch_close s.pos _) { u with pos := s.pos }

end Step

namespace Grammar

variable (g : Grammar) (name : String) (p : Pattern)

def loopBody (r p : Pattern) : Pattern := .choice (.seq p r) .empty

def defineLoop : Pattern × Grammar :=
  let (r, g') := g.rule name
  (r, (g'.define name (loopBody r p)).2)

theorem defineLoop_id : (g.defineLoop name p).2.id = g.id := by
  change ((g.rule name).2.slot name).2.id = g.id
  rw [slot_id]
  exact slot_id g name

theorem slot_slot : (g.slot name).2.slot name = g.slot name := by
  cases h : g.find? name with
  | some i => simp only [slot, h]
  | none =>
    have hfirst : g.slot name = (g.slots.size,
        { g with slots := g.slots.push { name }, byName := (name, g.slots.size) :: g.byName }) := by
      simp only [slot, h]
    rw [hfirst]
    simp [slot, find?]

theorem bodyAt?_defineLoop_of_ne {i : Nat} (h : i ≠ (g.slot name).1) :
    (g.defineLoop name p).2.bodyAt? i = g.bodyAt? i := by
  have hagain : i ≠ ((g.slot name).2.slot name).1 := by rwa [slot_slot]
  exact ((g.slot name).2.bodyAt?_define_of_ne hagain _).trans (bodyAt?_slot g name i)

variable {g name}

/-- A name that is new gets the slot behind all others, which holds the body in the end. -/
theorem bodyAt?_defineLoop (h : g.find? name = none) :
    (g.defineLoop name p).2.bodyAt? (g.slot name).1 =
      some (loopBody (g.defineLoop name p).1 p) := by
  have hlast : (g.slot name).2.slots[(g.slot name).1]? = some { name } := by
    simp [slot, h]
  simp only [defineLoop, rule, define, slot_slot, bodyAt?, Array.getElem?_modify, hlast]
  rfl

/-- The new reference stands for the body that refers to it again. -/
theorem resolve?_defineLoop (h : g.find? name = none) :
    (g.defineLoop name p).2.resolve? ⟨g.id, (g.slot name).1, name⟩ =
      some (loopBody (g.defineLoop name p).1 p) := by
  rw [resolve?, defineLoop_id, if_pos rfl]
  exact bodyAt?_defineLoop p h

end Grammar

namespace Setting

variable {σ : Setting κ} {r : RuleRef} {p : Pattern}

section

variable (hr : σ.rules r = some (Grammar.loopBody (.rule r) p))
include hr

theorem run_loopRule (n : Nat) : σ.run (n + 1) (.rule r) =
    Step.choice (Step.seq (σ.run n p) (σ.run n (.rule r))) fun s => Step.close s.pos s :=
  σ.run_rule_body hr n

theorem nested_below_run (n k : Nat) :
    (Step.nested (σ.run n p) k).Below (σ.run (n + k) (.rule r)) := by
  induction k with
  | zero =>
    intro s x hx
    cases hx
  | succ k ih =>
    rw [← Nat.add_assoc, run_loopRule hr]
    exact ((σ.run_below (Nat.le_add_right n k) p).seq ih).choice (.refl _)

/-- A call has less room for `p` the deeper it is. -/
theorem run_below_nested {n k : Nat} (h : k ≤ n) :
    (σ.run k (.rule r)).Below (Step.nested (σ.run n p) k) := by
  induction k with
  | zero =>
    intro s x hx
    cases hx
  | succ k ih =>
    have hk : k ≤ n := Nat.le_of_succ_le h
    rw [run_loopRule hr]
    exact ((σ.run_below hk p).seq (ih hk)).choice (.refl _)

/-- A rule that goes around evaluates to a result if and only if the loop does. -/
theorem run_rule_iff_loop (honward : ∀ n, (σ.run n p).Onward) (hmoves : ∀ n, (σ.run n p).Moves)
    (s : State κ) (x : Verdict × State κ) :
    (∃ n, σ.run n (.rule r) s = some x) ↔ ∃ n, σ.run n (.quantify p 0) s = some x := by
  have hloop : ∀ n, σ.run n (.quantify p 0) s = Step.nested (σ.run n p) n s := fun n =>
    (Step.nested_eq_greedy (honward n) (hmoves n) n s).symm
  constructor
  · rintro ⟨n, hn⟩
    exact ⟨n, (hloop n).trans (run_below_nested hr (Nat.le_refl n) s x hn)⟩
  · rintro ⟨n, hn⟩
    rw [hloop n] at hn
    exact ⟨n + n, nested_below_run hr n n s x hn⟩

end

theorem moves_recording {n : Nat} (hmoves : (σ.run n p).Moves) :
    (σ.recording.run n p).Moves := by
  intro s m t ht
  have hplain := σ.recording_mirrors.run n p s
  rw [ht] at hplain
  exact hmoves _ _ _ hplain

variable {g : Grammar} {name : String}

theorem rules_defineLoop (σ : Setting κ) (hnew : g.find? name = none) (p : Pattern) :
    (σ.under (some (g.defineLoop name p).2)).rules ⟨g.id, (g.slot name).1, name⟩ =
      some (Grammar.loopBody (g.defineLoop name p).1 p) := by
  rw [rules_eq (under_grammar σ _)]
  exact Grammar.resolve?_defineLoop p hnew

section

variable (hg : σ.grammar = some g)
include hg

/-- What does not lead to the new name does not see its definition. -/
theorem sameUnder_defineLoop {q : Pattern} (hq : ¬ g.LeadsTo q name) (p : Pattern) :
    σ.SameUnder q (some (g.defineLoop name p).2) := by
  apply sameUnder_of_bodies hg (g.defineLoop_id name p)
  intro r hr hid
  apply g.bodyAt?_defineLoop_of_ne
  exact fun hslot => hq ⟨r, hr, hid, hslot⟩

/-- Let a name that is new be defined as a rule that goes around, over a pattern that moves with
every match and does not lead to that rule. As long as callbacks leave the cursor alone, the rule
evaluates to a result if and only if the repetition of the pattern without a lower bound does: to
the same match or stop, with the cursor and the context the same, and after the same effects and
calls in the same order. The repetition itself does as it did before. -/
theorem rule_iff_loop (hnew : g.find? name = none) (hapart : ¬ g.LeadsTo p name)
    (hp : σ.KeepsPosition p) (hmoves : ∀ n, (σ.run n p).Moves) (s : State κ) :
    let loop := g.defineLoop name p
    let σ' := σ.under (some loop.2)
    (∀ x, (∃ n, σ'.run n loop.1 s = some x) ↔ ∃ n, σ'.run n (.quantify p 0) s = some x) ∧
    (∀ record x, (∃ n, σ'.recording.run n loop.1 ⟨s.pos, s.ctx, record⟩ = some x) ↔
      ∃ n, σ'.recording.run n (.quantify p 0) ⟨s.pos, s.ctx, record⟩ = some x) ∧
    σ.SameUnder (.quantify p 0) (some loop.2) := by
  intro loop σ'
  have hsame : σ.SameUnder p (some loop.2) := sameUnder_defineLoop hg hapart p
  have hplain : ∀ n, σ'.run n p = σ.run n p := fun n => funext fun s => (hsame n s []).1
  have hrecorded : ∀ n, σ'.recording.run n p = σ.recording.run n p := fun n =>
    funext fun s => (hsame n ⟨s.pos, s.ctx.1⟩ s.ctx.2).2
  have hrule := σ.rules_defineLoop hnew p
  have hrule' : σ'.recording.rules ⟨g.id, (g.slot name).1, name⟩ =
      some (Grammar.loopBody loop.1 p) := hrule
  refine ⟨fun x => ?_, fun record x => ?_, sameUnder_defineLoop hg ?_ p⟩
  · apply run_rule_iff_loop hrule
    · intro n
      exact hplain n ▸ run_onward hp n
    · intro n
      exact hplain n ▸ hmoves n
  · apply run_rule_iff_loop hrule'
    · intro n
      exact hrecorded n ▸ run_onward hp.recording n
    · intro n
      exact hrecorded n ▸ moves_recording (hmoves n)
  · rintro ⟨r, hr, hid, hslot⟩
    cases hr with
    | part hpart hr =>
      cases hpart
      exact hapart ⟨r, hr, hid, hslot⟩

end

/-- A pattern that is not nullable moves with every match. -/
theorem moves_of_not_nullable (hp : σ.KeepsPosition p) (h : ¬ p.Nullable σ.rules) (n : Nat) :
    (σ.run n p).Moves :=
  fun s m t ht hpos => h (run_still n p hp s _ t ht m rfl hpos)

/-- A letter that another byte follows, under a callback and with the letter copied by a rule. The
last attempt reads a letter with nothing behind it, so what it captured and copied stays. -/
theorem letters_as_rule :
    let item : Pattern := .rule ⟨3, 0, "item"⟩
    let p : Pattern := .seq (.hook (.capture item) 7) (.ahead .any)
    let g : Grammar :=
      { id := 3, slots := #[⟨"item", some (.forward (.cls .alpha) 2)⟩], byName := [("item", 0)] }
    let marks : Callback Store := fun c _ ctx =>
      { pos := c.pos, ctx := { ctx with captures := ctx.captures.push ⟨c.pos, c.pos⟩ } }
    let σ : Setting Store :=
      { host := { Store.host with callback := fun _ => marks }
        input := #[97, 98, 99]
        grammar := some g }
    let loop := g.defineLoop "items" p
    let σ' := σ.under (some loop.2)
    g.find? "items" = none ∧ ¬ g.LeadsTo p "items" ∧ σ.KeepsPosition p ∧
      (∀ n, (σ.run n p).Moves) ∧
      (∃ n, (σ'.run n loop.1 ⟨0, {}⟩).map
          (fun r => (r.1, r.2.pos, r.2.ctx.captures, r.2.ctx.sinks.content 2)) =
        some (.hit ⟨0, 2⟩, 2, #[⟨0, 1⟩, ⟨1, 1⟩, ⟨1, 2⟩, ⟨2, 2⟩, ⟨2, 3⟩, ⟨3, 3⟩], #[97, 98, 99])) ∧
      ∃ n, (σ'.recording.run n loop.1 ⟨0, {}, []⟩).map (fun r => (r.1, r.2.pos, r.2.ctx.2)) =
        some (.hit ⟨0, 2⟩, 2,
          [.performed (.forwarded 2 ⟨0, 1⟩ #[97]), .performed (.captured ⟨0, 1⟩),
            .called 7 1 (some ⟨0, 1⟩) none,
            .performed (.forwarded 2 ⟨1, 2⟩ #[98]), .performed (.captured ⟨1, 2⟩),
            .called 7 2 (some ⟨1, 2⟩) none,
            .performed (.forwarded 2 ⟨2, 3⟩ #[99]), .performed (.captured ⟨2, 3⟩),
            .called 7 3 (some ⟨2, 3⟩) none]) := by
  intro item p g marks σ loop σ'
  have hkeeps : σ.KeepsPosition p := fun _ _ _ _ _ _ => rfl
  have hrefs : ∀ r, Pattern.Reaches g.resolve? p (.rule r) → r = ⟨3, 0, "item"⟩ := by
    intro r hr
    have hnamed : (Pattern.rule r).refs ⊆ [⟨3, 0, "item"⟩] := by
      refine hr.refs_subset (fun ref body h => ?_) (by decide)
      obtain ⟨slot, hslot, hbody⟩ := g.exists_slot_of_resolve? h
      obtain rfl := Array.mem_singleton.mp hslot
      cases hbody
      simp [Pattern.refs]
    simpa [Pattern.refs] using hnamed
  have hapart : ¬ g.LeadsTo p "items" := by
    rintro ⟨r, hr, -, hslot⟩
    obtain rfl := hrefs r hr
    exact absurd hslot (by decide)
  have hnullable : ¬ p.Nullable σ.rules := by
    intro h
    change Pattern.Nullable σ.rules
      (.seq (.hook (.capture (.rule ⟨3, 0, "item"⟩)) 7) (.ahead .any)) at h
    cases h with
    | seq hleft _ => cases hleft with
      | hook _ h => cases h with
        | capture h => cases h with
          | body hr h =>
            cases hr
            cases h with
            | forward _ h => cases h
  have hmoves := moves_of_not_nullable hkeeps hnullable
  obtain ⟨hruns, hrecords, hsame⟩ := rule_iff_loop (σ := σ) rfl rfl hapart hkeeps hmoves ⟨0, {}⟩
  obtain ⟨hplain, hrecorded⟩ := hsame 4 ⟨0, {}⟩ []
  refine ⟨rfl, hapart, hkeeps, hmoves, ?_, ?_⟩
  · have hloop : (σ.run 4 (.quantify p 0) ⟨0, {}⟩).isSome := by decide +kernel
    obtain ⟨x, hx⟩ := Option.isSome_iff_exists.mp hloop
    obtain ⟨n, hn⟩ := (hruns x).mpr ⟨4, hplain.trans hx⟩
    refine ⟨n, ?_⟩
    rw [hn, ← hx]
    decide +kernel
  · have hloop : (σ.recording.run 4 (.quantify p 0) ⟨0, {}, []⟩).isSome := by decide +kernel
    obtain ⟨x, hx⟩ := Option.isSome_iff_exists.mp hloop
    obtain ⟨n, hn⟩ := (hrecords [] x).mpr ⟨4, hrecorded.trans hx⟩
    refine ⟨n, ?_⟩
    rw [hn, ← hx]
    decide +kernel

end Setting

end Peg
