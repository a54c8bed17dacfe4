import Mathlib.Algebra.Group.Nat.Defs
import Peg.Eval.Store
import Peg.Proofs.Histories
import Peg.Proofs.Locality

/-! # Grammars side by side

All grammars of a process take their identities from one counter, which starts over when it has
handed out the last one. Two of them share an identity just when the number of grammars made
from one to the other is a multiple of `2 ^ 32`; short of that, a reference to one of them
stands for nothing under the other.
-/
namespace Peg

structure Process where
  supply : IdentitySupply := {}
  grammars : Array Grammar := #[]

namespace Process

inductive Act
  | create
  | call (k : Nat) (c : Grammar.Call)

def act (s : Process) : Act → Process
  | .create => { supply := s.supply.fresh.2, grammars := s.grammars.push s.supply.fresh.1 }
  | .call k c => { s with grammars := s.grammars.modify k fun g => (g.serve c).2 }

def ofActs (acts : List Act) : Process := acts.foldl act {}

/-- Each grammar has the number of its creation as its identity, as far as there are any. -/
structure Numbered (s : Process) : Prop where
  next : s.supply.next = UInt32.ofNat s.grammars.size
  id : ∀ k g, s.grammars[k]? = some g → g.id = UInt32.ofNat k

variable {s : Process}

theorem Numbered.act (h : s.Numbered) (a : Act) : (s.act a).Numbered := by
  cases a with
  | create =>
    constructor
    · have hnext : (s.act .create).supply.next = s.supply.next + 1 := rfl
      have hsize : (s.act .create).grammars.size = s.grammars.size + 1 := Array.size_push _
      rw [hnext, hsize, h.next, UInt32.ofNat_add]
      rfl
    · intro k g hg
      have hpush : (s.grammars.push s.supply.fresh.1)[k]? = some g := hg
      rw [Array.getElem?_push] at hpush
      split at hpush
      · rename_i hk
        cases hpush
        rw [hk]
        exact h.next
      · exact h.id k g hpush
  | call j c =>
    constructor
    · have hsize : (s.act (.call j c)).grammars.size = s.grammars.size := Array.size_modify
      rw [hsize]
      exact h.next
    · intro k g hg
      have hmodify : (s.grammars.modify j fun g => (g.serve c).2)[k]? = some g := hg
      rw [Array.getElem?_modify] at hmodify
      split at hmodify
      · obtain ⟨g', hg', rfl⟩ := Option.map_eq_some_iff.mp hmodify
        rw [Grammar.serve_id]
        exact h.id k g' hg'
      · exact h.id k g hmodify

/-- In every history the identities count the creations. -/
theorem ofActs_numbered (acts : List Act) : (ofActs acts).Numbered := by
  have hfold : ∀ s : Process, s.Numbered → (acts.foldl Process.act s).Numbered := by
    induction acts with
    | nil => exact fun s hs => hs
    | cons a acts ih => exact fun s hs => ih _ (hs.act a)
  refine hfold {} ⟨rfl, fun k g hg => ?_⟩
  simp at hg

section Pairs

variable {acts : List Act} {i j : Nat} {g h : Grammar}
variable (hi : (ofActs acts).grammars[i]? = some g) (hj : (ofActs acts).grammars[j]? = some h)
include hi hj

/-- Two grammars have one identity just if their numbers differ by a multiple of `2 ^ 32`. -/
theorem id_eq_iff : g.id = h.id ↔ i % 2 ^ 32 = j % 2 ^ 32 := by
  have hnumbered := ofActs_numbered acts
  rw [hnumbered.id i g hi, hnumbered.id j h hj, ← UInt32.toNat_inj, UInt32.toNat_ofNat',
    UInt32.toNat_ofNat']

/-- Of two grammars fewer than `2 ^ 32` creations apart, a reference to the one is a miss under
the other, whatever that defines. Nothing is left behind but the notice. -/
theorem rule_misses_elsewhere (hne : i ≠ j) (hij : i < j + 2 ^ 32) (hji : j < i + 2 ^ 32)
    {r : RuleRef} (hr : r.grammar = g.id) :
    g.id ≠ h.id ∧ ∀ {κ : Type} (σ : Setting κ), σ.grammar = some h → ∀ n s,
      σ.run (n + 1) (.rule r) s =
        some (.miss, { s with ctx := σ.host.perform (.noticed (.unresolved r.name)) s.ctx }) := by
  have hids : g.id ≠ h.id := by
    rw [Ne, id_eq_iff hi hj]
    omega
  refine ⟨hids, fun σ hσ n s => ?_⟩
  have hnone : σ.rules r = none := by
    refine Setting.rules_eq_none_iff.mpr fun g' hg' hr' => absurd (hr.symm.trans hr') ?_
    obtain rfl := Option.some.inj (hσ.symm.trans hg')
    exact hids
  rw [σ.run_rule_none hnone]
  simp only [Step.performing, Step.give, Setting.absence, hσ]

end Pairs

/-- The other grammar defines the same name, in the same slot. -/
theorem word_misses_elsewhere :
    let acts : List Act := [.create, .create, .call 0 (.rule "word"), .call 1 (.define "word" .any)]
    let g := (({ id := 0 } : Grammar).rule "word").2
    let h := (({ id := 1 } : Grammar).define "word" .any).2
    let σ : Setting Store := { host := Store.host, input := #[97], grammar := some h }
    (ofActs acts).grammars[0]? = some g ∧ (ofActs acts).grammars[1]? = some h ∧
      h.get? "word" = some .any ∧ g.find? "word" = h.find? "word" ∧
      ∀ s, σ.run 1 (.rule ⟨g.id, 0, "word"⟩) s = some (.miss, s) := by
  intro acts g h σ
  have hi : (ofActs acts).grammars[0]? = some g := by decide +kernel
  have hj : (ofActs acts).grammars[1]? = some h := by decide +kernel
  obtain ⟨-, hmiss⟩ := rule_misses_elsewhere hi hj (by decide) (by decide) (by decide)
    (r := ⟨g.id, 0, "word"⟩) rfl
  exact ⟨hi, hj, by decide +kernel, by decide +kernel, fun s => hmiss σ rfl 0 s⟩

/-- What the process had before stays where it was, and each grammar made since is empty. -/
theorem foldl_create (n : Nat) (s : Process) :
    ((List.replicate n Act.create).foldl act s).grammars.size = s.grammars.size + n ∧
    (∀ k, k < s.grammars.size →
      ((List.replicate n Act.create).foldl act s).grammars[k]? = s.grammars[k]?) ∧
    ∀ k, s.grammars.size ≤ k → k < s.grammars.size + n →
      ∃ id, ((List.replicate n Act.create).foldl act s).grammars[k]? = some { id } := by
  induction n generalizing s with
  | zero => exact ⟨rfl, fun k _ => rfl, fun k hle hlt => absurd hlt (Nat.not_lt.mpr hle)⟩
  | succ n ih =>
    have hgrammars : (s.act .create).grammars = s.grammars.push s.supply.fresh.1 := rfl
    obtain ⟨hsize, hold, hnew⟩ := ih (s.act .create)
    rw [hgrammars, Array.size_push] at hsize hold hnew
    rw [List.replicate_succ, List.foldl_cons]
    refine ⟨hsize.trans (by omega), fun k hk => ?_, fun k hle hlt => ?_⟩
    · rw [hold k (by omega), Array.getElem?_push, if_neg (Nat.ne_of_lt hk)]
    · rcases Nat.eq_or_lt_of_le hle with rfl | hle
      · refine ⟨s.supply.next, ?_⟩
        rw [hold _ (Nat.lt_succ_self _), Array.getElem?_push, if_pos rfl]
        rfl
      · exact hnew k hle (by omega)

def around (n : Nat) : List Act :=
  [.create, .call 0 (.rule "word")] ++ List.replicate n .create ++ [.call n (.define "word" .any)]

theorem getElem?_around {n : Nat} (hn : 0 < n) :
    (ofActs (around n)).grammars[0]? = some (({ id := 0 } : Grammar).rule "word").2 ∧
      (ofActs (around n)).grammars[n]? =
        some (({ id := UInt32.ofNat n } : Grammar).define "word" .any).2 := by
  have hfirst : (ofActs [.create, .call 0 (.rule "word")]).grammars =
      #[(({ id := 0 } : Grammar).rule "word").2] := by decide +kernel
  have hacts : ofActs (around n) =
      ((List.replicate n Act.create).foldl act (ofActs [.create, .call 0 (.rule "word")])).act
        (.call n (.define "word" .any)) := by
    rw [ofActs, around, List.foldl_append, List.foldl_append]
    rfl
  have hids := ofActs_numbered ([.create, .call 0 (.rule "word")] ++ List.replicate n .create)
  rw [ofActs, List.foldl_append] at hids
  obtain ⟨-, hold, hnew⟩ := foldl_create n (ofActs [.create, .call 0 (.rule "word")])
  rw [hfirst] at hold hnew
  rw [hacts, act]
  dsimp only
  constructor
  · rw [Array.getElem?_modify, if_neg (by omega), hold 0 Nat.zero_lt_one]
    rfl
  · obtain ⟨id, hid⟩ := hnew n hn (by simp)
    have heq : id = UInt32.ofNat n := hids.id n _ hid
    rw [Array.getElem?_modify, if_pos rfl, hid, heq]
    rfl

/-- Two grammars with `2 ^ 32` creations from one to the other: a reference made by the first
takes the body that the last defines under the same name. -/
theorem identities_come_around :
    ∃ (acts : List Act) (g h : Grammar) (r : RuleRef),
      (ofActs acts).grammars[0]? = some g ∧ (ofActs acts).grammars[2 ^ 32]? = some h ∧
      (g.rule "word").1 = .rule r ∧ g.get? "word" = none ∧ g.id = h.id ∧
      ∀ σ : Setting Store, σ.grammar = some h → σ.input = #[97] →
        ∃ t, σ.run 1 (.rule r) ⟨0, {}⟩ = some (.hit ⟨0, 1⟩, t) := by
  obtain ⟨hfirst, hlast⟩ := getElem?_around (n := 2 ^ 32) (by decide)
  have hzero : UInt32.ofNat (2 ^ 32) = 0 := by decide
  rw [hzero] at hlast
  refine ⟨_, _, _, ⟨0, 0, "word"⟩, hfirst, hlast, by decide +kernel, by decide +kernel, rfl, ?_⟩
  intro σ hσ hinput
  have hbody : σ.rules ⟨0, 0, "word"⟩ = some .any := by
    rw [Setting.rules_eq hσ]
    decide +kernel
  refine ⟨⟨1, {}⟩, ?_⟩
  rw [σ.run_rule_body hbody]
  change Step.oneByte σ.input (fun _ => true) (⟨0, {}⟩ : State Store) = _
  rw [hinput]
  rfl

end Process

end Peg
