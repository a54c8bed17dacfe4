import Mathlib.Combinatorics.Enumerative.DyckWord
import Mathlib.Data.Set.List
import Peg.Proofs.LongestPrefix

/-! # Balanced parentheses

Dyck words, written with parentheses. How many of these are open behind each part of a text tells
whether the text is balanced and whether it can be continued to a balanced one. What a text begins
with that can be continued is balanced for some way, and from there on something stays open.
-/
namespace Peg.Paren

def byte : DyckStep → UInt8
  | .U => 40
  | .D => 41

def balanced : Language UInt8 := {w | ∃ d : DyckWord, d.toList.map byte = w}

def begun : Language UInt8 := {t | ∃ v, t ++ v ∈ balanced}

def group : Language UInt8 := {g | ∃ v ∈ balanced, g = 40 :: (v ++ [41])}

def depth (w : List UInt8) : ℤ := w.count 40 - w.count 41

@[simp] theorem depth_nil : depth [] = 0 := rfl

@[simp] theorem depth_append (u v : List UInt8) : depth (u ++ v) = depth u + depth v := by
  simp only [depth, List.count_append]
  omega

@[simp] theorem depth_opening (w : List UInt8) : depth (40 :: w) = depth w + 1 := by
  simp [depth]
  omega

@[simp] theorem depth_closing (w : List UInt8) : depth (41 :: w) = depth w - 1 := by
  simp [depth]
  omega

/-- Made of parentheses, of which none closes anything that is not open. -/
structure Opened (t : List UInt8) : Prop where
  parens : ∀ b ∈ t, b = 40 ∨ b = 41
  nonneg : ∀ u, u <+: t → 0 ≤ depth u

/-- Some parenthesis stays open from the first one on. -/
def Unfinished (y : List UInt8) : Prop := ∀ k, k <+: y → k ≠ [] → 0 < depth k

variable {g r t u v w y : List UInt8}

theorem prefix_append_cases (h : t <+: u ++ v) : t <+: u ∨ ∃ k, t = u ++ k ∧ k <+: v := by
  rcases List.prefix_or_prefix_of_prefix h (List.prefix_append u v) with h' | ⟨k, rfl⟩
  · exact .inl h'
  · exact .inr ⟨k, rfl, (List.prefix_append_right_inj u).mp h⟩

namespace Opened

theorem nil : Opened [] := ⟨nofun, fun u hu => by rw [List.prefix_nil.mp hu, depth_nil]⟩

theorem front (ht : Opened t) (h : u <+: t) : Opened u :=
  ⟨fun b hb => ht.parens b (h.subset hb), fun k hk => ht.nonneg k (hk.trans h)⟩

theorem append (hu : Opened u) (hv : ∀ b ∈ v, b = 40 ∨ b = 41)
    (hdepth : ∀ k, k <+: v → 0 ≤ depth u + depth k) : Opened (u ++ v) := by
  refine ⟨fun b hb => (List.mem_append.mp hb).elim (hu.parens b) (hv b), fun t ht => ?_⟩
  rcases prefix_append_cases ht with ht | ⟨k, rfl, hk⟩
  · exact hu.nonneg t ht
  · rw [depth_append]
    exact hdepth k hk

/-- Text in which nothing is left open may stand in front of other such text. -/
theorem join (hu : Opened u) (hdepth : depth u = 0) (hv : Opened v) : Opened (u ++ v) := by
  refine hu.append hv.parens fun k hk => ?_
  rw [hdepth, zero_add]
  exact hv.nonneg k hk

theorem snoc {b : UInt8} (ht : Opened t) (hb : b = 40 ∨ b = 41) (hdepth : 0 ≤ depth (t ++ [b])) :
    Opened (t ++ [b]) := by
  refine ⟨fun c hc => ?_, fun u hu => ?_⟩
  · rcases List.mem_append.mp hc with hc | hc
    · exact ht.parens c hc
    · exact List.mem_singleton.mp hc ▸ hb
  · rcases List.prefix_concat_iff.mp hu with rfl | hu
    · exact hdepth
    · exact ht.nonneg u hu

theorem opening (ht : Opened t) : Opened (40 :: t) := by
  have hfirst : Opened [40] := nil.snoc (.inl rfl) (by decide)
  refine hfirst.append ht.parens fun k hk => ?_
  have hnonneg := ht.nonneg k hk
  simp only [depth_opening, depth_nil]
  omega

theorem closing (ht : Opened t) (hdepth : 0 < depth t) : Opened (t ++ [41]) :=
  ht.snoc (.inr rfl) (by
    simp only [depth_append, depth_closing, depth_nil]
    omega)

theorem behind (h : Opened (u ++ v)) (hu : depth u = 0) : Opened v := by
  refine ⟨fun b hb => h.parens b (List.mem_append_right u hb), fun k hk => ?_⟩
  have hnonneg := h.nonneg (u ++ k) ((List.prefix_append_right_inj u).mpr hk)
  rwa [depth_append, hu, zero_add] at hnonneg

end Opened

/-! Balanced text and its beginnings, told by depths. -/

theorem depth_map (l : List DyckStep) : depth (l.map byte) = l.count .U - l.count .D := by
  have hinjective : Function.Injective byte := fun s s' h => by
    cases s <;> cases s' <;> first | rfl | cases h
  have hU := List.count_map_of_injective l byte hinjective .U
  have hD := List.count_map_of_injective l byte hinjective .D
  simp only [byte] at hU hD
  rw [depth, hU, hD]

/-- Text is balanced if nothing closes what is not open and nothing stays open. -/
theorem mem_balanced_iff : w ∈ balanced ↔ Opened w ∧ depth w = 0 := by
  constructor
  · rintro ⟨d, rfl⟩
    refine ⟨⟨fun b hb => ?_, fun u hu => ?_⟩, ?_⟩
    · obtain ⟨s, -, rfl⟩ := List.mem_map.mp hb
      cases s
      · exact .inl rfl
      · exact .inr rfl
    · rw [List.prefix_iff_eq_take.mp hu, ← List.map_take, depth_map]
      have hle := d.count_D_le_count_U u.length
      omega
    · rw [depth_map, d.count_U_eq_count_D, sub_self]
  · rintro ⟨hopened, hdepth⟩
    have hrange : w ∈ Set.range (List.map byte) := by
      rw [Set.range_list_map]
      intro b hb
      rcases hopened.parens b hb with rfl | rfl
      · exact ⟨.U, rfl⟩
      · exact ⟨.D, rfl⟩
    obtain ⟨l, rfl⟩ := hrange
    rw [depth_map] at hdepth
    refine ⟨⟨l, by omega, fun i => ?_⟩, rfl⟩
    have hnonneg := hopened.nonneg ((l.take i).map byte) (by
      rw [List.map_take]
      exact List.take_prefix i _)
    rw [depth_map] at hnonneg
    omega

/-- Balanced text begins with just the texts in which nothing closes what is not open. -/
theorem mem_begun_iff : t ∈ begun ↔ Opened t := by
  constructor
  · rintro ⟨v, hv⟩
    exact (mem_balanced_iff.mp hv).1.front (List.prefix_append t v)
  · intro ht
    obtain ⟨n, hn⟩ := Int.eq_ofNat_of_zero_le (ht.nonneg t List.prefix_rfl)
    induction n generalizing t with
    | zero => exact ⟨[], by rw [List.append_nil]; exact mem_balanced_iff.mpr ⟨ht, hn⟩⟩
    | succ n ih =>
      obtain ⟨v, hv⟩ := ih (ht.closing (by omega)) (by
        simp only [depth_append, depth_closing, depth_nil]
        omega)
      exact ⟨41 :: v, by rwa [List.append_cons]⟩

theorem nil_mem_balanced : [] ∈ balanced := mem_balanced_iff.mpr ⟨.nil, rfl⟩

theorem append_mem_balanced (hu : u ∈ balanced) (hv : v ∈ balanced) : u ++ v ∈ balanced := by
  rw [mem_balanced_iff] at hu hv ⊢
  exact ⟨hu.1.join hu.2 hv.1, by rw [depth_append, hu.2, hv.2, add_zero]⟩

theorem group_balanced (hg : g ∈ group) : g ∈ balanced := by
  obtain ⟨v, hv, rfl⟩ := hg
  rw [mem_balanced_iff] at hv ⊢
  refine ⟨?_, by simp [hv.2]⟩
  exact hv.1.opening.closing (by simp [hv.2])

/-- In a group, something is open up to its last parenthesis. -/
theorem depth_pos_of_group (hg : u ++ v ∈ group) (hu : u ≠ []) (hv : v ≠ []) : 0 < depth u := by
  obtain ⟨w, hw, heq⟩ := hg
  obtain ⟨b, u, rfl⟩ := List.exists_cons_of_ne_nil hu
  obtain ⟨v, c, rfl⟩ := (List.eq_nil_or_concat' v).resolve_left hv
  rw [List.cons_append, ← List.append_assoc] at heq
  obtain ⟨rfl, hrest⟩ := List.cons.inj heq
  obtain ⟨rfl, -⟩ := List.append_inj' hrest rfl
  have hnonneg := (mem_balanced_iff.mp hw).1.nonneg u (List.prefix_append u v)
  rw [depth_opening]
  omega

/-- What balanced text ends with closes at least as often as it opens. -/
theorem depth_nonpos_of_suffix (hw : u ++ v ∈ balanced) : depth v ≤ 0 := by
  obtain ⟨hopened, hdepth⟩ := mem_balanced_iff.mp hw
  have hnonneg := hopened.nonneg u (List.prefix_append u v)
  rw [depth_append] at hdepth
  omega

namespace Unfinished

theorem nil : Unfinished [] := fun _ hk hne => absurd (List.prefix_nil.mp hk) hne

theorem first {b : UInt8} (hy : Unfinished (b :: y)) : b = 40 := by
  by_contra hb
  have hpos := hy [b] ⟨y, rfl⟩ (List.cons_ne_nil _ _)
  rw [depth, List.count_singleton, if_neg (by simpa using hb)] at hpos
  omega

theorem opening (hw : w ∈ balanced) (hy : Unfinished y) : Unfinished (40 :: (w ++ y)) := by
  obtain ⟨hopened, hdepth⟩ := mem_balanced_iff.mp hw
  intro k hk hne
  obtain ⟨b, k, rfl⟩ := List.exists_cons_of_ne_nil hne
  obtain ⟨rfl, hrest⟩ := List.cons_prefix_cons.mp hk
  have hnonneg : 0 ≤ depth k := by
    rcases prefix_append_cases hrest with hle | ⟨k, rfl, hle⟩
    · exact hopened.nonneg k hle
    · rw [depth_append, hdepth, zero_add]
      by_cases hnil : k = []
      · rw [hnil, depth_nil]
      · exact (hy k hle hnil).le
  rw [depth_opening]
  omega

end Unfinished

/-! Longest prefixes. -/

/-- Where no group begins, nothing begins. -/
theorem longest_begun_nil (hr : r.head? ≠ some 40) : LongestPrefix begun r [] := by
  refine ⟨mem_begun_iff.mpr .nil, List.nil_prefix, fun v hv hstarts => ?_⟩
  cases v with
  | nil => exact Nat.le_refl _
  | cons b v =>
    have hopened := mem_begun_iff.mp hv
    obtain ⟨r, rfl⟩ := hstarts
    rcases hopened.parens b (by simp) with rfl | rfl
    · exact absurd rfl hr
    · have hnonneg := hopened.nonneg [41] ⟨v, rfl⟩
      simp at hnonneg

/-- Behind balanced text everything begins anew. -/
theorem longest_begun_behind (hg : g ∈ balanced) (ht : LongestPrefix begun r t) :
    LongestPrefix begun (g ++ r) (g ++ t) := by
  obtain ⟨hopened, hdepth⟩ := mem_balanced_iff.mp hg
  refine ⟨mem_begun_iff.mpr (hopened.join hdepth (mem_begun_iff.mp ht.mem)),
    (List.prefix_append_right_inj g).mpr ht.starts, fun v hv hstarts => ?_⟩
  rcases prefix_append_cases hstarts with hle | ⟨k, rfl, hk⟩
  · exact hle.length_le.trans (by simp)
  · have hlonger := ht.longest k (mem_begun_iff.mpr ((mem_begun_iff.mp hv).behind hdepth)) hk
    simp only [List.length_append]
    omega

/-- A parenthesis that is not closed behind the longest balanced text stays open. -/
theorem longest_begun_opening (hw : w ∈ balanced) (hy : Unfinished y)
    (ht : LongestPrefix begun r (w ++ y)) (hnext : (r.drop w.length).head? ≠ some 41) :
    LongestPrefix begun (40 :: r) (40 :: (w ++ y)) := by
  have hopened := mem_begun_iff.mp ht.mem
  refine ⟨mem_begun_iff.mpr hopened.opening, (List.cons_prefix_cons.mpr ⟨rfl, ht.starts⟩), ?_⟩
  intro v hv hstarts
  by_contra hlonger
  obtain ⟨k, rfl⟩ : 40 :: (w ++ y) <+: v := List.prefix_of_prefix_length_le
    (List.cons_prefix_cons.mpr ⟨rfl, ht.starts⟩) hstarts (by omega)
  cases k with
  | nil => simp at hlonger
  | cons c k =>
    have hrest : (w ++ y) ++ c :: k <+: r := (List.cons_prefix_cons.mp hstarts).2
    have hstop : ¬ Opened (w ++ y ++ [c]) := by
      intro hmore
      have hle := ht.longest _ (mem_begun_iff.mpr hmore)
        ((List.prefix_append _ k).trans (by rwa [List.append_assoc, List.singleton_append]))
      simp at hle
    rcases (mem_begun_iff.mp hv).parens c (by simp) with rfl | rfl
    · have hnonneg := hopened.nonneg _ List.prefix_rfl
      refine hstop (hopened.snoc (.inl rfl) ?_)
      rw [depth_append, depth_opening, depth_nil]
      omega
    · by_cases hnil : y = []
      · obtain ⟨z, rfl⟩ := hrest
        subst hnil
        simp at hnext
      · refine hstop (hopened.closing ?_)
        rw [depth_append, (mem_balanced_iff.mp hw).2, zero_add]
        exact hy y List.prefix_rfl hnil

/-- What is unfinished is in no balanced prefix. -/
theorem longest_balanced (hw : w ∈ balanced) (hy : Unfinished y)
    (ht : LongestPrefix begun r (w ++ y)) : LongestPrefix balanced r w := by
  refine ⟨hw, (List.prefix_append w y).trans ht.starts, fun v hv hstarts => ?_⟩
  obtain ⟨hopened, hdepth⟩ := mem_balanced_iff.mp hv
  have hle := ht.longest v (mem_begun_iff.mpr hopened) hstarts
  rcases prefix_append_cases (List.prefix_of_prefix_length_le hstarts ht.starts hle) with
    h | ⟨k, rfl, hk⟩
  · exact h.length_le
  · have hk : k = [] := by
      by_contra hne
      have hpos := hy k hk hne
      rw [depth_append, (mem_balanced_iff.mp hw).2] at hdepth
      omega
    simp [hk]

end Peg.Paren
