import Mathlib.Computability.Language

/-! # Longest prefixes

Which prefix of a list of bytes is the longest one in a language, for languages put together from
unions, products and stars. To look for the longest prefix in each factor of a product finds the
longest one in the product only where a word of the first factor that can go on is not needed to be
left early. Which bytes words begin with, end with and go on with decides that.
-/
namespace Peg

open scoped Computability

structure LongestPrefix (L : Language UInt8) (x w : List UInt8) : Prop where
  mem : w ∈ L
  starts : w <+: x
  longest : ∀ v ∈ L, v <+: x → v.length ≤ w.length

def NoPrefix (L : Language UInt8) (x : List UInt8) : Prop := ∀ w ∈ L, ¬ w <+: x

/-- What a word of `A` goes on with within `A` never begins a word of `B`, and is begun by one
only if the empty word is in `B`, too. -/
def Commits (A B : Language UInt8) : Prop :=
  ∀ u c v, u ∈ A → u ++ c ∈ A → c ≠ [] → v ∈ B → ¬ c <+: v ∧ (v <+: c → [] ∈ B)

variable {A B L : Language UInt8} {x u v w : List UInt8} {f g h : UInt8 → Prop}

theorem LongestPrefix.unique (hv : LongestPrefix L x v) (hw : LongestPrefix L x w) : v = w := by
  have hle := hw.longest v hv.mem hv.starts
  have hge := hv.longest w hw.mem hw.starts
  exact (List.prefix_of_prefix_length_le hv.starts hw.starts hle).eq_of_length_le hge

theorem LongestPrefix.whole (hx : LongestPrefix L x w) : x ∈ L ↔ w.length = x.length := by
  constructor
  · intro hmem
    exact Nat.le_antisymm hx.starts.length_le (hx.longest x hmem List.prefix_rfl)
  · intro hlength
    exact hx.starts.eq_of_length hlength ▸ hx.mem

/-- A prefix in a product either goes through the longest prefix in the first factor, or is no
longer than that. -/
theorem Commits.cases (hAB : Commits A B) {r : List UInt8} (hu : LongestPrefix A (u ++ r) u)
    {u' v' : List UInt8} (hu' : u' ∈ A) (hv' : v' ∈ B) (hstarts : u' ++ v' <+: u ++ r) :
    (u' = u ∧ v' <+: r) ∨ ((u' ++ v').length ≤ u.length ∧ [] ∈ B) := by
  have hfirst : u' <+: u ++ r := (List.prefix_append u' v').trans hstarts
  have hlength := hu.longest u' hu' hfirst
  obtain ⟨c, rfl⟩ := List.prefix_of_prefix_length_le hfirst (List.prefix_append u r) hlength
  rw [List.append_assoc, List.prefix_append_right_inj] at hstarts
  by_cases hc : c = []
  · subst hc
    exact .inl ⟨(List.append_nil u').symm, hstarts⟩
  · obtain ⟨hno, hnil⟩ := hAB u' c v' hu' hu.mem hc hv'
    rcases List.prefix_or_prefix_of_prefix hstarts (List.prefix_append c r) with hle | hle
    · have hshort := hle.length_le
      exact .inr ⟨by simp only [List.length_append]; omega, hnil hle⟩
    · exact absurd hle hno

/-- Where the first language commits, the longest prefixes one behind the other are the longest
prefix of the product. -/
theorem LongestPrefix.mul (hAB : Commits A B) (hu : LongestPrefix A x u)
    (hv : LongestPrefix B (x.drop u.length) v) : LongestPrefix (A * B) x (u ++ v) := by
  obtain ⟨r, rfl⟩ := hu.starts
  rw [List.drop_left] at hv
  refine ⟨Language.append_mem_mul hu.mem hv.mem, ?_, ?_⟩
  · exact (List.prefix_append_right_inj u).mpr hv.starts
  · intro w hw hstarts
    obtain ⟨u', hu', v', hv', rfl⟩ := Language.mem_mul.mp hw
    rcases hAB.cases hu hu' hv' hstarts with ⟨rfl, hrest⟩ | ⟨hshort, -⟩
    · have hlonger := hv.longest v' hv' hrest
      simp only [List.length_append]
      omega
    · exact hshort.trans (by simp)

theorem NoPrefix.mul_left (hx : NoPrefix A x) (B : Language UInt8) : NoPrefix (A * B) x := by
  intro w hw hstarts
  obtain ⟨u, hu, v, -, rfl⟩ := Language.mem_mul.mp hw
  exact hx u hu ((List.prefix_append u v).trans hstarts)

theorem NoPrefix.mul_right (hAB : Commits A B) (hu : LongestPrefix A x u)
    (hx : NoPrefix B (x.drop u.length)) : NoPrefix (A * B) x := by
  obtain ⟨r, rfl⟩ := hu.starts
  rw [List.drop_left] at hx
  intro w hw hstarts
  obtain ⟨u', hu', v', hv', rfl⟩ := Language.mem_mul.mp hw
  rcases hAB.cases hu hu' hv' hstarts with ⟨-, hrest⟩ | ⟨-, hnil⟩
  · exact hx v' hv' hrest
  · exact hx [] hnil List.nil_prefix

theorem mem_kstar_iff : w ∈ L∗ ↔ w = [] ∨ w ∈ L * L∗ := by
  rw [← Language.mem_one, ← Language.mem_add, Language.one_add_self_mul_kstar_eq_kstar]

theorem LongestPrefix.kstar (hA : Commits A A∗) (hu : LongestPrefix A x u)
    (hv : LongestPrefix A∗ (x.drop u.length) v) : LongestPrefix A∗ x (u ++ v) := by
  have hmul := LongestPrefix.mul hA hu hv
  refine ⟨mem_kstar_iff.mpr (.inr hmul.mem), hmul.starts, ?_⟩
  intro w hw hstarts
  rcases mem_kstar_iff.mp hw with rfl | hw
  · exact Nat.zero_le _
  · exact hmul.longest w hw hstarts

theorem NoPrefix.kstar (hx : NoPrefix A x) : LongestPrefix A∗ x [] := by
  refine ⟨Language.nil_mem_kstar A, List.nil_prefix, ?_⟩
  intro w hw hstarts
  rcases mem_kstar_iff.mp hw with rfl | hw
  · exact Nat.le_refl _
  · exact absurd hstarts (hx.mul_left A∗ w hw)

/-- The longest prefix in a language is the longest one in a sum, too, if no word of the other
summand goes on from one of its words. -/
theorem LongestPrefix.add_left (hAB : ∀ u ∈ A, ∀ v ∈ B, u <+: v → v.length ≤ u.length)
    (hu : LongestPrefix A x u) : LongestPrefix (A + B) x u := by
  refine ⟨.inl hu.mem, hu.starts, ?_⟩
  rintro v (hv | hv) hstarts
  · exact hu.longest v hv hstarts
  · rcases List.prefix_or_prefix_of_prefix hstarts hu.starts with hle | hle
    · exact hle.length_le
    · exact hAB u hu.mem v hv hle

theorem LongestPrefix.add_right (hx : NoPrefix A x) (hv : LongestPrefix B x v) :
    LongestPrefix (A + B) x v := by
  refine ⟨.inr hv.mem, hv.starts, ?_⟩
  rintro w (hw | hw) hstarts
  · exact absurd hstarts (hx w hw)
  · exact hv.longest w hw hstarts

theorem NoPrefix.add (hA : NoPrefix A x) (hB : NoPrefix B x) : NoPrefix (A + B) x := by
  rintro w (hw | hw)
  · exact hA w hw
  · exact hB w hw

theorem LongestPrefix.one_add (hu : LongestPrefix A x u) : LongestPrefix (1 + A) x u := by
  refine ⟨.inr hu.mem, hu.starts, ?_⟩
  rintro v (rfl | hv) hstarts
  · exact Nat.zero_le _
  · exact hu.longest v hv hstarts

theorem NoPrefix.one_add (hx : NoPrefix A x) : LongestPrefix (1 + A) x [] := by
  refine ⟨.inl rfl, List.nil_prefix, ?_⟩
  rintro v (rfl | hv) hstarts
  · exact Nat.le_refl _
  · exact absurd hstarts (hx v hv)

/-! What words are made of, begin with, end with and go on with. -/

def byteOf (f : UInt8 → Prop) : Language UInt8 := {w | ∃ b, f b ∧ w = [b]}

def MadeOf (L : Language UInt8) (f : UInt8 → Prop) : Prop := ∀ w ∈ L, ∀ b ∈ w, f b

def Heads (L : Language UInt8) (f : UInt8 → Prop) : Prop := ∀ w ∈ L, ∀ b ∈ w.head?, f b

def Lasts (L : Language UInt8) (f : UInt8 → Prop) : Prop := ∀ w ∈ L, ∀ b ∈ w.getLast?, f b

/-- Where a word of `L` goes on to another one, it does so with such a byte. -/
def Follows (L : Language UInt8) (f : UInt8 → Prop) : Prop :=
  ∀ u b c, u ∈ L → u ++ b :: c ∈ L → f b

theorem nil_not_mem_byteOf : [] ∉ byteOf f := by
  rintro ⟨b, -, hb⟩
  cases hb

theorem nil_not_mem_mul_left (hA : [] ∉ A) (B : Language UInt8) : [] ∉ A * B := by
  intro hnil
  obtain ⟨u, hu, v, -, heq⟩ := Language.mem_mul.mp hnil
  exact hA ((List.append_eq_nil_iff.mp heq).1 ▸ hu)

theorem nil_not_mem_mul_right (hB : [] ∉ B) (A : Language UInt8) : [] ∉ A * B := by
  intro hnil
  obtain ⟨u, -, v, hv, heq⟩ := Language.mem_mul.mp hnil
  exact hB ((List.append_eq_nil_iff.mp heq).2 ▸ hv)

theorem MadeOf.byteOf (f : UInt8 → Prop) : MadeOf (byteOf f) f := by
  rintro _ ⟨b, hb, rfl⟩ c hc
  exact List.mem_singleton.mp hc ▸ hb

theorem MadeOf.mono (hL : MadeOf L f) (hfg : ∀ b, f b → g b) : MadeOf L g :=
  fun w hw b hb => hfg b (hL w hw b hb)

theorem MadeOf.mul (hA : MadeOf A f) (hB : MadeOf B f) : MadeOf (A * B) f := by
  intro w hw b hb
  obtain ⟨u, hu, v, hv, rfl⟩ := Language.mem_mul.mp hw
  rcases List.mem_append.mp hb with hb | hb
  · exact hA u hu b hb
  · exact hB v hv b hb

theorem MadeOf.kstar (hL : MadeOf L f) : MadeOf L∗ f := by
  intro w hw b hb
  obtain ⟨parts, rfl, hparts⟩ := Language.mem_kstar.mp hw
  obtain ⟨part, hpart, hb⟩ := List.mem_flatten.mp hb
  exact hL part (hparts part hpart) b hb

theorem MadeOf.one_add (hL : MadeOf L f) : MadeOf (1 + L) f := by
  rintro w (rfl | hw)
  · exact nofun
  · exact hL w hw

theorem MadeOf.heads (hL : MadeOf L f) : Heads L f :=
  fun w hw b hb => hL w hw b (List.mem_of_head? hb)

theorem MadeOf.follows (hL : MadeOf L f) : Follows L f :=
  fun u b _ _ hw => hL _ hw b (List.mem_append_right u List.mem_cons_self)

theorem MadeOf.lasts (hL : MadeOf L f) : Lasts L f :=
  fun w hw b hb => hL w hw b (List.mem_of_getLast? hb)

theorem Heads.mul (hA : Heads A f) (hB : [] ∈ A → Heads B f) : Heads (A * B) f := by
  intro w hw b hb
  obtain ⟨u, hu, v, hv, rfl⟩ := Language.mem_mul.mp hw
  rw [List.head?_append, Option.mem_def, Option.or_eq_some_iff] at hb
  rcases hb with hb | ⟨hnone, hb⟩
  · exact hA u hu b hb
  · obtain rfl := List.head?_eq_none_iff.mp hnone
    exact hB hu v hv b hb

theorem Heads.add (hA : Heads A f) (hB : Heads B f) : Heads (A + B) f := by
  rintro w (hw | hw)
  · exact hA w hw
  · exact hB w hw

theorem Heads.kstar (hL : Heads L f) : Heads L∗ f := by
  intro w hw b hb
  obtain ⟨parts, rfl, hparts⟩ := Language.mem_kstar.mp hw
  rw [List.head?_flatten] at hb
  obtain ⟨part, hpart, hb⟩ := List.exists_of_findSome?_eq_some hb
  exact hL part (hparts part hpart) b hb

theorem Lasts.mul (hA : [] ∈ B → Lasts A f) (hB : Lasts B f) : Lasts (A * B) f := by
  intro w hw b hb
  obtain ⟨u, hu, v, hv, rfl⟩ := Language.mem_mul.mp hw
  rw [List.getLast?_append, Option.mem_def, Option.or_eq_some_iff] at hb
  rcases hb with hb | ⟨hnone, hb⟩
  · exact hB v hv b hb
  · obtain rfl := List.getLast?_eq_none_iff.mp hnone
    exact hA hv u hu b hb

theorem Lasts.kstar (hL : Lasts L f) : Lasts L∗ f := by
  intro w hw b hb
  obtain ⟨parts, rfl, hparts⟩ := Language.mem_kstar.mp hw
  rw [List.getLast?_flatten] at hb
  obtain ⟨part, hpart, hb⟩ := List.exists_of_findSome?_eq_some hb
  exact hL part (hparts part (List.mem_reverse.mp hpart)) b hb

/-- A word of a product goes on as words of the second factor do, if the first factor cannot go
on with what the second one begins with. -/
theorem Follows.mul (hA : Follows A g) (hB : Follows B f) (hheads : Heads B h)
    (hgh : ∀ b, g b → ¬ h b) (hnil : [] ∉ B) : Follows (A * B) f := by
  intro w b c hw hlonger
  obtain ⟨u, hu, v, hv, rfl⟩ := Language.mem_mul.mp hw
  obtain ⟨u', hu', v', hv', heq⟩ := Language.mem_mul.mp hlonger
  obtain ⟨d, v, rfl⟩ := List.exists_cons_of_ne_nil fun hv' => hnil (hv' ▸ hv)
  obtain ⟨d', v', rfl⟩ := List.exists_cons_of_ne_nil fun hv => hnil (hv ▸ hv')
  rw [List.append_assoc] at heq
  rcases List.append_eq_append_iff.mp heq with ⟨k, rfl, hk⟩ | ⟨k, rfl, hk⟩
  · cases k with
    | nil =>
      rw [List.nil_append] at hk
      exact hB _ b c hv (hk ▸ hv')
    | cons e k =>
      obtain ⟨rfl, -⟩ := List.cons.inj hk
      exact absurd (hheads _ hv' d' rfl) (hgh d' (hA u' d' k hu' hu))
  · cases k with
    | nil =>
      rw [List.nil_append] at hk
      exact hB _ b c hv (hk ▸ hv')
    | cons e k =>
      obtain ⟨rfl, -⟩ := List.cons.inj hk
      exact absurd (hheads _ hv d rfl) (hgh d (hA u d k hu hu'))

/-- A language commits if no byte that one of its words may go on with is one that the other
language begins with. -/
theorem Commits.of_follows (hA : Follows A f) (hB : Heads B g) (hfg : ∀ b, f b → ¬ g b) :
    Commits A B := by
  intro u c v hu huc hc hv
  obtain ⟨b, c, rfl⟩ := List.exists_cons_of_ne_nil hc
  have hb := hfg b (hA u b c hu huc)
  constructor
  · rintro ⟨k, rfl⟩
    exact hb (hB _ hv b rfl)
  · intro hle
    cases v with
    | nil => exact hv
    | cons d v =>
      obtain ⟨rfl, -⟩ := List.cons_prefix_cons.mp hle
      exact absurd (hB _ hv d rfl) hb

theorem Commits.of_length {n : Nat} (hA : ∀ w ∈ A, w.length = n) (B : Language UInt8) :
    Commits A B := by
  intro u c v hu huc hc
  have hlength := hA _ huc
  rw [List.length_append, hA u hu, Nat.add_eq_left] at hlength
  exact absurd (List.length_eq_zero_iff.mp hlength) hc

theorem Commits.singleton (u : List UInt8) (B : Language UInt8) : Commits {u} B :=
  .of_length (by rintro _ rfl; rfl) B

theorem Commits.of_byte (f : UInt8 → Prop) (B : Language UInt8) : Commits (byteOf f) B :=
  .of_length (by rintro _ ⟨b, -, rfl⟩; rfl) B

/-- What words go on with ends with a byte that is in none of the words that may come next. -/
theorem Commits.of_lasts (hA : Lasts A f) (hB : MadeOf B g) (hfg : ∀ b, f b → ¬ g b)
    (hnil : [] ∈ B) : Commits A B := by
  intro u c v hu huc hc hv
  refine ⟨fun hle => ?_, fun _ => hnil⟩
  obtain ⟨c, b, rfl⟩ := (List.eq_nil_or_concat' c).resolve_left hc
  have hlast : f b := hA _ huc b (by simp)
  exact hfg b hlast (hB v hv b (hle.subset (by simp)))

end Peg
