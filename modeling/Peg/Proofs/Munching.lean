import Peg.Proofs.LongestPrefix
import Peg.Proofs.Taking

/-! # Patterns that take the longest prefix

A pattern takes the longest prefix in a language if it does so wherever it is taken up, and misses
wherever there is none. Sequences, choices and loops of such patterns do the same for products,
unions and stars of the languages, as long as no word has to be left early. What a match leaves
behind is told with the word, part by part.
-/
namespace Peg.Setting

open scoped Computability

variable {κ : Type}

/-- What is left behind by a match of a word from a position. -/
abbrev Imprint := Nat → List UInt8 → Trail → Prop

def Imprint.silent : Imprint := fun _ _ l => l = []

def Imprint.captured : Imprint := fun s w l => l = [.captured ⟨s, s + w.length⟩]

def Imprint.copied (sink : SinkId) : Imprint := fun s w l =>
  l = [.captured ⟨s, s + w.length⟩, .forwarded sink ⟨s, s + w.length⟩ w.toArray]

def Imprint.within (T : Imprint) (L : Language UInt8) : Imprint := fun s w l => w ∈ L ∧ T s w l

def Imprint.andThen (T T' : Imprint) : Imprint := fun s w l =>
  ∃ u v k k', w = u ++ v ∧ l = k ++ k' ∧ T s u k ∧ T' (s + u.length) v k'

inductive Imprint.InRow (T : Imprint) : Imprint
  | nil (s : Nat) : InRow T s [] []
  | cons {s : Nat} {u v : List UInt8} {k k' : Trail} (h : T s u k)
      (hrest : InRow T (s + u.length) v k') : InRow T s (u ++ v) (k ++ k')

/-- Wherever `p` is taken up, it takes the longest prefix that `L` has of what is left of the
input, and misses if there is none. A match leaves behind what `T` says, and a miss what `F`
says. -/
def Munches (σ : Setting κ) (p : Pattern) (L : Language UInt8) (T : Imprint)
    (F : Trail → Prop) : Prop :=
  ∀ s, (∃ w l, LongestPrefix L (σ.remaining s) w ∧ σ.Takes p s (s + w.length) l ∧ T s w l) ∨
    (NoPrefix L (σ.remaining s) ∧ ∃ l, σ.Misses p s l ∧ F l)

variable {σ : Setting κ} {p a b : Pattern} {A B L : Language UInt8} {T T' : Imprint}
  {F F' : Trail → Prop}

theorem Imprint.InRow.silent {s : Nat} {w : List UInt8} {l : Trail}
    (h : (Imprint.silent.within L).InRow s w l) : l = [] := by
  induction h with
  | nil => rfl
  | cons hk _ ih => rw [ih, hk.2]; rfl

theorem Imprint.InRow.mem {s : Nat} {w : List UInt8} {l : Trail}
    (h : (T.within L).InRow s w l) : w ∈ L∗ := by
  induction h with
  | nil => exact Language.nil_mem_kstar L
  | cons hk _ ih => exact mem_kstar_iff.mpr (.inr (Language.append_mem_mul hk.1 ih))

theorem Munches.mono (h : σ.Munches p L T F)
    (hT : ∀ s w l, w ∈ L → w <+: σ.remaining s → T s w l → T' s w l) (hF : ∀ l, F l → F' l) :
    σ.Munches p L T' F' := by
  intro s
  rcases h s with ⟨w, l, hw, htakes, hl⟩ | ⟨hno, l, hmisses, hl⟩
  · exact .inl ⟨w, l, hw, htakes, hT s w l hw.mem hw.starts hl⟩
  · exact .inr ⟨hno, l, hmisses, hF l hl⟩

theorem munches_oneByte {accept : UInt8 → Bool} {f : UInt8 → Prop} (hp : p.accepts? = some accept)
    (hf : ∀ c, accept c = true ↔ f c) : σ.Munches p (byteOf f) .silent (· = []) := by
  intro s
  cases hrest : σ.remaining s with
  | nil =>
    refine .inr ⟨?_, [], misses_oneByte hp (by simp [hrest]), rfl⟩
    rintro _ ⟨c, -, rfl⟩ hstarts
    cases List.prefix_nil.mp hstarts
  | cons c rest =>
    by_cases hc : accept c = true
    · refine .inl ⟨[c], [], ⟨⟨c, (hf c).mp hc, rfl⟩, ⟨rest, rfl⟩, ?_⟩, ?_, rfl⟩
      · rintro _ ⟨d, -, rfl⟩ -
        exact Nat.le_refl 1
      · exact takes_oneByte hp (by rw [hrest]; rfl) hc
    · refine .inr ⟨?_, [], misses_oneByte hp ?_, rfl⟩
      · rintro _ ⟨d, hd, rfl⟩ hstarts
        obtain ⟨rfl, -⟩ := List.cons_prefix_cons.mp hstarts
        exact hc ((hf d).mpr hd)
      · simpa [hrest] using hc

theorem munches_literal (bytes : List UInt8) :
    σ.Munches (.literal bytes) {bytes} .silent (· = []) := by
  intro s
  by_cases h : bytes <+: σ.remaining s
  · refine .inl ⟨bytes, [], ⟨rfl, h, ?_⟩, takes_literal h, rfl⟩
    rintro v rfl -
    exact Nat.le_refl _
  · refine .inr ⟨?_, [], misses_literal h, rfl⟩
    rintro v rfl
    exact h

/-- Two patterns in a row take the longest prefix in the product where the first language commits,
and leave behind what the one leaves and then the other. -/
theorem Munches.seq (ha : σ.Munches a A T F) (hb : σ.Munches b B T' F') (hAB : Commits A B)
    {F'' : Trail → Prop} (hleft : ∀ l, F l → F'' l)
    (hright : [] ∉ B → ∀ s w k k', T s w k → F' k' → F'' (k ++ k')) :
    σ.Munches (.seq a b) (A * B) ((T.within A).andThen (T'.within B)) F'' := by
  intro s
  rcases ha s with ⟨u, k, hu, htakes, hk⟩ | ⟨hno, k, hmisses, hk⟩
  · rcases hb (s + u.length) with ⟨v, k', hv, htakes', hk'⟩ | ⟨hno, k', hmisses, hk'⟩
    · rw [← drop_remaining] at hv
      refine .inl ⟨u ++ v, k ++ k', hu.mul hAB hv, ?_, u, v, k, k', rfl, rfl, ⟨hu.mem, hk⟩, hv.mem, hk'⟩
      rw [List.length_append, ← Nat.add_assoc]
      exact htakes.seq htakes'
    · rw [← drop_remaining] at hno
      have hnil : [] ∉ B := fun hnil => hno [] hnil List.nil_prefix
      exact .inr ⟨hno.mul_right hAB hu, k ++ k', htakes.seq_misses hmisses,
        hright hnil s u k k' hk hk'⟩
  · exact .inr ⟨hno.mul_left B, k, hmisses.seq b, hleft k hk⟩

/-- A sequence that misses has not done anything if its left side never does. -/
theorem Munches.seq_silent (ha : σ.Munches a A .silent (· = [])) (hb : σ.Munches b B T F)
    (hAB : Commits A B) (hF : F []) :
    σ.Munches (.seq a b) (A * B) ((Imprint.silent.within A).andThen (T.within B)) F :=
  ha.seq hb hAB (fun _ hl => hl ▸ hF) fun _ _ _ _ _ hk hk' => by rw [hk]; exact hk'

/-- A choice takes the longest prefix in the sum if no word of the second language goes on from one
of the first. -/
theorem Munches.choice (ha : σ.Munches a A T (· = [])) (hb : σ.Munches b B T' F)
    (hAB : ∀ u ∈ A, ∀ v ∈ B, u <+: v → v.length ≤ u.length) :
    σ.Munches (.choice a b) (A + B) (fun s w l => T.within A s w l ∨ T'.within B s w l) F := by
  intro s
  rcases ha s with ⟨u, k, hu, htakes, hk⟩ | ⟨hno, _, hmisses, rfl⟩
  · exact .inl ⟨u, k, hu.add_left hAB, htakes.choice b, .inl ⟨hu.mem, hk⟩⟩
  · rcases hb s with ⟨v, k, hv, htakes, hk⟩ | ⟨hno', k, hmisses', hk⟩
    · exact .inl ⟨v, k, hv.add_right hno, hmisses.choice_takes htakes, .inr ⟨hv.mem, hk⟩⟩
    · exact .inr ⟨hno.add hno', k, hmisses.choice hmisses', hk⟩

/-- One more byte beside those that pass a test. -/
theorem Munches.orByte {f : UInt8 → Prop} (h : σ.Munches p (byteOf f) .silent (· = []))
    (c : UInt8) :
    σ.Munches (.choice p (.literal [c])) (byteOf fun b => f b ∨ b = c) .silent (· = []) := by
  have hlanguage : byteOf (fun b => f b ∨ b = c) = byteOf f + {[c]} := by
    ext w
    constructor
    · rintro ⟨b, hb | rfl, rfl⟩
      · exact .inl ⟨b, hb, rfl⟩
      · exact .inr rfl
    · rintro (⟨b, hb, rfl⟩ | rfl)
      · exact ⟨b, .inl hb, rfl⟩
      · exact ⟨c, .inr rfl, rfl⟩
  rw [hlanguage]
  refine (h.choice (munches_literal [c]) ?_).mono ?_ fun _ hl => hl
  · rintro _ ⟨b, -, rfl⟩ _ rfl -
    exact Nat.le_refl 1
  · rintro s w l - - (⟨-, hl⟩ | ⟨-, hl⟩) <;> exact hl

theorem Munches.optional (h : σ.Munches p A .silent (· = [])) (F : Trail → Prop) :
    σ.Munches (.atMost p 1) (1 + A) .silent F := by
  intro s
  rcases h s with ⟨w, l, hw, htakes, hl⟩ | ⟨hno, l, hmisses, hl⟩
  · exact .inl ⟨w, l, hw.one_add, htakes.optional, hl⟩
  · exact .inl ⟨[], l, hno.one_add, hmisses.optional, hl⟩

section Loops

variable (hp : σ.KeepsPosition p) (h : σ.Munches p A T (· = [])) (hnil : [] ∉ A)
  (hA : Commits A A∗)
include hp h hnil hA

/-- A greedy loop takes the longest prefix in the star. -/
theorem Munches.loop (F : Trail → Prop) :
    σ.Munches (.atLeast p 0) A∗ (T.within A).InRow F := by
  intro s
  refine .inl ?_
  induction hleft : (σ.remaining s).length using Nat.strongRecOn generalizing s with
  | ind left ih =>
    rcases h s with ⟨u, k, hu, htakes, hk⟩ | ⟨hno, _, hmisses, rfl⟩
    · have hne : u ≠ [] := fun hu' => hnil (hu' ▸ hu.mem)
      have hpos : 0 < u.length := List.length_pos_iff.mpr hne
      have hrest : (σ.remaining (s + u.length)).length < left := by
        have hle := hu.starts.length_le
        rw [← drop_remaining, List.length_drop]
        omega
      obtain ⟨v, k', hv, htakes', hk'⟩ := ih _ hrest (s + u.length) rfl
      rw [← drop_remaining] at hv
      refine ⟨u ++ v, k ++ k', hu.kstar hA hv, ?_, .cons ⟨hu.mem, hk⟩ hk'⟩
      rw [List.length_append, ← Nat.add_assoc]
      exact htakes.loop hp (by omega) htakes'
    · exact ⟨[], [], hno.kstar, hmisses.loop, .nil s⟩

theorem Munches.atLeast_one : σ.Munches (.atLeast p 1) (A * A∗)
    ((T.within A).andThen (T.within A).InRow) (· = []) := by
  have hloop := h.loop hp hnil hA fun _ => False
  intro s
  rcases h s with ⟨u, k, hu, htakes, hk⟩ | ⟨hno, k, hmisses, hk⟩
  · rcases hloop (s + u.length) with ⟨v, k', hv, htakes', hk'⟩ | ⟨-, -, -, hfalse⟩
    · rw [← drop_remaining] at hv
      refine .inl ⟨u ++ v, k ++ k', hu.mul hA hv, ?_, u, v, k, k', rfl, rfl, ⟨hu.mem, hk⟩, hk'⟩
      rw [List.length_append, ← Nat.add_assoc]
      exact htakes.atLeast_one hp htakes'
    · exact hfalse.elim
  · exact .inr ⟨hno.mul_left A∗, k, hmisses.atLeast_one, hk⟩

end Loops

section Bytes

variable (hp : σ.KeepsPosition p) {f : UInt8 → Prop} (h : σ.Munches p (byteOf f) .silent (· = []))
include hp h

theorem Munches.bytes (F : Trail → Prop) : σ.Munches (.atLeast p 0) (byteOf f)∗ .silent F :=
  (h.loop hp nil_not_mem_byteOf (.of_byte f _) F).mono (fun _ _ _ _ _ hl => hl.silent) fun _ hl => hl

theorem Munches.someBytes :
    σ.Munches (.atLeast p 1) (byteOf f * (byteOf f)∗) .silent (· = []) := by
  refine (h.atLeast_one hp nil_not_mem_byteOf (.of_byte f _)).mono ?_ fun _ hl => hl
  rintro s _ _ - - ⟨u, v, k, k', rfl, rfl, ⟨-, rfl⟩, hrest⟩
  exact hrest.silent

end Bytes

theorem Munches.capture (h : σ.Munches p L T F) :
    σ.Munches (.capture p) L
      (fun s w l => ∃ k, T s w k ∧ l = k ++ [.captured ⟨s, s + w.length⟩]) F := by
  intro s
  rcases h s with ⟨w, k, hw, htakes, hk⟩ | ⟨hno, k, hmisses, hk⟩
  · exact .inl ⟨w, _, hw, htakes.capture, k, hk, rfl⟩
  · exact .inr ⟨hno, k, hmisses.capture, hk⟩

theorem extract_of_starts {s : Nat} {w : List UInt8} (h : w <+: σ.remaining s) :
    σ.input.extract s (s + w.length) = w.toArray := by
  apply Array.ext'
  obtain ⟨rest, hrest⟩ := h
  rw [Array.toList_extract, List.extract_eq_take_drop, Nat.add_sub_cancel_left]
  change (σ.remaining s).take w.length = w
  rw [← hrest, List.take_left]

theorem Munches.forward (h : σ.Munches p L T F) (sink : SinkId) :
    σ.Munches (.forward p sink) L (fun s w l => ∃ k, T s w k ∧
      l = k ++ [.forwarded sink ⟨s, s + w.length⟩ w.toArray]) F := by
  intro s
  rcases h s with ⟨w, k, hw, htakes, hk⟩ | ⟨hno, k, hmisses, hk⟩
  · refine .inl ⟨w, _, hw, ?_, k, hk, rfl⟩
    rw [← extract_of_starts hw.starts]
    exact htakes.forward sink
  · exact .inr ⟨hno, k, hmisses.forward sink, hk⟩

theorem Munches.captured (h : σ.Munches p L .silent F) :
    σ.Munches (.capture p) L .captured F := by
  refine h.capture.mono ?_ fun _ hl => hl
  rintro s w _ - - ⟨_, rfl, rfl⟩
  rfl

theorem Munches.copied (h : σ.Munches p L .silent F) (sink : SinkId) :
    σ.Munches (.forward (.capture p) sink) L (.copied sink) F := by
  refine (h.captured.forward sink).mono ?_ fun _ hl => hl
  rintro s w _ - - ⟨_, rfl, rfl⟩
  rfl

end Peg.Setting
