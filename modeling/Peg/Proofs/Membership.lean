import Mathlib.Data.Set.Card
import Peg.ByteSet.Edit
import Peg.Proofs.Munching
import Peg.Proofs.Unescape

/-! # Members of sets

The four words of a set stand for its members: these are counted and listed by the words, and sets
with the same members have the same words and the same rendering. After any series of edits the
members are the bytes that were put in since the set was last replaced. As a pattern, a set of bytes
matches what the choice of these bytes matches.
-/
namespace Peg

namespace ByteSet

/-- The set holds the bytes of `M`, counts them, and lists each of them once in ascending order. -/
structure Represents (s : ByteSet) (M : Set UInt8) : Prop where
  contains_iff : ∀ b, s.contains b = true ↔ b ∈ M
  size_eq : s.size = M.ncard
  isEmpty_iff : s.isEmpty = true ↔ s.size = 0
  mem_toList_iff : ∀ b, b ∈ s.toList ↔ b ∈ M
  ascending : s.toList.Pairwise (· < ·)

/-! Sizes and renderings. -/

variable {s t : ByteSet}

/-- The bytes of the first words are counted word by word. -/
theorem countP_words (s : ByteSet) {k : Nat} (hk : k ≤ 4) :
    (List.range (64 * k)).countP (fun i => s.contains (.ofNat i)) =
      ((List.range k).map fun i => countBits (s.word i)).sum := by
  induction k with
  | zero => rfl
  | succ k ih =>
    have hword : ((List.range 64).map (64 * k + ·)).countP (fun i => s.contains (.ofNat i)) =
        countBits (s.word k) := by
      rw [List.countP_map]
      refine List.countP_congr fun j hj => ?_
      rw [Function.comp_apply, contains_place s (by omega) (List.mem_range.mp hj)]
    rw [Nat.mul_succ, List.range_add, List.countP_append, ih (by omega), hword, List.range_succ,
      List.map_append, List.sum_append, List.map_singleton, List.sum_singleton]

theorem length_toList (s : ByteSet) : s.toList.length = s.size := by
  have hwords := s.countP_words (Nat.le_refl 4)
  rw [toList, ← List.countP_eq_length_filter, allBytes, List.countP_map]
  refine hwords.trans ?_
  simp [List.range_succ, size, word, Nat.add_assoc]

theorem eq_empty_iff : s = empty ↔ s.toList = [] := by
  constructor
  · rintro rfl
    exact List.filter_eq_nil_iff.mpr fun b _ => by simp
  · intro hnil
    refine eq_of_contains fun b => ?_
    rw [contains_empty, ← Bool.not_eq_true, ← mem_toList, hnil]
    exact List.not_mem_nil

theorem isEmpty_iff_size : s.isEmpty = true ↔ s.size = 0 := by
  have hwords : s.isEmpty = true ↔ s = empty := by
    cases s
    simp [isEmpty, empty, and_assoc]
  rw [hwords, eq_empty_iff, ← length_toList, List.length_eq_zero_iff]

/-- Every set holds, counts and lists its members as a set of bytes has to. -/
theorem represents (s : ByteSet) : s.Represents {b | s.contains b = true} where
  contains_iff _ := Iff.rfl
  size_eq := by
    have hnodup : s.toList.Nodup := s.pairwise_toList.imp UInt8.ne_of_lt
    have hmembers : {b | s.contains b = true} = ↑s.toList.toFinset := by
      ext b
      rw [List.coe_toFinset]
      exact mem_toList.symm
    rw [hmembers, Set.ncard_coe_finset, List.toFinset_card_of_nodup hnodup, length_toList]
  isEmpty_iff := isEmpty_iff_size
  mem_toList_iff _ := mem_toList
  ascending := s.pairwise_toList

theorem eq_iff : s = t ↔ ∀ b, s.contains b = t.contains b :=
  ⟨fun h _ => h ▸ rfl, eq_of_contains⟩

/-- Sets are read back from their renderings. -/
theorem render_inj : s.render = t.render ↔ s = t := by
  refine ⟨fun h => ?_, fun h => h ▸ rfl⟩
  have hchars : s.chars = t.chars := String.ofList_injective h
  have hread : read (s.chars.tail) = some (s, [']']) := read_members s rfl
  have hread' : read (t.chars.tail) = some (t, [']']) := read_members t rfl
  rw [hchars, hread'] at hread
  exact (congrArg Prod.fst (Option.some.inj hread)).symm

/-! Series of edits. -/

def Edit.Adds : Edit → UInt8 → Prop
  | .insert c, b => b = c
  | .insertRange lo hi, b => lo ≤ b ∧ b ≤ hi
  | .replace bytes, b => b ∈ bytes

def Edit.Replaces : Edit → Prop
  | .replace _ => True
  | _ => False

/-- Some edit puts the byte in, and none behind it replaces the set. -/
def Inserted (edits : List Edit) (b : UInt8) : Prop :=
  ∃ before e behind, edits = before ++ e :: behind ∧ e.Adds b ∧ ∀ e' ∈ behind, ¬ e'.Replaces

variable {edits : List Edit} {e : Edit} {b : UInt8}

/-- An edit puts in its own bytes, and keeps the others unless it starts anew. -/
theorem contains_edit : (s.edit e).contains b = true ↔
    e.Adds b ∨ ¬ e.Replaces ∧ s.contains b = true := by
  cases e with
  | insert c => simp [edit, Edit.Adds, Edit.Replaces]
  | insertRange lo hi =>
    simp [edit, insertRange, contains_foldl_insert, mem_allBytes, Edit.Adds, Edit.Replaces, or_comm]
  | replace bytes => simp [edit, Edit.Adds, Edit.Replaces]

theorem inserted_concat : Inserted (edits ++ [e]) b ↔
    e.Adds b ∨ ¬ e.Replaces ∧ Inserted edits b := by
  constructor
  · rintro ⟨before, e', behind, heq, hadds, hbehind⟩
    rcases List.eq_nil_or_concat' behind with rfl | ⟨behind, last, rfl⟩
    · obtain ⟨-, rfl⟩ := List.append_singleton_inj.mp heq
      exact .inl hadds
    · rw [← List.cons_append, ← List.append_assoc] at heq
      obtain ⟨rfl, rfl⟩ := List.append_singleton_inj.mp heq
      rw [List.forall_mem_append, List.forall_mem_singleton] at hbehind
      exact .inr ⟨hbehind.2, before, e', behind, rfl, hadds, hbehind.1⟩
  · rintro (hadds | ⟨hlast, before, e', behind, rfl, hadds, hbehind⟩)
    · exact ⟨edits, e, [], rfl, hadds, nofun⟩
    · refine ⟨before, e', behind ++ [e], by simp, hadds, ?_⟩
      rw [List.forall_mem_append, List.forall_mem_singleton]
      exact ⟨hbehind, hlast⟩

/-- Each edit does to the members what it does to the bytes that have been put in. -/
theorem contains_ofEdits : (ofEdits edits).contains b = true ↔ Inserted edits b := by
  induction edits using List.reverseRecOn with
  | nil =>
    rw [ofEdits, List.foldl_nil, contains_empty]
    refine iff_of_false Bool.false_ne_true ?_
    rintro ⟨before, e, behind, heq, -⟩
    cases List.append_ne_nil_of_right_ne_nil before (List.cons_ne_nil e behind) heq.symm
  | append_singleton edits e ih =>
    rw [ofEdits, List.foldl_concat, contains_edit, inserted_concat]
    exact or_congr_right (and_congr_right fun _ => ih)

example : (ofEdits [.insert 1, .replace [7], .insertRange 254 255, .insertRange 9 3]).toList =
    [7, 254, 255] := by decide

end ByteSet

/-! Sets as patterns. -/

def Pattern.anyOf (first : UInt8) (rest : List UInt8) : Pattern :=
  rest.foldl (fun p b => .choice p (.literal [b])) (.literal [first])

namespace Setting

variable {κ : Type} {σ : Setting κ} {p : Pattern} {L : Language UInt8} {F : Trail → Prop}

theorem munches_choices {f : UInt8 → Prop} (h : σ.Munches p (byteOf f) .silent (· = []))
    (bytes : List UInt8) : σ.Munches (bytes.foldl (fun p b => .choice p (.literal [b])) p)
      (byteOf fun b => f b ∨ b ∈ bytes) .silent (· = []) := by
  induction bytes generalizing p f with
  | nil => simpa using h
  | cons c rest ih =>
    have hrest := ih (h.orByte c)
    simpa only [List.foldl_cons, List.mem_cons, or_assoc] using hrest

/-- The choice of literals takes one byte of the list, and nothing else. -/
theorem munches_anyOf (first : UInt8) (rest : List UInt8) :
    σ.Munches (.anyOf first rest) (byteOf (· ∈ first :: rest)) .silent (· = []) := by
  have hfirst : σ.Munches (.literal [first]) (byteOf (· = first)) .silent (· = []) := by
    have hlanguage : byteOf (· = first) = {[first]} := by
      ext w
      exact ⟨fun ⟨_, hb, hw⟩ => hb ▸ hw, fun hw => ⟨first, rfl, hw⟩⟩
    rw [hlanguage]
    exact munches_literal [first]
  simp only [List.mem_cons]
  exact munches_choices hfirst rest

theorem Munches.ends (h : σ.Munches p L .silent F) (s : State κ) :
    ∃ n, (σ.run n p s).isSome := by
  rcases h s.pos with ⟨w, l, -, htakes, -⟩ | ⟨-, l, ⟨n, hn⟩, -⟩
  · obtain ⟨n, hn⟩ := htakes.runs
    obtain ⟨ctx, -, hrun⟩ := hn n (Nat.le_refl n) s.ctx
    exact ⟨n, Option.isSome_of_eq_some hrun⟩
  · obtain ⟨ctx, -, stop, hrun⟩ := hn n (Nat.le_refl n) s.ctx
    exact ⟨n, Option.isSome_of_eq_some hrun⟩

/-- Which match comes out depends on the language only. -/
theorem Munches.hit_iff (h : σ.Munches p L .silent F) {s t : State κ} {m : Span} :
    (∃ n, σ.run n p s = some (.hit m, t)) ↔ ∃ w, LongestPrefix L (σ.remaining s.pos) w ∧
      m = ⟨s.pos, s.pos + w.length⟩ ∧ t = ⟨s.pos + w.length, s.ctx⟩ := by
  constructor
  · rintro ⟨n, hrun⟩
    have hends : (σ.run n p ⟨s.pos, s.ctx⟩).isSome := Option.isSome_of_eq_some hrun
    rcases h s.pos with ⟨w, _, hw, htakes, rfl⟩ | ⟨-, _, hmisses, -⟩
    · cases hrun.symm.trans (htakes.run_eq hends)
      exact ⟨w, hw, rfl, rfl⟩
    · obtain ⟨stop, hmiss⟩ := hmisses.run_eq hends
      cases hrun.symm.trans hmiss
  · rintro ⟨w, hw, rfl, rfl⟩
    obtain ⟨n, hends⟩ := h.ends s
    rcases h s.pos with ⟨v, _, hv, htakes, rfl⟩ | ⟨hno, -⟩
    · obtain rfl := hw.unique hv
      exact ⟨n, htakes.run_eq hends⟩
    · exact absurd hw.starts (hno w hw.mem)

theorem munches_set (bytes : List UInt8) :
    σ.Munches (.set (.ofList bytes)) (byteOf (· ∈ bytes)) .silent (· = []) :=
  munches_oneByte rfl fun b => by rw [ByteSet.contains_ofList, decide_eq_true_iff]

end Setting

/-- After any series of edits a set stands for the bytes that were put in since it was last
replaced. Two such sets are equal, and are rendered alike, just if they have the same members. A set
of some bytes matches what the choice of these bytes matches, wherever the two are taken up. -/
theorem ByteSet.ofEdits_represents :
    (∀ edits, (ofEdits edits).Represents {b | Inserted edits b}) ∧
    (∀ edits edits',
      (ofEdits edits = ofEdits edits' ↔
        ∀ b, (ofEdits edits).contains b = (ofEdits edits').contains b) ∧
      ((ofEdits edits).render = (ofEdits edits').render ↔
        ∀ b, (ofEdits edits).contains b = (ofEdits edits').contains b)) ∧
    ∀ {κ : Type} (σ : Setting κ) (first : UInt8) (rest : List UInt8) (s : State κ),
      (∃ n, (σ.run n (.set (ofList (first :: rest))) s).isSome) ∧
      (∃ n, (σ.run n (.anyOf first rest) s).isSome) ∧
      ∀ m t, (∃ n, σ.run n (.set (ofList (first :: rest))) s = some (.hit m, t)) ↔
        ∃ n, σ.run n (.anyOf first rest) s = some (.hit m, t) := by
  refine ⟨fun edits => ?_, fun edits edits' => ⟨eq_iff, render_inj.trans eq_iff⟩,
    fun σ first rest s => ?_⟩
  · have hmembers : {b | (ofEdits edits).contains b = true} = {b | Inserted edits b} :=
      Set.ext fun _ => contains_ofEdits
    rw [← hmembers]
    exact represents (ofEdits edits)
  · have hset := Setting.munches_set (σ := σ) (first :: rest)
    have hchoice := Setting.munches_anyOf (σ := σ) first rest
    exact ⟨hset.ends s, hchoice.ends s, fun m t => hset.hit_iff.trans hchoice.hit_iff.symm⟩

end Peg
