import Peg.Proofs.Recognizing

/-! # Lists of words are recognized

The language of words with blanks between them, and the demo for it. The blanks in front of a word
that does not come are taken by the loop, given back, and taken again behind the last word. The
words that are captured are those that a reader of the matched bytes finds, without knowing how
they were matched: longest runs of bytes that are not blank.
-/
namespace Peg

open Pattern
open scoped Computability

namespace WordList

def Blank (b : UInt8) : Prop := Char.ofUInt8 b = ' ' ∨ Char.ofUInt8 b = '\t'

def Initial (b : UInt8) : Prop := (Char.ofUInt8 b).isAlpha ∨ Char.ofUInt8 b = '_'

def Inner (b : UInt8) : Prop := (Char.ofUInt8 b).isAlphanum ∨ Char.ofUInt8 b = '_'

instance : DecidablePred Blank := fun _ => inferInstanceAs (Decidable (_ ∨ _))

instance : DecidablePred Initial := fun _ => inferInstanceAs (Decidable (_ ∨ _))

instance : DecidablePred Inner := fun _ => inferInstanceAs (Decidable (_ ∨ _))

def blank : Language UInt8 := byteOf Blank

def word : Language UInt8 := byteOf Initial * (byteOf Inner)∗

def wordLists : Language UInt8 := blank∗ * word * (blank * blank∗ * word)∗ * blank∗

/-- In the bytes `w` from `start` on, the span is a run of bytes that are not blank, with nothing
or a blank on either side. -/
def IsWord (start : Nat) (w : List UInt8) (m : Span) : Prop :=
  ∃ u v t, w = u ++ v ++ t ∧ m = ⟨start + u.length, start + u.length + v.length⟩ ∧ v ≠ [] ∧
    (∀ b ∈ v, ¬ Blank b) ∧ (∀ b ∈ u.getLast?, Blank b) ∧ ∀ b ∈ t.head?, Blank b

/-- The words have been captured from left to right, and forwarded one after the other. -/
def Kept (sink : SinkId) (w : List UInt8) (store : Store) : Prop :=
  Enumerates store.captures.toList (IsWord 0 w) ∧
    store.sinks.content sink = store.captures.flatMap fun m => w.toArray.extract m.start m.stop

/-! Words of a part and words of the whole. -/

variable {start : Nat} {u v w : List UInt8} {m : Span}

theorem IsWord.bounds (h : IsWord start w m) :
    start ≤ m.start ∧ m.start < m.stop ∧ m.stop ≤ start + w.length := by
  obtain ⟨u, v, t, rfl, rfl, hv, -⟩ := h
  have hpos := List.length_pos_iff.mpr hv
  simp only [List.length_append]
  omega

theorem not_isWord (hw : ∀ b ∈ w, Blank b) : ¬ IsWord start w m := by
  rintro ⟨u, v, t, rfl, -, hv, hinside, -⟩
  obtain ⟨b, hb⟩ := List.exists_mem_of_ne_nil v hv
  exact hinside b hb (hw b (by simp [hb]))

theorem isWord_whole (hne : w ≠ []) (hw : ∀ b ∈ w, ¬ Blank b) :
    IsWord start w m ↔ m = ⟨start, start + w.length⟩ := by
  constructor
  · rintro ⟨u, v, t, rfl, rfl, -, -, hbefore, hbehind⟩
    have hu : u = [] := by
      refine List.getLast?_eq_none_iff.mp (Option.eq_none_iff_forall_not_mem.mpr fun b hb => ?_)
      exact hw b (by simp [List.mem_of_getLast? hb]) (hbefore b hb)
    have ht : t = [] := by
      refine List.head?_eq_none_iff.mp (Option.eq_none_iff_forall_not_mem.mpr fun b hb => ?_)
      exact hw b (by simp [List.mem_of_head? hb]) (hbehind b hb)
    simp [hu, ht]
  · rintro rfl
    exact ⟨[], w, [], by simp, by simp, hne, hw, nofun, nofun⟩

section Border

variable (hborder : ∀ b ∈ u.getLast?, ∀ c ∈ v.head?, Blank b ∨ Blank c)
include hborder

theorem IsWord.left (h : IsWord start u m) : IsWord start (u ++ v) m := by
  obtain ⟨x, y, z, rfl, rfl, hne, hy, hx, hz⟩ := h
  refine ⟨x, y, z ++ v, by simp, rfl, hne, hy, hx, fun c hc => ?_⟩
  cases z with
  | nil =>
    have hlast : y.getLast hne ∈ (x ++ y ++ []).getLast? := by
      rw [List.append_nil]
      exact List.mem_getLast?_append_of_mem_getLast? (List.getLast?_eq_some_getLast hne)
    exact (hborder _ hlast c hc).resolve_left (hy _ (List.getLast_mem hne))
  | cons d z => exact hz c hc

theorem IsWord.right (h : IsWord (start + u.length) v m) : IsWord start (u ++ v) m := by
  obtain ⟨x, y, z, rfl, rfl, hne, hy, hx, hz⟩ := h
  refine ⟨u ++ x, y, z, by simp, by simp [Nat.add_assoc], hne, hy, fun b hb => ?_, hz⟩
  rw [List.getLast?_append, Option.mem_def, Option.or_eq_some_iff] at hb
  rcases hb with hb | ⟨hnone, hb⟩
  · exact hx b hb
  · obtain rfl := List.getLast?_eq_none_iff.mp hnone
    have hfirst : y.head hne ∈ ([] ++ y ++ z).head? :=
      List.mem_head?_append_of_mem_head? (List.head?_eq_some_head hne)
    exact (hborder b hb _ hfirst).resolve_right (hy _ (List.head_mem hne))

/-- No word goes across a border with a blank on one side. -/
theorem isWord_append :
    IsWord start (u ++ v) m ↔ IsWord start u m ∨ IsWord (start + u.length) v m := by
  refine ⟨?_, fun h => h.elim (IsWord.left hborder) (IsWord.right hborder)⟩
  rintro ⟨x, y, z, heq, rfl, hne, hy, hx, hz⟩
  rcases middle_cases heq with ⟨k, rfl, rfl⟩ | ⟨k, rfl, rfl⟩ | ⟨k, k', hk, hk', rfl, rfl, rfl⟩
  · exact .inl ⟨x, y, k, rfl, rfl, hne, hy, hx, fun b hb =>
      hz b (List.mem_head?_append_of_mem_head? hb)⟩
  · refine .inr ⟨k, y, z, rfl, by simp [Nat.add_assoc], hne, hy, fun b hb => ?_, hz⟩
    exact hx b (List.mem_getLast?_append_of_mem_getLast? hb)
  · have hlast : k.getLast hk ∈ (x ++ k).getLast? :=
      List.mem_getLast?_append_of_mem_getLast? (List.getLast?_eq_some_getLast hk)
    have hfirst : k'.head hk' ∈ (k' ++ z).head? :=
      List.mem_head?_append_of_mem_head? (List.head?_eq_some_head hk')
    rcases hborder _ hlast _ hfirst with hb | hb
    · exact absurd hb (hy _ (List.mem_append_left k' (List.getLast_mem hk)))
    · exact absurd hb (hy _ (List.mem_append_right k (List.head_mem hk')))

end Border

/-! What the pattern leaves behind. -/

section Trails

variable {σ : Setting Store} {sink : SinkId} {k k' : Trail}

def copies (sink : SinkId) (text : Span → Array UInt8) (ms : List Span) : Trail :=
  ms.flatMap fun m => [.captured m, .forwarded sink m (text m)]

theorem spans_copies (text : Span → Array UInt8) (ms : List Span) :
    Trail.spans (copies sink text ms) = ms := by
  simp [Trail.spans, copies, List.filterMap_flatMap]

theorem bytesTo_copies (text : Span → Array UInt8) (ms : List Span) :
    Trail.bytesTo sink (copies sink text ms) = ms.flatMap fun m => (text m).toList := by
  simp [Trail.bytesTo, copies, List.flatMap_assoc]

def Spelled (σ : Setting Store) (sink : SinkId) : Setting.Imprint := fun start w l =>
  ∃ ms, Enumerates ms (IsWord start w) ∧
    l = copies sink (fun m => σ.input.extract m.start m.stop) ms

theorem spelled_blanks (hw : ∀ b ∈ w, Blank b) : Spelled σ sink start w [] :=
  ⟨[], .nil fun _ => not_isWord hw, rfl⟩

theorem spelled_word (hne : w ≠ []) (hw : ∀ b ∈ w, ¬ Blank b) (hstarts : w <+: σ.remaining start)
    (hk : Setting.Imprint.copied sink start w k) : Spelled σ sink start w k := by
  refine ⟨[⟨start, start + w.length⟩], .single fun _ => isWord_whole hne hw, ?_⟩
  rw [hk, ← Setting.extract_of_starts hstarts]
  rfl

theorem Spelled.append (hu : Spelled σ sink start u k)
    (hv : Spelled σ sink (start + u.length) v k')
    (hborder : ∀ b ∈ u.getLast?, ∀ c ∈ v.head?, Blank b ∨ Blank c) :
    Spelled σ sink start (u ++ v) (k ++ k') := by
  obtain ⟨ms, hms, rfl⟩ := hu
  obtain ⟨ns, hns, rfl⟩ := hv
  have hboth := hms.append hns fun m n hm hn => by
    have hleft := hm.bounds
    have hright := hn.bounds
    omega
  exact ⟨ms ++ ns, hboth.congr fun _ => (isWord_append hborder).symm, List.flatMap_append.symm⟩

end Trails

/-! Where one part ends and the next one begins. -/

def item : Language UInt8 := blank * blank∗ * word

theorem not_initial_of_blank : ∀ b, Blank b → ¬ Initial b := by
  rintro b (hb | hb) <;> simp [Initial, hb]

theorem not_blank_of_inner : ∀ b, Inner b → ¬ Blank b := by
  rintro b hinner (hb | hb) <;> simp [Inner, hb] at hinner

theorem inner_of_initial : ∀ b, Initial b → Inner b :=
  fun b hb => hb.imp_left fun halpha => by simp [Char.isAlphanum, halpha]

theorem nil_not_mem_word : [] ∉ word := nil_not_mem_mul_left nil_not_mem_byteOf _

theorem madeOf_word : MadeOf word Inner :=
  ((MadeOf.byteOf Initial).mono inner_of_initial).mul (MadeOf.byteOf Inner).kstar

theorem heads_word : Heads word Initial :=
  (MadeOf.byteOf Initial).heads.mul fun hnil => absurd hnil nil_not_mem_byteOf

theorem madeOf_blanks : MadeOf blank∗ Blank := (MadeOf.byteOf Blank).kstar

theorem madeOf_someBlanks : MadeOf (blank * blank∗) Blank := (MadeOf.byteOf Blank).mul madeOf_blanks

theorem nil_not_mem_item : [] ∉ item := nil_not_mem_mul_right nil_not_mem_word _

theorem heads_items : Heads item∗ Blank :=
  (madeOf_someBlanks.heads.mul fun hnil =>
    absurd hnil (nil_not_mem_mul_left nil_not_mem_byteOf _)).kstar

variable {A : Language UInt8}

theorem commits_blanks (hA : MadeOf A Blank) : Commits A word :=
  .of_follows hA.follows heads_word not_initial_of_blank

/-- Behind the last word only bytes of that word can follow, so that no list of words has to
be left early. -/
theorem commits_items (hA : MadeOf A Blank) : Commits (A * word) item∗ :=
  .of_follows (hA.follows.mul madeOf_word.follows heads_word not_initial_of_blank nil_not_mem_word)
    heads_items not_blank_of_inner

theorem commits_trailing : Commits (blank∗ * word * item∗) blank∗ := by
  have hlead : Lasts (blank∗ * word) Inner :=
    .mul (fun hnil => absurd hnil nil_not_mem_word) madeOf_word.lasts
  have hitem : Lasts item Inner := .mul (fun hnil => absurd hnil nil_not_mem_word) madeOf_word.lasts
  exact .of_lasts (.mul (fun _ => hlead) hitem.kstar) madeOf_blanks not_blank_of_inner
    (Language.nil_mem_kstar blank)

/-! What the parts of the pattern take. -/

section Patterns

variable {σ : Setting Store}

theorem munches_orUnderscore {c : CharClass} {f : UInt8 → Prop}
    (hf : ∀ b, c.holds b = true ↔ f b) : σ.Munches (choice (cls c) (lit "_"))
      (byteOf fun b => f b ∨ Char.ofUInt8 b = '_') .silent (· = []) := by
  have hbyte : ∀ b, Char.ofUInt8 b = '_' ↔ b = 95 := by decide +kernel
  have hunderscore : lit "_" = .literal [95] := rfl
  simp only [hbyte, hunderscore]
  exact (Setting.munches_oneByte rfl hf).orByte 95

variable (hσ : σ.host = Store.host) (sink : SinkId)
include hσ

theorem munches_word : σ.Munches Demo.word word .silent (· = []) := by
  have hinner := (munches_orUnderscore CharClass.holds_alnum).bytes (Store.keepsPosition hσ _)
    fun _ => False
  refine ((munches_orUnderscore CharClass.holds_alpha).seq hinner (.of_byte _ _) (fun _ hl => hl)
    fun _ _ _ _ _ _ hfalse => hfalse.elim).mono ?_ fun _ hl => hl
  rintro s _ _ - - ⟨u, v, _, _, rfl, rfl, ⟨-, rfl⟩, -, rfl⟩
  rfl

theorem munches_part :
    σ.Munches (forward (capture Demo.word) sink) word (Spelled σ sink) (· = []) := by
  refine ((munches_word hσ).copied sink).mono (fun s w l hw hstarts hl => ?_) fun _ hl => hl
  refine spelled_word (fun hnil => nil_not_mem_word (hnil ▸ hw)) (fun b hb => ?_) hstarts hl
  exact not_blank_of_inner b (madeOf_word w hw b hb)

/-- A word behind blanks. -/
theorem munches_behind {a : Pattern} {A : Language UInt8} (hA : MadeOf A Blank)
    (ha : σ.Munches a A .silent (· = [])) :
    σ.Munches (seq a (forward (capture Demo.word) sink)) (A * word) (Spelled σ sink)
      (· = []) := by
  refine (ha.seq_silent (munches_part hσ sink) (commits_blanks hA) rfl).mono ?_ fun _ hl => hl
  rintro s _ _ - - ⟨u, v, _, k, rfl, rfl, ⟨hu, rfl⟩, -, hk⟩
  have hblank : ∀ b ∈ u, Blank b := hA u hu
  exact (spelled_blanks hblank).append hk fun b hb _ _ => .inl (hblank b (List.mem_of_getLast? hb))

/-- Words behind blanks, in a row. -/
theorem munches_row :
    σ.Munches (quantify (seq (quantify (cls .blank) 1) (forward (capture Demo.word) sink)) 0)
      item∗ (Spelled σ sink) fun _ => True := by
  have hblank : σ.Munches (cls .blank) blank .silent (· = []) :=
    Setting.munches_oneByte rfl CharClass.holds_blank
  have hitem := munches_behind hσ sink madeOf_someBlanks
    (hblank.someBytes (Store.keepsPosition hσ _))
  refine (hitem.loop (Store.keepsPosition hσ _) nil_not_mem_item
    (commits_items madeOf_someBlanks) fun _ => True).mono ?_ fun _ hl => hl
  rintro s w l - - hl
  induction hl with
  | nil s => exact spelled_blanks nofun
  | cons hk hrest ih =>
    exact hk.2.append ih fun _ _ c hc => .inr (heads_items _ hrest.mem c hc)

/-- The demo of words takes the longest list of words that the input begins with. -/
theorem munches_words : σ.Munches (Demo.words sink) wordLists (Spelled σ sink) fun _ => True := by
  have hblank : σ.Munches (cls .blank) blank .silent (· = []) :=
    Setting.munches_oneByte rfl CharClass.holds_blank
  have hblanks := fun F => hblank.bytes (Store.keepsPosition hσ _) F
  have hlead := munches_behind hσ sink madeOf_blanks (hblanks (· = []))
  have hwords : σ.Munches _ _ _ fun _ => True := hlead.seq (munches_row hσ sink)
    (commits_items madeOf_blanks) (fun _ _ => trivial) fun _ _ _ _ _ _ _ => trivial
  have hall : σ.Munches (Demo.words sink) wordLists _ fun _ => True :=
    hwords.seq (hblanks fun _ => True) commits_trailing (fun _ _ => trivial)
      fun _ _ _ _ _ _ _ => trivial
  refine hall.mono ?_ fun _ hl => hl
  rintro s _ _ - - ⟨_, t, _, _, rfl, rfl, ⟨-, u, v, k, k', rfl, rfl, ⟨-, hk⟩, hv, hk'⟩, ht, rfl⟩
  have hspelled := hk.append hk' fun _ _ c hc => .inr (heads_items v hv c hc)
  exact hspelled.append (spelled_blanks (madeOf_blanks t ht)) fun _ _ c hc =>
    .inr (madeOf_blanks t ht c (List.mem_of_head? hc))

end Patterns

end WordList

theorem extract_of_front {x : Array UInt8} {w : List UInt8} (hstarts : w <+: x.toList)
    {start stop : Nat} (hstop : stop ≤ w.length) :
    x.extract start stop = w.toArray.extract start stop := by
  obtain ⟨rest, hrest⟩ := hstarts
  apply Array.ext'
  rw [Array.toList_extract, Array.toList_extract, ← hrest, List.extract_eq_take_drop,
    List.extract_eq_take_drop, ← List.drop_take, ← List.drop_take,
    List.take_append_of_le_length hstop]

/-- The demo of words matches the longest prefix that is a list of words, captures its words from
left to right and forwards them. -/
theorem recognizes_words (id : GrammarId) (sink : SinkId) :
    Recognizes (Demo.build .words id sink) WordList.wordLists (WordList.Kept sink) := by
  refine recognizes (fun x => WordList.munches_words rfl sink) ?_
  rintro x w _ - hstarts ⟨ms, hms, rfl⟩
  have htext : ∀ m ∈ ms, x.extract m.start m.stop = w.toArray.extract m.start m.stop := by
    intro m hm
    have hbounds := ((hms.2 m).mp hm).bounds
    exact extract_of_front hstarts (by omega)
  refine ⟨?_, Array.ext' ?_⟩
  · rw [Store.captures_act rfl, WordList.spans_copies]
    exact hms
  · rw [Store.captures_act rfl, Store.content_act rfl, WordList.spans_copies,
      WordList.bytesTo_copies, Array.toList_flatMap]
    exact List.flatMap_congr fun m hm => congrArg Array.toList (htext m hm)

end Peg
