import Peg.Proofs.Reach
import Peg.Proofs.Reader

/-! # Renderings can be told apart

The reader gives a pattern back from its rendering, up to what the rendering omits. So
there are no two patterns with the same rendering that differ in anything else.
-/
namespace Peg.Pattern

/-- The pattern with 0 for everything that its rendering omits. -/
def erase : Pattern → Pattern
  | seq a b => seq a.erase b.erase
  | choice a b => choice a.erase b.erase
  | not p => not p.erase
  | ahead p => ahead p.erase
  | exactly p n => exactly p.erase n
  | atLeast p n => atLeast p.erase n
  | atMost p n => atMost p.erase n
  | rule r => rule ⟨0, 0, r.name⟩
  | hook p _ => hook p.erase 0
  | forward p _ => forward p.erase 0
  | capture p => capture p.erase
  | literal bytes => literal bytes
  | set members => set members
  | cls c => cls c
  | any => any

/-- No name of a rule contains the character that ends it in a rendering. -/
def Legible (p : Pattern) : Prop := ∀ r ∈ p.refs, '>' ∉ r.name.toList

instance (p : Pattern) : Decidable p.Legible :=
  inferInstanceAs (Decidable (∀ r ∈ p.refs, '>' ∉ r.name.toList))

theorem Legible.part {p q : Pattern} (h : p.Legible) (hp : p.Part q) : q.Legible :=
  fun r hr => h r (hp.refs_subset hr)

/-- A reader that asks for at least the given tightness stops in front of the rest. -/
inductive Ends : Nat → List Char → Prop
  | nil (k : Nat) : Ends k []
  | paren (k : Nat) (rest : List Char) : Ends k (')' :: rest)
  | choice {k : Nat} (hk : 1 < k) (rest : List Char) : Ends k (" | ".toList ++ rest)
  | seq {k : Nat} (hk : 2 < k) (rest : List Char) : Ends k (" >> ".toList ++ rest)
  | space {k : Nat} (hk : 3 < k) (rest : List Char) : Ends k (' ' :: rest)
  | dot {k : Nat} (hk : 3 < k) (rest : List Char) : Ends k ('.' :: rest)

theorem Ends.le {k l : Nat} {rest : List Char} (h : Ends k rest) (hkl : k ≤ l) : Ends l rest := by
  cases h with
  | nil => exact .nil l
  | paren rest => exact .paren l rest
  | choice hk rest => exact .choice (by omega) rest
  | seq hk rest => exact .seq (by omega) rest
  | space hk rest => exact .space (by omega) rest
  | dot hk rest => exact .dot (by omega) rest

theorem Ends.follows {k : Nat} {rest : List Char} (h : Ends k rest) : follows rest := by
  cases h <;> rfl

/-- A class of characters without spaces, dots and parentheses ends there. -/
theorem Ends.head {k : Nat} {rest : List Char} {P : Char → Bool} (h : Ends k rest)
    (hspace : P ' ' = false) (hdot : P '.' = false) (hparen : P ')' = false) :
    ∀ c ∈ rest.head?, P c = false := by
  cases h <;> simp [*]

theorem span_append {P : Char → Bool} {w rest : List Char} (hw : ∀ c ∈ w, P c)
    (hrest : ∀ c ∈ rest.head?, P c = false) : (w ++ rest).span P = (w, rest) := by
  rw [List.span_eq_takeWhile_dropWhile, List.takeWhile_append_of_pos hw,
    List.dropWhile_append_of_pos hw]
  cases rest with
  | nil => simp
  | cons c rest => simp [hrest c rfl]

variable {enclosed : Reader} {p q : Pattern} {w rest : List Char}

theorem readChain_stop {operator : List Char} {join : Pattern → Pattern → Pattern}
    {operand : Reader} (h : rest.dropPrefix? operator = Option.none) :
    readChain operator join operand p rest = some (p, rest) := by
  rw [readChain, h]

/-- An operand behind its operator is joined to what was read before. -/
theorem readChain_operand {operator : List Char} {join : Pattern → Pattern → Pattern}
    {operand : Reader} (hoperator : operator ≠ []) (h : operand (w ++ rest) = some (q, rest)) :
    readChain operator join operand p (operator ++ (w ++ rest)) =
      readChain operator join operand (join p q) rest := by
  have hlen : 0 < operator.length := List.length_pos_iff.mpr hoperator
  rw [readChain, List.dropPrefix?_append_of_beq _ (beq_self_eq_true operator)]
  simp only [h]
  rw [if_pos (by simp only [List.length_append]; omega)]

theorem readTimes_stop (h : Ends 3 rest) : readTimes p rest = (p, rest) := by
  cases h with
  | nil | paren | choice | seq => rfl
  | space hk | dot hk => omega

theorem readSeqs_stop (h : Ends 2 rest) : readSeqs enclosed p rest = some (p, rest) := by
  refine readChain_stop ?_
  cases h with
  | nil | paren | choice => rfl
  | seq hk | space hk | dot hk => omega

theorem readChoices_stop (h : Ends 1 rest) : readChoices enclosed p rest = some (p, rest) := by
  refine readChain_stop ?_
  cases h with
  | nil | paren => rfl
  | choice hk | seq hk | space hk | dot hk => omega

/-- In front of every rest that ends it, `w` is read as `p` by the reader that asks for
the given tightness. The readers of operands go on with those behind it. -/
def Reads (enclosed : Reader) : Nat → List Char → Pattern → Prop
  | 1, w, p => ∀ rest, Ends 2 rest → readChoice enclosed (w ++ rest) = readChoices enclosed p rest
  | 2, w, p => ∀ rest, Ends 3 rest → readSeq enclosed (w ++ rest) = readSeqs enclosed p rest
  | 3, w, p => ∀ rest, Ends 3 rest → readRepeat enclosed (w ++ rest) = some (p, rest)
  | 4, w, p => ∀ rest, Ends 4 rest → readPrefix enclosed (w ++ rest) = some (p, rest)
  | _, w, p => ∀ rest, Ends 4 rest → readAtom enclosed (w ++ rest) = some (p, rest)

theorem readPrefix_of_readAtom {r : Pattern × List Char} (h : readAtom enclosed w = some r) :
    readPrefix enclosed w = some r := by
  rw [readPrefix.eq_def]
  split
  · cases h
  · cases h
  · exact h

/-- A place that asks for less takes what one that asks for more does. -/
theorem Reads.pred {k : Nat} (hk : 0 < k) (h : Reads enclosed (k + 1) w p) :
    Reads enclosed k w p := by
  match k with
  | 1 =>
    intro rest hrest
    rw [readChoice, h rest (hrest.le (by decide)), readSeqs_stop hrest, Option.bind_some]
  | 2 =>
    intro rest hrest
    rw [readSeq, h rest hrest, Option.bind_some]
  | 3 =>
    intro rest hrest
    rw [readRepeat, h rest (hrest.le (by decide)), Option.map_some, readTimes_stop hrest]
  | 4 => exact fun rest hrest => readPrefix_of_readAtom (h rest hrest)
  | k + 5 => exact h

theorem Reads.le {k l : Nat} (hk : 0 < k) (hkl : k ≤ l) (h : Reads enclosed l w p) :
    Reads enclosed k w p := by
  induction l, hkl using Nat.le_induction with
  | base => exact h
  | succ l hkl ih => exact ih (h.pred (by omega))

def Inverts (enclosed : Reader) (p : Pattern) : Prop :=
  ∀ rest, Ends 1 rest → enclosed (p.chars ++ rest) = some (p.erase, rest)

theorem reads_paren (h : Inverts enclosed p) :
    Reads enclosed 5 ('(' :: p.chars ++ [')']) p.erase := by
  intro rest _
  have hrest := h (')' :: rest) (.paren 1 rest)
  simp [readAtom, hrest]

theorem Reads.enclose {k : Nat} (hk : 0 < k) (hk' : k ≤ 5)
    (h : Reads enclosed p.tightness p.chars p.erase) (hp : Inverts enclosed p) :
    Reads enclosed k (enclose k p p.chars) p.erase := by
  unfold Pattern.enclose
  split
  · exact (reads_paren hp).le hk hk'
  · exact h.le hk (by omega)

theorem readAtom_word (hw : w.all isWordChar) (hne : w ≠ [])
    (hrest : ∀ c ∈ rest.head?, isWordChar c = false) :
    readAtom enclosed (w ++ rest) = readWord enclosed w rest := by
  have hchars := List.all_eq_true.mp hw
  have hspan := span_append hchars hrest
  obtain ⟨c, w, rfl⟩ := List.exists_cons_of_ne_nil hne
  have hc := hchars c List.mem_cons_self
  rw [readAtom.eq_def]
  split
  case h_5 => rw [hspan]
  all_goals
    rename_i heq
    obtain rfl := (List.cons.inj heq).1
    exact absurd hc (by decide)

theorem reads_word (word : String) (hword : word.toList.all isWordChar)
    (hne : word.toList ≠ []) (h : ofWord? word = some p) : Reads enclosed 5 word.toList p := by
  intro rest hrest
  rw [readAtom_word hword hne (hrest.head rfl rfl rfl)]
  have hread : readWord enclosed word.toList rest =
      (ofWord? (String.ofList word.toList)).map fun p => (p, rest) := by
    cases hrest <;> rfl
  rw [hread, String.ofList_toList, h, Option.map_some]

theorem reads_call {name : String} {f : Pattern → Pattern}
    (hname : name.toList.all isWordChar) (hne : name.toList ≠ [])
    (h : ofCall? name = some f) (hp : Inverts enclosed p) :
    Reads enclosed 5 (call name p.chars) (f p.erase) := by
  intro rest _
  have hsplit : call name p.chars ++ rest = name.toList ++ '(' :: (p.chars ++ ')' :: rest) := by
    simp [call]
  rw [hsplit, readAtom_word hname hne (by simp [isWordChar]), readWord, String.ofList_toList, h,
    Option.bind_some, hp _ (.paren 1 rest), Option.map_some, List.tail_cons]

theorem reads_cls (c : CharClass) : Reads enclosed 5 (cls c).chars (cls c) := by
  refine reads_word c.name ?_ ?_ ?_ <;> cases c <;> decide

theorem reads_literal (bytes : List UInt8) :
    Reads enclosed 5 (literal bytes).chars (literal bytes) := by
  intro rest _
  have hbytes := Escape.readBytes_quoted bytes rest
  simp [chars, readAtom, hbytes]

theorem reads_set (members : ByteSet) : Reads enclosed 5 (set members).chars (set members) := by
  intro rest hrest
  have hmembers := members.read_members hrest.follows
  simp [chars, ByteSet.chars, readAtom, hmembers]

theorem reads_rule {r : RuleRef} (hr : '>' ∉ r.name.toList) :
    Reads enclosed 5 (rule r).chars (rule ⟨0, 0, r.name⟩) := by
  intro rest _
  have hname : ∀ c ∈ r.name.toList, c != '>' := fun c hc =>
    bne_iff_ne.mpr fun h => hr (h ▸ hc)
  have hspan : (r.name.toList ++ '>' :: rest).span (· != '>') = (r.name.toList, '>' :: rest) :=
    span_append hname (by simp)
  have hsplit : (rule r).chars ++ rest = '<' :: (r.name.toList ++ '>' :: rest) := by simp [chars]
  rw [hsplit, readAtom, hspan]
  simp only [String.ofList_toList, List.tail_cons]

theorem readCount_digits (make : Nat → Pattern) (n : Nat) (h : Ends 3 rest) :
    readCount make (digits n ++ rest) = (make n, rest) := by
  have hdigits : ∀ c ∈ digits n, c.isDigit := fun c hc =>
    Nat.isDigit_of_mem_toDigits (by decide) (by decide) hc
  rw [readCount, span_append hdigits (h.head rfl rfl rfl)]
  simp only [digits, Nat.ofDigitChars_ten_toDigits]

theorem reads_times {times : List Char} {count : Pattern} (hp : Reads enclosed 4 w p)
    (htimes : ∀ rest, Ends 4 (times ++ rest))
    (h : ∀ rest, Ends 3 rest → readTimes p (times ++ rest) = (count, rest)) :
    Reads enclosed 3 (w ++ times) count := by
  intro rest hrest
  rw [readRepeat, List.append_assoc, hp _ (htimes rest), Option.map_some, h rest hrest]

theorem reads_exactly (hp : Reads enclosed 4 w p) (n : Nat) :
    Reads enclosed 3 (w ++ " * ".toList ++ digits n) (exactly p n) := by
  rw [List.append_assoc]
  exact reads_times hp (fun _ => .space (by decide) _) fun _ => readCount_digits (exactly p) n

/-- A minus sign behind the percent sign would be read as that of an upper bound. -/
theorem readTimes_atLeast (p : Pattern) {cs : List Char} (h : cs.head? ≠ some '-') :
    readTimes p (" % ".toList ++ cs) = readCount (atLeast p) cs := by
  change readTimes p (' ' :: '%' :: ' ' :: cs) = _
  rw [readTimes.eq_def]
  split <;> simp_all

theorem reads_atLeast (hp : Reads enclosed 4 w p) (n : Nat) :
    Reads enclosed 3 (w ++ " % ".toList ++ digits n) (atLeast p n) := by
  rw [List.append_assoc]
  refine reads_times hp (fun _ => .space (by decide) _) fun rest hrest => ?_
  have hhead : (digits n ++ rest).head? ≠ some '-' := by
    intro hminus
    obtain ⟨d, ds, hd⟩ := List.exists_cons_of_ne_nil (Nat.toDigits_ne_nil (n := n) (b := 10))
    have hdigit : d.isDigit :=
      Nat.isDigit_of_mem_toDigits (b := 10) (by decide) (by decide) (hd ▸ List.mem_cons_self)
    obtain rfl : d = '-' := by simpa [digits, hd] using hminus
    exact absurd hdigit (by decide)
  rw [List.append_assoc, readTimes_atLeast p hhead, readCount_digits (atLeast p) n hrest]

theorem reads_atMost (hp : Reads enclosed 4 w p) (n : Nat) :
    Reads enclosed 3 (w ++ " % -".toList ++ digits n) (atMost p n) := by
  rw [List.append_assoc]
  exact reads_times hp (fun _ => .space (by decide) _) fun _ => readCount_digits (atMost p) n

theorem reads_atMostZero (hp : Reads enclosed 4 w p) :
    Reads enclosed 3 (w ++ ".at_most(0)".toList) (atMost p 0) :=
  reads_times hp (fun _ => .dot (by decide) _) fun _ _ => rfl

theorem reads_seq {v : List Char} (hp : Reads enclosed 2 v p) (hq : Reads enclosed 3 w q) :
    Reads enclosed 2 (v ++ " >> ".toList ++ w) (seq p q) := by
  intro rest hrest
  rw [List.append_assoc, List.append_assoc, hp _ (.seq (by decide) _)]
  exact readChain_operand (by decide) (hq rest hrest)

theorem reads_choice {v : List Char} (hp : Reads enclosed 1 v p) (hq : Reads enclosed 2 w q) :
    Reads enclosed 1 (v ++ " | ".toList ++ w) (choice p q) := by
  intro rest hrest
  rw [List.append_assoc, List.append_assoc, hp _ (.choice (by decide) _)]
  refine readChain_operand (by decide) ?_
  rw [hq rest (hrest.le (by decide)), readSeqs_stop hrest]

theorem chars_not (h : p ≠ any) : (not p).chars = '-' :: Pattern.enclose 4 p p.chars := by
  rw [chars.eq_def]
  split <;> simp_all

theorem tightness_not (h : p ≠ any) : (not p).tightness = 4 := by
  rw [tightness.eq_def]
  split <;> simp_all

theorem tightness_pos (p : Pattern) : 0 < p.tightness := by
  rw [tightness.eq_def]
  split <;> decide

theorem reads_not (hp : Reads enclosed 4 w p) : Reads enclosed 4 ('-' :: w) (not p) := by
  intro rest hrest
  rw [List.cons_append, readPrefix, hp rest hrest, Option.map_some]

theorem reads_ahead (hp : Reads enclosed 4 w p) : Reads enclosed 4 ('&' :: w) (ahead p) := by
  intro rest hrest
  rw [List.cons_append, readPrefix, hp rest hrest, Option.map_some]

theorem Part.sizeOf_lt (h : Part p q) : sizeOf q < sizeOf p := by
  cases h <;> simp <;> omega

/-- A rendering is read back by a reader for enclosed patterns that reads those of all
smaller patterns back. -/
theorem reads_chars (p : Pattern) (hp : p.Legible)
    (h : ∀ q : Pattern, sizeOf q < sizeOf p → q.Legible → Inverts enclosed q) :
    Reads enclosed p.tightness p.chars p.erase := by
  have hparts : ∀ q, Part p q → Inverts enclosed q := fun q hq => h q hq.sizeOf_lt (hp.part hq)
  -- an operand without parentheses is read by induction, one in parentheses by the reader
  have operand : ∀ q k, Part p q → 0 < k → k ≤ 5 →
      Reads enclosed k (Pattern.enclose k q q.chars) q.erase := by
    intro q k hq hk hk'
    have hq' := reads_chars q (hp.part hq) fun r hr => h r (hr.trans hq.sizeOf_lt)
    exact hq'.enclose hk hk' (hparts q hq)
  match p with
  | literal bytes => exact reads_literal bytes
  | set members => exact reads_set members
  | cls c => exact reads_cls c
  | any => exact reads_word "any" (by decide) (by decide) rfl
  | seq a b =>
    exact reads_seq (operand a 2 (.seqLeft a b) (by decide) (by decide))
      (operand b 3 (.seqRight a b) (by decide) (by decide))
  | choice a b =>
    exact reads_choice (operand a 1 (.choiceLeft a b) (by decide) (by decide))
      (operand b 2 (.choiceRight a b) (by decide) (by decide))
  | not p =>
    by_cases hany : p = any
    · subst hany
      exact reads_word "none" (by decide) (by decide) rfl
    · rw [chars_not hany, tightness_not hany]
      exact reads_not (operand p 4 (.not p) (by decide) (by decide))
  | ahead p => exact reads_ahead (operand p 4 (.ahead p) (by decide) (by decide))
  | exactly p n => exact reads_exactly (operand p 4 (.exactly p n) (by decide) (by decide)) n
  | atLeast p n => exact reads_atLeast (operand p 4 (.atLeast p n) (by decide) (by decide)) n
  | atMost p 0 =>
    have hp5 := operand p 5 (.atMost p 0) (by decide) (by decide)
    exact reads_atMostZero (hp5.pred (by decide))
  | atMost p (n + 1) =>
    exact reads_atMost (operand p 4 (.atMost p (n + 1)) (by decide) (by decide)) (n + 1)
  | rule r => exact reads_rule (hp r (by simp [refs]))
  | hook p id =>
    exact reads_call (f := (hook · 0)) (by decide) (by decide) rfl (hparts p (.hook p id))
  | forward p sink =>
    exact reads_call (f := (forward · 0)) (by decide) (by decide) rfl (hparts p (.forward p sink))
  | capture p => exact reads_call (by decide) (by decide) rfl (hparts p (.capture p))
termination_by sizeOf p
decreasing_by exact hq.sizeOf_lt

/-- A reader with room for the whole pattern gives it back from its rendering. -/
theorem read_chars {n : Nat} {p : Pattern} (hn : sizeOf p ≤ n) (hp : p.Legible) :
    Inverts (read n) p := by
  induction n generalizing p with
  | zero => cases p <;> simp at hn
  | succ n ih =>
    intro rest hrest
    have hreads := reads_chars p hp fun q hq => ih (p := q) (by omega)
    rw [read, (hreads.le (by decide) p.tightness_pos) rest (hrest.le (by decide)),
      readChoices_stop hrest]

@[simp] theorem erase_eq_any : p.erase = any ↔ p = any := by
  cases p <;> simp [erase]

@[simp] theorem tightness_erase (p : Pattern) : p.erase.tightness = p.tightness := by
  cases p with
  | not p =>
    by_cases h : p = any
    · rw [h]
      rfl
    · rw [erase, tightness_not h, tightness_not (mt erase_eq_any.mp h)]
  | _ => rfl

@[simp] theorem enclose_erase (k : Nat) (p : Pattern) (w : List Char) :
    Pattern.enclose k p.erase w = Pattern.enclose k p w := by
  simp [Pattern.enclose]

@[simp] theorem chars_erase (p : Pattern) : p.erase.chars = p.chars := by
  induction p with
  | literal | set | cls | any | rule => rfl
  | seq a b iha ihb | choice a b iha ihb => simp [erase, chars, iha, ihb]
  | not p ih =>
    by_cases h : p = any
    · rw [h]
      rfl
    · rw [erase, chars_not h, chars_not (mt erase_eq_any.mp h), ih, enclose_erase]
  | atMost p n ih => cases n <;> simp [erase, chars, ih]
  | ahead p ih | exactly p n ih | atLeast p n ih | hook p id ih | forward p sink ih
  | capture p ih => simp [erase, chars, ih]

/-- Two patterns without a `>` in the names of their rules have the same rendering exactly
if they are the same up to callbacks, sinks, and the grammars and slots behind names. -/
theorem render_eq_iff (hp : p.Legible) (hq : q.Legible) :
    p.render = q.render ↔ p.erase = q.erase := by
  refine ⟨fun h => ?_, fun h => ?_⟩
  · have hchars : p.chars = q.chars := String.ofList_injective h
    have hread := read_chars (Nat.le_max_left (sizeOf p) (sizeOf q)) hp [] (.nil 1)
    have hread' := read_chars (Nat.le_max_right (sizeOf p) (sizeOf q)) hq [] (.nil 1)
    rw [hchars, hread'] at hread
    exact (congrArg Prod.fst (Option.some.inj hread)).symm
  · rw [render, render, ← chars_erase p, h, chars_erase]

/-- Sets of brackets behind which a rendering goes on in three ways, two of them alike. -/
theorem render_brackets :
    let brackets := set (.ofList [93, 91])
    let p := seq (atMost brackets 0) (hook (rule ⟨1, 0, "a"⟩) 1)
    let q := seq (atMost brackets 0) (hook (rule ⟨2, 7, "a"⟩) 3)
    let r := seq (atLeast brackets 0) (hook (rule ⟨1, 0, "a"⟩) 1)
    p.Legible ∧ q.Legible ∧ r.Legible ∧ p.render = q.render ∧ p.render ≠ r.render := by
  intro brackets p q r
  have hp : p.Legible := by decide +kernel
  have hq : q.Legible := by decide +kernel
  have hr : r.Legible := by decide +kernel
  exact ⟨hp, hq, hr, (render_eq_iff hp hq).mpr rfl,
    fun h => absurd ((render_eq_iff hp hr).mp h) (by decide +kernel)⟩

end Peg.Pattern
