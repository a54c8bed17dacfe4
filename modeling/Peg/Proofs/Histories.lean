import Mathlib.Data.List.Induction
import Mathlib.Data.List.Nodup
import Peg.Proofs.Reach

/-! # Grammars and the calls made on them

All that a grammar answers is told by the calls that were made on it before: names have slots
in the order in which they were first mentioned, and each slot holds what its name was last
defined as. So a reference stays good whatever is mentioned or defined after it was made.
-/
namespace Peg.Grammar

inductive Call
  | slot (name : String)
  | rule (name : String)
  | define (name : String) (body : Pattern)
  | get (name : String)
  | name (slot : Nat)
  | names
  | size
  | isEmpty
  | check

inductive Reply
  | slot (i : Nat)
  | rule (p : Pattern)
  | body (body : Option Pattern)
  | name (name : Option String)
  | names (names : List String)
  | size (n : Nat)
  | isEmpty (b : Bool)
  | check (r : Except Undefined Unit)

def serve (g : Grammar) : Call → Reply × Grammar
  | .slot n => (.slot (g.slot n).1, (g.slot n).2)
  | .rule n => (.rule (g.rule n).1, (g.rule n).2)
  | .define n body => (.slot (g.define n body).1, (g.define n body).2)
  | .get n => (.body (g.get? n), g)
  | .name i => (.name (g.name? i), g)
  | .names => (.names g.names, g)
  | .size => (.size g.size, g)
  | .isEmpty => (.isEmpty g.isEmpty, g)
  | .check => (.check g.check, g)

def after (g : Grammar) (calls : List Call) : Grammar :=
  calls.foldl (fun g c => (g.serve c).2) g

def ofCalls (id : GrammarId) (calls : List Call) : Grammar := ({ id } : Grammar).after calls

theorem ofCalls_append (id : GrammarId) (calls later : List Call) :
    ofCalls id (calls ++ later) = (ofCalls id calls).after later := List.foldl_append

/-! What the calls tell about the grammar. -/

namespace Call

def mentions? : Call → Option String
  | slot n | rule n | define n _ => some n
  | get _ | name _ | names | size | isEmpty | check => none

def defines? (n : String) : Call → Option Pattern
  | define m body => if m = n then some body else none
  | slot _ | rule _ | get _ | name _ | names | size | isEmpty | check => none

end Call

section

variable (calls : List Call)

/-- The mentioned names in the order of their first mention. -/
def firsts : List String := (calls.filterMap Call.mentions?).eraseDups

def latest (n : String) : Option Pattern := (calls.filterMap (Call.defines? n)).getLast?

def missing : List String := (firsts calls).filter fun n => (latest calls n).isNone

/-- The answer to a call on the grammar `id` after these calls. -/
def answer (id : GrammarId) : Call → Reply
  | .slot n | .define n _ => .slot ((firsts calls).idxOf n)
  | .rule n => .rule (.rule ⟨id, (firsts calls).idxOf n, n⟩)
  | .get n => .body (latest calls n)
  | .name i => .name (firsts calls)[i]?
  | .names => .names (firsts calls)
  | .size => .size (firsts calls).length
  | .isEmpty => .isEmpty (firsts calls).isEmpty
  | .check => .check (if (missing calls).isEmpty then .ok () else .error ⟨missing calls⟩)

/-- A call for a rule on the grammar `id`, among these calls, gave this reference. -/
def Made (id : GrammarId) (r : RuleRef) : Prop :=
  ∃ before n later, calls = before ++ .rule n :: later ∧ ((ofCalls id before).rule n).1 = .rule r

end

/-! Names in the order of first mention. -/

def mention (names : List String) (n : String) : List String :=
  if n ∈ names then names else names ++ [n]

section

variable {names : List String} {n : String}

theorem mem_mention {m : String} : m ∈ mention names n ↔ m ∈ names ∨ m = n := by
  unfold mention
  split
  · rename_i hn
    exact ⟨.inl, fun h => h.elim (fun h => h) fun h => h ▸ hn⟩
  · simp

theorem nodup_mention (h : names.Nodup) (n : String) : (mention names n).Nodup := by
  unfold mention
  split
  · exact h
  · rename_i hn
    rw [← List.concat_eq_append]
    exact h.concat hn

theorem idxOf_mention (names : List String) (n : String) :
    (mention names n).idxOf n = names.idxOf n := by
  unfold mention
  split
  · rfl
  · rename_i hn
    rw [List.idxOf_append_of_notMem hn, List.idxOf_eq_length hn]
    simp

theorem getElem?_eq_some_iff_idxOf (h : names.Nodup) {i : Nat} :
    names[i]? = some n ↔ n ∈ names ∧ names.idxOf n = i := by
  constructor
  · intro hi
    obtain ⟨hlt, rfl⟩ := List.getElem?_eq_some_iff.mp hi
    exact ⟨List.getElem_mem hlt, h.idxOf_getElem i hlt⟩
  · rintro ⟨hn, rfl⟩
    exact List.getElem?_idxOf hn

end

/-- The slots have these names in order and these bodies by name, and the index leads from
each name to its slot. -/
structure Holds (g : Grammar) (names : List String) (body : String → Option Pattern) : Prop where
  slots : g.slots.toList = names.map fun n => ⟨n, body n⟩
  index : ∀ n, g.byName.lookup n = if n ∈ names then some (names.idxOf n) else none
  nodup : names.Nodup
  undefined : ∀ n, n ∉ names → body n = none

namespace Holds

variable {g : Grammar} {names : List String} {body : String → Option Pattern} {n : String}

theorem names_eq (h : g.Holds names body) : g.names = names := by
  simp [Grammar.names, h.slots, Function.comp_def]

theorem size_eq (h : g.Holds names body) : g.size = names.length := by
  rw [size, ← Array.length_toList, h.slots, List.length_map]

theorem isEmpty_eq (h : g.Holds names body) : g.isEmpty = names.isEmpty := by
  rw [isEmpty, ← Array.isEmpty_toList, h.slots, List.isEmpty_map]

theorem getElem?_slots (h : g.Holds names body) (i : Nat) :
    g.slots[i]? = names[i]?.map fun n => ⟨n, body n⟩ := by
  rw [← Array.getElem?_toList, h.slots, List.getElem?_map]

theorem name?_eq (h : g.Holds names body) (i : Nat) : g.name? i = names[i]? := by
  simp [name?, h.getElem?_slots, Function.comp_def]

theorem bodyAt?_eq (h : g.Holds names body) (i : Nat) : g.bodyAt? i = names[i]?.bind body := by
  rw [bodyAt?, h.getElem?_slots]
  cases names[i]? <;> rfl

/-- The index leads from a name to a slot just if the slot has that name. -/
theorem find?_eq_some_iff (h : g.Holds names body) {i : Nat} :
    g.find? n = some i ↔ g.name? i = some n := by
  rw [find?, h.index, h.name?_eq, getElem?_eq_some_iff_idxOf h.nodup]
  simp

theorem get?_eq (h : g.Holds names body) (n : String) : g.get? n = body n := by
  rw [get?, find?, h.index]
  split
  · rename_i hn
    rw [Option.bind_some, h.bodyAt?_eq, List.getElem?_idxOf hn, Option.bind_some]
  · rename_i hn
    rw [h.undefined n hn, Option.bind_none]

theorem undefinedNames_eq (h : g.Holds names body) :
    g.undefinedNames = names.filter fun n => (body n).isNone := by
  simp [undefinedNames, h.slots, List.filter_map, Function.comp_def]

theorem slot_of_mem (h : g.Holds names body) (hn : n ∈ names) :
    g.slot n = (names.idxOf n, g) := by
  simp [slot, find?, h.index, hn]

theorem slot_of_notMem (h : g.Holds names body) (hn : n ∉ names) :
    g.slot n = (names.length, { g with slots := g.slots.push { name := n },
                                       byName := (n, names.length) :: g.byName }) := by
  have hsize : g.slots.size = names.length := h.size_eq
  simp [slot, find?, h.index, hn, hsize]

theorem slot_fst (h : g.Holds names body) (n : String) : (g.slot n).1 = names.idxOf n := by
  by_cases hn : n ∈ names
  · rw [h.slot_of_mem hn]
  · rw [h.slot_of_notMem hn, List.idxOf_eq_length hn]

theorem slot_snd (h : g.Holds names body) (n : String) :
    (g.slot n).2.Holds (mention names n) body := by
  by_cases hn : n ∈ names
  · rw [h.slot_of_mem hn, mention, if_pos hn]
    exact h
  · have hundefined : ∀ m, m ∉ mention names n → body m = none :=
      fun m hm => h.undefined m fun hold => hm (mem_mention.mpr (.inl hold))
    refine ⟨?_, fun m => ?_, nodup_mention h.nodup n, hundefined⟩
    · simp [h.slot_of_notMem hn, mention, hn, h.slots, h.undefined n hn]
    · rw [h.slot_of_notMem hn, List.lookup_cons, h.index, mention, if_neg hn]
      by_cases hm : m = n
      · subst hm
        simp [List.idxOf_append_of_notMem hn]
      · have hne : (m == n) = false := beq_eq_false_iff_ne.mpr hm
        by_cases hold : m ∈ names
        · simp [hne, hold, List.idxOf_append_of_mem hold]
        · simp [hne, hm, hold]

/-- A definition mentions its name and changes the body of that name only. -/
theorem define_snd (h : g.Holds names body) (n : String) (b : Pattern) :
    (g.define n b).2.Holds (mention names n) (Function.update body n (some b)) := by
  have hslot := h.slot_snd n
  refine ⟨List.ext_getElem? fun j => ?_, hslot.index, hslot.nodup, fun m hm => ?_⟩
  · have hdefine : (g.define n b).2.slots =
        (g.slot n).2.slots.modify (names.idxOf n) fun s => { s with body := some b } := by
      rw [← h.slot_fst]
      rfl
    rw [Array.getElem?_toList, hdefine, Array.getElem?_modify, hslot.getElem?_slots,
      List.getElem?_map]
    cases hj : (mention names n)[j]? with
    | none => simp
    | some m =>
      obtain ⟨hm, hidx⟩ := (getElem?_eq_some_iff_idxOf hslot.nodup).mp hj
      by_cases heq : m = n
      · subst heq
        rw [idxOf_mention] at hidx
        simp [hidx]
      · have hne : names.idxOf n ≠ j := by
          rw [← hidx, ← idxOf_mention names n, ne_eq, List.idxOf_inj (mem_mention.mpr (.inr rfl))]
          exact fun h => heq h.symm
        simp [hne, heq]
  · have hmn : m ≠ n := fun heq => hm (mem_mention.mpr (.inr heq))
    rw [Function.update_of_ne hmn]
    exact hslot.undefined m hm

end Holds

/-! The slots after some calls. -/

variable {calls : List Call} {n : String} {id : GrammarId}

theorem mem_firsts : n ∈ firsts calls ↔ ∃ c ∈ calls, c.mentions? = some n := by
  simp [firsts, List.mem_eraseDups]

theorem latest_eq_none_iff : latest calls n = none ↔ ∀ body, .define n body ∉ calls := by
  rw [latest, List.getLast?_eq_none_iff, List.filterMap_eq_nil_iff]
  constructor
  · intro h body hmem
    simpa [Call.defines?] using h _ hmem
  · intro h c hc
    cases c with
    | define m body =>
      have hmn : m ≠ n := by
        rintro rfl
        exact h body hc
      simp [Call.defines?, hmn]
    | _ => rfl

theorem firsts_append (calls : List Call) (c : Call) :
    firsts (calls ++ [c]) = (c.mentions?.map (mention (firsts calls))).getD (firsts calls) := by
  rw [firsts, List.filterMap_append, List.eraseDups_append]
  cases h : c.mentions? with
  | none => simp [firsts, h]
  | some n =>
    by_cases hn : n ∈ calls.filterMap Call.mentions?
    · simp [firsts, h, mention, List.mem_eraseDups, hn, List.cons_removeAll]
    · simp [firsts, h, mention, List.mem_eraseDups, hn, List.cons_removeAll, List.eraseDups_cons]

/-- A name stays where it is. -/
theorem getElem?_firsts_append {i : Nat} (h : (firsts calls)[i]? = some n) (later : List Call) :
    (firsts (calls ++ later))[i]? = some n := by
  have hi : i < (firsts calls).length := (List.getElem?_eq_some_iff.mp h).1
  rw [firsts] at h hi
  rw [firsts, List.filterMap_append, List.eraseDups_append, List.getElem?_append_left hi, h]

theorem latest_append (calls : List Call) (c : Call) :
    latest (calls ++ [c]) = fun n => (c.defines? n).or (latest calls n) := by
  funext n
  simp only [latest, List.filterMap_append, List.getLast?_append]
  cases h : c.defines? n <;> simp [h]

theorem slot_id (g : Grammar) (n : String) : (g.slot n).2.id = g.id := by
  unfold slot
  split <;> rfl

theorem ofCalls_id (id : GrammarId) (calls : List Call) : (ofCalls id calls).id = id := by
  induction calls using List.reverseRecOn with
  | nil => rfl
  | append_singleton calls c ih =>
    rw [ofCalls_append]
    cases c with
    | slot n | rule n | define n body => exact (slot_id _ n).trans ih
    | _ => exact ih

/-- What the calls tell of the slots is true of them. -/
theorem ofCalls_holds (id : GrammarId) (calls : List Call) :
    (ofCalls id calls).Holds (firsts calls) (latest calls) := by
  induction calls using List.reverseRecOn with
  | nil => exact ⟨rfl, fun _ => rfl, List.nodup_nil, fun _ _ => rfl⟩
  | append_singleton calls c ih =>
    rw [ofCalls_append, firsts_append, latest_append]
    cases c with
    | slot n | rule n => exact ih.slot_snd n
    | define n body =>
      have hbody : (fun m => (Call.defines? m (.define n body)).or (latest calls m)) =
          Function.update (latest calls) n (some body) := by
        funext m
        by_cases hm : m = n
        · simp [Call.defines?, hm]
        · simp [Call.defines?, hm, Ne.symm hm]
      rw [hbody]
      exact ih.define_snd n body
    | _ => exact ih

/-- Every call is answered as the calls before it say. -/
theorem serve_ofCalls (id : GrammarId) (calls : List Call) (c : Call) :
    ((ofCalls id calls).serve c).1 = answer calls id c := by
  have h := ofCalls_holds id calls
  cases c with
  | slot n => exact congrArg Reply.slot (h.slot_fst n)
  | rule n =>
    have hid : (ofCalls id calls).id = id := ofCalls_id _ calls
    simp [serve, answer, rule, h.slot_fst, hid]
  | define n body => exact congrArg Reply.slot (h.slot_fst n)
  | get n => exact congrArg Reply.body (h.get?_eq n)
  | name i => exact congrArg Reply.name (h.name?_eq i)
  | names => exact congrArg Reply.names h.names_eq
  | size => exact congrArg Reply.size h.size_eq
  | isEmpty => exact congrArg Reply.isEmpty h.isEmpty_eq
  | check => simp [serve, answer, check, h.undefinedNames_eq, missing]

theorem getElem?_mention (names : List String) (n : String) :
    (mention names n)[names.idxOf n]? = some n := by
  rw [← idxOf_mention names n]
  exact List.getElem?_idxOf (mem_mention.mpr (.inr rfl))

/-- A reference keeps pointing at the slot of its name. -/
theorem Made.points {r : RuleRef} (h : Made calls id r) :
    r.grammar = id ∧ (firsts calls)[r.slot]? = some r.name := by
  obtain ⟨before, n, later, rfl, hr⟩ := h
  have hrule : Reply.rule _ = answer before id (.rule n) := serve_ofCalls id before (.rule n)
  rw [hr, answer, Reply.rule.injEq, Pattern.rule.injEq] at hrule
  subst hrule
  have hfirst : (firsts (before ++ [.rule n]))[(firsts before).idxOf n]? = some n := by
    rw [firsts_append]
    exact getElem?_mention (firsts before) n
  rw [List.append_cons]
  exact ⟨rfl, getElem?_firsts_append hfirst later⟩

/-- A reference stands for what its name was last defined as, however long ago it was made. -/
theorem Made.resolve?_eq {r : RuleRef} (h : Made calls id r) :
    (ofCalls id calls).resolve? r = latest calls r.name := by
  obtain ⟨hid, hslot⟩ := h.points
  rw [resolve?, ofCalls_id, if_pos hid, (ofCalls_holds id calls).bodyAt?_eq, hslot, Option.bind_some]

theorem check_eq_ok_iff {g : Grammar} : g.check = .ok () ↔ g.undefinedNames = [] := by
  simp [check]

theorem check_eq_error_iff {g : Grammar} :
    (∃ u, g.check = .error u) ↔ g.undefinedNames ≠ [] := by
  by_cases h : g.undefinedNames = [] <;> simp [check, h]

theorem check_fails_iff (id : GrammarId) (calls : List Call) :
    (∃ u, (ofCalls id calls).check = .error u) ↔
      ∃ n, (∃ c ∈ calls, c.mentions? = some n) ∧ ∀ body, .define n body ∉ calls := by
  rw [check_eq_error_iff, (ofCalls_holds id calls).undefinedNames_eq, ne_eq, List.filter_eq_nil_iff]
  simp [← mem_firsts, ← latest_eq_none_iff]

structure Recalls (id : GrammarId) (calls : List Call) (g : Grammar) : Prop where
  replies : ∀ c, (g.serve c).1 = answer calls id c
  names_nodup : g.names.Nodup
  mem_names : ∀ n, n ∈ g.names ↔ ∃ c ∈ calls, c.mentions? = some n
  inverse : ∀ n i, g.find? n = some i ↔ g.name? i = some n
  check_fails : (∃ u, g.check = .error u) ↔
    ∃ n, (∃ c ∈ calls, c.mentions? = some n) ∧ ∀ body, .define n body ∉ calls
  stays : ∀ later n i, g.find? n = some i → (g.after later).find? n = some i
  defined : ∀ {κ : Type} (σ : Setting κ), σ.grammar = some g → ∀ r body, Made calls id r →
    latest calls r.name = some body → ∀ limit, σ.run (limit + 1) (.rule r) = σ.run limit body
  undefined : ∀ {κ : Type} (σ : Setting κ), σ.grammar = some g → ∀ r, Made calls id r →
    latest calls r.name = none → ∀ limit s, σ.run (limit + 1) (.rule r) s =
      some (.miss, ⟨s.pos, σ.host.perform (.noticed (.unresolved r.name)) s.ctx⟩)

/-- A grammar is an ordered map from names to optional bodies, which only grows. -/
theorem ofCalls_recalls (id : GrammarId) (calls : List Call) :
    Recalls id calls (ofCalls id calls) where
  replies := serve_ofCalls id calls
  names_nodup := (ofCalls_holds id calls).names_eq ▸ (ofCalls_holds id calls).nodup
  mem_names n := by rw [(ofCalls_holds id calls).names_eq, mem_firsts]
  inverse _ _ := (ofCalls_holds id calls).find?_eq_some_iff
  check_fails := check_fails_iff id calls
  stays later n i hi := by
    rw [← ofCalls_append, (ofCalls_holds id _).find?_eq_some_iff, (ofCalls_holds id _).name?_eq]
    rw [(ofCalls_holds id calls).find?_eq_some_iff, (ofCalls_holds id calls).name?_eq] at hi
    exact getElem?_firsts_append hi later
  defined σ hg r body hr hbody limit := by
    have hrules : σ.rules r = some body := by
      rw [Setting.rules, hg, Option.bind_some, hr.resolve?_eq, hbody]
    exact σ.run_rule_body hrules limit
  undefined σ hg r hr hbody limit s := by
    have hrules : σ.rules r = none := by
      rw [Setting.rules, hg, Option.bind_some, hr.resolve?_eq, hbody]
    have habsence : σ.absence r = .unresolved r.name := by rw [Setting.absence, hg]
    rw [σ.run_rule_none hrules limit, habsence]
    rfl

/-- A reference made first sees the last of two definitions, under a grammar that was never
told what another name means. -/
theorem redefined_recalls :
    let cat : Pattern := .literal [99, 97, 116]
    let dog : Pattern := .literal [100, 111, 103]
    let calls : List Call :=
      [.rule "word", .define "word" cat, .slot "list", .check, .define "word" dog]
    let g := ofCalls 7 calls
    let σ : Setting (List Effect) :=
      { host := { perform := fun e ctx => ctx ++ [e] }, input := #[], grammar := some g }
    g.check = .error ⟨["list"]⟩ ∧ g.names = ["word", "list"] ∧
      ∀ limit, σ.run (limit + 1) (.rule ⟨7, 0, "word"⟩) = σ.run limit dog := by
  intro cat dog calls g σ
  have h := ofCalls_recalls 7 calls
  have hmade : Made calls 7 ⟨7, 0, "word"⟩ := ⟨[], "word", _, rfl, rfl⟩
  exact ⟨by decide, by decide, h.defined σ rfl _ dog hmade (by decide)⟩

end Peg.Grammar
