import Peg.Eval.Store
import Peg.Proofs.Histories
import Peg.Proofs.Rewriting

/-! # Only the rules within reach matter

An evaluation looks up the rules that its pattern leads to, and no others. So two states of a
grammar that agree on these are the same to it, whatever else is mentioned or defined in one of
them, and a grammar that defines none of them is as good as none.
-/
namespace Peg

variable {κ : Type}

/-- A pattern whose references stand for nothing leads no further than these. -/
theorem Pattern.Reaches.refs_subset_of_unresolved {rules : Rules} {p q : Pattern}
    (h : Reaches rules p q) (hp : ∀ r ∈ p.refs, rules r = Option.none) : q.refs ⊆ p.refs := by
  induction h with
  | refl => exact List.Subset.refl _
  | part hpart _ ih =>
    have hsub := hpart.refs_subset
    exact List.Subset.trans (ih fun r hr => hp r (hsub hr)) hsub
  | body href _ _ => simp [hp _ (List.mem_singleton_self _)] at href

/-! What is recorded besides notices. -/

def Event.isNotice : Event → Bool
  | .performed (.noticed _) => true
  | .performed _ | .called .. => false

def withoutNotices (record : List Event) : List Event := record.filter fun e => !e.isNotice

namespace Setting

def hearing (σ : Setting κ) : Setting (κ × List Event) where
  host :=
    { perform := fun e ctx => (σ.host.perform e ctx.1, ctx.2 ++ withoutNotices [.performed e])
      callback := σ.recording.host.callback }
  input := σ.input
  grammar := σ.grammar

theorem recording_mirrors_hearing (σ : Setting κ) :
    Mirrors (Prod.map id withoutNotices) σ.recording σ.hearing where
  input := rfl
  grammar := rfl
  perform e ctx := by simp [hearing, recording, Host.recording, withoutNotices]
  callback id c m ctx := by
    simp [hearing, recording, Host.recording, withoutNotices, Event.isNotice]

def unnoticed (r : Verdict × State (κ × List Event)) : Verdict × State (κ × List Event) :=
  (r.1, ⟨r.2.pos, r.2.ctx.1, withoutNotices r.2.ctx.2⟩)

theorem run_hearing (σ : Setting κ) (n : Nat) (p : Pattern) (s : State κ) (record : List Event) :
    (σ.recording.run n p ⟨s.pos, s.ctx, record⟩).map unnoticed =
      σ.hearing.run n p ⟨s.pos, s.ctx, withoutNotices record⟩ := by
  have hfollows := σ.recording_mirrors_hearing.run n p ⟨s.pos, s.ctx, record⟩
  simp only [Verdict.shift_zero] at hfollows
  exact hfollows.symm

variable {σ : Setting κ} {p : Pattern} {g g' : Grammar}

/-- Where the rules within reach have the same bodies and rules without one are missed in the
same way, the steps are the same. -/
theorem run_under_congr {other : Option Grammar}
    (hmiss : ∀ r, σ.host.perform (.noticed ((σ.under other).absence r)) =
      σ.host.perform (.noticed (σ.absence r)))
    (h : ∀ r, Pattern.Reaches σ.rules p (.rule r) → (σ.under other).rules r = σ.rules r)
    (n : Nat) : (σ.under other).run n p = σ.run n p := by
  induction n generalizing p with
  | zero =>
    rw [run, run, step_under]
    exact Pattern.step_congr fun _ _ => rfl
  | succ n ih =>
    rw [run, run, step_under]
    refine Pattern.step_congr fun r hr => ?_
    have hreach : Pattern.Reaches σ.rules p (.rule r) := .of_mem_refs hr
    have hsame := h r hreach
    cases hbody : σ.rules r with
    | none =>
      have hfirst := σ.run_rule_none hbody n
      have hsecond := (σ.under other).run_rule_none (hsame.trans hbody) n
      refine hsecond.trans (Eq.trans ?_ hfirst.symm)
      funext s
      simp only [Step.performing, under_host, hmiss]
    | some body =>
      have hfirst := σ.run_rule_body hbody n
      have hsecond := (σ.under other).run_rule_body (hsame.trans hbody) n
      refine hsecond.trans (Eq.trans ?_ hfirst.symm)
      exact ih fun q hq => h q (hreach.trans (.body hbody hq))

/-- Under the other grammar the pattern comes out the same from every state within every limit,
after the same effects and calls. -/
def SameUnder (σ : Setting κ) (p : Pattern) (other : Option Grammar) : Prop :=
  ∀ n s record, (σ.under other).run n p s = σ.run n p s ∧
    (σ.under other).recording.run n p ⟨s.pos, s.ctx, record⟩ =
      σ.recording.run n p ⟨s.pos, s.ctx, record⟩

/-- A pattern comes out the same under a grammar that has the same bodies for the references that
can be met below it. -/
theorem sameUnder_of_resolve? (hg : σ.grammar = some g)
    (h : ∀ r, Pattern.Reaches g.resolve? p (.rule r) → g'.resolve? r = g.resolve? r) :
    σ.SameUnder p (some g') := by
  have habsence : ∀ r, (σ.under (some g')).absence r = σ.absence r := by
    intro r
    simp only [absence, under_grammar, hg]
  have hrules : ∀ r, Pattern.Reaches σ.rules p (.rule r) →
      (σ.under (some g')).rules r = σ.rules r := by
    rw [rules_eq hg, rules_eq (under_grammar σ (some g'))]
    exact h
  intro n s record
  constructor
  · rw [run_under_congr (fun r => by rw [habsence]) hrules]
  · rw [recording_under, run_under_congr (σ := σ.recording) _ hrules]
    intro r
    exact congrArg (fun e => σ.recording.host.perform (.noticed e)) (habsence r)

end Setting

namespace Grammar

variable {g : Grammar} {p : Pattern}

/-- The pattern leads to the slot that the name has, or that it would get. -/
def LeadsTo (g : Grammar) (p : Pattern) (name : String) : Prop :=
  ∃ r, Pattern.Reaches g.resolve? p (.rule r) ∧ r.grammar = g.id ∧ r.slot = (g.slot name).1

theorem bodyAt?_slot (g : Grammar) (name : String) (i : Nat) :
    (g.slot name).2.bodyAt? i = g.bodyAt? i := by
  unfold slot
  cases g.find? name with
  | some j => rfl
  | none =>
    simp only [bodyAt?, Array.getElem?_push]
    split
    · rename_i hi
      simp [hi]
    · rfl

theorem bodyAt?_define_of_ne (g : Grammar) {name : String} {i : Nat} (h : i ≠ (g.slot name).1)
    (body : Pattern) : (g.define name body).2.bodyAt? i = g.bodyAt? i := by
  rw [← bodyAt?_slot g name i]
  have hslots : (g.define name body).2.slots = (g.slot name).2.slots.modify (g.slot name).1
      fun s => { s with body := some body } := rfl
  simp only [bodyAt?, hslots, Array.getElem?_modify, if_neg (Ne.symm h)]

/-- A call changes at most the body of the slot of the name that it mentions. -/
theorem bodyAt?_serve (g : Grammar) {c : Call} {i : Nat}
    (h : ∀ name, c.mentions? = some name → i ≠ (g.slot name).1) :
    (g.serve c).2.bodyAt? i = g.bodyAt? i := by
  cases c with
  | slot name | rule name => exact bodyAt?_slot g name i
  | define name body => exact bodyAt?_define_of_ne g (h name rfl) body
  | get | name | names | size | isEmpty | check => rfl

theorem serve_id (g : Grammar) (c : Call) : (g.serve c).2.id = g.id := by
  cases c with
  | slot n | rule n | define n body => exact slot_id g n
  | _ => rfl

/-- For references that the grammar made itself, slots are as good as names. -/
theorem leadsTo_iff_of_made {id : GrammarId} {calls : List Call}
    (hmade : ∀ r, Pattern.Reaches (ofCalls id calls).resolve? p (.rule r) → r.grammar = id →
      Made calls id r) (name : String) :
    (ofCalls id calls).LeadsTo p name ↔
      ∃ r, Pattern.Reaches (ofCalls id calls).resolve? p (.rule r) ∧ r.grammar = id ∧
        r.name = name := by
  have hholds := ofCalls_holds id calls
  have hslot : ∀ r, Made calls id r →
      (r.slot = ((ofCalls id calls).slot name).1 ↔ r.name = name) := by
    intro r hr
    obtain ⟨hmem, hidx⟩ := (getElem?_eq_some_iff_idxOf hholds.nodup).mp hr.points.2
    rw [hholds.slot_fst, ← hidx, List.idxOf_inj hmem]
  unfold LeadsTo
  rw [ofCalls_id]
  constructor
  · rintro ⟨r, hr, hid, hr'⟩
    exact ⟨r, hr, hid, (hslot r (hmade r hr hid)).mp hr'⟩
  · rintro ⟨r, hr, hid, hr'⟩
    exact ⟨r, hr, hid, (hslot r (hmade r hr hid)).mpr hr'⟩

end Grammar

namespace Setting

variable {σ : Setting κ} {p : Pattern} {g : Grammar}

theorem sameUnder_of_bodies (hg : σ.grammar = some g) {g' : Grammar} (hid : g'.id = g.id)
    (h : ∀ r, Pattern.Reaches g.resolve? p (.rule r) → r.grammar = g.id →
      g'.bodyAt? r.slot = g.bodyAt? r.slot) : σ.SameUnder p (some g') := by
  refine sameUnder_of_resolve? hg fun r hr => ?_
  unfold Grammar.resolve?
  rw [hid]
  split
  · rename_i hr'
    exact h r hr hr'
  · rfl

theorem sameUnder_serve (hg : σ.grammar = some g) {c : Grammar.Call} {name : String}
    (hc : c.mentions? = some name) (h : ¬ g.LeadsTo p name) :
    σ.SameUnder p (some (g.serve c).2) := by
  refine sameUnder_of_bodies hg (g.serve_id c) fun r hr hid => g.bodyAt?_serve fun m hm => ?_
  obtain rfl := Option.some.inj (hc.symm.trans hm)
  exact fun hslot => h ⟨r, hr, hid, hslot⟩

/-- Where no rule within reach is defined, it makes no difference whether there is a grammar. -/
theorem run_under_none (hg : σ.grammar = some g)
    (hmiss : ∀ name ctx, σ.host.perform (.noticed (.outside name)) ctx =
      σ.host.perform (.noticed (.unresolved name)) ctx)
    (h : ∀ r, Pattern.Reaches g.resolve? p (.rule r) → g.resolve? r = none) (n : Nat) :
    (σ.under none).run n p = σ.run n p := by
  refine run_under_congr (fun r => funext fun ctx => ?_) (fun r hr => ?_) n
  · simp only [absence, under_grammar, hg]
    exact hmiss r.name ctx
  · rw [rules_eq hg] at hr ⊢
    exact (h r hr).symm

/-- An evaluation depends on the rules within reach of its pattern and on no others. Another
state of the grammar with the same bodies for these gives the same result from every state
within every limit, after the same effects and calls, whatever the callbacks do. So does the
state after a call that mentions or defines a name that the pattern does not lead to, where
slots stand for names as long as the references were made by the grammar. And if none of these
rules has a body, it is the same without the grammar, but for the words in which the missing
rules are noticed. -/
theorem run_eq_of_reachable (hg : σ.grammar = some g) (p : Pattern) :
    (∀ g' : Grammar, g'.id = g.id →
      (∀ r, Pattern.Reaches g.resolve? p (.rule r) → r.grammar = g.id →
        g'.bodyAt? r.slot = g.bodyAt? r.slot) → σ.SameUnder p (some g')) ∧
    (∀ c name, Grammar.Call.mentions? c = some name → ¬ g.LeadsTo p name →
      σ.SameUnder p (some (g.serve c).2)) ∧
    (∀ calls, g = Grammar.ofCalls g.id calls →
      (∀ r, Pattern.Reaches g.resolve? p (.rule r) → r.grammar = g.id →
        Grammar.Made calls g.id r) →
      ∀ name, g.LeadsTo p name ↔
        ∃ r, Pattern.Reaches g.resolve? p (.rule r) ∧ r.grammar = g.id ∧ r.name = name) ∧
    ((∀ r, Pattern.Reaches g.resolve? p (.rule r) → g.resolve? r = none) →
      (∀ name ctx, σ.host.perform (.noticed (.outside name)) ctx =
        σ.host.perform (.noticed (.unresolved name)) ctx) →
      ∀ n s record, (σ.under none).run n p s = σ.run n p s ∧
        ((σ.under none).recording.run n p ⟨s.pos, s.ctx, record⟩).map unnoticed =
          (σ.recording.run n p ⟨s.pos, s.ctx, record⟩).map unnoticed) := by
  refine ⟨fun g' hid h => sameUnder_of_bodies hg hid h, fun c name hc h => sameUnder_serve hg hc h,
    fun calls hcalls hmade => ?_, fun h hmiss n s record => ⟨?_, ?_⟩⟩
  · generalize g.id = id at hcalls hmade ⊢
    subst hcalls
    exact Grammar.leadsTo_iff_of_made hmade
  · rw [run_under_none hg hmiss h]
  · have hhear : ∀ name ctx, σ.hearing.host.perform (.noticed (.outside name)) ctx =
        σ.hearing.host.perform (.noticed (.unresolved name)) ctx := by
      intro name ctx
      exact congrArg (fun c => (c, ctx.2 ++ withoutNotices [])) (hmiss name ctx.1)
    have hnone := run_under_none (σ := σ.hearing) hg hhear h n
    have hsame : (σ.under none).hearing = σ.hearing.under none := rfl
    rw [run_hearing, run_hearing, hsame, hnone]

/-- Two rules that call each other around a callback that skips a byte, beside a rule that one
state of the grammar has no body for. -/
theorem skipping_depends_on_reachable :
    let word : Pattern := .rule ⟨5, 0, "word"⟩
    let more : Pattern := .rule ⟨5, 1, "more"⟩
    let other : Pattern := .rule ⟨5, 2, "other"⟩
    let calls : List Grammar.Call :=
      [.rule "word", .rule "more", .rule "other", .define "word" (.seq (.hook .any 0) more),
        .define "more" (.capture (.choice word .empty))]
    let g := Grammar.ofCalls 5 calls
    let g' := g.after [.define "other" .any, .rule "new"]
    let σ : Setting Store :=
      { host := { Store.host with callback := fun _ c _ ctx => { pos := c.pos + 1, ctx } }
        input := #[97, 98, 97, 98]
        grammar := some g }
    let outcome : Option (Verdict × State Store) → Option (Verdict × Nat × Array Span) :=
      Option.map fun r => (r.1, r.2.pos, r.2.ctx.captures)
    (∀ r, Pattern.Reaches g.resolve? word (.rule r) → r.grammar = 5 →
      g'.bodyAt? r.slot = g.bodyAt? r.slot) ∧
    (∀ r, Pattern.Reaches g.resolve? word (.rule r) → r.grammar = 5 → Grammar.Made calls 5 r) ∧
    ¬ g.LeadsTo word "other" ∧
    (∀ r, Pattern.Reaches g.resolve? (.choice other (.capture .any)) (.rule r) →
      g.resolve? r = none) ∧
    outcome ((σ.under (some g')).run 6 word ⟨0, {}⟩) =
      some (.hit ⟨0, 4⟩, 4, #[⟨4, 4⟩, ⟨2, 4⟩]) ∧
    outcome ((σ.under (some (g.serve (.define "other" word)).2)).run 6 word ⟨0, {}⟩) =
      some (.hit ⟨0, 4⟩, 4, #[⟨4, 4⟩, ⟨2, 4⟩]) ∧
    outcome ((σ.under none).run 6 (.choice other (.capture .any)) ⟨0, {}⟩) =
      some (.hit ⟨0, 1⟩, 1, #[⟨0, 1⟩]) := by
  intro word more other calls g g' σ outcome
  have hnamed : ∀ slot ∈ g.slots, ∀ body, slot.body = some body →
      body.refs ⊆ [⟨5, 0, "word"⟩, ⟨5, 1, "more"⟩] := by
    decide +kernel
  have hword : ∀ r, Pattern.Reaches g.resolve? word (.rule r) →
      r = ⟨5, 0, "word"⟩ ∨ r = ⟨5, 1, "more"⟩ := by
    intro r hr
    have hr := hr.refs_subset (fun ref body h => by
      obtain ⟨slot, hslot, hbody⟩ := g.exists_slot_of_resolve? h
      exact hnamed slot hslot body hbody) (by decide) (List.mem_singleton_self r)
    simpa using hr
  have hbodies : ∀ r, Pattern.Reaches g.resolve? word (.rule r) → r.grammar = 5 →
      g'.bodyAt? r.slot = g.bodyAt? r.slot := by
    intro r hr _
    rcases hword r hr with rfl | rfl <;> decide +kernel
  have hmade : ∀ r, Pattern.Reaches g.resolve? word (.rule r) → r.grammar = 5 →
      Grammar.Made calls 5 r := by
    intro r hr _
    rcases hword r hr with rfl | rfl
    · exact ⟨[], "word", _, rfl, rfl⟩
    · exact ⟨[.rule "word"], "more", _, rfl, rfl⟩
  obtain ⟨hstate, hcall, hnames, _⟩ := run_eq_of_reachable (σ := σ) rfl word
  have hother : ¬ g.LeadsTo word "other" := by
    rw [hnames calls rfl hmade "other"]
    rintro ⟨r, hr, _, hname⟩
    rcases hword r hr with rfl | rfl <;> exact absurd hname (by decide)
  have hfree : ∀ r, Pattern.Reaches g.resolve? (.choice other (.capture .any)) (.rule r) →
      g.resolve? r = none := by
    have hrefs : ∀ r ∈ (Pattern.choice other (.capture .any)).refs, g.resolve? r = none := by
      decide +kernel
    exact fun r hr => hrefs r (hr.refs_subset_of_unresolved hrefs (List.mem_singleton_self r))
  have hrun : outcome (σ.run 6 word ⟨0, {}⟩) = some (.hit ⟨0, 4⟩, 4, #[⟨4, 4⟩, ⟨2, 4⟩]) := by
    decide +kernel
  refine ⟨hbodies, hmade, hother, hfree, ?_, ?_, ?_⟩
  · rw [(hstate g' rfl hbodies 6 _ []).1, hrun]
  · rw [(hcall (.define "other" word) "other" rfl hother 6 _ []).1, hrun]
  · obtain ⟨_, _, _, hnone⟩ := run_eq_of_reachable (σ := σ) rfl (.choice other (.capture .any))
    rw [(hnone hfree (fun _ _ => rfl) 6 _ []).1]
    decide +kernel

end Setting

end Peg
