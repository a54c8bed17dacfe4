import Peg.Proofs.Rewriting
import Peg.Proofs.Trails

/-! # Copies of what is recorded

A record keeps the positions of a match, a copy its bytes at that moment. If every record is
followed by a copy of the recorded match to one sink of its own, an evaluation does otherwise
the same, and the sink holds the bytes of all records, one after the other: those of matches
that were given up later and those that were only looked ahead at, too.
-/
namespace Peg

variable {κ κ' : Type}

namespace Pattern

/-- The pattern with a copy to the sink behind each of its records. -/
def copying (sink : SinkId) : Pattern → Pattern
  | seq a b => seq (a.copying sink) (b.copying sink)
  | choice a b => choice (a.copying sink) (b.copying sink)
  | not p => not (p.copying sink)
  | ahead p => ahead (p.copying sink)
  | exactly p n => exactly (p.copying sink) n
  | atLeast p n => atLeast (p.copying sink) n
  | atMost p n => atMost (p.copying sink) n
  | hook p id => hook (p.copying sink) id
  | forward p k => forward (p.copying sink) k
  | capture p => forward (capture (p.copying sink)) sink
  | literal bytes => literal bytes
  | set members => set members
  | cls c => cls c
  | any => any
  | rule ref => rule ref

theorem Structural.copying (sink : SinkId) : Structural (Pattern.copying sink) := by
  constructor
  case oneByte =>
    intro p accept h
    cases p <;> first | rfl | cases h
  all_goals
    intros
    rfl

def sinks : Pattern → List SinkId
  | seq a b | choice a b => a.sinks ++ b.sinks
  | not p | ahead p | exactly p _ | atLeast p _ | atMost p _ | hook p _ | capture p => p.sinks
  | forward p sink => sink :: p.sinks
  | literal _ | set _ | cls _ | any | rule _ => []

theorem Part.sinks_subset {p q : Pattern} (h : Part p q) : q.sinks ⊆ p.sinks := by
  cases h <;> simp [sinks]

def Spares (rules : Rules) (p : Pattern) (sink : SinkId) : Prop :=
  ∀ q, ¬ Reaches rules p (.forward q sink)

theorem Spares.of_sinks {rules : Rules} {p : Pattern} {sink : SinkId}
    (hrules : ∀ ref body, rules ref = some body → sink ∉ body.sinks) (hp : sink ∉ p.sinks) :
    p.Spares rules sink := by
  intro q hq
  have hnot := hq.keeps (P := fun r => sink ∉ r.sinks)
    (fun hpart hp hmem => hp (hpart.sinks_subset hmem)) hrules hp
  simp [sinks] at hnot

end Pattern

/-- A record and a copy together follow a record alone, if their effects together do. -/
theorem Step.Follows.capture_copied {f : κ' → κ} {p' : Step κ'} {p : Step κ} {host' : Host κ'}
    {host : Host κ} {input : Array UInt8} {sink : SinkId}
    (he : ∀ m ctx, host.perform (.forwarded sink m (input.extract m.start m.stop))
      (host.perform (.captured m) (f ctx)) = f (host'.perform (.captured m) ctx))
    (hordered : ∀ s m t, p' s = some (.hit m, t) → m.start ≤ m.stop) (hp : Follows 0 f p' p) :
    Follows 0 f (Step.capture host' p') (Step.forward host input sink (Step.capture host p)) := by
  intro s
  simp only [Step.forward, Step.capture, Step.branch]
  rw [hp s]
  cases h : p' s with
  | none => rfl
  | some r =>
    obtain ⟨v, t⟩ := r
    cases v with
    | hit m =>
      simp only [Option.map_some, Verdict.shift_zero, Step.performing, Step.give, State.map,
        Span.replay_of_le (hordered s m t h), he, Step.movedTo]
    | miss | stop => simp [Step.give]

namespace Trail

variable (input : Array UInt8) (sink : SinkId)

/-- Each record with a copy of the recorded bytes to the sink behind it, and no other copies to
that sink. -/
def copied (trail : Trail) : Trail :=
  trail.flatMap fun
    | .captured m => [.captured m, .forwarded sink m (input.extract m.start m.stop)]
    | .forwarded k m bytes => if k = sink then [] else [.forwarded k m bytes]
    | .noticed n => [.noticed n]

theorem copied_append (trail trail' : Trail) :
    copied input sink (trail ++ trail') = copied input sink trail ++ copied input sink trail' :=
  List.flatMap_append

theorem copied_cons (e : Effect) (trail : Trail) :
    copied input sink (e :: trail) = copied input sink [e] ++ copied input sink trail :=
  copied_append input sink [e] trail

/-- The copies that are added leave the records as they are. -/
theorem spans_copied (trail : Trail) : spans (copied input sink trail) = spans trail := by
  induction trail with
  | nil => rfl
  | cons e rest ih =>
    rw [copied_cons, spans_append, ih, spans_cons e rest]
    cases e with
    | captured m | noticed n => rfl
    | forwarded k m bytes => by_cases hk : k = sink <;> simp [copied, spans, hk]

/-- The copies that are added go to no other sink. -/
theorem bytesTo_copied_of_ne {k : SinkId} (hne : k ≠ sink) (trail : Trail) :
    bytesTo k (copied input sink trail) = bytesTo k trail := by
  induction trail with
  | nil => rfl
  | cons e rest ih =>
    rw [copied_cons, bytesTo_append, ih, bytesTo_cons k e rest]
    cases e with
    | captured m => simp [copied, bytesTo, Ne.symm hne]
    | forwarded k' m bytes => by_cases hk : k' = sink <;> simp [copied, bytesTo, hk, Ne.symm hne]
    | noticed n => rfl

/-- The sink gets the bytes of the records, in their order. -/
theorem bytesTo_copied (trail : Trail) :
    bytesTo sink (copied input sink trail) =
      (spans trail).flatMap fun m => (input.extract m.start m.stop).toList := by
  induction trail with
  | nil => rfl
  | cons e rest ih =>
    rw [copied_cons, bytesTo_append, ih, spans_cons e rest, List.flatMap_append]
    cases e with
    | captured m => simp [copied, bytesTo, spans]
    | forwarded k m bytes => by_cases hk : k = sink <;> simp [copied, bytesTo, spans, hk]
    | noticed n => rfl

end Trail

namespace Setting

variable {σ : Setting κ} {p : Pattern} {sink : SinkId}

def copying (σ : Setting κ) (sink : SinkId) : Setting κ :=
  σ.under (σ.grammar.map (Grammar.mapBodies (Pattern.copying sink)))

theorem spares_of_slots {g : Grammar} (hg : σ.grammar = some g)
    (hslots : ∀ slot ∈ g.slots, ∀ body, slot.body = some body → sink ∉ body.sinks)
    (hp : sink ∉ p.sinks) : p.Spares σ.rules sink := .of_sinks (body_of_slots hg hslots) hp

theorem absence_copying (σ : Setting κ) (sink : SinkId) (r : RuleRef) :
    (σ.copying sink).absence r = σ.absence r := by
  simp only [absence, copying, under_grammar]
  cases σ.grammar <;> rfl

/-- With the copies, an evaluation performs what it performs without them and the copies between
that. -/
theorem run_copying_follows (hp : p.HookFree σ.rules) (hspares : p.Spares σ.rules sink) (n : Nat)
    (ctx : κ) :
    (σ.listing.run n p).Follows 0 (fun trail => σ.act ctx (trail.copied σ.input sink))
      ((σ.copying sink).run n (p.copying sink)) := by
  have hadds : ∀ e trail, σ.act ctx ((σ.listing.host.perform e trail).copied σ.input sink) =
      σ.act (σ.act ctx (trail.copied σ.input sink)) (Trail.copied σ.input sink [e]) := by
    intro e trail
    rw [← act_append, ← Trail.copied_append]
    rfl
  apply run_follows_map (σ := σ.copying sink) (.copying sink) (.refl σ.listing.input)
  · exact fun r => rules_mapBodies (σ := σ) rfl r
  · intro r trail
    rw [hadds, absence_copying]
    rfl
  · intro n q id hq
    exact absurd hq (hp q id)
  · intro n q k hq hrun
    have hk : k ≠ sink := fun h => hspares q (h ▸ hq)
    apply hrun.forward (fun m bytes trail => ?_) (.refl σ.input)
    rw [hadds]
    simp only [Trail.copied, List.flatMap_singleton, if_neg hk]
    rfl
  · intro n q hq hrun
    have hfree : q.HookFree σ.rules := hp.reached (hq.toPart (.capture q))
    have hordered := run_ordered (σ := σ.listing) (.of_hookFree hfree) n
    apply hrun.capture_copied (fun m trail => ?_) fun s m t h => hordered s _ t h m rfl
    rw [hadds]
    rfl

/-- A run with a copy behind each record goes the same way, and performs the trail of the other one
with those copies in it. -/
theorem run_copying (hp : p.HookFree σ.rules) (hspares : p.Spares σ.rules sink) (n start : Nat)
    (ctx : κ) :
    (σ.copying sink).run n (p.copying sink) ⟨start, ctx⟩ =
      (σ.listing.run n p ⟨start, []⟩).map fun r =>
        (r.1, ⟨r.2.pos, σ.act ctx (r.2.ctx.copied σ.input sink)⟩) := by
  have hfollows := run_copying_follows hp hspares n ctx ⟨start, []⟩
  simp only [Verdict.shift_zero] at hfollows
  exact hfollows

/-- With a copy to a sink of its own behind each record, in a pattern without callbacks and in
the bodies of the rules, an evaluation ends within the same limits. It has the same match or miss
with the cursor at the same place, the same captures and the same in the other sinks, whatever was
captured and written before. Of the spans that it captures, all in the order of the captures, it
writes the bytes to that sink and nothing else. -/
theorem copying_agrees {σ : Setting Desk} (hσ : σ.host.perform = Desk.perform)
    (hp : p.HookFree σ.rules) (hspares : p.Spares σ.rules sink) (start : Nat) (desk : Desk) :
    (∀ n, ((σ.copying sink).run n (p.copying sink) ⟨start, desk⟩).isSome =
      (σ.run n p ⟨start, desk⟩).isSome) ∧
    ∀ n v t, σ.run n p ⟨start, desk⟩ = some (v, t) → ∃ desk' spans,
      (σ.copying sink).run n (p.copying sink) ⟨start, desk⟩ = some (v, ⟨t.pos, desk'⟩) ∧
      t.ctx.captures = desk.captures.map (· ++ spans) ∧ desk'.captures = t.ctx.captures ∧
      (∀ k, k ≠ sink → desk'.sinks.content k = t.ctx.sinks.content k) ∧
      desk'.sinks.content sink =
        desk.sinks.content sink ++ spans.flatMap fun m => σ.input.extract m.start m.stop := by
  constructor
  · intro n
    rw [run_copying hp hspares, run_eq_listing hp, Option.isSome_map, Option.isSome_map]
  · intro n v t h
    rw [run_eq_listing hp, Option.map_eq_some_iff] at h
    obtain ⟨⟨w, u⟩, hu, heq⟩ := h
    obtain ⟨rfl, rfl⟩ := Prod.mk.inj heq
    have hplain := Desk.gains_act hσ u.ctx desk
    have hcopied := Desk.gains_act hσ (u.ctx.copied σ.input sink) desk
    refine ⟨σ.act desk (u.ctx.copied σ.input sink), u.ctx.spans.toArray, ?_, hplain.captures, ?_,
      fun k hk => ?_, ?_⟩
    · rw [run_copying hp hspares, hu, Option.map_some]
    · rw [hcopied.captures, hplain.captures, Trail.spans_copied]
    · rw [hcopied.content, hplain.content, Trail.bytesTo_copied_of_ne _ _ hk]
    · rw [hcopied.content, Trail.bytesTo_copied]
      simp [List.flatMap_toArray]

/-- Two letters are recorded and given up, then they are recorded within a lookahead, and the
loop over a rule records each letter twice, also the one that the digit behind it turns down. -/
theorem given_up_copied :
    let item : Pattern := .rule ⟨0, 0, "item"⟩
    let given : Pattern := .seq (.capture (.seq (.forward .any 4) .any)) (.literal [99])
    let loop : Pattern := .atLeast (.seq item (.not (.literal [49]))) 0
    let p : Pattern := .choice given (.seq (.ahead (.capture (.literal [97, 98]))) loop)
    let σ : Setting Desk :=
      { host := Desk.host #[]
        input := #[97, 98, 49]
        grammar := some { id := 0, slots := #[⟨"item", some (.capture (.capture .any))⟩] } }
    σ.host.perform = Desk.perform ∧ p.HookFree σ.rules ∧ p.Spares σ.rules 9 ∧
      ∃ desk : Desk, (σ.copying 9).run 4 (p.copying 9) ⟨0, {}⟩ = some (.hit ⟨0, 1⟩, ⟨1, desk⟩) ∧
        desk.captures = some #[⟨0, 2⟩, ⟨0, 2⟩, ⟨0, 1⟩, ⟨0, 1⟩, ⟨1, 2⟩, ⟨1, 2⟩] ∧
        desk.sinks.content 4 = #[97] ∧
        desk.sinks.content 9 = #[97, 98, 97, 98, 97, 97, 98, 98] := by
  intro item given loop p σ
  have hfree : p.HookFree σ.rules := hookFree_of_slots rfl (by decide +kernel) rfl
  have hspares : p.Spares σ.rules 9 := spares_of_slots rfl (by decide +kernel) (by decide +kernel)
  have hrun : (σ.run 4 p ⟨0, {}⟩).map
      (fun r => (r.1, r.2.pos, r.2.ctx.captures, r.2.ctx.sinks.content 4)) =
      some (.hit ⟨0, 1⟩, 1, some #[⟨0, 2⟩, ⟨0, 2⟩, ⟨0, 1⟩, ⟨0, 1⟩, ⟨1, 2⟩, ⟨1, 2⟩], #[97]) := by
    decide +kernel
  obtain ⟨⟨v, t⟩, hvt, heq⟩ := Option.map_eq_some_iff.mp hrun
  simp only [Prod.mk.injEq] at heq
  obtain ⟨rfl, hpos, hcaptures, hfour⟩ := heq
  obtain ⟨_, hagrees⟩ := copying_agrees (σ := σ) rfl hfree hspares 0 {}
  obtain ⟨desk, spans, hcopying, hspans, hsame, hothers, hnine⟩ := hagrees 4 _ t hvt
  rw [hpos] at hcopying
  refine ⟨rfl, hfree, hspares, desk, hcopying, hsame.trans hcaptures, ?_, ?_⟩
  · rw [hothers 4 (by decide), hfour]
  · rw [hcaptures] at hspans
    obtain rfl : spans = #[⟨0, 2⟩, ⟨0, 2⟩, ⟨0, 1⟩, ⟨0, 1⟩, ⟨1, 2⟩, ⟨1, 2⟩] := by
      simpa using hspans.symm
    rw [hnine]
    decide +kernel

end Setting

end Peg
