import Peg.Proofs.Trails

/-! # Only what lies ahead matters

An evaluation that starts further on does what it would do at the beginning of the input that
is left there, with all positions moved by as much. So the bytes that it has behind it do not
matter, and neither does how many there are.
-/
namespace Peg

variable {κ : Type}

theorem Verdict.span?_shift (d : Nat) (v : Verdict) :
    (v.shift d).span? = v.span?.map (Span.shift d) := by
  cases v <;> rfl

namespace Trail

def shift (d : Nat) (trail : Trail) : Trail := trail.map (Effect.shift d)

theorem spans_shift (d : Nat) (trail : Trail) :
    (trail.shift d).spans = trail.spans.map (Span.shift d) := by
  induction trail with
  | nil => rfl
  | cons e rest ih =>
    have hcons : shift d (e :: rest) = e.shift d :: shift d rest := rfl
    rw [hcons, spans_cons, ih, spans_cons e rest, List.map_append]
    cases e <;> rfl

theorem bytesTo_shift (sink : SinkId) (d : Nat) (trail : Trail) :
    (trail.shift d).bytesTo sink = trail.bytesTo sink := by
  induction trail with
  | nil => rfl
  | cons e rest ih =>
    have hcons : shift d (e :: rest) = e.shift d :: shift d rest := rfl
    rw [hcons, bytesTo_cons, ih, bytesTo_cons sink e rest]
    cases e <;> rfl

theorem exists_of_mem_spans {trail : Trail} {m : Span} (h : m ∈ trail.spans) :
    ∃ e ∈ trail, m ∈ e.span? := by
  obtain ⟨e, he, hm⟩ := List.mem_filterMap.mp h
  cases e with
  | captured k => exact ⟨_, he, hm⟩
  | forwarded | noticed => simp at hm

end Trail

namespace Setting

variable {σ : Setting κ} {p : Pattern}

def on (σ : Setting κ) (input : Array UInt8) : Setting κ := { σ with input }

/-- A run from `start` is a run on the rest of the input, moved by `start`. -/
theorem listing_shift (hp : p.HookFree σ.rules) (n start : Nat) :
    σ.listing.run n p ⟨start, []⟩ =
      ((σ.on (σ.input.drop start)).listing.run n p ⟨0, []⟩).map fun r =>
        (r.1.shift start, ⟨r.2.pos + start, r.2.ctx.shift start⟩) := by
  have hinput : BytesFrom start (σ.on (σ.input.drop start)).listing.input σ.listing.input :=
    .drop start σ.input
  have hperform : ∀ (e : Effect) (trail : Trail),
      Host.listing.perform (e.shift start) (trail.shift start) =
        (Host.listing.perform e trail).shift start := by
    simp [Host.listing, Trail.shift]
  have hfollows := run_follows hinput rfl hperform n p fun q id hr => absurd hr (hp q id)
  have hstart : State.map start (Trail.shift start) ⟨0, []⟩ = ⟨start, []⟩ := by
    simp [State.map, Trail.shift]
  rw [← hstart]
  exact hfollows ⟨0, []⟩

/-- An evaluation lists no position behind both its start and the end of the input. -/
theorem listing_before (hp : p.HookFree σ.rules) (n start : Nat) :
    (σ.listing.run n p).Ensures ⟨start, []⟩ fun v t => t.pos ≤ max start σ.input.size ∧
      ∀ m ∈ v.span?.toList ++ Trail.spans t.ctx, m.stop ≤ max start σ.input.size := by
  let Before : Trail → Prop := fun trail =>
    ∀ e ∈ trail, ∀ m ∈ e.span?, m.stop ≤ max start σ.input.size
  have hperform : σ.listing.Performs Before start (max start σ.input.size) := by
    intro e trail htrail hspan e' he'
    rcases List.mem_append.mp he' with hold | hnew
    · exact htrail e' hold
    · rw [List.mem_singleton.mp hnew]
      exact fun m hm => (hspan m hm).2.2
  intro v t ht
  have hkept := σ.listing.run_keeps Before (fun _ _ => True) start (Nat.le_max_right start _)
    hperform n p (fun q id hr => absurd hr (hp q id)) ⟨start, []⟩ (by simp [Before])
    (Nat.le_refl _) (Nat.le_max_left _ _) v t ht
  refine ⟨hkept.before, fun m hm => ?_⟩
  rcases List.mem_append.mp hm with hspan | hspan
  · cases v with
    | hit k =>
      obtain rfl : m = k := by simpa [Verdict.span?] using hspan
      exact (hkept.span m rfl).2.2
    | miss | stop => simp [Verdict.span?] at hspan
  · obtain ⟨e, he, hm⟩ := Trail.exists_of_mem_spans hspan
    exact hkept.good e he m hm

end Setting

/-- From wherever it starts, an evaluation without callbacks ends within a limit if and only if
it does at the beginning of what is left of the input, and then it comes out the same, with the
span, the cursor and the captured spans moved by the start and the same bytes for every sink,
whatever was captured and written before. None of these positions lies behind both the start
and the end of the input, and an input with the same bytes from the start on makes no
difference. -/
theorem Setting.run_shift {σ : Setting Desk} (hσ : σ.host.perform = Desk.perform) {p : Pattern}
    (hp : p.HookFree σ.rules) (n start : Nat) :
    ((∀ desk desk₀, σ.run n p ⟨start, desk⟩ = none ∧
        (σ.on (σ.input.drop start)).run n p ⟨0, desk₀⟩ = none) ∨
      ∃ v stop spans bytes,
        (∀ desk, ∃ desk', σ.run n p ⟨start, desk⟩ = some (v.shift start, ⟨stop + start, desk'⟩) ∧
          desk.Gains desk' (spans.map (Span.shift start)) bytes) ∧
        (∀ desk, ∃ desk', (σ.on (σ.input.drop start)).run n p ⟨0, desk⟩ =
            some (v, ⟨stop, desk'⟩) ∧ desk.Gains desk' spans bytes) ∧
        stop + start ≤ max start σ.input.size ∧
        ∀ m ∈ v.span?.toList ++ spans, (m.shift start).stop ≤ max start σ.input.size) ∧
    ∀ input : Array UInt8, input.drop start = σ.input.drop start →
      ∀ desk, (σ.on input).run n p ⟨start, desk⟩ = σ.run n p ⟨start, desk⟩ := by
  have hshift := listing_shift hp n start
  have hrun := fun desk => run_eq_listing hp n start desk
  refine ⟨?_, fun input hinput desk => ?_⟩
  · have hrun₀ := fun desk => run_eq_listing (σ := σ.on (σ.input.drop start)) hp n 0 desk
    cases h : (σ.on (σ.input.drop start)).listing.run n p ⟨0, []⟩ with
    | none =>
      rw [h] at hshift
      exact .inl fun desk desk₀ => ⟨by rw [hrun, hshift]; rfl, by rw [hrun₀, h]; rfl⟩
    | some r =>
      obtain ⟨v, t⟩ := r
      rw [h] at hshift
      obtain ⟨hstop, hspans⟩ := listing_before hp n start _ _ hshift
      refine .inr ⟨v, t.pos, Trail.spans t.ctx, fun sink => Trail.bytesTo sink t.ctx,
        fun desk => ?_, fun desk => ?_, hstop, fun m hm => ?_⟩
      · refine ⟨_, by rw [hrun, hshift]; rfl, ?_⟩
        have hgains := Desk.gains_act hσ (Trail.shift start t.ctx) desk
        simpa only [Trail.spans_shift, Trail.bytesTo_shift] using hgains
      · exact ⟨_, by rw [hrun₀, h]; rfl, Desk.gains_act (σ := σ.on _) hσ t.ctx desk⟩
      · refine hspans _ ?_
        rw [Verdict.span?_shift, Trail.spans_shift, Option.toList_map, ← List.map_append]
        exact List.mem_map_of_mem hm
  · have hsame : (σ.on input).listing.run n p ⟨start, []⟩ = σ.listing.run n p ⟨start, []⟩ := by
      rw [hshift, listing_shift (σ := σ.on input) hp n start]
      change Option.map _ (((σ.on input).on (input.drop start)).listing.run n p ⟨0, []⟩) = _
      rw [hinput]
      rfl
    rw [hrun, run_eq_listing (σ := σ.on input) hp n start desk, hsame]
    rfl

/-- A rule that captures and copies, then a side that is given up behind a capture and a copy
that is only looked ahead at, from behind one byte. -/
theorem Setting.pair_shifts :
    let pair : Pattern := .rule ⟨0, 0, "pair"⟩
    let given : Pattern := .seq (.capture .any) (.literal [122])
    let p : Pattern := .seq pair (.choice given (.ahead (.forward .any 2)))
    let σ : Setting Desk :=
      { host := Desk.host #[]
        input := #[120, 97, 98, 99]
        grammar := some
          { id := 0, slots := #[⟨"pair", some (.capture (.forward (.literal [97, 98]) 2))⟩] } }
    σ.host.perform = Desk.perform ∧ p.HookFree σ.rules ∧ ∀ desk, ∃ desk',
      σ.run 2 p ⟨1, desk⟩ = some (.hit ⟨1, 3⟩, ⟨3, desk'⟩) ∧
      desk'.captures = desk.captures.map (· ++ #[⟨1, 3⟩, ⟨3, 4⟩]) ∧
      desk'.sinks.content 2 = desk.sinks.content 2 ++ #[97, 98, 99] := by
  intro pair given p σ
  have hp : p.HookFree σ.rules := hookFree_of_slots rfl (by decide +kernel) rfl
  have hrun : ((σ.on (σ.input.drop 1)).run 2 p ⟨0, {}⟩).map
      (fun r => (r.1, r.2.pos, r.2.ctx.captures, r.2.ctx.sinks.content 2)) =
      some (.hit ⟨0, 2⟩, 2, some #[⟨0, 2⟩, ⟨2, 3⟩], #[97, 98, 99]) := by
    decide +kernel
  obtain hnone | ⟨v, stop, spans, bytes, hfrom, hzero, _⟩ := (run_shift rfl hp 2 1).1
  · rw [(hnone {} {}).2] at hrun
    cases hrun
  obtain ⟨desk₀, hdesk₀, hgains₀⟩ := hzero {}
  rw [hdesk₀, Option.map_some, hgains₀.captures, hgains₀.content] at hrun
  simp only [Option.map_some, Option.some.injEq, Prod.mk.injEq] at hrun
  obtain ⟨rfl, rfl, hspans, hbytes⟩ := hrun
  obtain rfl : spans = [⟨0, 2⟩, ⟨2, 3⟩] := by simpa using hspans
  refine ⟨rfl, hp, fun desk => ?_⟩
  obtain ⟨desk', hdesk', hgains⟩ := hfrom desk
  refine ⟨desk', hdesk', hgains.captures, ?_⟩
  rw [hgains.content, ← hbytes]
  simp [Sinks.content, Sinks.heldIn]

end Peg
