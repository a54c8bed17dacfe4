import Peg.Eval.Store
import Peg.Proofs.Recording
import Peg.Proofs.Steps

/-! # What stops an evaluation

A part that stops is unlike one that misses: nothing around it goes on. So what a host keeps
true of its context up to a stop is true throughout, wherever callbacks take the cursor, and
the call that asked for the stop is the last thing that the evaluation did.
-/
namespace Peg

variable {κ : Type}

def Verdict.Leaves (good : κ → Prop) (halted : Abort → κ → Prop) : Verdict → κ → Prop
  | .stop why, ctx => halted why ctx
  | .hit _, ctx | .miss, ctx => good ctx

theorem Verdict.leaves_iff {good : κ → Prop} {halted : Abort → κ → Prop} {v : Verdict}
    (hv : ∀ why, v ≠ .stop why) (ctx : κ) : v.Leaves good halted ctx ↔ good ctx := by
  cases v with
  | hit | miss => exact Iff.rfl
  | stop why => exact absurd rfl (hv why)

def Step.Upholds (good : κ → Prop) (halted : Abort → κ → Prop) (p : Step κ) : Prop :=
  ∀ s, good s.ctx → p.Ensures s fun v t => v.Leaves good halted t.ctx

/-- Effects and callbacks keep the context good, a callback that asks to stop halts it, and a
good context counts as halted where the evaluator itself breaks off. -/
structure Setting.Minds (σ : Setting κ) (good : κ → Prop) (halted : Abort → κ → Prop) : Prop where
  perform : ∀ e ctx, good ctx → good (σ.host.perform e ctx)
  goesOn : ∀ id pos m ctx, good ctx → (σ.host.callback id ⟨σ.input, pos⟩ m ctx).abort = none →
    good (σ.host.callback id ⟨σ.input, pos⟩ m ctx).ctx
  stops : ∀ id pos m ctx why, good ctx →
    (σ.host.callback id ⟨σ.input, pos⟩ m ctx).abort = some why →
      halted why (σ.host.callback id ⟨σ.input, pos⟩ m ctx).ctx
  fault : ∀ f ctx, good ctx → halted (.fault f) ctx

namespace Step.Upholds

variable {σ : Setting κ} {good : κ → Prop} {halted : Abort → κ → Prop} {p q next : Step κ}

theorem hit (m : Span) : (Step.give (.hit m)).Upholds good halted := fun _ hs => .give hs

theorem miss : (Step.give .miss).Upholds good halted := fun _ hs => .give hs

theorem movedTo (pos : Nat) (hp : p.Upholds good halted) :
    (Step.movedTo pos p).Upholds good halted := fun s hs => .movedTo (hp { s with pos } hs)

theorem branch {f : Span → Step κ} (hp : p.Upholds good halted)
    (hf : ∀ m, (f m).Upholds good halted) (hq : q.Upholds good halted) :
    (Step.branch p f q).Upholds good halted := fun s hs =>
  (hp s hs).branch (fun m u hu => hf m u hu) (fun u hu => hq u hu) (fun _ _ hu => hu)

section

variable (hmind : σ.Minds good halted)
include hmind

theorem performing (e : Effect) (hp : p.Upholds good halted) :
    (Step.performing σ.host e p).Upholds good halted := fun s hs =>
  .performing (hp { s with ctx := σ.host.perform e s.ctx } (hmind.perform e s.ctx hs))

theorem close (start : Nat) : (Step.close start).Upholds good halted := by
  intro s hs v t ht
  unfold Step.close at ht
  split at ht
  · cases ht
    exact hs
  · cases ht
    exact hmind.fault _ _ hs

theorem greedy (hp : p.Upholds good halted) (start rounds reached : Nat) :
    (Step.greedy p start rounds reached).Upholds good halted := by
  induction rounds generalizing reached with
  | zero => exact fun s _ v t ht => by simp [Step.greedy] at ht
  | succ rounds ih =>
    have hback := (close hmind start).movedTo reached
    refine hp.branch (fun _ s hs v t ht => ?_) hback
    split at ht
    · exact hback s hs v t ht
    · exact ih s.pos s hs v t ht

theorem upTo (hp : p.Upholds good halted) (start n : Nat) :
    (Step.upTo p start n).Upholds good halted := by
  induction n with
  | zero => exact close hmind start
  | succ n ih => exact fun s => hp.branch (fun _ => ih) ((close hmind start).movedTo s.pos) s

theorem hook (id : HookId) (hp : p.Upholds good halted) :
    (Step.hook σ.input (σ.host.callback id) p).Upholds good halted := by
  intro s hs
  refine .hook (hp s hs) (fun _ _ hu => hu) fun v u hu hv => ?_
  have hgood := (Verdict.leaves_iff hv u.ctx).mp hu
  refine ⟨fun hgo => (Verdict.leaves_iff hv _).mpr ?_, fun why hstop => ?_⟩
  · exact hmind.goesOn id u.pos _ u.ctx hgood hgo
  · exact hmind.stops id u.pos _ u.ctx why hgood hstop

theorem forward (sink : SinkId) (hp : p.Upholds good halted) :
    (Step.forward σ.host σ.input sink p).Upholds good halted := by
  refine hp.branch (fun m s hs v t ht => ?_) miss
  split at ht
  · rename_i bytes c _
    exact performing hmind (.forwarded sink m bytes) ((hit m).movedTo c.pos) s hs v t ht
  · cases ht
    exact hmind.fault _ _ hs

end

theorem repeated (hp : p.Upholds good halted) (hnext : next.Upholds good halted) (n : Nat) :
    (Step.repeated p next n).Upholds good halted := by
  induction n with
  | zero => exact hnext
  | succ n ih => exact hp.branch (fun _ => ih) miss

end Step.Upholds

namespace Setting

variable {σ : Setting κ} {good : κ → Prop} {halted : Abort → κ → Prop}

/-- A run upholds whatever its effects and callbacks uphold. -/
theorem run_upholds (hmind : σ.Minds good halted) (n : Nat) (p : Pattern) :
    (σ.run n p).Upholds good halted := by
  have hclose := Step.Upholds.close hmind
  induction n, p using σ.run_induct with
  | literal n bytes =>
    exact fun s hs => Step.Ensures.literal bytes (Nat.le_refl _) (fun _ => hs) (fun _ _ _ => hs)
  | oneByte n p accept h =>
    rw [σ.run_oneByte h]
    exact fun s hs => .oneByte (fun _ => hs) (fun _ _ _ => hs) (fun _ _ _ => hs)
  | seq n a b iha ihb => exact iha.branch (fun m => ihb.branch (fun k => .hit _) .miss) .miss
  | choice n a b iha ihb =>
    intro s
    have hright := ihb.branch (fun _ => hclose s.pos) (Step.Upholds.miss.movedTo s.pos)
    exact iha.branch (fun _ => hclose s.pos) (hright.movedTo s.pos) s
  | not n p ih =>
    exact fun s => ih.branch (fun _ => Step.Upholds.miss.movedTo s.pos)
      ((Step.Upholds.hit _).movedTo s.pos) s
  | ahead n p ih =>
    exact fun s => ih.branch (fun m => (Step.Upholds.hit m).movedTo s.pos)
      (Step.Upholds.miss.movedTo s.pos) s
  | exactly n p k ih => exact fun s => ih.repeated (hclose s.pos) k s
  | atLeast n p k ih => exact fun s => ih.repeated (fun t => ih.greedy hmind s.pos n t.pos t) k s
  | atMost n p k ih => exact fun s => ih.upTo hmind s.pos k s
  | spent r => exact fun s _ v t ht => by simp [run_rule_zero] at ht
  | body n r p hr ih =>
    rw [σ.run_rule_body hr]
    exact ih
  | unresolved n r hr =>
    rw [σ.run_rule_none hr]
    exact .performing hmind _ .miss
  | hook n p id ih => exact ih.hook hmind id
  | forward n p sink ih => exact ih.forward hmind sink
  | capture n p ih => exact ih.branch (fun m => .performing hmind _ (.hit m)) .miss

end Setting

def Event.Stops : Event → Prop
  | .called _ _ _ abort => abort ≠ none
  | .performed _ => False

namespace Setting

variable (σ : Setting κ)

def replay (ctx : κ) : Event → κ
  | .performed e => σ.host.perform e ctx
  | .called id pos m _ => (σ.host.callback id ⟨σ.input, pos⟩ m ctx).ctx

/-- The record ends in the first call that asked to stop, and the context is what that call
made of the one that the events before it had led to. -/
def StoppedBy (start : κ) (why : Abort) (ctx : κ) (record : List Event) : Prop :=
  ∃ earlier id pos m, record = earlier ++ [.called id pos m (some why)] ∧
    (∀ e ∈ earlier, ¬ e.Stops) ∧
    let r := σ.host.callback id ⟨σ.input, pos⟩ m (earlier.foldl σ.replay start)
    r.abort = some why ∧ ctx = r.ctx

/-- The context is what the events of the record made of the first one, and none of them asked
to stop. -/
def Proceeding (start : κ) (ctx : κ × List Event) : Prop :=
  ctx.1 = ctx.2.foldl σ.replay start ∧ ∀ e ∈ ctx.2, ¬ e.Stops

def Halted (start : κ) (why : Abort) (ctx : κ × List Event) : Prop :=
  (∃ f, why = .fault f) ∨ σ.StoppedBy start why ctx.1 ctx.2

variable {σ}

theorem Proceeding.append {start : κ} {ctx : κ × List Event} (h : σ.Proceeding start ctx)
    {e : Event} (he : ¬ e.Stops) : σ.Proceeding start (σ.replay ctx.1 e, ctx.2 ++ [e]) := by
  refine ⟨by simp [h.1], fun e' he' => ?_⟩
  rcases List.mem_append.mp he' with hold | hnew
  · exact h.2 e' hold
  · rwa [List.mem_singleton.mp hnew]

theorem StoppedBy.ctx_eq {start ctx : κ} {why : Abort} {record : List Event}
    (h : σ.StoppedBy start why ctx record) : ctx = record.foldl σ.replay start := by
  obtain ⟨earlier, id, pos, m, rfl, _, _, hctx⟩ := h
  simp [replay, hctx]

/-- In such a record only the last call asks to stop, and for this one reason. -/
theorem StoppedBy.called_mem_iff {start ctx : κ} {why why' : Abort} {record : List Event}
    (h : σ.StoppedBy start why ctx record) :
    (∃ id pos m, Event.called id pos m (some why') ∈ record) ↔ why = why' := by
  obtain ⟨earlier, id, pos, m, rfl, hearlier, _⟩ := h
  constructor
  · rintro ⟨id', pos', m', hmem⟩
    rcases List.mem_append.mp hmem with hold | hlast
    · exact absurd (by simp [Event.Stops]) (hearlier _ hold)
    · simp_all
  · rintro rfl
    exact ⟨id, pos, m, by simp⟩

theorem recording_minds (start : κ) :
    σ.recording.Minds (σ.Proceeding start) (σ.Halted start) where
  perform e ctx h := h.append (e := .performed e) id
  goesOn id pos m ctx h hgo := by
    have habort : (σ.host.callback id ⟨σ.input, pos⟩ m ctx.1).abort = none := hgo
    simp only [recording, Host.recording, habort]
    exact h.append (e := .called id pos m none) fun hs => hs rfl
  stops id pos m ctx why h hstop := by
    have habort : (σ.host.callback id ⟨σ.input, pos⟩ m ctx.1).abort = some why := hstop
    refine .inr ⟨ctx.2, id, pos, m, by simp [recording, Host.recording, habort], h.2, ?_⟩
    rw [← h.1]
    exact ⟨habort, rfl⟩
  fault f ctx _ := .inl ⟨f, rfl⟩

/-- In an evaluation that does not break off on its own account, a callback stops it with an
error if and only if some call gave that error, and no call asked to stop if it matched or
missed. The call is the last thing that was done: nothing is performed and nothing is called
behind it, and the context is what the events up to it made of the first one. -/
theorem run_stops_iff {p : Pattern} {n : Nat} {s t : State κ} {v : Verdict}
    (h : σ.run n p s = some (v, t)) (hfault : ∀ f, v ≠ .stop (.fault f)) :
    ∃ record, σ.recording.run n p ⟨s.pos, s.ctx, []⟩ = some (v, ⟨t.pos, t.ctx, record⟩) ∧
      t.ctx = record.foldl σ.replay s.ctx ∧
      (∀ e, v = .stop (.hook e) ↔
        ∃ id pos m, Event.called id pos m (some (.hook e)) ∈ record) ∧
      (∀ e, v = .stop (.hook e) → σ.StoppedBy s.ctx (.hook e) t.ctx record) ∧
      (((∃ m, v = .hit m) ∨ v = .miss) ↔ ∀ e ∈ record, ¬ e.Stops) := by
  obtain ⟨record, hrecord⟩ := σ.exists_record h []
  -- the recording run starts with nothing recorded, so nothing has asked to stop yet
  have hleaves := run_upholds (recording_minds s.ctx) n p ⟨s.pos, s.ctx, []⟩ ⟨rfl, by simp⟩ v _
    hrecord
  refine ⟨record, hrecord, ?_⟩
  cases v with
  | hit | miss =>
    obtain ⟨hctx, hgoes⟩ := hleaves
    refine ⟨hctx, fun e => ⟨by simp, ?_⟩, by simp, fun _ => hgoes, fun _ => by simp⟩
    rintro ⟨id, pos, m, hmem⟩
    exact absurd (by simp [Event.Stops]) (hgoes _ hmem)
  | stop why =>
    obtain ⟨f, rfl⟩ | hstop := hleaves
    · exact absurd rfl (hfault f)
    refine ⟨hstop.ctx_eq, fun e => ?_, fun e he => ?_, by simp, fun hgoes => ?_⟩
    · rw [hstop.called_mem_iff, Verdict.stop.injEq]
    · cases he
      exact hstop
    · obtain ⟨id, pos, m, hmem⟩ := hstop.called_mem_iff.mpr rfl
      exact absurd (by simp [Event.Stops]) (hgoes _ hmem)

/-- A callback that gives up on its second call, inside a loop that is negated and looked ahead
at, in the first side of a choice. The second side is not tried, and both captures stay. -/
theorem second_call_stops :
    let tired : Callback Store := fun c _ ctx =>
      { pos := c.pos, ctx
        abort := if ctx.captures.size = 2 then some (.hook ⟨"tired", []⟩) else none }
    let σ : Setting Store :=
      { host := { Store.host with callback := fun _ => tired }, input := #[120, 121, 122] }
    let loop : Pattern := .atLeast (.hook (.forward (.capture .any) 5) 7) 1
    let p : Pattern := .choice (.not (.ahead loop)) (.capture .empty)
    ∃ t, σ.run 4 p ⟨0, {}⟩ = some (.stop (.hook ⟨"tired", []⟩), t) ∧
      t.ctx.captures = #[⟨0, 1⟩, ⟨1, 2⟩] ∧ t.ctx.sinks.content 5 = #[120, 121] ∧
      ∃ record, σ.recording.run 4 p ⟨0, {}, []⟩ =
          some (.stop (.hook ⟨"tired", []⟩), ⟨t.pos, t.ctx, record⟩) ∧
        σ.StoppedBy {} (.hook ⟨"tired", []⟩) t.ctx record := by
  intro tired σ loop p
  have hrun : σ.run 4 p ⟨0, {}⟩ = some (.stop (.hook ⟨"tired", []⟩),
      ⟨2, ⟨#[⟨0, 1⟩, ⟨1, 2⟩], ⟨[(5, #[120, 121])]⟩⟩⟩) := rfl
  obtain ⟨record, hrecord, _, _, hstop, _⟩ := run_stops_iff hrun (by simp)
  exact ⟨_, hrun, rfl, rfl, record, hrecord, hstop _ rfl⟩

end Setting

end Peg
