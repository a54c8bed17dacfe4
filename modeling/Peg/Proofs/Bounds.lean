import Peg.Eval.Store
import Peg.Proofs.Recording
import Peg.Proofs.Steps

/-! # Evaluations stay in range

As long as callbacks leave the cursor where it is, an evaluation moves forwards from its
start and no further than the end of the input, every match begins where its evaluation
began, and no span is ever closed before its own start. What a host keeps true of its
context through effects and callbacks in that range is therefore true throughout.
-/
namespace Peg

variable {κ : Type}

def Span.Within (lo hi : Nat) (m : Span) : Prop :=
  lo ≤ m.start ∧ m.start ≤ m.stop ∧ m.stop ≤ hi

def Effect.span? : Effect → Option Span
  | .captured m | .forwarded _ m _ => some m
  | .noticed _ => none

/-- Called in the range, the callback leaves the cursor alone and the context good, and a
mark if it gives up. -/
def Callback.Obliges (good : κ → Prop) (halted : Abort → κ → Prop) (lo hi : Nat)
    (callback : Callback κ) : Prop :=
  ∀ c m ctx, good ctx → lo ≤ c.pos → c.pos ≤ hi → (∀ k ∈ m, Span.Within lo hi k) →
    (callback c m ctx).pos = c.pos ∧ good (callback c m ctx).ctx ∧
      ∀ why, (callback c m ctx).abort = some why → halted why (callback c m ctx).ctx

namespace Setting

structure Ongoing (σ : Setting κ) (good : κ → Prop) (start : Nat) (t : State κ) : Prop where
  after : start ≤ t.pos
  before : t.pos ≤ max start σ.input.size
  good : good t.ctx

/-- An evaluation from `start` came out in its range. A match covers what was passed, and
a stop left its mark on the context. -/
structure Kept (σ : Setting κ) (good : κ → Prop) (halted : Abort → κ → Prop) (start : Nat)
    (v : Verdict) (t : State κ) : Prop extends σ.Ongoing good start t where
  span : ∀ m, v = .hit m → m.start = start ∧ t.pos ≤ m.stop ∧ m.stop ≤ max start σ.input.size
  halted : ∀ why, v = .stop why → halted why t.ctx

variable {σ : Setting κ} {good : κ → Prop} {halted : Abort → κ → Prop} {start lo hi : Nat}
variable {s t u : State κ} {p q : Step κ}

theorem Ongoing.refl (h : good s.ctx) : σ.Ongoing good s.pos s :=
  ⟨Nat.le_refl _, Nat.le_max_left _ _, h⟩

theorem Ongoing.trans (hu : σ.Ongoing good start u) (ht : σ.Ongoing good u.pos t) :
    σ.Ongoing good start t := by
  have h₁ := hu.after
  have h₂ := hu.before
  have h₃ := ht.after
  have h₄ := ht.before
  exact ⟨by omega, by omega, ht.good⟩

theorem Ongoing.back (h : σ.Ongoing good start t) : σ.Ongoing good start { t with pos := start } :=
  .refl (s := { t with pos := start }) h.good

theorem Ongoing.withCtx (h : σ.Ongoing good start t) {ctx : κ} (hctx : good ctx) :
    σ.Ongoing good start { t with ctx } := ⟨h.after, h.before, hctx⟩

theorem Ongoing.miss (h : σ.Ongoing good start t) : σ.Kept good halted start .miss t :=
  { h with span := by simp, halted := by simp }

theorem Ongoing.hit (h : σ.Ongoing good start t) {m : Span} (hm : m.start = start)
    (hpos : t.pos ≤ m.stop) (hstop : m.stop ≤ max start σ.input.size) :
    σ.Kept good halted start (.hit m) t :=
  { h with span := by rintro _ ⟨⟩; exact ⟨hm, hpos, hstop⟩, halted := by simp }

theorem Ongoing.stop (h : σ.Ongoing good start t) {why : Abort} (hw : halted why t.ctx) :
    σ.Kept good halted start (.stop why) t :=
  { h with span := by simp, halted := by rintro _ ⟨⟩; exact hw }

theorem Ongoing.stopped (hu : σ.Ongoing good start u) {why : Abort}
    (ht : σ.Kept good halted u.pos (.stop why) t) : σ.Kept good halted start (.stop why) t :=
  (hu.trans ht.toOngoing).stop (ht.halted why rfl)

theorem Ongoing.close (h : σ.Ongoing good start s) :
    (Step.close start).Ensures s (σ.Kept good halted start) :=
  .close h.after (h.hit rfl (Nat.le_refl _) h.before)

/-- The span of a match lies in every range that its evaluation lies in. -/
theorem Kept.within {m : Span} (h : σ.Kept good halted start (.hit m) t) (hlo : lo ≤ start)
    (hhi : max start σ.input.size ≤ hi) : m.Within lo hi := by
  obtain ⟨hm, hpos, hstop⟩ := h.span m rfl
  have hafter := h.after
  exact ⟨by omega, by omega, by omega⟩

variable (σ good halted lo hi)

def Keeps (p : Step κ) : Prop :=
  ∀ s, good s.ctx → lo ≤ s.pos → s.pos ≤ hi → p.Ensures s (σ.Kept good halted s.pos)

def Performs : Prop :=
  ∀ e ctx, good ctx → (∀ m ∈ e.span?, m.Within lo hi) → good (σ.host.perform e ctx)

variable {σ good halted lo hi}

namespace Keeps

theorem literal (bytes : List UInt8) :
    σ.Keeps good halted lo hi fun s => Step.literal σ.input s.pos bytes s := by
  intro s hgood _ _
  refine Step.Ensures.literal bytes (Nat.le_refl _) (fun h => ?_) (fun i hi _ => ?_)
  · have hlength : bytes.length ≤ σ.input.size - s.pos := by simpa using h.length_le
    have hend : σ.Ongoing good s.pos { s with pos := s.pos + bytes.length } :=
      ⟨Nat.le_add_right _ _, by dsimp only; omega, hgood⟩
    exact hend.hit rfl (Nat.le_refl _) hend.before
  · exact Ongoing.miss ⟨Nat.le_add_right _ _, hi, hgood⟩

theorem oneByte (accept : UInt8 → Bool) :
    σ.Keeps good halted lo hi (Step.oneByte σ.input accept) := by
  intro s hgood _ _
  have hnext : ∀ b, σ.input[s.pos]? = some b →
      σ.Ongoing good s.pos { s with pos := s.pos + 1 } := by
    intro b hb
    obtain ⟨hlt, _⟩ := Array.getElem?_eq_some_iff.mp hb
    exact ⟨by dsimp; omega, by dsimp; omega, hgood⟩
  refine .oneByte (fun _ => (Ongoing.refl hgood).miss) (fun b hb _ => (hnext b hb).miss) ?_
  intro b hb _
  exact (hnext b hb).hit rfl (Nat.le_refl _) (hnext b hb).before

theorem seq (hsize : σ.input.size ≤ hi) (hp : σ.Keeps good halted lo hi p)
    (hq : σ.Keeps good halted lo hi q) : σ.Keeps good halted lo hi (Step.seq p q) := by
  intro s hgood hlo hhi
  refine (hp s hgood hlo hhi).branch (fun m u hm => ?_) (fun u hu => .give hu) (fun _ _ hu => hu)
  obtain ⟨hstart, hpos, hstop⟩ := hm.span m rfl
  have hafter := hm.after
  have hbefore := hm.before
  refine (hq u hm.good (by omega) (by omega)).branch (fun n t hn => .give ?_)
    (fun t ht => .give (hm.trans ht.toOngoing).miss) (fun _ _ ht => hm.stopped ht)
  obtain ⟨_, hpos', hstop'⟩ := hn.span n rfl
  exact (hm.trans hn.toOngoing).hit (by simpa using hstart) (by simpa using hpos')
    (by dsimp; omega)

theorem choice (hp : σ.Keeps good halted lo hi p) (hq : σ.Keeps good halted lo hi q) :
    σ.Keeps good halted lo hi (Step.choice p q) := by
  intro s hgood hlo hhi
  refine Step.Ensures.branch (hp s hgood hlo hhi) (fun m u hm => hm.close) (fun u hu => ?_)
    (fun _ _ hu => hu)
  refine .movedTo (Step.Ensures.branch (hq _ hu.good hlo hhi) (fun m t hm => hm.close)
    (fun t ht => ?_) (fun _ _ ht => ht))
  exact .movedTo (.give ht.back.miss)

theorem not (hp : σ.Keeps good halted lo hi p) : σ.Keeps good halted lo hi (Step.not p) := by
  intro s hgood hlo hhi
  refine Step.Ensures.branch (hp s hgood hlo hhi)
    (fun m u hm => .movedTo (.give hm.back.miss)) (fun u hu => ?_) (fun _ _ hu => hu)
  exact .movedTo (.give (hu.back.hit rfl (Nat.le_refl _) (Nat.le_max_left _ _)))

theorem ahead (hp : σ.Keeps good halted lo hi p) : σ.Keeps good halted lo hi (Step.ahead p) := by
  intro s hgood hlo hhi
  refine Step.Ensures.branch (hp s hgood hlo hhi) (fun m u hm => ?_)
    (fun u hu => .movedTo (.give hu.back.miss)) (fun _ _ hu => hu)
  obtain ⟨hstart, hpos, hstop⟩ := hm.span m rfl
  exact .movedTo (.give (hm.back.hit hstart (Nat.le_trans hm.after hpos) hstop))

section Loops

variable {next : Step κ} (hlo : lo ≤ start) (hhi : max start σ.input.size ≤ hi)
include hlo hhi

theorem onwards (hp : σ.Keeps good halted lo hi p) (hs : σ.Ongoing good start s) :
    p.Ensures s (σ.Kept good halted s.pos) := by
  have hafter := hs.after
  have hbefore := hs.before
  exact hp s hs.good (by omega) (by omega)

theorem repeated (hp : σ.Keeps good halted lo hi p)
    (hnext : ∀ s, σ.Ongoing good start s → next.Ensures s (σ.Kept good halted start)) (n : Nat) :
    ∀ s, σ.Ongoing good start s →
      (Step.repeated p next n).Ensures s (σ.Kept good halted start) := by
  induction n with
  | zero => exact hnext
  | succ n ih =>
    intro s hs
    exact (hp.onwards hlo hhi hs).branch (fun m u hm => ih u (hs.trans hm.toOngoing))
      (fun u hu => .give (hs.trans hu.toOngoing).miss) (fun _ _ hu => hs.stopped hu)

theorem greedy (hp : σ.Keeps good halted lo hi p) (rounds : Nat) :
    ∀ s, σ.Ongoing good start s →
      (Step.greedy p start rounds s.pos).Ensures s (σ.Kept good halted start) := by
  induction rounds with
  | zero => exact fun s _ v t ht => by simp [Step.greedy] at ht
  | succ rounds ih =>
    intro s hs
    have hback : ∀ u, σ.Ongoing good s.pos u →
        (Step.movedTo s.pos (Step.close start)).Ensures u (σ.Kept good halted start) :=
      fun u hu => .movedTo (hs.trans hu.back).close
    refine (hp.onwards hlo hhi hs).branch (fun m u hm => ?_) (fun u hu => hback u hu.toOngoing)
      (fun _ _ hu => hs.stopped hu)
    intro v t ht
    dsimp only at ht
    split at ht
    · exact hback u hm.toOngoing v t ht
    · exact ih u (hs.trans hm.toOngoing) v t ht

theorem upTo (hp : σ.Keeps good halted lo hi p) (n : Nat) :
    ∀ s, σ.Ongoing good start s →
      (Step.upTo p start n).Ensures s (σ.Kept good halted start) := by
  induction n with
  | zero => exact fun s hs => hs.close
  | succ n ih =>
    intro s hs
    exact Step.Ensures.branch (hp.onwards hlo hhi hs)
      (fun m u hm => ih u (hs.trans hm.toOngoing))
      (fun u hu => .movedTo (hs.trans hu.back).close) (fun _ _ hu => hs.stopped hu)

end Loops

theorem exactly (hsize : σ.input.size ≤ hi) (hp : σ.Keeps good halted lo hi p) (n : Nat) :
    σ.Keeps good halted lo hi (Step.exactly p n) := by
  intro s hgood hlo hhi
  exact hp.repeated hlo (by omega) (fun u hu => hu.close) n s (.refl hgood)

theorem atLeast (hsize : σ.input.size ≤ hi) (hp : σ.Keeps good halted lo hi p) (rounds n : Nat) :
    σ.Keeps good halted lo hi (Step.atLeast p rounds n) := by
  intro s hgood hlo hhi
  exact hp.repeated hlo (by omega) (fun u hu => hp.greedy hlo (by omega) rounds u hu) n s
    (.refl hgood)

theorem atMost (hsize : σ.input.size ≤ hi) (hp : σ.Keeps good halted lo hi p) (n : Nat) :
    σ.Keeps good halted lo hi (Step.atMost p n) := by
  intro s hgood hlo hhi
  exact hp.upTo hlo (by omega) n s (.refl hgood)

theorem capture (hsize : σ.input.size ≤ hi) (hperform : σ.Performs good lo hi)
    (hp : σ.Keeps good halted lo hi p) : σ.Keeps good halted lo hi (Step.capture σ.host p) := by
  intro s hgood hlo hhi
  refine (hp s hgood hlo hhi).branch (fun m u hm => ?_) (fun u hu => .give hu) (fun _ _ hu => hu)
  obtain ⟨hstart, hpos, hstop⟩ := hm.span m rfl
  have hctx := hperform (.captured m) u.ctx hm.good (by
    rintro _ ⟨⟩
    exact hm.within hlo (by omega))
  exact .performing (.give ((hm.withCtx hctx).hit hstart hpos hstop))

theorem forward (hsize : σ.input.size ≤ hi) (hperform : σ.Performs good lo hi) (sink : SinkId)
    (hp : σ.Keeps good halted lo hi p) :
    σ.Keeps good halted lo hi (Step.forward σ.host σ.input sink p) := by
  intro s hgood hlo hhi
  refine .forward (hp s hgood hlo hhi) (fun m u hm => ?_) (fun _ hu => hu) (fun _ _ hu => hu)
  obtain ⟨hstart, hpos, hstop⟩ := hm.span m rfl
  have hwithin : m.Within lo hi := hm.within hlo (by omega)
  have hctx := hperform (.forwarded sink m (σ.input.extract m.start m.stop)) u.ctx hm.good (by
    rintro _ ⟨⟩
    exact hwithin)
  exact ⟨hwithin.2.1, (hm.withCtx hctx).hit hstart hpos hstop⟩

theorem hook {callback : Callback κ} (hc : Callback.Obliges good halted lo hi callback)
    (hsize : σ.input.size ≤ hi) (hp : σ.Keeps good halted lo hi p) :
    σ.Keeps good halted lo hi (Step.hook σ.input callback p) := by
  intro s hgood hlo hhi
  refine .hook (hp s hgood hlo hhi) (fun _ _ hu => hu) (fun v u hu hv => ?_)
  have hafter := hu.after
  have hbefore := hu.before
  have hspan : ∀ k ∈ v.span?, Span.Within lo hi k := by
    intro k hk
    cases v with
    | hit m =>
      cases hk
      exact hu.within hlo (by omega)
    | miss | stop => simp [Verdict.span?] at hk
  obtain ⟨hpos, hctx, habort⟩ :=
    hc ⟨σ.input, u.pos⟩ v.span? u.ctx hu.good (by dsimp; omega) (by dsimp; omega) hspan
  have hon := hu.toOngoing.withCtx hctx
  dsimp only at hpos ⊢
  rw [hpos]
  exact ⟨fun _ => { hon with span := hu.span, halted := fun why h => absurd h (hv why) },
    fun why hwhy => hon.stop (habort why hwhy)⟩

end Keeps

/-- What holds within one part holds within every run: the host keeps the context good
and the callbacks that can be met oblige. -/
theorem run_keeps (good : κ → Prop) (halted : Abort → κ → Prop) (lo : Nat) {hi : Nat}
    (hsize : σ.input.size ≤ hi) (hperform : σ.Performs good lo hi) (n : Nat) (p : Pattern)
    (hc : ∀ q id, Pattern.Reaches σ.rules p (.hook q id) →
      Callback.Obliges good halted lo hi (σ.host.callback id)) :
    σ.Keeps good halted lo hi (σ.run n p) := by
  induction n, p using σ.run_induct with
  | literal n bytes => exact .literal bytes
  | oneByte n p accept h =>
    rw [σ.run_oneByte h]
    exact .oneByte accept
  | seq n a b iha ihb =>
    exact .seq hsize (iha fun q id hr => hc q id (.part (.seqLeft a b) hr))
      (ihb fun q id hr => hc q id (.part (.seqRight a b) hr))
  | choice n a b iha ihb =>
    exact .choice (iha fun q id hr => hc q id (.part (.choiceLeft a b) hr))
      (ihb fun q id hr => hc q id (.part (.choiceRight a b) hr))
  | not n p ih => exact .not (ih fun q id hr => hc q id (.part (.not p) hr))
  | ahead n p ih => exact .ahead (ih fun q id hr => hc q id (.part (.ahead p) hr))
  | exactly n p k ih =>
    exact .exactly hsize (ih fun q id hr => hc q id (.part (.exactly p k) hr)) k
  | atLeast n p k ih =>
    exact .atLeast hsize (ih fun q id hr => hc q id (.part (.atLeast p k) hr)) n k
  | atMost n p k ih =>
    exact .atMost hsize (ih fun q id hr => hc q id (.part (.atMost p k) hr)) k
  | spent r => exact fun s _ _ _ v t ht => by simp [run_rule_zero] at ht
  | body n r p hr ih =>
    rw [σ.run_rule_body hr]
    exact ih fun q id hq => hc q id (.body hr hq)
  | unresolved n r hr =>
    rw [σ.run_rule_none hr]
    intro s hgood _ _
    have hctx := hperform (.noticed (σ.absence r)) s.ctx hgood (by simp [Effect.span?])
    exact .performing (.give ((Ongoing.refl hgood).withCtx hctx).miss)
  | hook n p id ih =>
    exact .hook (hc p id (.refl _)) hsize (ih fun q id' hr => hc q id' (.part (.hook p id) hr))
  | forward n p sink ih =>
    exact .forward hsize hperform sink (ih fun q id hr => hc q id (.part (.forward p sink) hr))
  | capture n p ih =>
    exact .capture hsize hperform (ih fun q id hr => hc q id (.part (.capture p) hr))

/-- As long as callbacks keep the cursor where it is, a run stays in the input or where it began,
and so do the spans that it comes to. -/
theorem run_inRange {p : Pattern} (hp : σ.KeepsPosition p) (n : Nat) (s : State κ) :
    (σ.run n p).Ensures s (σ.Kept (fun _ => True) (fun _ _ => True) s.pos) := by
  refine run_keeps _ _ 0 (Nat.le_max_right s.pos _) (fun _ _ _ _ => trivial) n p
    (fun q id hr c m ctx _ _ _ _ => ?_) s trivial (Nat.zero_le _) (Nat.le_max_left _ _)
  exact ⟨hp q id hr c m ctx, trivial, fun _ _ => trivial⟩

/-- As long as callbacks leave the cursor alone, no match stops before it starts. -/
theorem run_ordered {p : Pattern} (hp : σ.KeepsPosition p) (n : Nat) (s : State κ) :
    (σ.run n p).Ensures s fun v _ => ∀ m, v = .hit m → m.start ≤ m.stop := by
  rintro _ t ht m rfl
  exact ((run_inRange hp n s _ t ht).within (Nat.zero_le _) (Nat.le_refl _)).2.1

/-- Only callbacks stop an evaluation. -/
theorem run_ne_stop {p : Pattern} (hp : p.HookFree σ.rules) {n : Nat} {s t : State κ}
    {why : Abort} : σ.run n p s ≠ some (.stop why, t) := by
  intro h
  have hkept := σ.run_keeps (fun _ => True) (fun _ _ => False) 0 (Nat.le_max_right s.pos _)
    (fun _ _ _ _ => trivial) n p (fun q id hr => absurd hr (hp q id)) s trivial (Nat.zero_le _)
    (Nat.le_max_left _ _)
  exact (hkept _ _ h).halted why rfl

end Setting

def Event.Within (lo hi : Nat) : Event → Prop
  | .performed e => ∀ m ∈ e.span?, m.Within lo hi
  | .called _ pos m _ => (lo ≤ pos ∧ pos ≤ hi) ∧ ∀ k ∈ m, k.Within lo hi

def RecordWithin (lo hi : Nat) (ctx : κ × List Event) : Prop := ∀ e ∈ ctx.2, e.Within lo hi

def EndsInCall (why : Abort) (ctx : κ × List Event) : Prop :=
  ∃ id pos m, ctx.2.getLast? = some (.called id pos m (some why))

theorem RecordWithin.append {lo hi : Nat} {ctx : κ × List Event} {e : Event}
    (h : RecordWithin lo hi ctx) (he : e.Within lo hi) (c : κ) :
    RecordWithin lo hi (c, ctx.2 ++ [e]) := by
  intro e' he'
  rcases List.mem_append.mp he' with hold | hnew
  · exact h e' hold
  · rw [List.mem_singleton.mp hnew]
    exact he

theorem Event.Within.mono {lo hi lo' hi' : Nat} {e : Event} (h : e.Within lo hi)
    (hlo : lo' ≤ lo) (hhi : hi ≤ hi') : e.Within lo' hi' := by
  have hspan : ∀ m : Span, m.Within lo hi → m.Within lo' hi' := by
    rintro m ⟨h₁, h₂, h₃⟩
    exact ⟨by omega, h₂, by omega⟩
  cases e with
  | performed e => exact fun m hm => hspan m (h m hm)
  | called id pos m abort =>
    obtain ⟨⟨h₁, h₂⟩, h₃⟩ := h
    exact ⟨⟨by omega, by omega⟩, fun k hk => hspan k (h₃ k hk)⟩

namespace Setting

variable {σ : Setting κ}

theorem recording_performs (lo hi : Nat) : σ.recording.Performs (RecordWithin lo hi) lo hi := by
  intro e ctx hctx hspan
  have he : (Event.performed e).Within lo hi := hspan
  exact hctx.append he _

/-- A callback that keeps the position records a span in the range, and then the reason why it
stops, if it does. -/
theorem recording_obliges {id : HookId} {lo hi : Nat}
    (h : ∀ c m ctx, (σ.host.callback id c m ctx).pos = c.pos) :
    Callback.Obliges (RecordWithin lo hi) EndsInCall lo hi (σ.recording.host.callback id) := by
  intro c m ctx hctx hlo hhi hspan
  have he : (Event.called id c.pos m (σ.host.callback id c m ctx.1).abort).Within lo hi :=
    ⟨⟨hlo, hhi⟩, hspan⟩
  refine ⟨h c m ctx.1, hctx.append he _, fun why hwhy => ?_⟩
  have habort : (σ.host.callback id c m ctx.1).abort = some why := hwhy
  exact ⟨id, c.pos, m, by simp [recording, Host.recording, habort]⟩

/-- An evaluation whose callbacks leave the cursor alone stays between its start and the
end of the input, or where it is if it starts behind that: the cursor, the match, and all
that is captured, forwarded or shown to a callback on the way, whatever becomes of it.
So positions stay in one word if the start and the size do. The evaluator itself never
breaks off: when an evaluation stops, the last thing done in it is the call of a callback
that asked for it. -/
theorem run_within {p : Pattern} (hp : σ.KeepsPosition p) {n start : Nat} {ctx : κ}
    {v : Verdict} {t : State κ} (h : σ.run n p ⟨start, ctx⟩ = some (v, t)) :
    (start ≤ t.pos ∧ t.pos ≤ max start σ.input.size) ∧
    (∀ m, v = .hit m → m.start = start ∧ t.pos ≤ m.stop ∧ m.stop ≤ max start σ.input.size) ∧
    ∃ record, σ.recording.run n p ⟨start, ctx, []⟩ = some (v, ⟨t.pos, t.ctx, record⟩) ∧
      (∀ e ∈ record, e.Within start (max start σ.input.size)) ∧
      (start < UInt64.size → σ.input.size < UInt64.size →
        ∀ e ∈ record, e.Within 0 (UInt64.size - 1)) ∧
      ∀ why, v = .stop why → ∃ id pos m, record.getLast? = some (.called id pos m (some why)) := by
  obtain ⟨record, hrecord⟩ := σ.exists_record h []
  have hkept := σ.recording.run_keeps _ _ start (Nat.le_max_right start _)
    (recording_performs start _) n p (fun q id hr => recording_obliges (hp q id hr))
    ⟨start, ctx, []⟩ (fun e he => by simp at he) (Nat.le_refl _) (Nat.le_max_left _ _) v _ hrecord
  refine ⟨⟨hkept.after, hkept.before⟩, hkept.span, record, hrecord, hkept.good, ?_, hkept.halted⟩
  intro hstart hsize e he
  have hend : max start σ.input.size ≤ UInt64.size - 1 :=
    Nat.le_sub_one_of_lt (Nat.max_lt.mpr ⟨hstart, hsize⟩)
  exact (hkept.good e he).mono (Nat.zero_le _) hend

/-- A capture on a side that is given up, then a lookahead, a copy and a callback. -/
theorem abandoned_capture_within :
    let σ : Setting Store := { host := Store.host, input := #[97, 98] }
    let p : Pattern := .choice (.seq (.capture .any) (.literal [99]))
      (.hook (.seq (.ahead (.literal [97, 98])) (.forward .any 0)) 3)
    σ.KeepsPosition p ∧ ∃ v t, σ.run 0 p ⟨0, {}⟩ = some (v, t) ∧ (0 ≤ t.pos ∧ t.pos ≤ 2) ∧
      (∀ m, v = .hit m → m.start = 0 ∧ t.pos ≤ m.stop ∧ m.stop ≤ 2) ∧
      ∃ record, σ.recording.run 0 p ⟨0, {}, []⟩ = some (v, ⟨t.pos, t.ctx, record⟩) ∧
        (∀ e ∈ record, e.Within 0 2) ∧ ∀ why, v ≠ .stop why := by
  intro σ p
  have hkeeps : σ.KeepsPosition p := fun _ _ _ _ _ _ => rfl
  have hrun : σ.run 0 p ⟨0, {}⟩ =
      some (.hit ⟨0, 1⟩, ⟨1, ⟨#[⟨0, 1⟩], ⟨[(0, #[97])]⟩⟩⟩) := rfl
  obtain ⟨hcursor, hspan, record, hrecord, hwithin, _⟩ := run_within hkeeps hrun
  exact ⟨hkeeps, _, _, hrun, hcursor, hspan, record, hrecord, hwithin, by simp⟩

end Setting

end Peg
