import Peg.Proofs.Simulation

/-! # Recording what an evaluation does

A host that also records each effect and each call of a callback shows everything that a run
does in between, and what it does besides is what it would have done without the record.
-/
namespace Peg

variable {κ κ' : Type}

namespace Setting

/-- What `σ` does is the image of what `σ'` does, effect by effect and call by call. -/
structure Mirrors (f : κ' → κ) (σ' : Setting κ') (σ : Setting κ) : Prop where
  input : σ.input = σ'.input
  grammar : σ.grammar = σ'.grammar
  perform : ∀ e ctx, σ.host.perform e (f ctx) = f (σ'.host.perform e ctx)
  callback : ∀ id c m ctx, σ.host.callback id c m (f ctx) =
    ⟨(σ'.host.callback id c m ctx).pos, f (σ'.host.callback id c m ctx).ctx,
      (σ'.host.callback id c m ctx).abort⟩

theorem Mirrors.run {f : κ' → κ} {σ' : Setting κ'} {σ : Setting κ} (h : Mirrors f σ' σ)
    (n : Nat) (p : Pattern) : (σ'.run n p).Follows 0 f (σ.run n p) := by
  refine run_follows (h.input ▸ .refl _) h.grammar (fun e ctx => ?_) n p fun q id _ p' p hp => ?_
  · rw [e.shift_zero]
    exact h.perform e ctx
  · rw [h.input]
    exact hp.hook (h.callback id)

end Setting

/-- Something that a run did besides moving: an effect, or the call of a callback at a
position with the span that was matched and the reason to stop that it gave. -/
inductive Event
  | performed (e : Effect)
  | called (id : HookId) (pos : Nat) (m : Option Span) (abort : Option Abort)
  deriving DecidableEq, Repr

def Host.recording (host : Host κ) : Host (κ × List Event) where
  perform e ctx := (host.perform e ctx.1, ctx.2 ++ [.performed e])
  callback id c m ctx :=
    let r := host.callback id c m ctx.1
    { pos := r.pos, ctx := (r.ctx, ctx.2 ++ [.called id c.pos m r.abort]), abort := r.abort }

def Setting.recording (σ : Setting κ) : Setting (κ × List Event) where
  host := σ.host.recording
  input := σ.input
  grammar := σ.grammar

theorem Setting.recording_mirrors (σ : Setting κ) : Mirrors Prod.fst σ.recording σ :=
  ⟨rfl, rfl, fun _ _ => rfl, fun _ _ _ _ => rfl⟩

/-- Recording does not change what a run comes to. -/
theorem Setting.exists_record (σ : Setting κ) {n : Nat} {p : Pattern} {s t : State κ}
    {v : Verdict} (h : σ.run n p s = some (v, t)) (record : List Event) :
    ∃ record', σ.recording.run n p ⟨s.pos, s.ctx, record⟩ =
      some (v, ⟨t.pos, t.ctx, record'⟩) := by
  obtain ⟨u, hu, rfl⟩ :=
    (σ.recording_mirrors.run n p).exists_of_some ⟨s.pos, s.ctx, record⟩ h
  exact ⟨u.ctx.2, hu⟩

end Peg
