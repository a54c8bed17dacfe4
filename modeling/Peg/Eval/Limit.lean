import Peg.Eval.Run

/-! # Limits do not change results

A run that has a result within a limit has the same result within every larger one, so
a pattern has at most one result from a state, whatever the limit.
-/
namespace Peg

variable {κ : Type}

namespace Step

/-- Every result of `p` is a result of `q`. -/
def Below (p q : Step κ) : Prop := ∀ s r, p s = some r → q s = some r

theorem Below.refl (p : Step κ) : p.Below p := fun _ _ h => h

theorem Below.branch {p p' : Step κ} {f f' : Span → Step κ} {g g' : Step κ} (hp : p.Below p')
    (hf : ∀ m, (f m).Below (f' m)) (hg : g.Below g') :
    (Step.branch p f g).Below (Step.branch p' f' g') := by
  intro s r h
  unfold Step.branch at h ⊢
  cases hs : p s with
  | none => simp [hs] at h
  | some x =>
    rw [hp _ _ hs]
    rw [hs] at h
    obtain ⟨v, t⟩ := x
    cases v with
    | hit m => exact hf m _ _ h
    | miss => exact hg _ _ h
    | stop why => exact h

theorem Below.repeated {p p' next next' : Step κ} (hp : p.Below p') (hn : next.Below next')
    (n : Nat) : (Step.repeated p next n).Below (Step.repeated p' next' n) := by
  induction n with
  | zero => exact hn
  | succ n ih => exact hp.branch (fun _ => ih) (.refl _)

/-- A loop that may go more rounds, over a step with more results, has more results. -/
theorem Below.greedy {p p' : Step κ} (hp : p.Below p') (start : Nat) {n m : Nat} (h : n ≤ m)
    (reached : Nat) : (Step.greedy p start n reached).Below (Step.greedy p' start m reached) := by
  induction n generalizing m reached with
  | zero => intro s r hr; simp [Step.greedy] at hr
  | succ n ih =>
    obtain ⟨m, rfl⟩ : ∃ k, m = k + 1 := ⟨m - 1, by omega⟩
    refine hp.branch (fun _ s r hr => ?_) (.refl _)
    split at hr
    · rename_i hs
      simpa [hs] using hr
    · rename_i hs
      rw [if_neg hs]
      exact ih (by omega) _ _ _ hr

theorem Below.upTo {p p' : Step κ} (hp : p.Below p') (start n : Nat) :
    (Step.upTo p start n).Below (Step.upTo p' start n) := by
  induction n with
  | zero => exact .refl _
  | succ n ih =>
    intro s r h
    exact hp.branch (fun _ => ih) (.refl _) s r h

theorem Below.hook {p p' : Step κ} (hp : p.Below p') (input : Array UInt8)
    (callback : Callback κ) : (Step.hook input callback p).Below (Step.hook input callback p') := by
  intro s r h
  unfold Step.hook at h ⊢
  cases hs : p s with
  | none => simp [hs] at h
  | some x =>
    rw [hp _ _ hs]
    rwa [hs] at h

theorem Below.movedTo {p p' : Step κ} (hp : p.Below p') (pos : Nat) :
    (Step.movedTo pos p).Below (Step.movedTo pos p') := fun s => hp { s with pos }

theorem Below.seq {p p' q q' : Step κ} (hp : p.Below p') (hq : q.Below q') :
    (Step.seq p q).Below (Step.seq p' q') :=
  hp.branch (fun _ => hq.branch (fun _ => .refl _) (.refl _)) (.refl _)

theorem Below.choice {p p' q q' : Step κ} (hp : p.Below p') (hq : q.Below q') :
    (Step.choice p q).Below (Step.choice p' q') := by
  intro s
  have hright := hq.branch (fun _ => .refl (Step.close s.pos))
    (.refl (Step.movedTo s.pos (Step.give .miss)))
  exact hp.branch (fun _ => .refl _) (hright.movedTo s.pos) s

theorem Below.not {p p' : Step κ} (hp : p.Below p') : (Step.not p).Below (Step.not p') :=
  fun s => hp.branch (fun _ => .refl _) (.refl _) s

theorem Below.ahead {p p' : Step κ} (hp : p.Below p') : (Step.ahead p).Below (Step.ahead p') :=
  fun s => hp.branch (fun _ => .refl _) (.refl _) s

theorem Below.exactly {p p' : Step κ} (hp : p.Below p') (k : Nat) :
    (Step.exactly p k).Below (Step.exactly p' k) := fun s => hp.repeated (.refl _) k s

theorem Below.atLeast {p p' : Step κ} (hp : p.Below p') {n m : Nat} (h : n ≤ m) (k : Nat) :
    (Step.atLeast p n k).Below (Step.atLeast p' m k) :=
  fun s => hp.repeated (fun t => hp.greedy s.pos h t.pos t) k s

theorem Below.atMost {p p' : Step κ} (hp : p.Below p') (k : Nat) :
    (Step.atMost p k).Below (Step.atMost p' k) := fun s => hp.upTo s.pos k s

theorem Below.forward {p p' : Step κ} (hp : p.Below p') (host : Host κ) (input : Array UInt8)
    (sink : SinkId) : (Step.forward host input sink p).Below (Step.forward host input sink p') :=
  hp.branch (fun _ => .refl _) (.refl _)

theorem Below.capture {p p' : Step κ} (hp : p.Below p') (host : Host κ) :
    (Step.capture host p).Below (Step.capture host p') :=
  hp.branch (fun _ => .refl _) (.refl _)

end Step

/-- More rounds, and more results for each rule, take no result away. -/
theorem Pattern.step_below (σ : Setting κ) {n m : Nat} (h : n ≤ m) {f g : RuleRef → Step κ}
    (hf : ∀ r, (f r).Below (g r)) (p : Pattern) : (p.step σ n f).Below (p.step σ m g) := by
  induction p with
  | literal | set | cls | any => exact .refl _
  | seq a b iha ihb => exact iha.seq ihb
  | choice a b iha ihb => exact iha.choice ihb
  | not p ih => exact ih.not
  | ahead p ih => exact ih.ahead
  | exactly p k ih => exact ih.exactly k
  | atLeast p k ih => exact ih.atLeast h k
  | atMost p k ih => exact ih.atMost k
  | rule r => exact hf r
  | hook p id ih => exact ih.hook _ _
  | forward p sink ih => exact ih.forward _ _ sink
  | capture p ih => exact ih.capture _

namespace Setting

theorem call_below (σ : Setting κ) {n m : Nat} (h : n ≤ m) (r : RuleRef) :
    (σ.call n r).Below (σ.call m r) := by
  induction n generalizing m r with
  | zero => intro s x hx; simp [call] at hx
  | succ n ih =>
    obtain ⟨m, rfl⟩ : ∃ k, m = k + 1 := ⟨m - 1, by omega⟩
    unfold call
    split
    · exact .refl _
    · split
      · exact .refl _
      · exact Pattern.step_below σ (by omega) (ih (by omega)) _

/-- What a run comes to within a limit, it comes to within every larger one. -/
theorem run_below (σ : Setting κ) {n m : Nat} (h : n ≤ m) (p : Pattern) :
    (σ.run n p).Below (σ.run m p) := Pattern.step_below σ h (σ.call_below h) p

/-- Two limits that both suffice give the same result. -/
theorem run_unique (σ : Setting κ) {n m : Nat} {p : Pattern} {s : State κ}
    {x y : Verdict × State κ} (hx : σ.run n p s = some x) (hy : σ.run m p s = some y) :
    x = y := by
  rcases Nat.le_total n m with h | h
  · exact Option.some.inj ((σ.run_below h p s x hx).symm.trans hy)
  · exact Option.some.inj (hx.symm.trans (σ.run_below h p s y hy))

end Setting

end Peg
