import Peg.Proofs.Reach

/-! # What a step ensures, and when it ends

A condition is ensured by a step if it holds of every result that the step has. Steps
that are put together ensure what their parts hand on to each other, and end when their
parts end wherever they are taken up; where a loop began does not matter for that.
-/
namespace Peg.Step

variable {κ : Type} {p next : Step κ} {s u : State κ} {post pre : Verdict → State κ → Prop}

def Ensures (p : Step κ) (s : State κ) (post : Verdict → State κ → Prop) : Prop :=
  ∀ v t, p s = some (v, t) → post v t

theorem Ensures.mono (h : Ensures p s pre) (hpost : ∀ v t, pre v t → post v t) :
    Ensures p s post := fun v t ht => hpost v t (h v t ht)

theorem Ensures.and (h : Ensures p s pre) (h' : Ensures p s post) :
    Ensures p s fun v t => pre v t ∧ post v t := fun v t ht => ⟨h v t ht, h' v t ht⟩

theorem Ensures.give {v : Verdict} (h : post v s) : Ensures (Step.give v) s post := by
  intro v t ht
  cases ht
  exact h

theorem Ensures.movedTo {pos : Nat} (h : Ensures next { s with pos } post) :
    Ensures (Step.movedTo pos next) s post := h

theorem Ensures.performing {host : Host κ} {e : Effect}
    (h : Ensures next { s with ctx := host.perform e s.ctx } post) :
    Ensures (Step.performing host e next) s post := h

/-- What a part ensures is handed on to the way that is taken behind it. -/
theorem Ensures.branch {f : Span → Step κ} {g : Step κ} (hp : Ensures p s pre)
    (hit : ∀ m u, pre (.hit m) u → Ensures (f m) u post)
    (miss : ∀ u, pre .miss u → Ensures g u post)
    (stop : ∀ why u, pre (.stop why) u → post (.stop why) u) :
    Ensures (Step.branch p f g) s post := by
  intro v t ht
  unfold Step.branch at ht
  cases hs : p s with
  | none => simp [hs] at ht
  | some x =>
    obtain ⟨w, u⟩ := x
    rw [hs] at ht
    cases w with
    | hit m => exact hit m u (hp _ _ hs) v t ht
    | miss => exact miss u (hp _ _ hs) v t ht
    | stop why =>
      cases ht
      exact stop why _ (hp _ _ hs)

theorem close_of_le {start : Nat} (h : start ≤ s.pos) :
    close start s = some (.hit ⟨start, s.pos⟩, s) := by
  simp [close, Span.between_of_le h]

theorem Ensures.close {start : Nat} (h : start ≤ s.pos) (hpost : post (.hit ⟨start, s.pos⟩) s) :
    Ensures (Step.close start) s post := by
  intro v t ht
  rw [close_of_le h] at ht
  cases ht
  exact hpost

/-- A literal ends behind its bytes if they come next, and else somewhere on the way. -/
theorem Ensures.literal {input : Array UInt8} {start : Nat} (bytes : List UInt8)
    (hs : start ≤ s.pos)
    (hit : bytes <+: input.toList.drop s.pos →
      post (.hit ⟨start, s.pos + bytes.length⟩) { s with pos := s.pos + bytes.length })
    (miss : ∀ i, s.pos + i ≤ max s.pos input.size → ¬ bytes <+: input.toList.drop s.pos →
      post .miss { s with pos := s.pos + i }) :
    Ensures (Step.literal input start bytes) s post := by
  induction bytes generalizing s post with
  | nil => exact .close hs (hit List.nil_prefix)
  | cons b rest ih =>
    cases hc : input[s.pos]? with
    | none =>
      have hend : input.toList.drop s.pos = [] := by simpa using Array.getElem?_eq_none_iff.mp hc
      intro v t ht
      simp only [Step.literal, hc] at ht
      cases ht
      exact miss 0 (Nat.le_max_left _ _) (by simp [hend])
    | some c =>
      obtain ⟨hlt, rfl⟩ := Array.getElem?_eq_some_iff.mp hc
      have hrest : input.toList.drop s.pos = input[s.pos] :: input.toList.drop (s.pos + 1) := by
        simp [List.drop_eq_getElem_cons, hlt]
      by_cases hbc : input[s.pos] = b
      · have hgo : Ensures (Step.literal input start rest) { s with pos := s.pos + 1 } post := by
          refine ih (Nat.le_succ_of_le hs) (fun h => ?_) (fun i hi h => ?_)
          · have hb := hit (by rw [hrest, hbc]; exact (List.prefix_cons_inj b).mpr h)
            simpa [Nat.add_assoc, Nat.add_comm 1] using hb
          · have hb := miss (1 + i) (by dsimp only at hi; omega) (fun h' => h (by
              rw [hrest, hbc] at h'
              exact (List.prefix_cons_inj b).mp h'))
            simpa [Nat.add_assoc] using hb
        intro v t ht
        simp only [Step.literal, hc, if_pos hbc] at ht
        exact hgo v t ht
      · intro v t ht
        simp only [Step.literal, hc, if_neg hbc] at ht
        cases ht
        refine miss 1 (by omega) fun h => hbc ?_
        rw [hrest] at h
        exact (List.cons_prefix_cons.mp h).1.symm

theorem Ensures.oneByte {input : Array UInt8} {accept : UInt8 → Bool}
    (stuck : input[s.pos]? = none → post .miss s)
    (refused : ∀ b, input[s.pos]? = some b → accept b = false →
      post .miss { s with pos := s.pos + 1 })
    (accepted : ∀ b, input[s.pos]? = some b → accept b = true →
      post (.hit ⟨s.pos, s.pos + 1⟩) { s with pos := s.pos + 1 }) :
    Ensures (Step.oneByte input accept) s post := by
  intro v t ht
  unfold Step.oneByte at ht
  cases hb : input[s.pos]? with
  | none =>
    rw [hb] at ht
    cases ht
    exact stuck hb
  | some b =>
    simp only [hb] at ht
    by_cases ha : accept b
    · rw [if_pos ha, close_of_le (Nat.le_succ s.pos)] at ht
      cases ht
      exact accepted b hb ha
    · rw [if_neg ha] at ht
      cases ht
      exact refused b hb (by simpa using ha)

/-- The callback comes after a match or a miss, and not after anything else. -/
theorem Ensures.hook {input : Array UInt8} {callback : Callback κ} (hp : Ensures p s pre)
    (stop : ∀ why u, pre (.stop why) u → post (.stop why) u)
    (call : ∀ v u, pre v u → (∀ why, v ≠ .stop why) →
      let r := callback ⟨input, u.pos⟩ v.span? u.ctx
      (r.abort = none → post v ⟨r.pos, r.ctx⟩) ∧
        ∀ why, r.abort = some why → post (.stop why) ⟨r.pos, r.ctx⟩) :
    Ensures (Step.hook input callback p) s post := by
  intro v t ht
  unfold Step.hook at ht
  cases hs : p s with
  | none => simp [hs] at ht
  | some x =>
    obtain ⟨w, u⟩ := x
    rw [hs] at ht
    have hw := hp _ _ hs
    cases w with
    | stop why =>
      cases ht
      exact stop why _ hw
    | hit | miss =>
      obtain ⟨hgo, hstop⟩ := call _ u hw (by simp)
      dsimp only at ht
      split at ht
      · rename_i hr
        cases ht
        exact hgo hr
      · rename_i why hr
        cases ht
        exact hstop why hr

theorem Ensures.forward {host : Host κ} {input : Array UInt8} {sink : SinkId}
    (hp : Ensures p s pre)
    (hit : ∀ m u, pre (.hit m) u → m.start ≤ m.stop ∧
      post (.hit m) ⟨u.pos,
        host.perform (.forwarded sink m (input.extract m.start m.stop)) u.ctx⟩)
    (miss : ∀ u, pre .miss u → post .miss u)
    (stop : ∀ why u, pre (.stop why) u → post (.stop why) u) :
    Ensures (Step.forward host input sink p) s post := by
  refine .branch hp (fun m u hu => ?_) (fun u hu => .give (miss u hu)) stop
  obtain ⟨hle, hpost⟩ := hit m u hu
  intro v t ht
  simp only [Span.replay_of_le hle, Step.performing, Step.movedTo, Step.give] at ht
  cases ht
  exact hpost

def Onward (p : Step κ) : Prop := ∀ s, p.Ensures s fun _ t => s.pos ≤ t.pos

theorem Ensures.close_same (start : Nat) (s : State κ) :
    (Step.close start).Ensures s fun _ t => t = s := by
  intro v t ht
  unfold Step.close at ht
  split at ht <;> cases ht <;> rfl

theorem Onward.close (start : Nat) : (Step.close (κ := κ) start).Onward :=
  fun s => (Ensures.close_same start s).mono fun _ _ h => h ▸ Nat.le_refl _

theorem Onward.repeated (hp : p.Onward) (hnext : next.Onward) (n : Nat) :
    (Step.repeated p next n).Onward := by
  induction n with
  | zero => exact hnext
  | succ n ih =>
    intro s
    exact (hp s).branch (fun _ u hu => (ih u).mono fun _ _ h => Nat.le_trans hu h)
      (fun _ hu => .give hu) (fun _ _ hu => hu)

theorem Onward.greedy (hp : p.Onward) (start rounds : Nat) :
    ∀ s, (Step.greedy p start rounds s.pos).Ensures s fun _ t => s.pos ≤ t.pos := by
  induction rounds with
  | zero => exact fun s v t ht => by simp [Step.greedy] at ht
  | succ rounds ih =>
    intro s
    have hback : ∀ u : State κ,
        (Step.movedTo s.pos (Step.close start)).Ensures u fun _ t => s.pos ≤ t.pos :=
      fun u => Onward.close start { u with pos := s.pos }
    refine (hp s).branch (fun _ u hu => ?_) (fun u _ => hback u) (fun _ _ hu => hu)
    intro v t ht
    dsimp only at ht
    split at ht
    · exact hback u v t ht
    · exact Nat.le_trans hu (ih u v t ht)

theorem branch_hit {f : Span → Step κ} {g : Step κ} {m : Span} (h : p s = some (.hit m, u)) :
    branch p f g s = f m u := by
  simp [branch, h]

theorem branch_miss {f : Span → Step κ} {g : Step κ} (h : p s = some (.miss, u)) :
    branch p f g s = g u := by
  simp [branch, h]

/-! Going on after a step that itself goes on: the ways after the first step come first. -/

theorem branch_branch (p : Step κ) (f f' : Span → Step κ) (g g' : Step κ) :
    branch (branch p f g) f' g' = branch p (fun m => branch (f m) f' g') (branch g f' g') := by
  funext s
  simp only [branch]
  cases p s with
  | none => rfl
  | some r =>
    obtain ⟨v, t⟩ := r
    cases v <;> rfl

theorem branch_give_hit (m : Span) (f : Span → Step κ) (g : Step κ) :
    branch (give (.hit m)) f g = f m := rfl

theorem branch_give_miss (f : Span → Step κ) (g : Step κ) : branch (give .miss) f g = g := rfl

theorem branch_give (p : Step κ) : branch p (fun m => give (.hit m)) (give .miss) = p := by
  funext s
  simp only [branch]
  cases p s with
  | none => rfl
  | some r =>
    obtain ⟨v, t⟩ := r
    cases v <;> rfl

theorem branch_movedTo (pos : Nat) (p : Step κ) (f : Span → Step κ) (g : Step κ) :
    branch (movedTo pos p) f g = movedTo pos (branch p f g) := rfl

theorem movedTo_movedTo (pos pos' : Nat) (p : Step κ) :
    movedTo pos (movedTo pos' p) = movedTo pos' p := rfl

/-- Closing once more from the same start changes nothing. -/
theorem branch_close (start : Nat) (g : Step κ) :
    branch (close start) (fun _ => close start) g = close start := by
  funext s
  cases h : Span.between start s.pos <;> simp [branch, close, h]

theorem repeated_hit {m : Span} (h : p s = some (.hit m, u)) (n : Nat) :
    repeated p next (n + 1) s = repeated p next n u := branch_hit h

theorem repeated_miss (h : p s = some (.miss, u)) (n : Nat) :
    repeated p next (n + 1) s = some (.miss, u) := branch_miss h

theorem upTo_hit {m : Span} (h : p s = some (.hit m, u)) (start n : Nat) :
    upTo p start (n + 1) s = upTo p start n u := branch_hit h

theorem upTo_miss (h : p s = some (.miss, u)) (start n : Nat) :
    upTo p start (n + 1) s = close start { u with pos := s.pos } := branch_miss h

theorem Below.isSome {q : Step κ} (h : p.Below q) (hp : (p s).isSome) : (q s).isSome := by
  obtain ⟨r, hr⟩ := Option.isSome_iff_exists.mp hp
  rw [h s r hr]
  rfl

@[simp] theorem isSome_close (start : Nat) (s : State κ) : (close start s).isSome := by
  unfold close
  split <;> rfl

theorem isSome_close_congr (start start' : Nat) (s : State κ) :
    (close start s).isSome = (close start' s).isSome := by
  rw [isSome_close, isSome_close]

theorem isSome_literal (input : Array UInt8) (start : Nat) (bytes : List UInt8) (s : State κ) :
    (literal input start bytes s).isSome := by
  induction bytes generalizing s with
  | nil => exact isSome_close start s
  | cons b rest ih =>
    unfold literal
    split
    · rfl
    · split
      · exact ih _
      · rfl

theorem isSome_oneByte (input : Array UInt8) (accept : UInt8 → Bool) (s : State κ) :
    (oneByte input accept s).isSome := by
  unfold oneByte
  split
  · rfl
  · split
    · exact isSome_close _ _
    · rfl

theorem isSome_branch {f : Span → Step κ} {g : Step κ} (hp : (p s).isSome)
    (hit : ∀ m u, p s = some (.hit m, u) → (f m u).isSome)
    (miss : ∀ u, p s = some (.miss, u) → (g u).isSome) : (branch p f g s).isSome := by
  obtain ⟨⟨v, u⟩, h⟩ := Option.isSome_iff_exists.mp hp
  cases v with
  | hit m =>
    rw [branch_hit h]
    exact hit m u h
  | miss =>
    rw [branch_miss h]
    exact miss u h
  | stop why => simp [branch, h]

theorem isSome_seq {q : Step κ} (hp : (p s).isSome)
    (hq : ∀ m u, p s = some (.hit m, u) → (q u).isSome) : (seq p q s).isSome :=
  isSome_branch hp (fun m u h => isSome_branch (hq m u h) (fun _ _ _ => rfl) (fun _ _ => rfl))
    (fun _ _ => rfl)

theorem isSome_choice {q : Step κ} (hp : (p s).isSome)
    (hq : ∀ u, p s = some (.miss, u) → (q { u with pos := s.pos }).isSome) :
    (choice p q s).isSome :=
  isSome_branch hp (fun _ _ _ => isSome_close _ _) (fun u h =>
    isSome_branch (hq u h) (fun _ _ _ => isSome_close _ _) (fun _ _ => rfl))

theorem isSome_not (hp : (p s).isSome) : (not p s).isSome :=
  isSome_branch hp (fun _ _ _ => rfl) (fun _ _ => rfl)

theorem isSome_ahead (hp : (p s).isSome) : (ahead p s).isSome :=
  isSome_branch hp (fun _ _ _ => rfl) (fun _ _ => rfl)

theorem isSome_capture {host : Host κ} (hp : (p s).isSome) : (capture host p s).isSome :=
  isSome_branch hp (fun _ _ _ => rfl) (fun _ _ => rfl)

theorem isSome_forward {host : Host κ} {input : Array UInt8} {sink : SinkId}
    (hp : (p s).isSome) : (forward host input sink p s).isSome := by
  refine isSome_branch hp (fun m u _ => ?_) (fun _ _ => rfl)
  split <;> rfl

theorem isSome_hook {input : Array UInt8} {callback : Callback κ} (hp : (p s).isSome) :
    (hook input callback p s).isSome := by
  obtain ⟨⟨v, u⟩, h⟩ := Option.isSome_iff_exists.mp hp
  cases v with
  | hit | miss =>
    simp only [hook, h]
    split <;> rfl
  | stop why => simp [hook, h]

theorem isSome_branch_congr {f f' : Span → Step κ} {g g' : Step κ}
    (hit : ∀ m u, (f m u).isSome = (f' m u).isSome) (miss : ∀ u, (g u).isSome = (g' u).isSome) :
    (branch p f g s).isSome = (branch p f' g' s).isSome := by
  unfold branch
  cases p s with
  | none => rfl
  | some r =>
    obtain ⟨v, u⟩ := r
    cases v with
    | hit m => exact hit m u
    | miss => exact miss u
    | stop why => rfl

theorem isSome_repeated_congr {next' : Step κ} (h : ∀ u, (next u).isSome = (next' u).isSome)
    (n : Nat) (s : State κ) :
    (repeated p next n s).isSome = (repeated p next' n s).isSome := by
  induction n generalizing s with
  | zero => exact h s
  | succ n ih => exact isSome_branch_congr (fun _ u => ih u) (fun _ => rfl)

/-- Whether a loop ends does not depend on where it is told to have begun. -/
theorem isSome_greedy_congr (start start' rounds reached : Nat) (s : State κ) :
    (greedy p start rounds reached s).isSome = (greedy p start' rounds reached s).isSome := by
  induction rounds generalizing reached s with
  | zero => rfl
  | succ rounds ih =>
    refine isSome_branch_congr (fun _ u => ?_) (fun u => by simp [movedTo])
    split
    · simp [movedTo]
    · exact ih u.pos u

theorem isSome_upTo_congr (start start' n : Nat) (s : State κ) :
    (upTo p start n s).isSome = (upTo p start' n s).isSome := by
  induction n generalizing s with
  | zero => simp [upTo]
  | succ n ih => exact isSome_branch_congr (fun _ u => ih u) (fun u => by simp [movedTo])

section Loops

variable (region : State κ → Prop) (hp : ∀ u, region u → (p u).isSome)
  (hstay : ∀ u m t, region u → p u = some (.hit m, t) → region t)
include hp hstay

theorem isSome_repeated (hnext : ∀ u, region u → (next u).isSome) (n : Nat) :
    ∀ u, region u → (repeated p next n u).isSome := by
  induction n with
  | zero => exact hnext
  | succ n ih =>
    intro u hu
    exact isSome_branch (hp u hu) (fun m t ht => ih t (hstay u m t hu ht)) (fun _ _ => rfl)

theorem isSome_upTo (start n : Nat) : ∀ u, region u → (upTo p start n u).isSome := by
  induction n with
  | zero => exact fun u _ => isSome_close start u
  | succ n ih =>
    intro u hu
    exact isSome_branch (hp u hu) (fun m t ht => ih t (hstay u m t hu ht))
      (fun _ _ => isSome_close _ _)

/-- A greedy loop ends if something shrinks with every match that moves. -/
theorem isSome_greedy (left : State κ → Nat)
    (hless : ∀ u m t, region u → p u = some (.hit m, t) → t.pos ≠ u.pos → left t < left u)
    (start rounds : Nat) :
    ∀ u, region u → left u < rounds → (greedy p start rounds u.pos u).isSome := by
  induction rounds with
  | zero => exact fun u _ h => absurd h (Nat.not_lt_zero _)
  | succ rounds ih =>
    intro u hu hleft
    refine isSome_branch (hp u hu) (fun m t ht => ?_) (fun _ _ => isSome_close _ _)
    split
    · exact isSome_close _ _
    · rename_i hmoved
      have hshrunk := hless u m t hu ht hmoved
      exact ih t (hstay u m t hu ht) (by omega)

end Loops

end Peg.Step
