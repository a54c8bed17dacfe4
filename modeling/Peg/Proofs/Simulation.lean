import Peg.Proofs.Reach

/-! # Runs that follow each other

A run only hands its context on, and it only compares positions with each other and looks up
bytes at them. So what it does with one host on one input is an image of what it does with
another host on another input, if effects and callbacks are such images and the bytes of the
one input stand a fixed distance behind those of the other.
-/
namespace Peg

variable {κ κ' : Type} {d : Nat}

/-! What is told of some positions, told of those that are `d` further on. -/

def Span.shift (d : Nat) (m : Span) : Span := ⟨m.start + d, m.stop + d⟩

def Fault.shift (d : Nat) : Fault → Fault
  | .inverted start stop => .inverted (start + d) (stop + d)
  | .negativeLength => .negativeLength
  | .tooLong => .tooLong

def Abort.shift (d : Nat) : Abort → Abort
  | .hook e => .hook e
  | .fault f => .fault (f.shift d)

def Verdict.shift (d : Nat) : Verdict → Verdict
  | .hit m => .hit (m.shift d)
  | .miss => .miss
  | .stop why => .stop (why.shift d)

def Effect.shift (d : Nat) : Effect → Effect
  | .captured m => .captured (m.shift d)
  | .forwarded sink m bytes => .forwarded sink (m.shift d) bytes
  | .noticed n => .noticed n

@[simp] theorem Span.shift_zero (m : Span) : m.shift 0 = m := rfl

@[simp] theorem Abort.shift_zero (why : Abort) : why.shift 0 = why := by
  rcases why with e | (_ | _ | _) <;> rfl

@[simp] theorem Verdict.shift_zero (v : Verdict) : v.shift 0 = v := by
  cases v <;> simp [Verdict.shift]

@[simp] theorem Effect.shift_zero (e : Effect) : e.shift 0 = e := by
  cases e <;> rfl

theorem Span.between_shift (d start stop : Nat) :
    between (start + d) (stop + d) =
      match between start stop with
      | .ok m => .ok (m.shift d)
      | .error f => .error (f.shift d) := by
  rcases Nat.lt_or_ge stop start with h | h
  · rw [between_of_lt h, between_of_lt (Nat.add_lt_add_right h d)]
    rfl
  · rw [between_of_le h, between_of_le (Nat.add_le_add_right h d)]
    rfl

def BytesFrom (d : Nat) (input' input : Array UInt8) : Prop :=
  input'.toList = input.toList.drop d

namespace BytesFrom

variable {input' input : Array UInt8}

theorem refl (input : Array UInt8) : BytesFrom 0 input input := rfl

theorem drop (d : Nat) (input : Array UInt8) : BytesFrom d (input.drop d) input := by
  simp [BytesFrom, List.take_of_length_le]

theorem getElem? (h : BytesFrom d input' input) (i : Nat) : input[i + d]? = input'[i]? := by
  rw [← Array.getElem?_toList, ← Array.getElem?_toList, h, List.getElem?_drop, Nat.add_comm]

theorem extract (h : BytesFrom d input' input) (start stop : Nat) :
    input.extract (start + d) (stop + d) = input'.extract start stop := by
  apply Array.ext'
  rw [Array.toList_extract, Array.toList_extract, List.extract_eq_take_drop,
    List.extract_eq_take_drop, h, List.drop_drop, Nat.add_sub_add_right, Nat.add_comm d]

end BytesFrom

/-- Reading a span back at other positions finds the same bytes there. -/
theorem Span.replay_shift {input' input : Array UInt8} (h : BytesFrom d input' input) (m : Span)
    (pos : Nat) :
    (m.shift d).replay ⟨input, pos + d⟩ =
      match m.replay ⟨input', pos⟩ with
      | (.ok bytes, c) => (.ok bytes, ⟨input, c.pos + d⟩)
      | (.error f, c) => (.error (f.shift d), ⟨input, c.pos + d⟩) := by
  rcases Nat.lt_or_ge m.stop m.start with hm | hm
  · have hm' : (m.shift d).stop < (m.shift d).start := Nat.add_lt_add_right hm d
    simp only [replay, length_of_lt hm, length_of_lt hm']
    rfl
  · have hm' : (m.shift d).start ≤ (m.shift d).stop := Nat.add_le_add_right hm d
    rw [replay_of_le hm, replay_of_le hm']
    simp only [shift, h.extract]

def State.map (d : Nat) (f : κ' → κ) (s : State κ') : State κ := ⟨s.pos + d, f s.ctx⟩

namespace Step

/-- `p` does on images of contexts, `d` further on, what `p'` does on the contexts themselves. -/
def Follows (d : Nat) (f : κ' → κ) (p' : Step κ') (p : Step κ) : Prop :=
  ∀ s, p (s.map d f) = (p' s).map fun r => (r.1.shift d, r.2.map d f)

variable {f : κ' → κ} {p' q' : Step κ'} {p q : Step κ} {input' input : Array UInt8}

namespace Follows

/-- What comes out on the image of a state is the image of what comes out on the state. -/
theorem exists_of_some (h : Follows 0 f p' p) (s : State κ') {v : Verdict} {t : State κ}
    (ht : p (s.map 0 f) = some (v, t)) : ∃ u, p' s = some (v, u) ∧ u.map 0 f = t := by
  rw [h s] at ht
  obtain ⟨⟨w, u⟩, hu, heq⟩ := Option.map_eq_some_iff.mp ht
  obtain ⟨hv, rfl⟩ := Prod.mk.inj heq
  rw [Verdict.shift_zero] at hv
  exact ⟨u, hv ▸ hu, rfl⟩

theorem give (v : Verdict) : Follows d f (Step.give v) (Step.give (v.shift d)) := fun _ => rfl

theorem movedTo (pos : Nat) (h : Follows d f p' p) :
    Follows d f (Step.movedTo pos p') (Step.movedTo (pos + d) p) := fun s => h { s with pos }

theorem performing {host' : Host κ'} {host : Host κ} {e' e : Effect}
    (he : ∀ ctx, host.perform e (f ctx) = f (host'.perform e' ctx)) (h : Follows d f p' p) :
    Follows d f (Step.performing host' e' p') (Step.performing host e p) := by
  intro s
  simp only [Step.performing, State.map, he]
  exact h { s with ctx := host'.perform e' s.ctx }

theorem branch {hit' : Span → Step κ'} {hit : Span → Step κ} (hp : Follows d f p' p)
    (hh : ∀ m, Follows d f (hit' m) (hit (m.shift d))) (hq : Follows d f q' q) :
    Follows d f (Step.branch p' hit' q') (Step.branch p hit q) := by
  intro s
  unfold Step.branch
  rw [hp s]
  cases p' s with
  | none => rfl
  | some r =>
    obtain ⟨v, t⟩ := r
    cases v with
    | hit m => exact hh m t
    | miss => exact hq t
    | stop why => rfl

theorem close (start : Nat) : Follows d f (Step.close start) (Step.close (start + d)) := by
  intro s
  simp only [Step.close, State.map, Span.between_shift]
  cases Span.between start s.pos <;> rfl

theorem literal (h : BytesFrom d input' input) (start : Nat) (bytes : List UInt8) :
    Follows d f (Step.literal input' start bytes) (Step.literal input (start + d) bytes) := by
  induction bytes with
  | nil => exact close start
  | cons b rest ih =>
    intro s
    simp only [Step.literal, State.map, h.getElem? s.pos]
    cases input'[s.pos]? with
    | none => rfl
    | some c =>
      dsimp only
      rw [Nat.add_right_comm]
      split
      · exact ih { s with pos := s.pos + 1 }
      · rfl

theorem oneByte (h : BytesFrom d input' input) (accept : UInt8 → Bool) :
    Follows d f (Step.oneByte input' accept) (Step.oneByte input accept) := by
  intro s
  simp only [Step.oneByte, State.map, h.getElem? s.pos]
  cases input'[s.pos]? with
  | none => rfl
  | some c =>
    dsimp only
    rw [Nat.add_right_comm]
    split
    · exact close s.pos { s with pos := s.pos + 1 }
    · rfl

theorem repeated {next' : Step κ'} {next : Step κ} (hp : Follows d f p' p)
    (hn : Follows d f next' next) (n : Nat) :
    Follows d f (Step.repeated p' next' n) (Step.repeated p next n) := by
  induction n with
  | zero => exact hn
  | succ n ih => exact hp.branch (fun _ => ih) (give .miss)

/-- A loop that is moved reaches and closes that much further on. -/
theorem greedy (hp : Follows d f p' p) (start rounds reached : Nat) :
    Follows d f (Step.greedy p' start rounds reached)
      (Step.greedy p (start + d) rounds (reached + d)) := by
  induction rounds generalizing reached with
  | zero => exact fun _ => rfl
  | succ rounds ih =>
    refine hp.branch (fun _ t => ?_) ((close start).movedTo reached)
    by_cases h : t.pos = reached
    · simpa only [State.map, h, if_pos] using (close start).movedTo reached t
    · have hd : t.pos + d ≠ reached + d := fun heq => h (Nat.add_right_cancel heq)
      simpa only [State.map, h, hd, if_false] using ih t.pos t

theorem upTo (hp : Follows d f p' p) (start n : Nat) :
    Follows d f (Step.upTo p' start n) (Step.upTo p (start + d) n) := by
  induction n with
  | zero => exact close start
  | succ n ih => exact fun s => hp.branch (fun _ => ih) ((close start).movedTo s.pos) s

theorem hook {callback' : Callback κ'} {callback : Callback κ}
    (hc : ∀ c m ctx, callback c m (f ctx) =
      ⟨(callback' c m ctx).pos, f (callback' c m ctx).ctx, (callback' c m ctx).abort⟩)
    (hp : Follows 0 f p' p) :
    Follows 0 f (Step.hook input callback' p') (Step.hook input callback p) := by
  intro s
  unfold Step.hook
  rw [hp s]
  cases p' s with
  | none => rfl
  | some r =>
    obtain ⟨v, t⟩ := r
    cases v with
    | stop why => simp
    | hit | miss =>
      simp only [Option.map_some, State.map, Verdict.shift_zero, Nat.add_zero, hc]
      cases (callback' ⟨input, t.pos⟩ _ t.ctx).abort <;> simp

theorem forward {host' : Host κ'} {host : Host κ} {sink : SinkId}
    (he : ∀ m bytes ctx, host.perform (.forwarded sink (m.shift d) bytes) (f ctx) =
      f (host'.perform (.forwarded sink m bytes) ctx))
    (h : BytesFrom d input' input) (hp : Follows d f p' p) :
    Follows d f (Step.forward host' input' sink p') (Step.forward host input sink p) := by
  refine hp.branch (fun m t => ?_) (give .miss)
  simp only [State.map, Span.replay_shift h]
  rcases m.replay ⟨input', t.pos⟩ with ⟨(_ | bytes), c⟩
  · rfl
  · exact ((give (.hit m)).movedTo c.pos).performing (he m bytes) t

theorem seq (hp : Follows d f p' p) (hq : Follows d f q' q) :
    Follows d f (Step.seq p' q') (Step.seq p q) :=
  hp.branch (fun m => hq.branch (fun n => give (.hit (m.upTo n))) (give .miss)) (give .miss)

theorem choice (hp : Follows d f p' p) (hq : Follows d f q' q) :
    Follows d f (Step.choice p' q') (Step.choice p q) := by
  intro s
  have hright : Follows d f (Step.branch q' (fun _ => Step.close s.pos) _)
      (Step.branch q (fun _ => Step.close (s.pos + d)) _) :=
    hq.branch (fun _ => close s.pos) ((give .miss).movedTo s.pos)
  exact hp.branch (fun _ => close s.pos) (hright.movedTo s.pos) s

theorem not (hp : Follows d f p' p) : Follows d f (Step.not p') (Step.not p) := fun s =>
  hp.branch (fun _ => (give .miss).movedTo s.pos)
    ((give (.hit (Span.emptyAt s.pos))).movedTo s.pos) s

theorem ahead (hp : Follows d f p' p) : Follows d f (Step.ahead p') (Step.ahead p) := fun s =>
  hp.branch (fun m => (give (.hit m)).movedTo s.pos) ((give .miss).movedTo s.pos) s

theorem exactly (hp : Follows d f p' p) (n : Nat) :
    Follows d f (Step.exactly p' n) (Step.exactly p n) := fun s => hp.repeated (close s.pos) n s

theorem atLeast (hp : Follows d f p' p) (rounds n : Nat) :
    Follows d f (Step.atLeast p' rounds n) (Step.atLeast p rounds n) := fun s =>
  hp.repeated (fun t => hp.greedy s.pos rounds t.pos t) n s

theorem atMost (hp : Follows d f p' p) (n : Nat) :
    Follows d f (Step.atMost p' n) (Step.atMost p n) := fun s => hp.upTo s.pos n s

theorem capture {host' : Host κ'} {host : Host κ}
    (he : ∀ m ctx, host.perform (.captured (m.shift d)) (f ctx) =
      f (host'.perform (.captured m) ctx))
    (hp : Follows d f p' p) : Follows d f (Step.capture host' p') (Step.capture host p) :=
  hp.branch (fun m => (give (.hit m)).performing (he m)) (give .miss)

end Follows

end Step

structure Pattern.Structural (φ : Pattern → Pattern) : Prop where
  literal : ∀ bytes, φ (.literal bytes) = .literal bytes
  oneByte : ∀ p accept, p.accepts? = some accept → φ p = p
  seq : ∀ a b, φ (.seq a b) = .seq (φ a) (φ b)
  choice : ∀ a b, φ (.choice a b) = .choice (φ a) (φ b)
  not : ∀ p, φ (.not p) = .not (φ p)
  ahead : ∀ p, φ (.ahead p) = .ahead (φ p)
  exactly : ∀ p n, φ (.exactly p n) = .exactly (φ p) n
  atLeast : ∀ p n, φ (.atLeast p n) = .atLeast (φ p) n
  atMost : ∀ p n, φ (.atMost p n) = .atMost (φ p) n
  rule : ∀ r, φ (.rule r) = .rule r

theorem Pattern.Structural.id : Structural fun p => p := by
  constructor <;> intros <;> rfl

namespace Setting

variable {f : κ' → κ} {σ' : Setting κ'} {σ : Setting κ}

/-- The evaluation of a mapped pattern under mapped rules follows that of the pattern itself, if
it does so at the callbacks, copies and records that can be met, where the map is free to put
anything, and if a missing body is noticed alike. -/
theorem run_follows_map {φ : Pattern → Pattern} (hφ : Pattern.Structural φ)
    (hinput : BytesFrom d σ'.input σ.input) (hrules : ∀ r, σ.rules r = (σ'.rules r).map φ)
    (habsent : ∀ r ctx, σ.host.perform (.noticed (σ.absence r)) (f ctx) =
      f (σ'.host.perform (.noticed (σ'.absence r)) ctx)) (p : Pattern)
    (hhook : ∀ n q id, Pattern.Reaches σ'.rules p (.hook q id) →
      (σ'.run n q).Follows d f (σ.run n (φ q)) →
        (σ'.run n (.hook q id)).Follows d f (σ.run n (φ (.hook q id))))
    (hforward : ∀ n q sink, Pattern.Reaches σ'.rules p (.forward q sink) →
      (σ'.run n q).Follows d f (σ.run n (φ q)) →
        (σ'.run n (.forward q sink)).Follows d f (σ.run n (φ (.forward q sink))))
    (hcapture : ∀ n q, Pattern.Reaches σ'.rules p (.capture q) →
      (σ'.run n q).Follows d f (σ.run n (φ q)) →
        (σ'.run n (.capture q)).Follows d f (σ.run n (φ (.capture q))))
    (n : Nat) : (σ'.run n p).Follows d f (σ.run n (φ p)) := by
  suffices h : ∀ q, Pattern.Reaches σ'.rules p q → (σ'.run n q).Follows d f (σ.run n (φ q)) from
    h p (.refl p)
  intro q
  induction n, q using σ'.run_induct with
  | literal n bytes =>
    intro _ s
    rw [hφ.literal]
    exact Step.Follows.literal hinput s.pos bytes s
  | oneByte n q accept ha =>
    intro _
    rw [hφ.oneByte q accept ha, σ.run_oneByte ha, σ'.run_oneByte ha]
    exact .oneByte hinput accept
  | seq n a b iha ihb =>
    intro hq
    rw [hφ.seq]
    exact (iha (hq.toPart (.seqLeft a b))).seq (ihb (hq.toPart (.seqRight a b)))
  | choice n a b iha ihb =>
    intro hq
    rw [hφ.choice]
    exact (iha (hq.toPart (.choiceLeft a b))).choice (ihb (hq.toPart (.choiceRight a b)))
  | not n q ih =>
    intro hq
    rw [hφ.not]
    exact (ih (hq.toPart (.not q))).not
  | ahead n q ih =>
    intro hq
    rw [hφ.ahead]
    exact (ih (hq.toPart (.ahead q))).ahead
  | exactly n q k ih =>
    intro hq
    rw [hφ.exactly]
    exact (ih (hq.toPart (.exactly q k))).exactly k
  | atLeast n q k ih =>
    intro hq
    rw [hφ.atLeast]
    exact (ih (hq.toPart (.atLeast q k))).atLeast n k
  | atMost n q k ih =>
    intro hq
    rw [hφ.atMost]
    exact (ih (hq.toPart (.atMost q k))).atMost k
  | spent r =>
    intro _
    rw [hφ.rule]
    exact fun _ => rfl
  | body n r q hr ih =>
    intro hq
    have hmapped : σ.rules r = some (φ q) := by rw [hrules, hr, Option.map_some]
    rw [hφ.rule, σ'.run_rule_body hr, σ.run_rule_body hmapped]
    exact ih (hq.toBody hr)
  | unresolved n r hr =>
    intro _
    have hmapped : σ.rules r = none := by rw [hrules, hr, Option.map_none]
    rw [hφ.rule, σ'.run_rule_none hr, σ.run_rule_none hmapped]
    exact .performing (habsent r) (.give .miss)
  | hook n q id ih =>
    intro hq
    exact hhook n q id hq (ih (hq.toPart (.hook q id)))
  | forward n q sink ih =>
    intro hq
    exact hforward n q sink hq (ih (hq.toPart (.forward q sink)))
  | capture n q ih =>
    intro hq
    exact hcapture n q hq (ih (hq.toPart (.capture q)))

/-- One evaluation follows another if the effects of the one are images of those of the other
and so are the callbacks that can be met. -/
theorem run_follows (hinput : BytesFrom d σ'.input σ.input) (hgrammar : σ.grammar = σ'.grammar)
    (hperform : ∀ e ctx, σ.host.perform (e.shift d) (f ctx) = f (σ'.host.perform e ctx))
    (n : Nat) (p : Pattern)
    (hhook : ∀ q id, Pattern.Reaches σ'.rules p (.hook q id) → ∀ p' p : Step _,
      p'.Follows d f p → (Step.hook σ'.input (σ'.host.callback id) p').Follows d f
        (Step.hook σ.input (σ.host.callback id) p)) :
    (σ'.run n p).Follows d f (σ.run n p) := by
  apply run_follows_map .id hinput
  · intro r
    simp only [rules, hgrammar, Option.map_id']
  · intro r ctx
    simp only [absence, hgrammar]
    exact hperform (.noticed _) ctx
  · intro n q id hr hq
    exact hhook q id hr _ _ hq
  · intro n q sink _ hq
    exact hq.forward (fun m bytes => hperform (.forwarded sink m bytes)) hinput
  · intro n q _ hq
    exact hq.capture fun m => hperform (.captured m)

end Setting

end Peg
