import Peg.Demo
import Peg.Proofs.Bounds
import Peg.Proofs.Parses

/-! # Runs find what patterns mean

A run moves one cursor about, and most parts leave it where they failed. Yet a run ends
in a match behind `n` more bytes if and only if its pattern succeeds on the bytes from
the start of the run and consumes `n` of them, and in a miss if and only if it fails.
-/
namespace Peg.Setting

variable {κ : Type}

def remaining (σ : Setting κ) (pos : Nat) : List UInt8 := σ.input.toList.drop pos

/-- What the outcome of a run of `p` from `start` says about the meaning of `p` there. -/
def Means (σ : Setting κ) (p : Pattern) (start : Nat) : Verdict → State κ → Prop
  | .hit _, t => ∃ n, t.pos = start + n ∧ Parses σ.rules p (σ.remaining start) (some n)
  | .miss, _ => Parses σ.rules p (σ.remaining start) none
  | .stop _, _ => True

variable {σ : Setting κ} {p q : Pattern} {P Q next : Step κ} {s t u : State κ} {start : Nat}

theorem head?_remaining (pos : Nat) : (σ.remaining pos).head? = σ.input[pos]? := by
  simp [remaining, List.head?_drop]

theorem drop_remaining (pos n : Nat) :
    (σ.remaining pos).drop n = σ.remaining (pos + n) := by
  simp [remaining, List.drop_drop]

/-- What holds of every ending of a part is carried over to the whole that it ends. -/
theorem Means.map {start' : Nat} {v : Verdict} (h : σ.Means q start' v t)
    (hit : ∀ n, t.pos = start' + n → Parses σ.rules q (σ.remaining start') (some n) →
      ∃ k, t.pos = start + k ∧ Parses σ.rules p (σ.remaining start) (some k))
    (miss : Parses σ.rules q (σ.remaining start') none →
      Parses σ.rules p (σ.remaining start) none) : σ.Means p start v t := by
  cases v with
  | hit m =>
    obtain ⟨n, hpos, hn⟩ := h
    exact hit n hpos hn
  | miss => exact miss h
  | stop => trivial

theorem literal_means (bytes : List UInt8) (s : State κ) :
    (Step.literal σ.input s.pos bytes).Ensures s (σ.Means (.literal bytes) s.pos) :=
  .literal bytes (Nat.le_refl _) (fun h => ⟨bytes.length, rfl, .literal h⟩)
    (fun _ _ h => .literalMiss h)

theorem oneByte_means {accept : UInt8 → Bool} (h : p.accepts? = some accept) (s : State κ) :
    (Step.oneByte σ.input accept).Ensures s (σ.Means p s.pos) := by
  refine .oneByte (fun hb => ?_) (fun b hb ha => ?_) (fun b hb ha => ?_)
  · exact .oneByteMiss h (by simp [head?_remaining, hb])
  · exact .oneByteMiss h (by simp [head?_remaining, hb, ha])
  · exact ⟨1, rfl, .oneByte h (by rw [head?_remaining, hb]) ha⟩

theorem seq_means (hp : P.Ensures s (σ.Means p s.pos))
    (hq : ∀ u, Q.Ensures u (σ.Means q u.pos)) :
    (Step.seq P Q).Ensures s (σ.Means (.seq p q) s.pos) := by
  refine hp.branch ?_ (fun u hu => .give (.seqLeftMiss hu)) (fun _ _ _ => trivial)
  rintro m u ⟨i, hi, ha⟩
  refine (hq u).branch ?_ (fun t ht => .give ?_) (fun _ _ _ => trivial)
  · rintro k t ⟨j, hj, hb⟩
    refine .give ⟨i + j, by omega, .seq ha ?_⟩
    rw [drop_remaining, ← hi]
    exact hb
  · refine .seqRightMiss ha ?_
    rw [drop_remaining, ← hi]
    exact ht

theorem choice_means (hp : P.Ensures s (σ.Means p s.pos))
    (hq : ∀ u, Q.Ensures u (σ.Means q u.pos)) :
    (Step.choice P Q).Ensures s (σ.Means (.choice p q) s.pos) := by
  refine Step.Ensures.branch hp ?_ (fun u hu => .movedTo ?_) (fun _ _ _ => trivial)
  · rintro m u ⟨i, hi, ha⟩
    exact .close (by omega) ⟨i, hi, .choiceLeft ha⟩
  · refine Step.Ensures.branch (hq _) ?_ (fun t ht => .movedTo (.give (.choiceRight hu ht)))
      (fun _ _ _ => trivial)
    rintro m t ⟨j, hj, hb⟩
    exact .close (by dsimp only at hj; omega) ⟨j, hj, .choiceRight hu hb⟩

theorem not_means (hp : P.Ensures s (σ.Means p s.pos)) :
    (Step.not P).Ensures s (σ.Means (.not p) s.pos) := by
  refine Step.Ensures.branch hp ?_ (fun u hu => .movedTo (.give ⟨0, rfl, .not hu⟩))
    (fun _ _ _ => trivial)
  rintro m u ⟨i, -, hi⟩
  exact .movedTo (.give (.notMiss hi))

theorem ahead_means (hp : P.Ensures s (σ.Means p s.pos)) :
    (Step.ahead P).Ensures s (σ.Means (.ahead p) s.pos) := by
  refine Step.Ensures.branch hp ?_ (fun u hu => .movedTo (.give (.aheadMiss hu)))
    (fun _ _ _ => trivial)
  rintro m u ⟨i, -, hi⟩
  exact .movedTo (.give ⟨0, rfl, .ahead hi⟩)

theorem forward_means (sink : SinkId) (hp : P.Ensures s (σ.Means p s.pos))
    (hspan : P.Ensures s fun v _ => ∀ m, v = .hit m → m.start ≤ m.stop) :
    (Step.forward σ.host σ.input sink P).Ensures s (σ.Means (.forward p sink) s.pos) := by
  refine .forward (hp.and hspan) (fun m u hu => ⟨hu.2 m rfl, ?_⟩) (fun u hu => .forward hu.1)
    (fun _ _ _ => trivial)
  obtain ⟨k, hk, hb⟩ := hu.1
  exact ⟨k, hk, .forward hb⟩

theorem capture_means (hp : P.Ensures s (σ.Means p s.pos)) :
    (Step.capture σ.host P).Ensures s (σ.Means (.capture p) s.pos) := by
  refine hp.branch ?_ (fun u hu => .give (.capture hu)) (fun _ _ _ => trivial)
  rintro m u ⟨k, hk, hb⟩
  exact .performing (.give ⟨k, hk, .capture hb⟩)

/-- Of the patterns `q`, each is one more `p` before the one below. -/
theorem repeated_means {q : Nat → Pattern}
    (more : ∀ {input n i r}, Parses σ.rules p input (some i) →
      Parses σ.rules (q n) (input.drop i) r → Parses σ.rules (q (n + 1)) input (r.map (i + ·)))
    (fails : ∀ {input n}, Parses σ.rules p input none → Parses σ.rules (q (n + 1)) input none)
    (hp : ∀ s, P.Ensures s (σ.Means p s.pos))
    (hnext : ∀ s : State κ, start ≤ s.pos → next.Ensures s (σ.Means (q 0) s.pos)) (n : Nat) :
    ∀ s : State κ, start ≤ s.pos →
      (Step.repeated P next n).Ensures s (σ.Means (q n) s.pos) := by
  induction n with
  | zero => exact hnext
  | succ n ih =>
    intro s hs
    refine (hp s).branch ?_ (fun u hu => .give (fails hu)) (fun _ _ _ => trivial)
    rintro m u ⟨i, hi, hparse⟩
    refine (ih u (by omega)).mono fun v t ht => ht.map (fun j hj hq => ?_) (fun hq => ?_)
    · exact ⟨i + j, by omega, more hparse (by rw [drop_remaining, ← hi]; exact hq)⟩
    · exact more hparse (r := none) (by rw [drop_remaining, ← hi]; exact hq)

theorem greedy_means (hp : ∀ s, P.Ensures s (σ.Means p s.pos)) (rounds : Nat) :
    ∀ s : State κ, start ≤ s.pos → (Step.greedy P start rounds s.pos).Ensures s
      fun v t => σ.Means (.atLeast p 0) s.pos v t ∧ v ≠ .miss := by
  induction rounds with
  | zero => exact fun s _ v t ht => by simp [Step.greedy] at ht
  | succ rounds ih =>
    intro s hs
    have hend : ∀ u : State κ, Parses σ.rules (.atLeast p 0) (σ.remaining s.pos) (some 0) →
        (Step.movedTo s.pos (Step.close start)).Ensures u
          fun v t => σ.Means (.atLeast p 0) s.pos v t ∧ v ≠ .miss :=
      fun u hu => .movedTo (.close hs ⟨⟨0, rfl, hu⟩, by simp⟩)
    refine (hp s).branch ?_ (fun u hu => hend u (.greedyEnd hu)) (fun _ _ _ => by simp [Means])
    rintro m u ⟨i, hi, hparse⟩ v t ht
    dsimp only at ht
    split at ht
    · obtain rfl : i = 0 := by omega
      exact hend u (.greedyStill hparse) v t ht
    · obtain ⟨i, rfl⟩ := Nat.exists_eq_succ_of_ne_zero (n := i) (by omega)
      obtain ⟨hmeans, hmiss⟩ := ih u (by omega) v t ht
      refine ⟨?_, hmiss⟩
      cases v with
      | hit =>
        obtain ⟨j, hj, hrest⟩ := hmeans
        refine ⟨i + 1 + j, by omega, .greedyMore hparse ?_⟩
        rw [drop_remaining, ← hi]
        exact hrest
      | miss => exact absurd rfl hmiss
      | stop => trivial

theorem upTo_means (hp : ∀ s, P.Ensures s (σ.Means p s.pos)) (n : Nat) :
    ∀ s : State κ, start ≤ s.pos → (Step.upTo P start n).Ensures s
      fun v t => σ.Means (.atMost p n) s.pos v t ∧ v ≠ .miss := by
  induction n with
  | zero => exact fun s hs => .close hs ⟨⟨0, rfl, .atMostZero⟩, by simp⟩
  | succ n ih =>
    intro s hs
    refine Step.Ensures.branch (hp s) ?_
      (fun u hu => .movedTo (.close hs ⟨⟨0, rfl, .atMostEnd hu⟩, by simp⟩))
      (fun _ _ _ => by simp [Means])
    rintro m u ⟨i, hi, hparse⟩ v t ht
    obtain ⟨hmeans, hmiss⟩ := ih u (by omega) v t ht
    refine ⟨?_, hmiss⟩
    cases v with
    | hit =>
      obtain ⟨j, hj, hrest⟩ := hmeans
      refine ⟨i + j, by omega, .atMostSucc hparse ?_⟩
      rw [drop_remaining, ← hi]
      exact hrest
    | miss => exact absurd rfl hmiss
    | stop => trivial

/-- A run without callbacks ends as its pattern means. -/
theorem run_means (n : Nat) (p : Pattern) (hp : p.HookFree σ.rules) :
    ∀ s, (σ.run n p).Ensures s (σ.Means p s.pos) := by
  induction n, p using σ.run_induct with
  | literal n bytes => exact literal_means bytes
  | oneByte n p accept h =>
    rw [σ.run_oneByte h]
    exact oneByte_means h
  | seq n a b iha ihb =>
    exact fun s => seq_means (iha (hp.part (.seqLeft a b)) s) (ihb (hp.part (.seqRight a b)))
  | choice n a b iha ihb =>
    exact fun s =>
      choice_means (iha (hp.part (.choiceLeft a b)) s) (ihb (hp.part (.choiceRight a b)))
  | not n p ih => exact fun s => not_means (ih (hp.part (.not p)) s)
  | ahead n p ih => exact fun s => ahead_means (ih (hp.part (.ahead p)) s)
  | exactly n p k ih =>
    exact fun s => repeated_means (q := .exactly p) .exactlySucc .exactlyMiss
      (ih (hp.part (.exactly p k))) (fun t ht => .close ht ⟨0, rfl, .exactlyZero⟩) k s
      (Nat.le_refl _)
  | atLeast n p k ih =>
    have hpart := ih (hp.part (.atLeast p k))
    exact fun s => repeated_means (q := .atLeast p) .atLeastSucc .atLeastMiss hpart
      (fun t ht => (greedy_means hpart n t ht).mono fun _ _ h => h.1) k s (Nat.le_refl _)
  | atMost n p k ih =>
    exact fun s => (upTo_means (ih (hp.part (.atMost p k))) k s (Nat.le_refl _)).mono
      fun _ _ h => h.1
  | spent r => exact fun s v t ht => by simp [run_rule_zero] at ht
  | body n r p hr ih =>
    rw [σ.run_rule_body hr]
    exact fun s => (ih (hp.body hr) s).mono fun v t h =>
      h.map (fun k hk hb => ⟨k, hk, .body hr hb⟩) (.body hr)
  | unresolved n r hr =>
    rw [σ.run_rule_none hr]
    exact fun s => .performing (.give (.unresolved hr))
  | hook n p id ih => exact absurd (.refl _) (hp p id)
  | forward n p sink ih =>
    have hpart := hp.part (.forward p sink)
    exact fun s => forward_means sink (ih hpart s) (run_ordered (.of_hookFree hpart) n s)
  | capture n p ih => exact fun s => capture_means (ih (hp.part (.capture p)) s)

def Finds (σ : Setting κ) (p : Pattern) (s : State κ) : Option Nat → Prop
  | some k => ∃ n m t, σ.run n p s = some (.hit m, t) ∧ t.pos = s.pos + k
  | none => ∃ n t, σ.run n p s = some (.miss, t)

def Halts (σ : Setting κ) (p : Pattern) (s : State κ) : Prop := ∃ n, (σ.run n p s).isSome

/-- That a run halts is all there is to show, since it can only end as its pattern means. -/
theorem Halts.finds {r : Option Nat} (hhalts : σ.Halts p s) (hp : p.HookFree σ.rules)
    (h : Parses σ.rules p (σ.remaining s.pos) r) : σ.Finds p s r := by
  obtain ⟨n, hn⟩ := hhalts
  obtain ⟨⟨v, t⟩, hrun⟩ := Option.isSome_iff_exists.mp hn
  have hmeans := run_means n p hp s v t hrun
  cases v with
  | hit m =>
    obtain ⟨k, hk, hparse⟩ := hmeans
    cases h.unique hparse
    exact ⟨n, m, t, hrun, hk⟩
  | miss =>
    cases h.unique hmeans
    exact ⟨n, t, hrun⟩
  | stop why => exact absurd hrun (run_ne_stop hp)

section Halting

variable {a b : Pattern} {i k : Nat}

/-- One limit suffices for a match and for what halts behind it. -/
theorem Finds.and_halts (hp : σ.Finds p s (some i)) (hq : ∀ u, u.pos = s.pos + i → σ.Halts q u) :
    ∃ n m u, σ.run n p s = some (.hit m, u) ∧ u.pos = s.pos + i ∧ (σ.run n q u).isSome := by
  obtain ⟨n, m, u, hrun, hu⟩ := hp
  obtain ⟨n', hsome⟩ := hq u hu
  refine ⟨max n n', m, u, σ.run_below (Nat.le_max_left n n') p s _ hrun, hu, ?_⟩
  exact Step.Below.isSome (σ.run_below (Nat.le_max_right n n') q) hsome

theorem Halts.within (h : σ.Halts p s)
    (hq : ∀ n, (σ.run n p s).isSome → (σ.run n q s).isSome) : σ.Halts q s := by
  obtain ⟨n, hn⟩ := h
  exact ⟨n, hq n hn⟩

theorem halts_literal (bytes : List UInt8) : σ.Halts (.literal bytes) s :=
  ⟨0, Step.isSome_literal _ _ _ s⟩

theorem halts_oneByte {accept : UInt8 → Bool} (h : p.accepts? = some accept) : σ.Halts p s := by
  refine ⟨0, ?_⟩
  rw [σ.run_oneByte h]
  exact Step.isSome_oneByte _ _ s

theorem halts_seq (ha : σ.Finds a s (some i)) (hb : ∀ u, u.pos = s.pos + i → σ.Halts b u) :
    σ.Halts (.seq a b) s := by
  obtain ⟨n, m, u, hrun, -, hsome⟩ := ha.and_halts hb
  refine ⟨n, ?_⟩
  rw [run_seq, Step.seq, Step.branch_hit hrun]
  exact Step.isSome_branch hsome (fun _ _ _ => rfl) (fun _ _ => rfl)

theorem halts_seq_miss (ha : σ.Finds a s none) : σ.Halts (.seq a b) s := by
  obtain ⟨n, u, hrun⟩ := ha
  refine ⟨n, ?_⟩
  rw [run_seq, Step.seq, Step.branch_miss hrun]
  rfl

theorem halts_choice_hit (ha : σ.Finds a s (some i)) : σ.Halts (.choice a b) s := by
  obtain ⟨n, m, u, hrun, -⟩ := ha
  refine ⟨n, ?_⟩
  rw [run_choice, Step.choice, Step.branch_hit hrun]
  exact Step.isSome_close _ _

theorem halts_choice (ha : σ.Finds a s none) (hb : ∀ u, u.pos = s.pos → σ.Halts b u) :
    σ.Halts (.choice a b) s := by
  obtain ⟨n, u, hrun⟩ := ha
  obtain ⟨n', hsome⟩ := hb { u with pos := s.pos } rfl
  refine ⟨max n n', ?_⟩
  rw [run_choice, Step.choice,
    Step.branch_miss (σ.run_below (Nat.le_max_left n n') a s _ hrun)]
  have hright := Step.Below.isSome (σ.run_below (Nat.le_max_right n n') b) hsome
  exact Step.isSome_branch hright (fun _ _ _ => Step.isSome_close _ _) (fun _ _ => rfl)

/-- One match more before a loop, which ends or not wherever it began. -/
theorem halts_repeated {f : Nat → Nat → Step κ}
    (hq : ∀ l s, σ.run l q s = Step.repeated (σ.run l p) (f l s.pos) k s)
    (hmore : ∀ l s, σ.run l b s = Step.repeated (σ.run l p) (f l s.pos) (k + 1) s)
    (hf : ∀ l start start' u, (f l start u).isSome = (f l start' u).isSome)
    (hp : σ.Finds p s (some i)) (hr : ∀ u, u.pos = s.pos + i → σ.Halts q u) : σ.Halts b s := by
  obtain ⟨n, m, u, hrun, -, hsome⟩ := hp.and_halts hr
  refine ⟨n, ?_⟩
  rw [hmore, Step.repeated_hit hrun, Step.isSome_repeated_congr (hf n s.pos u.pos), ← hq]
  exact hsome

theorem halts_exactly (hp : σ.Finds p s (some i))
    (hr : ∀ u, u.pos = s.pos + i → σ.Halts (.exactly p k) u) :
    σ.Halts (.exactly p (k + 1)) s :=
  halts_repeated (f := fun _ => Step.close) (fun _ _ => rfl) (fun _ _ => rfl)
    (fun _ => Step.isSome_close_congr) hp hr

theorem halts_exactly_miss (hp : σ.Finds p s none) : σ.Halts (.exactly p (k + 1)) s := by
  obtain ⟨n, u, hrun⟩ := hp
  refine ⟨n, ?_⟩
  rw [run_exactly, Step.exactly, Step.repeated_miss hrun]
  rfl

theorem halts_atLeast (hp : σ.Finds p s (some i))
    (hr : ∀ u, u.pos = s.pos + i → σ.Halts (.atLeast p k) u) :
    σ.Halts (.atLeast p (k + 1)) s :=
  halts_repeated (f := fun l start t => Step.greedy (σ.run l p) start l t.pos t)
    (fun _ _ => rfl) (fun _ _ => rfl)
    (fun _ start start' u => Step.isSome_greedy_congr start start' _ _ u) hp hr

theorem halts_atLeast_miss (hp : σ.Finds p s none) : σ.Halts (.atLeast p (k + 1)) s := by
  obtain ⟨n, u, hrun⟩ := hp
  refine ⟨n, ?_⟩
  rw [run_atLeast, Step.atLeast, Step.repeated_miss hrun]
  rfl

theorem halts_greedy_end (hp : σ.Finds p s none) : σ.Halts (.atLeast p 0) s := by
  obtain ⟨n, u, hrun⟩ := hp
  refine ⟨n + 1, ?_⟩
  have hmiss := σ.run_below (Nat.le_succ n) p s _ hrun
  rw [run_atLeast, Step.atLeast, Step.repeated, Step.greedy, Step.branch_miss hmiss]
  exact Step.isSome_close _ _

theorem halts_greedy_still (hp : σ.Finds p s (some 0)) : σ.Halts (.atLeast p 0) s := by
  obtain ⟨n, m, u, hrun, hu⟩ := hp
  refine ⟨n + 1, ?_⟩
  have hhit := σ.run_below (Nat.le_succ n) p s _ hrun
  rw [run_atLeast, Step.atLeast, Step.repeated, Step.greedy, Step.branch_hit hhit,
    if_pos (by simpa using hu)]
  exact Step.isSome_close _ _

/-- One round more than the rest takes: behind the first match, those of the smaller limit are
left. -/
theorem halts_greedy_more (hp : σ.Finds p s (some (i + 1)))
    (hr : ∀ u, u.pos = s.pos + (i + 1) → σ.Halts (.atLeast p 0) u) :
    σ.Halts (.atLeast p 0) s := by
  obtain ⟨n, m, u, hrun, hu, hsome⟩ := hp.and_halts hr
  refine ⟨n + 1, ?_⟩
  have hhit := σ.run_below (Nat.le_succ n) p s _ hrun
  rw [run_atLeast, Step.atLeast, Step.repeated, Step.greedy, Step.branch_hit hhit,
    if_neg (by omega), Step.isSome_greedy_congr _ u.pos]
  have hbelow := Step.Below.greedy (σ.run_below (Nat.le_succ n) p) u.pos (Nat.le_refl n) u.pos
  exact hbelow.isSome hsome

theorem halts_atMost_end (hp : σ.Finds p s none) : σ.Halts (.atMost p (k + 1)) s := by
  obtain ⟨n, u, hrun⟩ := hp
  refine ⟨n, ?_⟩
  rw [run_atMost, Step.atMost, Step.upTo_miss hrun]
  exact Step.isSome_close _ _

theorem halts_atMost (hp : σ.Finds p s (some i))
    (hr : ∀ u, u.pos = s.pos + i → σ.Halts (.atMost p k) u) : σ.Halts (.atMost p (k + 1)) s := by
  obtain ⟨n, m, u, hrun, -, hsome⟩ := hp.and_halts hr
  refine ⟨n, ?_⟩
  rw [run_atMost, Step.atMost, Step.upTo_hit hrun, Step.isSome_upTo_congr _ u.pos]
  exact hsome

theorem halts_body {ref : RuleRef} (href : σ.rules ref = some p) (h : σ.Halts p s) :
    σ.Halts (.rule ref) s := by
  obtain ⟨n, hn⟩ := h
  refine ⟨n + 1, ?_⟩
  rw [σ.run_rule_body href]
  exact hn

theorem halts_unresolved {ref : RuleRef} (href : σ.rules ref = none) : σ.Halts (.rule ref) s := by
  refine ⟨1, ?_⟩
  rw [σ.run_rule_none href]
  rfl

end Halting

/-- A run ends wherever its pattern has a meaning. -/
theorem run_halts {input : List UInt8} {r : Option Nat} (h : Parses σ.rules p input r)
    (hp : p.HookFree σ.rules) : ∀ s : State κ, σ.remaining s.pos = input → σ.Halts p s := by
  induction h with
  | literal | literalMiss => exact fun s _ => halts_literal _
  | oneByte ha | oneByteMiss ha => exact fun s _ => halts_oneByte ha
  | seq ha _ iha ihb | seqRightMiss ha _ iha ihb =>
    rintro s rfl
    have hleft := hp.part (.seqLeft _ _)
    exact halts_seq ((iha hleft s rfl).finds hleft ha) fun u hu =>
      ihb (hp.part (.seqRight _ _)) u (by rw [drop_remaining, hu])
  | seqLeftMiss ha iha =>
    rintro s rfl
    have hleft := hp.part (.seqLeft _ _)
    exact halts_seq_miss ((iha hleft s rfl).finds hleft ha)
  | choiceLeft ha iha =>
    rintro s rfl
    have hleft := hp.part (.choiceLeft _ _)
    exact halts_choice_hit ((iha hleft s rfl).finds hleft ha)
  | choiceRight ha _ iha ihb =>
    rintro s rfl
    have hleft := hp.part (.choiceLeft _ _)
    exact halts_choice ((iha hleft s rfl).finds hleft ha) fun u hu =>
      ihb (hp.part (.choiceRight _ _)) u (by rw [hu])
  | not _ ih | notMiss _ ih =>
    exact fun s hs => (ih (hp.part (.not _)) s hs).within fun _ => Step.isSome_not
  | ahead _ ih | aheadMiss _ ih =>
    exact fun s hs => (ih (hp.part (.ahead _)) s hs).within fun _ => Step.isSome_ahead
  | exactlyZero | atMostZero => exact fun s _ => ⟨0, Step.isSome_close _ _⟩
  | exactlySucc ha _ iha ihr =>
    rintro s rfl
    have hpart := hp.part (.exactly _ _)
    exact halts_exactly ((iha hpart s rfl).finds hpart ha) fun u hu =>
      ihr (hpart.exactly _) u (by rw [drop_remaining, hu])
  | exactlyMiss ha iha =>
    rintro s rfl
    have hpart := hp.part (.exactly _ _)
    exact halts_exactly_miss ((iha hpart s rfl).finds hpart ha)
  | atLeastSucc ha _ iha ihr =>
    rintro s rfl
    have hpart := hp.part (.atLeast _ _)
    exact halts_atLeast ((iha hpart s rfl).finds hpart ha) fun u hu =>
      ihr (hpart.atLeast _) u (by rw [drop_remaining, hu])
  | atLeastMiss ha iha =>
    rintro s rfl
    have hpart := hp.part (.atLeast _ _)
    exact halts_atLeast_miss ((iha hpart s rfl).finds hpart ha)
  | greedyEnd ha iha =>
    rintro s rfl
    have hpart := hp.part (.atLeast _ _)
    exact halts_greedy_end ((iha hpart s rfl).finds hpart ha)
  | greedyStill ha iha =>
    rintro s rfl
    have hpart := hp.part (.atLeast _ _)
    exact halts_greedy_still ((iha hpart s rfl).finds hpart ha)
  | greedyMore ha _ iha ihr =>
    rintro s rfl
    have hpart := hp.part (.atLeast _ _)
    exact halts_greedy_more ((iha hpart s rfl).finds hpart ha) fun u hu =>
      ihr (hpart.atLeast _) u (by rw [drop_remaining, hu])
  | atMostEnd ha iha =>
    rintro s rfl
    have hpart := hp.part (.atMost _ _)
    exact halts_atMost_end ((iha hpart s rfl).finds hpart ha)
  | atMostSucc ha _ iha ihr =>
    rintro s rfl
    have hpart := hp.part (.atMost _ _)
    exact halts_atMost ((iha hpart s rfl).finds hpart ha) fun u hu =>
      ihr (hpart.atMost _) u (by rw [drop_remaining, hu])
  | body href _ ih => exact fun s hs => halts_body href (ih (hp.body href) s hs)
  | unresolved href => exact fun s _ => halts_unresolved href
  | forward _ ih =>
    exact fun s hs => (ih (hp.part (.forward _ _)) s hs).within fun _ => Step.isSome_forward
  | capture _ ih =>
    exact fun s hs => (ih (hp.part (.capture _)) s hs).within fun _ => Step.isSome_capture

/-- A reference means what the body in its slot means if it is one into the grammar of the
evaluation, and nothing but a miss if it is one into another grammar, if its slot has no body or
if there is no grammar. -/
theorem parses_rule_iff {ref : RuleRef} {input : List UInt8} {r : Option Nat} :
    Parses σ.rules (.rule ref) input r ↔
      (∃ g body, σ.grammar = some g ∧ ref.grammar = g.id ∧ g.bodyAt? ref.slot = some body ∧
        Parses σ.rules body input r) ∨
      ((∀ g, σ.grammar = some g → ref.grammar = g.id → g.bodyAt? ref.slot = none) ∧ r = none) := by
  constructor
  · intro h
    obtain ⟨body, href, hbody⟩ | ⟨href, rfl⟩ := h.rule_cases
    · obtain ⟨g, hg, hid, hslot⟩ := rules_eq_some_iff.mp href
      exact .inl ⟨g, body, hg, hid, hslot, hbody⟩
    · exact .inr ⟨rules_eq_none_iff.mp href, rfl⟩
  · rintro (⟨g, body, hg, hid, hslot, hbody⟩ | ⟨hnone, rfl⟩)
    · exact .body (rules_eq_some_iff.mpr ⟨g, hg, hid, hslot⟩) hbody
    · exact .unresolved (rules_eq_none_iff.mpr hnone)

/-- Without callbacks a run ends in a match behind `k` more bytes exactly if its pattern
succeeds on the bytes from its start and consumes `k` of them, in a miss exactly if its
pattern fails on them, and in no other way. -/
theorem run_iff_parses (hp : p.HookFree σ.rules) (s : State κ) :
    (∀ k, (∃ n m t, σ.run n p s = some (.hit m, t) ∧ t.pos = s.pos + k) ↔
      Parses σ.rules p (σ.input.toList.drop s.pos) (some k)) ∧
    ((∃ n t, σ.run n p s = some (.miss, t)) ↔
      Parses σ.rules p (σ.input.toList.drop s.pos) none) ∧
    ∀ n v t, σ.run n p s = some (v, t) → v = .miss ∨ ∃ m k, v = .hit m ∧ t.pos = s.pos + k := by
  refine ⟨fun k => ⟨?_, fun h => ?_⟩, ⟨?_, fun h => ?_⟩, fun n v t h => ?_⟩
  · rintro ⟨n, m, t, hrun, ht⟩
    obtain ⟨k', hk', hparse⟩ := run_means n p hp s _ t hrun
    obtain rfl : k = k' := by omega
    exact hparse
  · exact (run_halts h hp s rfl).finds hp h
  · rintro ⟨n, t, hrun⟩
    exact run_means n p hp s _ t hrun
  · exact (run_halts h hp s rfl).finds hp h
  · cases v with
    | hit m =>
      obtain ⟨k, hk, _⟩ := run_means n p hp s _ t h
      exact .inr ⟨m, k, rfl, hk⟩
    | miss => exact .inl rfl
    | stop why => exact absurd h (run_ne_stop hp)

/-- Nested groups in parentheses, found through two rules that call each other. -/
theorem parens_parses :
    let d := Demo.parens 0 0
    let σ : Setting Store :=
      { host := Store.host, input := #[40, 40, 41, 41, 41], grammar := some d.grammar }
    d.start.HookFree σ.rules ∧ Parses σ.rules d.start [40, 40, 41, 41, 41] (some 4) := by
  intro d σ
  have hslots : ∀ slot ∈ d.grammar.slots, ∀ body, slot.body = some body → body.hooks = [] := by
    decide +kernel
  have hfree : d.start.HookFree σ.rules := by
    refine .of_hooks (fun ref body h => ?_) (by decide +kernel)
    obtain ⟨g, hg, slot, hslot, hbody⟩ := exists_slot_of_rules h
    cases hg
    exact hslots slot hslot body hbody
  have hrun : (σ.run 10 d.start ⟨0, {}⟩).map (fun r => (r.1, r.2.pos)) =
      some (.hit ⟨0, 4⟩, 4) := by
    decide +kernel
  obtain ⟨⟨v, t⟩, hvt, heq⟩ := Option.map_eq_some_iff.mp hrun
  obtain ⟨rfl, hpos⟩ := Prod.mk.inj heq
  exact ⟨hfree, ((run_iff_parses hfree ⟨0, {}⟩).1 4).mp ⟨10, _, t, hvt, hpos⟩⟩

end Peg.Setting
