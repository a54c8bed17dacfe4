import Peg.Proofs.Encoding
import Peg.Proofs.Settling
import Peg.Workbench.Script

/-! # Matches cover what was consumed

A sequence takes the end of its span from its right side, while choices and repetitions take it
from the cursor. Only a lookahead matches further than it leaves the cursor, so without one the
span of every match on the way reaches from where the match began to where the cursor is.
-/
namespace Peg

variable {κ : Type}

def Covered (start : Nat) (v : Verdict) (t : State κ) : Prop := ∀ m, v = .hit m → m = ⟨start, t.pos⟩

theorem Covered.miss (start : Nat) (t : State κ) : Covered start .miss t := nofun

theorem Covered.stop (start : Nat) (why : Abort) (t : State κ) : Covered start (.stop why) t :=
  nofun

theorem Covered.hit (start : Nat) (t : State κ) : Covered start (.hit ⟨start, t.pos⟩) t := by
  rintro m ⟨⟩
  rfl

namespace Step

variable {p q next : Step κ} {start : Nat}

def Covers (start : Nat) (p : Step κ) : Prop := ∀ s, p.Ensures s (Covered start)

theorem Covers.close (start : Nat) : (Step.close (κ := κ) start).Covers start := by
  intro s v t h
  unfold Step.close at h
  rcases Nat.lt_or_ge s.pos start with hlt | hle
  · rw [Span.between_of_lt hlt] at h
    cases h
    exact .stop _ _ _
  · rw [Span.between_of_le hle] at h
    cases h
    exact .hit start s

theorem Covers.miss (start : Nat) : (give (κ := κ) .miss).Covers start :=
  fun s => .give (.miss start s)

theorem Covers.movedTo (h : next.Covers start) (pos : Nat) : (Step.movedTo pos next).Covers start :=
  fun s => h { s with pos }

/-- What a step does before it goes on does not matter. -/
theorem Covers.branch {f : Span → Step κ} (hit : ∀ m, (f m).Covers start)
    (miss : next.Covers start) : (Step.branch p f next).Covers start := by
  intro s
  have hbefore : p.Ensures s fun _ _ => True := fun _ _ _ => trivial
  exact hbefore.branch (fun m u _ => hit m u) (fun u _ => miss u)
    fun why u _ => .stop start why u

theorem Covers.repeated (h : next.Covers start) (n : Nat) :
    (Step.repeated p next n).Covers start := by
  induction n with
  | zero => exact h
  | succ n ih => exact .branch (fun _ => ih) (.miss start)

theorem Covers.greedy (p : Step κ) (start rounds reached : Nat) :
    (Step.greedy p start rounds reached).Covers start := by
  induction rounds generalizing reached with
  | zero => exact fun s v t h => by cases h
  | succ rounds ih =>
    have hback := (Covers.close (κ := κ) start).movedTo reached
    refine .branch (fun m u => ?_) hback
    intro v t h
    dsimp only at h
    split at h
    · exact hback u v t h
    · exact ih u.pos u v t h

theorem Covers.upTo (p : Step κ) (start n : Nat) : (Step.upTo p start n).Covers start := by
  induction n with
  | zero => exact .close start
  | succ n ih => exact fun s => Covers.branch (fun _ => ih) ((Covers.close start).movedTo s.pos) s

end Step

namespace Pattern

variable {rules : Rules} {p q : Pattern}

def LookaheadFree (rules : Rules) (p : Pattern) : Prop := ∀ q, ¬ Reaches rules p (ahead q)

theorem LookaheadFree.reached (h : LookaheadFree rules p) (hq : Reaches rules p q) :
    LookaheadFree rules q := fun r hr => h r (hq.trans hr)

theorem LookaheadFree.part (h : LookaheadFree rules p) (hq : Part p q) : LookaheadFree rules q :=
  h.reached (.part hq (.refl q))

theorem LookaheadFree.body {ref : RuleRef} (h : LookaheadFree rules (rule ref))
    (hp : rules ref = some p) : LookaheadFree rules p := h.reached (.body hp (.refl p))

def looksAhead : Pattern → Bool
  | ahead _ => true
  | seq a b | choice a b => a.looksAhead || b.looksAhead
  | not p | exactly p _ | atLeast p _ | atMost p _ | hook p _ | forward p _ | capture p =>
    p.looksAhead
  | literal _ | set _ | cls _ | any | rule _ => false

theorem Part.looksAhead (h : Part p q) (hp : p.looksAhead = false) : q.looksAhead = false := by
  cases h <;> simp_all [Pattern.looksAhead]

/-- No lookahead is met where there is none in the pattern and none in the body of a rule. -/
theorem LookaheadFree.of_looksAhead
    (hrules : ∀ ref body, rules ref = some body → body.looksAhead = false)
    (hp : p.looksAhead = false) : LookaheadFree rules p := by
  intro q hq
  suffices h : ∀ p q, Reaches rules p q → p.looksAhead = false → q.looksAhead = false by
    simpa [looksAhead] using h p _ hq hp
  intro p q hq hp
  induction hq with
  | refl => exact hp
  | part hpart _ ih => exact ih (hpart.looksAhead hp)
  | body href _ ih => exact ih (hrules _ _ href)

end Pattern

namespace Setting

variable {σ : Setting κ} {p q a b : Pattern} {start stop : Nat} {m : Span}

/-- Wherever no lookahead can be met, matches cover what was consumed. -/
theorem run_covered (n : Nat) (p : Pattern) (hk : σ.KeepsPosition p)
    (hp : p.LookaheadFree σ.rules) : ∀ s, (σ.run n p).Ensures s (Covered s.pos) := by
  induction n, p using σ.run_induct with
  | literal n bytes =>
    exact fun s => Step.Ensures.literal bytes (Nat.le_refl _)
      (fun _ => .hit s.pos { s with pos := s.pos + bytes.length }) fun _ _ _ => .miss _ _
  | oneByte n p accept h =>
    rw [σ.run_oneByte h]
    exact fun s => .oneByte (fun _ => .miss _ _) (fun _ _ _ => .miss _ _)
      fun _ _ _ => .hit s.pos { s with pos := s.pos + 1 }
  | seq n a b iha ihb =>
    intro s
    have ha := iha (hk.part (.seqLeft a b)) (hp.part (.seqLeft a b)) s
    have hb := ihb (hk.part (.seqRight a b)) (hp.part (.seqRight a b))
    refine ha.branch (fun m u hm => ?_) (fun u _ => .give (.miss _ _)) fun why u _ => .stop _ _ _
    obtain rfl := hm m rfl
    refine (hb u).branch (fun k t ht => .give ?_) (fun t _ => .give (.miss _ _))
      fun why t _ => .stop _ _ _
    obtain rfl := ht k rfl
    exact .hit s.pos t
  | choice n a b iha ihb =>
    intro s
    have hright : (Step.movedTo s.pos (Step.branch (σ.run n b) (fun _ => Step.close s.pos)
        (Step.movedTo s.pos (Step.give .miss)))).Covers s.pos :=
      (Step.Covers.branch (fun _ => .close s.pos) ((Step.Covers.miss s.pos).movedTo s.pos)).movedTo
        s.pos
    exact Step.Covers.branch (fun _ => .close s.pos) hright s
  | not n p ih =>
    intro s
    refine Step.Ensures.branch (ih (hk.part (.not p)) (hp.part (.not p)) s)
      (fun m u _ => .movedTo (.give (.miss _ _))) (fun u _ => .movedTo (.give ?_))
      fun why u _ => .stop _ _ _
    exact .hit s.pos { u with pos := s.pos }
  | ahead n p ih => exact absurd (.refl _) (hp p)
  | exactly n p k ih => exact fun s => (Step.Covers.close s.pos).repeated k s
  | atLeast n p k ih =>
    intro s
    exact Step.Covers.repeated (fun u => Step.Covers.greedy _ s.pos n u.pos u) k s
  | atMost n p k ih => exact fun s => Step.Covers.upTo _ s.pos k s
  | spent r => exact fun s v t h => by cases h
  | body n r p hr ih =>
    rw [σ.run_rule_body hr]
    exact ih (hk.body hr) (hp.body hr)
  | unresolved n r hr =>
    rw [σ.run_rule_none hr]
    exact fun s => .performing (.give (.miss _ _))
  | hook n p id ih =>
    intro s
    refine .hook (ih (hk.part (.hook p id)) (hp.part (.hook p id)) s)
      (fun why u _ => .stop _ _ _) fun v u hu _ => ⟨fun _ m hm => ?_, fun why _ => .stop _ _ _⟩
    have hpos := hk p id (.refl _) ⟨σ.input, u.pos⟩ v.span? u.ctx
    rw [hu m hm, hpos]
  | forward n p sink ih =>
    intro s
    have hpart := hk.part (.forward p sink)
    refine .forward ((ih hpart (hp.part (.forward p sink)) s).and (run_ordered hpart n s))
      (fun m u hu => ⟨hu.2 m rfl, ?_⟩) (fun u hu => hu.1) fun why u hu => hu.1
    exact fun k hk => hu.1 k hk
  | capture n p ih =>
    intro s
    refine (ih (hk.part (.capture p)) (hp.part (.capture p)) s).branch (fun m u hu => ?_)
      (fun u hu => .give hu) fun why u hu => hu
    exact .performing (.give fun k hk => hu k hk)

/-- What a quiet pattern without lookaheads settles for reaches up to the cursor. -/
theorem Settles.covered [Nonempty κ] (hp : σ.Quiet p) (hfree : p.LookaheadFree σ.rules)
    (h : σ.Settles p start (.hit m) stop) : m = ⟨start, stop⟩ := by
  obtain ⟨n, ctx, ctx', hrun⟩ := h.exists_run
  exact run_covered n p hp.keepsPosition hfree _ _ _ hrun m rfl

/-- Nothing of what a match covers lies behind the end of the input, so all of it can be read
back, as bytes and as the text that they write, and then the cursor is where it was. -/
theorem read_back {s t : State κ} (hp : σ.KeepsPosition p) {n : Nat}
    (h : σ.run n p s = some (.hit ⟨s.pos, t.pos⟩, t)) :
    (σ.input.extract s.pos t.pos).size = t.pos - s.pos ∧
      (σ.input.size ≤ Span.bufferLimit → ∀ pos,
        Span.bytes ⟨s.pos, t.pos⟩ ⟨σ.input, pos⟩ =
          (.ok (σ.input.extract s.pos t.pos), ⟨σ.input, pos⟩) ∧
        Span.text ⟨s.pos, t.pos⟩ ⟨σ.input, pos⟩ =
          (.ok (Utf8.decodeLossy (σ.input.extract s.pos t.pos)), ⟨σ.input, pos⟩) ∧
        ∀ str, σ.input.extract s.pos t.pos = Utf8.encode str →
          Span.text ⟨s.pos, t.pos⟩ ⟨σ.input, pos⟩ = (.ok str, ⟨σ.input, pos⟩)) := by
  have hkept := run_inRange hp n s _ t h
  have hafter := hkept.after
  have hbefore := hkept.before
  have hlength : t.pos - s.pos ≤ σ.input.size := by omega
  refine ⟨by rw [Array.size_extract]; omega, fun hsize pos => ?_⟩
  have hfits : t.pos - s.pos ≤ Span.bufferLimit := Nat.le_trans hlength hsize
  have htext : Span.text ⟨s.pos, t.pos⟩ ⟨σ.input, pos⟩ =
      (.ok (Utf8.decodeLossy (σ.input.extract s.pos t.pos)), ⟨σ.input, pos⟩) :=
    Span.text_of_le hafter hfits ⟨σ.input, pos⟩
  refine ⟨Span.bytes_of_le hafter hfits ⟨σ.input, pos⟩, htext, fun str hstr => ?_⟩
  rw [htext, hstr, Utf8.decodeLossy_encode]

/-- A copy of a match that covers what was consumed appends that to its sink. -/
theorem run_forward_hit {σ : Setting Desk} (hσ : σ.host.perform = Desk.perform)
    {s t : State Desk} (sink : SinkId) {n : Nat} (hle : s.pos ≤ t.pos)
    (h : σ.run n p s = some (.hit ⟨s.pos, t.pos⟩, t)) :
    σ.run n (.forward p sink) s = some (.hit ⟨s.pos, t.pos⟩, ⟨t.pos,
      { t.ctx with sinks := t.ctx.sinks.append sink (σ.input.extract s.pos t.pos) }⟩) := by
  have hreplay := Span.replay_of_le (m := ⟨s.pos, t.pos⟩) hle ⟨σ.input, t.pos⟩
  rw [run_forward, Step.forward, Step.branch_hit h, hreplay]
  simp [Step.performing, Step.movedTo, Step.give, hσ, Desk.perform]

/-- As long as callbacks leave the cursor alone and never ask to stop, and no lookahead can be
met, every match of every pattern on the way reaches from where that pattern was taken up to
where it left the cursor. So its bytes, on an input no larger than a buffer can be, are those
that were consumed, and its text is the one that they write, where they write one. A copy
appends just these bytes to its sink and leaves the other sinks alone, and the two sides of a
sequence match one behind the other. -/
theorem matches_cover {σ : Setting Desk} (hσ : σ.host.perform = Desk.perform) {p : Pattern}
    (hp : σ.Quiet p) (hfree : p.LookaheadFree σ.rules) :
    (∀ q, Pattern.Reaches σ.rules p q → ∀ n s m t, σ.run n q s = some (.hit m, t) →
      m = ⟨s.pos, t.pos⟩ ∧ (σ.input.extract s.pos t.pos).size = t.pos - s.pos ∧
      (σ.input.size ≤ Span.bufferLimit → ∀ pos,
        m.bytes ⟨σ.input, pos⟩ = (.ok (σ.input.extract s.pos t.pos), ⟨σ.input, pos⟩) ∧
        m.text ⟨σ.input, pos⟩ =
          (.ok (Utf8.decodeLossy (σ.input.extract s.pos t.pos)), ⟨σ.input, pos⟩) ∧
        ∀ str, σ.input.extract s.pos t.pos = Utf8.encode str →
          m.text ⟨σ.input, pos⟩ = (.ok str, ⟨σ.input, pos⟩))) ∧
    (∀ q sink, Pattern.Reaches σ.rules p (.forward q sink) → ∀ n s m t,
      σ.run n q s = some (.hit m, t) → ∃ desk,
        σ.run n (.forward q sink) s = some (.hit m, ⟨t.pos, desk⟩) ∧
        ∀ other, desk.sinks.content other =
          if other = sink then t.ctx.sinks.content other ++ σ.input.extract s.pos t.pos
          else t.ctx.sinks.content other) ∧
    ∀ a b, Pattern.Reaches σ.rules p (.seq a b) → ∀ start m stop,
      σ.Settles (.seq a b) start (.hit m) stop ↔
        ∃ e, σ.Settles a start (.hit ⟨start, e⟩) e ∧ σ.Settles b e (.hit ⟨e, stop⟩) stop ∧
          m = ⟨start, stop⟩ := by
  refine ⟨fun q hq n s m t h => ?_, fun q sink hq n s m t h => ?_, fun a b hab start m stop => ?_⟩
  · have hkeeps := (hp.reached hq).keepsPosition
    obtain rfl := run_covered n q hkeeps (hfree.reached hq) s _ t h m rfl
    exact ⟨rfl, read_back hkeeps h⟩
  · have hpart := hq.trans (.part (.forward q sink) (.refl q))
    have hkeeps := (hp.reached hpart).keepsPosition
    obtain rfl := run_covered n q hkeeps (hfree.reached hpart) s _ t h m rfl
    refine ⟨_, run_forward_hit hσ sink (run_inRange hkeeps n s _ t h).after h, fun other => ?_⟩
    rw [Sinks.content_append]
  · have hseq := hp.reached hab
    have ha := hseq.part (.seqLeft a b)
    have hb := hseq.part (.seqRight a b)
    have hfrees := hfree.reached hab
    rw [settles_seq_hit ha hb]
    constructor
    · rintro ⟨k, u, l, hk, hl, rfl⟩
      obtain rfl := hk.covered ha (hfrees.part (.seqLeft a b))
      obtain rfl := hl.covered hb (hfrees.part (.seqRight a b))
      exact ⟨u, hk, hl, rfl⟩
    · rintro ⟨e, hk, hl, rfl⟩
      exact ⟨_, e, _, hk, hl, rfl⟩

/-- A rule copies a word, a callback writes each word down, and a negation stands between it and
the byte that follows. -/
theorem word_covered :
    let letters : Pattern := .atLeast (.cls .alpha) 1
    let copied : Pattern := .forward letters 4
    let word : Pattern := .hook (.rule ⟨0, 0, "word"⟩) 0
    let rest : Pattern := .seq (.not (.literal [33])) (.capture .any)
    let σ : Setting Desk :=
      { host :=
          { perform := Desk.perform
            callback := fun _ c m d =>
              { pos := c.pos, ctx := d.write (.called "word" 1 m c.pos d.captured) } }
        input := #[97, 98, 49]
        grammar := some { id := 0, slots := #[⟨"word", some copied⟩] } }
    σ.Quiet (.seq word rest) ∧ (Pattern.seq word rest).LookaheadFree σ.rules ∧
      (∃ desk, σ.run 4 copied ⟨0, {}⟩ = some (.hit ⟨0, 2⟩, ⟨2, desk⟩) ∧
        desk.sinks.content 4 = #[97, 98]) ∧
      Span.bytes ⟨0, 3⟩ ⟨σ.input, 1⟩ = (.ok #[97, 98, 49], ⟨σ.input, 1⟩) ∧
      Span.text ⟨0, 3⟩ ⟨σ.input, 1⟩ = (.ok "ab1", ⟨σ.input, 1⟩) ∧
      ∃ e, σ.Settles word 0 (.hit ⟨0, e⟩) e ∧ σ.Settles rest e (.hit ⟨e, 3⟩) 3 := by
  intro letters copied word rest σ
  have hquiet : σ.Quiet (.seq word rest) := fun _ _ _ _ _ _ => ⟨rfl, rfl⟩
  have hfree : (Pattern.seq word rest).LookaheadFree σ.rules := by
    refine .of_looksAhead (fun r body hr => ?_) rfl
    obtain ⟨g, hg, slot, hslot, hbody⟩ := exists_slot_of_rules hr
    cases hg
    obtain rfl := Array.mem_singleton.mp hslot
    cases hbody
    rfl
  have hcopied : Pattern.Reaches σ.rules (.seq word rest) copied :=
    .part (.seqLeft word rest) (.part (.hook _ 0) (.body rfl (.refl copied)))
  obtain ⟨hspans, hcopies, hseqs⟩ := matches_cover rfl hquiet hfree
  have hrun : σ.run 4 letters ⟨0, {}⟩ = some (.hit ⟨0, 2⟩, ⟨2, {}⟩) := rfl
  have hwhole : (σ.run 4 (.seq word rest) ⟨0, {}⟩).map (fun r => (r.1, r.2.pos)) =
      some (.hit ⟨0, 3⟩, 3) := by decide +kernel
  obtain ⟨⟨v, t⟩, ht, heq⟩ := Option.map_eq_some_iff.mp hwhole
  obtain ⟨rfl, hpos⟩ := Prod.mk.inj heq
  obtain ⟨-, -, hread⟩ := hspans _ (.refl _) 4 _ _ t ht
  obtain ⟨hbytes, -, htext⟩ := hread (by decide) 1
  rw [hpos] at hbytes htext
  refine ⟨hquiet, hfree, ?_, hbytes, htext "ab1" rfl, ?_⟩
  · obtain ⟨desk, hdesk, hcontent⟩ := hcopies letters 4 hcopied 4 _ _ _ hrun
    exact ⟨desk, hdesk, hcontent 4⟩
  · obtain ⟨e, hword, hrest, -⟩ := (hseqs word rest (.refl _) 0 _ 3).mp (hquiet.settles hwhole)
    exact ⟨e, hword, hrest⟩

end Setting

end Peg
