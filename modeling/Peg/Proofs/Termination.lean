import Peg.Demo
import Peg.Proofs.Bounds
import Peg.Proofs.LeftReach

/-! # Evaluations without left recursion end

Between two calls of one rule at one position the evaluator would have to go round in
circles on the left, and wherever it moves on, less of the input is left. So a limit that
counts the rules once for every position, and a little more, is never reached.
-/
namespace Peg

variable {κ : Type}

namespace Setting

variable {σ : Setting κ} {p q : Pattern} {P next : Step κ} {s t u : State κ}

/-- A match of the pattern that does not move shows that the pattern is nullable. -/
def Still (σ : Setting κ) (p : Pattern) (start : Nat) (v : Verdict) (t : State κ) : Prop :=
  ∀ m, v = .hit m → t.pos = start → p.Nullable σ.rules

theorem repeated_still (hP : P.Onward) (hnext : next.Onward)
    (hp : ∀ s, P.Ensures s (σ.Still p s.pos)) (n : Nat) (s : State κ) :
    (Step.repeated P next (n + 1)).Ensures s (σ.Still p s.pos) := by
  refine ((hp s).and (hP s)).branch (fun m u hu => ?_) (fun u hu => .give hu.1)
    (fun _ _ hu => hu.1)
  refine (hP.repeated hnext n u).mono fun v t ht k _ hpos => ?_
  exact hu.1 m rfl (Nat.le_antisymm (hpos ▸ ht) hu.2)

theorem run_onward (hp : σ.KeepsPosition p) (n : Nat) : (σ.run n p).Onward :=
  fun s => (run_inRange hp n s).mono fun _ _ h => h.after

/-- Only nullable patterns match without moving. -/
theorem run_still (n : Nat) (p : Pattern) (hp : σ.KeepsPosition p) :
    ∀ s, (σ.run n p).Ensures s (σ.Still p s.pos) := by
  induction n, p using σ.run_induct with
  | literal n bytes =>
    refine fun s => Step.Ensures.literal bytes (Nat.le_refl _) (fun _ m _ hpos => ?_)
      (by simp [Still])
    obtain rfl : bytes = [] := List.eq_nil_of_length_eq_zero (by dsimp only at hpos; omega)
    exact .literal
  | oneByte n p accept h =>
    rw [σ.run_oneByte h]
    exact fun s => .oneByte (by simp [Still]) (by simp [Still]) (by simp [Still])
  | seq n a b iha ihb =>
    intro s
    have ha := hp.part (.seqLeft a b)
    have hb := hp.part (.seqRight a b)
    refine ((iha ha s).and (run_onward ha n s)).branch (fun m u hu => ?_)
      (fun u hu => .give (by simp [Still])) (by simp [Still])
    refine ((ihb hb u).and (run_onward hb n u)).branch (fun k t ht => .give ?_)
      (fun t ht => .give (by simp [Still])) (by simp [Still])
    intro _ _ hpos
    have hfirst : u.pos = s.pos := Nat.le_antisymm (hpos ▸ ht.2) hu.2
    exact .seq (hu.1 m rfl hfirst) (ht.1 k rfl (hpos.trans hfirst.symm))
  | choice n a b iha ihb =>
    intro s
    have ha := hp.part (.choiceLeft a b)
    have hb := hp.part (.choiceRight a b)
    refine Step.Ensures.branch ((iha ha s).and (run_onward ha n s)) (fun m u hu => ?_)
      (fun u _ => .movedTo ?_) (by simp [Still])
    · exact .close hu.2 fun k _ hpos => .choiceLeft b (hu.1 m rfl hpos)
    · refine Step.Ensures.branch ((ihb hb _).and (run_onward hb n _)) (fun m t ht => ?_)
        (fun t _ => .movedTo (.give (by simp [Still]))) (by simp [Still])
      exact .close ht.2 fun k _ hpos => .choiceRight a (ht.1 m rfl hpos)
  | not n p ih => exact fun s v t _ m _ _ => .not p
  | ahead n p ih => exact fun s v t _ m _ _ => .ahead p
  | exactly n p k ih =>
    intro s
    have hpart := hp.part (.exactly p k)
    cases k with
    | zero => exact fun v t _ m _ _ => .exactlyZero p
    | succ k =>
      exact (repeated_still (run_onward hpart n) (.close s.pos) (ih hpart) k s).mono
        fun v t h m hm hpos => .exactly _ (h m hm hpos)
  | atLeast n p k ih =>
    intro s
    have hpart := hp.part (.atLeast p k)
    have honward := run_onward hpart n
    cases k with
    | zero => exact fun v t _ m _ _ => .atLeastZero p
    | succ k =>
      exact (repeated_still honward (honward.greedy s.pos n) (ih hpart) k s).mono
        fun v t h m hm hpos => .atLeast _ (h m hm hpos)
  | atMost n p k ih => exact fun s v t _ m _ _ => .atMost p k
  | spent r => exact fun s v t ht => by simp [run_rule_zero] at ht
  | body n r p hr ih =>
    rw [σ.run_rule_body hr]
    exact fun s => (ih (hp.body hr) s).mono fun v t h m hm hpos => .body hr (h m hm hpos)
  | unresolved n r hr =>
    rw [σ.run_rule_none hr]
    exact fun s => .performing (.give (by simp [Still]))
  | hook n p id ih =>
    intro s
    refine .hook (ih (hp.part (.hook p id)) s) (by simp [Still])
      (fun v u hu hv => ⟨fun _ m hm hpos => ?_, by simp [Still]⟩)
    have hkeep := hp p id (.refl _) ⟨σ.input, u.pos⟩ v.span? u.ctx
    exact .hook id (hu m hm (hkeep.symm.trans hpos))
  | forward n p sink ih =>
    intro s
    have hpart := hp.part (.forward p sink)
    refine .forward ((ih hpart s).and (run_ordered hpart n s)) (fun m u hu => ⟨hu.2 m rfl, ?_⟩)
      (by simp [Still]) (by simp [Still])
    exact fun k _ hpos => .forward sink (hu.1 m rfl hpos)
  | capture n p ih =>
    intro s
    exact (ih (hp.part (.capture p)) s).branch
      (fun m u hu => .performing (.give fun k _ hpos => .capture (hu m rfl hpos)))
      (fun u hu => .give (by simp [Still])) (by simp [Still])

/-- A rank of references that falls from a rule to what its body exposes, for all the rules
that can be met below a pattern. -/
def Ranked (σ : Setting κ) (top : Nat) (rank : RuleRef → Nat) (p : Pattern) : Prop :=
  ∀ r body, Pattern.Reaches σ.rules p (.rule r) → σ.rules r = some body →
    rank r ≤ top ∧ ∀ r' body', body.Exposes σ.rules r' → σ.rules r' = some body' → rank r' < rank r

variable {top : Nat} {rank : RuleRef → Nat}

theorem Ranked.part (h : σ.Ranked top rank p) (hp : p.Part q) : σ.Ranked top rank q :=
  fun r body hr => h r body (.part hp hr)

theorem Ranked.body {ref : RuleRef} (h : σ.Ranked top rank (.rule ref))
    (hp : σ.rules ref = some p) : σ.Ranked top rank p := fun r body hr => h r body (.body hp hr)

/-- Calls that fit between a position and the end of the input, every one of a rule with a
rank up to `top`, and `k` more of them at the position. -/
def calls (σ : Setting κ) (top pos k : Nat) : Nat := (σ.input.size - pos) * (top + 2) + k

structure Room (σ : Setting κ) (top : Nat) (rank : RuleRef → Nat) (n : Nat) (p : Pattern)
    (pos : Nat) : Prop where
  ranked : σ.Ranked top rank p
  rest : σ.calls top pos 0 < n
  exposed : ∀ r body, p.Exposes σ.rules r → σ.rules r = some body →
    σ.calls top pos (rank r + 1) < n

theorem Ranked.le_top (h : σ.Ranked top rank p) {r : RuleRef} {body : Pattern}
    (hr : p.Exposes σ.rules r) (hbody : σ.rules r = some body) : rank r ≤ top :=
  (h r body hr.reaches hbody).1

/-- Having moved leaves less room than any number of calls at one position takes. -/
theorem calls_lt {pos pos' k : Nat} (hpos : pos < pos') (hend : pos' ≤ σ.input.size)
    (hk : k ≤ top + 1) : σ.calls top pos' k < σ.calls top pos 0 := by
  have hmul := Nat.mul_le_mul_right (top + 2)
    (show σ.input.size - pos' + 1 ≤ σ.input.size - pos by omega)
  rw [Nat.add_mul, Nat.one_mul] at hmul
  unfold calls
  omega

/-- A part has room wherever the pattern has come to, if it exposes no more at its start. -/
theorem Room.part {n start pos : Nat} (h : σ.Room top rank n p start) (hp : p.Part q)
    (hafter : start ≤ pos) (hbefore : pos ≤ max start σ.input.size)
    (hexposes : pos = start → ∀ r, q.Exposes σ.rules r → p.Exposes σ.rules r) :
    σ.Room top rank n q pos := by
  have hranked := h.ranked.part hp
  rcases Nat.eq_or_lt_of_le hafter with rfl | hlt
  · exact ⟨hranked, h.rest, fun r body hr hbody => h.exposed r body (hexposes rfl r hr) hbody⟩
  · have hend : pos ≤ σ.input.size := by omega
    refine ⟨hranked, (calls_lt hlt hend (Nat.zero_le _)).trans h.rest, fun r body hr hbody => ?_⟩
    have hle := hranked.le_top hr hbody
    exact (calls_lt hlt hend (by omega)).trans h.rest

theorem Room.first {n pos : Nat} (h : σ.Room top rank n p pos) (hp : p.Part q)
    (hexposes : ∀ r, q.Exposes σ.rules r → p.Exposes σ.rules r) : σ.Room top rank n q pos :=
  h.part hp (Nat.le_refl _) (Nat.le_max_left _ _) fun _ => hexposes

theorem Room.body {n : Nat} {r : RuleRef} {pos : Nat} (h : σ.Room top rank (n + 1) (.rule r) pos)
    (hbody : σ.rules r = some p) : σ.Room top rank n p pos := by
  have hcalls := h.exposed r p (.rule r) hbody
  have hfalls := (h.ranked r p (.refl _) hbody).2
  unfold calls at hcalls
  refine ⟨h.ranked.body hbody, by unfold calls; omega, fun r' body' hr' hbody' => ?_⟩
  have hlt := hfalls r' body' hr' hbody'
  unfold calls
  omega

def Region (σ : Setting κ) (s u : State κ) : Prop :=
  s.pos ≤ u.pos ∧ u.pos ≤ max s.pos σ.input.size

theorem Region.refl (s : State κ) : σ.Region s s := ⟨Nat.le_refl _, Nat.le_max_left _ _⟩

theorem Region.stays (hp : σ.KeepsPosition p) {n : Nat} {m : Span} (hu : σ.Region s u)
    (h : σ.run n p u = some (.hit m, t)) : σ.Region s t := by
  have hkept := run_inRange hp n u _ t h
  have hafter := hkept.after
  have hbefore := hkept.before
  obtain ⟨h₁, h₂⟩ := hu
  exact ⟨by omega, by omega⟩

/-- A run within a limit that has room for the calls ends. -/
theorem run_isSome (n : Nat) (p : Pattern) (hp : σ.KeepsPosition p) :
    ∀ s : State κ, σ.Room top rank n p s.pos → (σ.run n p s).isSome := by
  induction n, p using σ.run_induct with
  | literal n bytes => exact fun s _ => Step.isSome_literal _ _ _ s
  | oneByte n p accept h =>
    rw [σ.run_oneByte h]
    exact fun s _ => Step.isSome_oneByte _ _ s
  | seq n a b iha ihb =>
    intro s hroom
    have ha := hp.part (.seqLeft a b)
    have hb := hp.part (.seqRight a b)
    refine Step.isSome_seq (iha ha s (hroom.first (.seqLeft a b) fun _ hr => .seqLeft b hr))
      (fun m u hu => ihb hb u ?_)
    have hkept := run_inRange ha n s _ u hu
    exact hroom.part (.seqRight a b) hkept.after hkept.before
      fun hpos _ hr => .seqRight (run_still n a ha s _ u hu m rfl hpos) hr
  | choice n a b iha ihb =>
    intro s hroom
    have hleft := hroom.first (.choiceLeft a b) fun _ hr => .choiceLeft b hr
    have hright := hroom.first (.choiceRight a b) fun _ hr => .choiceRight a hr
    exact Step.isSome_choice (iha (hp.part (.choiceLeft a b)) s hleft)
      (fun u _ => ihb (hp.part (.choiceRight a b)) _ hright)
  | not n p ih =>
    intro s hroom
    exact Step.isSome_not (ih (hp.part (.not p)) s (hroom.first (.not p) fun _ => .not))
  | ahead n p ih =>
    intro s hroom
    exact Step.isSome_ahead (ih (hp.part (.ahead p)) s (hroom.first (.ahead p) fun _ => .ahead))
  | exactly n p k ih =>
    intro s hroom
    have hpart := hp.part (.exactly p k)
    refine Step.isSome_repeated (σ.Region s) (fun u hu => ih hpart u ?_)
      (fun u m t hu h => hu.stays hpart h) (fun u _ => Step.isSome_close _ u) k s (.refl s)
    exact hroom.part (.exactly p k) hu.1 hu.2 fun _ _ hr => .exactly k hr
  | atLeast n p k ih =>
    intro s hroom
    have hpart := hp.part (.atLeast p k)
    have hends : ∀ u, σ.Region s u → (σ.run n p u).isSome := fun u hu =>
      ih hpart u (hroom.part (.atLeast p k) hu.1 hu.2 fun _ _ hr => .atLeast k hr)
    refine Step.isSome_repeated (σ.Region s) hends (fun u m t hu h => hu.stays hpart h)
      (fun u hu => ?_) k s (.refl s)
    refine Step.isSome_greedy (σ.Region s) hends (fun u m t hu h => hu.stays hpart h)
      (fun u => σ.input.size - u.pos) (fun u m t hu h hmoved => ?_) s.pos n u hu ?_
    · have hkept := run_inRange hpart n u _ t h
      have hafter := hkept.after
      have hbefore := hkept.before
      omega
    · have hrest := hroom.rest
      have hmul : σ.input.size - s.pos ≤ (σ.input.size - s.pos) * (top + 2) :=
        Nat.le_mul_of_pos_right _ (Nat.succ_pos _)
      have hafter := hu.1
      unfold calls at hrest
      omega
  | atMost n p k ih =>
    intro s hroom
    have hpart := hp.part (.atMost p k)
    refine Step.isSome_upTo (σ.Region s) (fun u hu => ih hpart u ?_)
      (fun u m t hu h => hu.stays hpart h) s.pos k s (.refl s)
    exact hroom.part (.atMost p k) hu.1 hu.2 fun _ _ hr => .atMost k hr
  | spent r => exact fun s hroom => absurd hroom.rest (Nat.not_lt_zero _)
  | body n r p hr ih =>
    rw [σ.run_rule_body hr]
    exact fun s hroom => ih (hp.body hr) s (hroom.body hr)
  | unresolved n r hr =>
    rw [σ.run_rule_none hr]
    exact fun s _ => rfl
  | hook n p id ih =>
    intro s hroom
    exact Step.isSome_hook (ih (hp.part (.hook p id)) s
      (hroom.first (.hook p id) fun _ => .hook id))
  | forward n p sink ih =>
    intro s hroom
    exact Step.isSome_forward (ih (hp.part (.forward p sink)) s
      (hroom.first (.forward p sink) fun _ => .forward sink))
  | capture n p ih =>
    intro s hroom
    exact Step.isSome_capture (ih (hp.part (.capture p)) s
      (hroom.first (.capture p) fun _ => .capture))

/-- Without a cycle on the left, references are ranked by how many slots they reach there. -/
theorem ranked_of_acyclic {g : Grammar} (hg : σ.grammar = some g)
    (hcycle : ∀ i, ¬ Relation.TransGen g.LeftReaches i i) (p : Pattern) :
    σ.Ranked g.size (fun r => g.rank r.slot) p := by
  have hslot : ∀ r body, σ.rules r = some body →
      r.grammar = g.id ∧ g.bodyAt? r.slot = some body := by
    intro r body h
    obtain ⟨g', hg', hbody⟩ := rules_eq_some_iff.mp h
    obtain rfl := Option.some.inj (hg.symm.trans hg')
    exact hbody
  intro r body _ hbody
  refine ⟨Grammar.rank_le r.slot, fun r' body' hr' hbody' => ?_⟩
  have hto := hslot r' body' hbody'
  refine Grammar.rank_lt_rank ⟨body, r', (hslot r body hbody).2, rules_eq hg ▸ hr', hto.1, rfl⟩
    (Grammar.lt_size_of_bodyAt? hto.2) (hcycle r'.slot)

theorem ranked_of_refs_eq_nil (hp : p.refs = []) : σ.Ranked top rank p := fun r _ hr _ =>
  absurd (hr.refs_eq_nil hp) (by simp [Pattern.refs])

def ruleCount (σ : Setting κ) : Nat := (σ.grammar.map Grammar.size).getD 0

theorem Ranked.room (h : σ.Ranked top rank p) {n : Nat}
    (hn : (σ.input.size + 2) * (top + 2) ≤ n) (pos : Nat) : σ.Room top rank n p pos := by
  have hcalls : ∀ k, k ≤ top + 1 → σ.calls top pos k < n := by
    intro k hk
    have hmul := Nat.mul_le_mul_right (top + 2) (Nat.sub_le σ.input.size pos)
    rw [Nat.add_mul] at hn
    unfold calls
    omega
  exact ⟨h, hcalls 0 (Nat.zero_le _), fun r body hr hbody =>
    hcalls _ (Nat.succ_le_succ (h.le_top hr hbody))⟩

/-- An evaluation under a grammar without left recursion ends, with the same result within
every limit from a bound on. So does that of a pattern without references. -/
theorem evaluation_ends (hp : σ.KeepsPosition p)
    (h : (∀ g, σ.grammar = some g → ∀ i, ¬ Relation.TransGen g.LeftReaches i i) ∨ p.refs = [])
    (s : State κ) :
    (∃ r, ∀ n, (σ.input.size + 2) * (σ.ruleCount + 2) ≤ n → σ.run n p s = some r) ∧
      ∃ r, σ.eval p s = some r := by
  obtain ⟨rank, hranked⟩ : ∃ rank, σ.Ranked σ.ruleCount rank p := by
    rcases h with hcycle | hrefs
    · cases hg : σ.grammar with
      | none => exact ⟨fun _ => 0, fun r body _ hbody => by simp [rules, hg] at hbody⟩
      | some g =>
        have hcount : σ.ruleCount = g.size := by simp [ruleCount, hg]
        exact ⟨_, hcount ▸ ranked_of_acyclic hg (hcycle g hg) p⟩
    · exact ⟨fun _ => 0, ranked_of_refs_eq_nil hrefs⟩
  have hends : ∀ n s, (σ.input.size + 2) * (σ.ruleCount + 2) ≤ n → (σ.run n p s).isSome :=
    fun n s hn => run_isSome n p hp s (hranked.room hn s.pos)
  refine ⟨?_, Option.isSome_iff_exists.mp (hends σ.limit _ (Nat.le_add_right _ _))⟩
  obtain ⟨r, hr⟩ := Option.isSome_iff_exists.mp (hends _ s (Nat.le_refl _))
  exact ⟨r, fun n hn => σ.run_below hn p s r hr⟩

/-- Groups in parentheses end, although their rules call each other. -/
theorem parens_ends :
    let d := Demo.parens 0 0
    let σ : Setting Store := { host := Store.host, input := #[40, 40, 41], grammar := d.grammar }
    (∀ i, ¬ Relation.TransGen d.grammar.LeftReaches i i) ∧
      (∃ r, ∀ n, 20 ≤ n → σ.run n d.start ⟨0, {}⟩ = some r) ∧
      ∃ r, σ.eval d.start ⟨0, {}⟩ = some r := by
  intro d σ
  have hbodies : d.grammar.slots.map Slot.body =
      #[some (.capture (.seq (.seq (.literal [40]) (.rule ⟨0, 1, "groups"⟩)) (.literal [41]))),
        some (.atLeast (.rule ⟨0, 0, "group"⟩) 0)] := by decide +kernel
  have hfalls : ∀ i j, d.grammar.LeftReaches i j → j < i := by
    rintro i j ⟨body, ref, hbody, hexposes, -, rfl⟩
    have hi : (d.grammar.slots.map Slot.body)[i]? = some (some body) := by
      obtain ⟨slot, hslot, hsome⟩ := Option.bind_eq_some_iff.mp hbody
      rw [Array.getElem?_map, hslot, Option.map_some, hsome]
    rw [hbodies] at hi
    match i with
    | 0 =>
      obtain rfl := Option.some.inj (Option.some.inj hi)
      cases hexposes with
      | capture h => cases h with
        | seqLeft _ h => cases h with
          | seqLeft _ h => cases h
          | seqRight hparen _ => cases hparen
        | seqRight hnullable _ => cases hnullable with
          | seq hparen _ => cases hparen
    | 1 =>
      obtain rfl := Option.some.inj (Option.some.inj hi)
      cases hexposes with
      | atLeast _ h => cases h; decide
    | i + 2 => simp at hi
  have hcycle := Grammar.acyclic_of_lt hfalls
  have hbound : (σ.input.size + 2) * (σ.ruleCount + 2) = 20 := by decide +kernel
  have hends := evaluation_ends (σ := σ) (p := d.start) (fun _ _ _ _ _ _ => rfl)
    (.inl fun g hg => Option.some.inj hg ▸ hcycle) ⟨0, {}⟩
  exact ⟨hcycle, hbound ▸ hends⟩

end Setting

end Peg
