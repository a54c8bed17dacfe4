import Peg.Proofs.Balance
import Peg.Proofs.Recognizing

/-! # Balanced parentheses are recognized

The demo of parentheses takes the longest balanced text. Behind it, it may begin a group that is
never finished: that one is not captured, but those within it are, since what has been captured
stays. So the captures are the groups of the longest part of the input that balanced text begins
with, and those of the match come first.
-/
namespace Peg

namespace Paren

/-- In the bytes `w` from `start` on, the span is a balanced group. -/
def IsGroup (start : Nat) (w : List UInt8) (m : Span) : Prop :=
  ∃ u g z, w = u ++ g ++ z ∧ g ∈ group ∧
    m = ⟨start + u.length, start + u.length + g.length⟩

variable {start : Nat} {g u v w y : List UInt8} {m : Span} {own others ms : List Span}

theorem two_le_length (hg : g ∈ group) : 2 ≤ g.length := by
  obtain ⟨v, -, rfl⟩ := hg
  simp

theorem group_ne_nil (hg : g ∈ group) : g ≠ [] := by
  obtain ⟨v, -, rfl⟩ := hg
  exact List.cons_ne_nil _ _

theorem IsGroup.bounds (h : IsGroup start w m) :
    start ≤ m.start ∧ m.start < m.stop ∧ m.stop ≤ start + w.length := by
  obtain ⟨u, g, z, rfl, hg, rfl⟩ := h
  have htwo := two_le_length hg
  simp only [List.length_append]
  omega

theorem not_isGroup (hw : w.length < 2) : ¬ IsGroup start w m := by
  rintro ⟨u, g, z, rfl, hg, -⟩
  have htwo := two_le_length hg
  simp only [List.length_append] at hw
  omega

/-- No group goes across the end of balanced text. -/
theorem isGroup_append (hu : u ∈ balanced) :
    IsGroup start (u ++ v) m ↔ IsGroup start u m ∨ IsGroup (start + u.length) v m := by
  constructor
  · rintro ⟨x, g, z, heq, hg, rfl⟩
    rcases middle_cases heq with ⟨k, rfl, rfl⟩ | ⟨k, rfl, rfl⟩ | ⟨k, k', hk, hk', rfl, rfl, rfl⟩
    · exact .inl ⟨x, g, k, rfl, hg, rfl⟩
    · exact .inr ⟨k, g, z, rfl, hg, by simp [Nat.add_assoc]⟩
    · have hpos := depth_pos_of_group hg hk hk'
      have hnonpos := depth_nonpos_of_suffix hu
      omega
  · rintro (⟨x, g, z, rfl, hg, rfl⟩ | ⟨x, g, z, rfl, hg, rfl⟩)
    · exact ⟨x, g, z ++ v, by simp, hg, rfl⟩
    · exact ⟨u ++ x, g, z, by simp, hg, by simp [Nat.add_assoc]⟩

/-- Where a group begins with the first byte, and where it does not. -/
theorem isGroup_cons {b : UInt8} : IsGroup start (b :: w) m ↔
    (∃ g z, b :: w = g ++ z ∧ g ∈ group ∧ m = ⟨start, start + g.length⟩) ∨
      IsGroup (start + 1) w m := by
  constructor
  · rintro ⟨u, g, z, heq, hg, rfl⟩
    cases u with
    | nil => exact .inl ⟨g, z, heq, hg, rfl⟩
    | cons c u =>
      obtain ⟨rfl, rfl⟩ := List.cons.inj heq
      refine .inr ⟨u, g, z, rfl, hg, ?_⟩
      rw [List.length_cons, Nat.add_comm u.length, ← Nat.add_assoc]
  · rintro (⟨g, z, heq, hg, rfl⟩ | ⟨u, g, z, rfl, hg, rfl⟩)
    · exact ⟨[], g, z, heq, hg, rfl⟩
    · exact ⟨b :: u, g, z, rfl, hg, by rw [List.length_cons, Nat.add_right_comm, Nat.add_assoc]⟩

theorem isGroup_of_unfinished (hy : Unfinished (40 :: w)) :
    IsGroup start (40 :: w) m ↔ IsGroup (start + 1) w m := by
  rw [isGroup_cons, or_iff_right]
  rintro ⟨g, z, heq, hg, -⟩
  have hpos := hy g ⟨z, heq.symm⟩ (group_ne_nil hg)
  have hzero := (mem_balanced_iff.mp (group_balanced hg)).2
  omega

theorem isGroup_of_group (hv : v ∈ balanced) : IsGroup start (40 :: (v ++ [41])) m ↔
    IsGroup (start + 1) v m ∨ m = ⟨start, start + (v.length + 2)⟩ := by
  have hwhole : 40 :: (v ++ [41]) ∈ group := ⟨v, hv, rfl⟩
  have hinside : IsGroup (start + 1) (v ++ [41]) m ↔ IsGroup (start + 1) v m := by
    rw [isGroup_append hv, or_iff_left (not_isGroup (by simp))]
  rw [isGroup_cons, hinside, or_comm]
  refine or_congr_right ⟨?_, ?_⟩
  · rintro ⟨g, z, heq, hg, rfl⟩
    have hz : z = [] := by
      by_contra hz
      have hpos := depth_pos_of_group (heq ▸ hwhole) (group_ne_nil hg) hz
      have hzero := (mem_balanced_iff.mp (group_balanced hg)).2
      omega
    rw [hz, List.append_nil] at heq
    simp [← heq]
  · rintro rfl
    exact ⟨_, [], (List.append_nil _).symm, hwhole, by simp⟩

/-- The groups of balanced text are listed in `own`, half as many as its bytes. -/
def Listed (start : Nat) (w : List UInt8) (own : List Span) : Prop :=
  Enumerates own (IsGroup start w) ∧ 2 * own.length = w.length

theorem Listed.group (hv : v ∈ balanced) (h : Listed (start + 1) v own) :
    Listed start (40 :: (v ++ [41])) (own ++ [⟨start, start + (v.length + 2)⟩]) := by
  refine ⟨?_, ?_⟩
  · refine (h.1.append (.single fun _ => Iff.rfl) fun m n hm hn => ?_).congr fun m =>
      (isGroup_of_group hv).symm
    have hbounds := hm.bounds
    subst hn
    dsimp only
    omega
  · have hlength := h.2
    simp only [List.length_append, List.length_cons, List.length_nil]
    omega

theorem enumerates_append (hu : u ∈ balanced) (h : Enumerates own (IsGroup start u))
    (h' : Enumerates others (IsGroup (start + u.length) v)) :
    Enumerates (own ++ others) (IsGroup start (u ++ v)) := by
  refine (h.append h' fun m n hm hn => ?_).congr fun m => (isGroup_append hu).symm
  have hleft := hm.bounds
  have hright := hn.bounds
  omega

theorem Listed.append (hu : u ∈ balanced) (h : Listed start u own)
    (h' : Listed (start + u.length) v others) : Listed start (u ++ v) (own ++ others) := by
  refine ⟨enumerates_append hu h.1 h'.1, ?_⟩
  rw [List.length_append, List.length_append, Nat.mul_add, h.2, h'.2]

/-! What the rules take. -/

section Rules

variable {κ : Type} {σ : Setting κ} {r r' : RuleRef}

/-- What comes from `start` on: a row of groups, behind it the beginning of a group that is never
finished, and what is captured in the one and in the other. -/
structure Scan (σ : Setting κ) (start : Nat) (w y : List UInt8) (own others : List Span) :
    Prop where
  balanced : w ∈ balanced
  unfinished : Unfinished y
  begun : LongestPrefix begun (σ.remaining start) (w ++ y)
  row : Listed start w own
  beyond : Enumerates others (IsGroup (start + w.length) y)

def Scanned (σ : Setting κ) (sink : SinkId) : Setting.Imprint := fun start w l =>
  ∃ y own others, Scan σ start w y own others ∧
    l = (own ++ others).map .captured ++ [.forwarded sink ⟨start, start + w.length⟩ w.toArray]

def TakesRow (σ : Setting κ) (r : RuleRef) (start : Nat) : Prop :=
  ∃ w y own others, Scan σ start w y own others ∧
    σ.Takes (.atLeast (.rule r) 0) start (start + w.length) ((own ++ others).map .captured)

def TriesGroup (σ : Setting κ) (r : RuleRef) (start : Nat) : Prop :=
  (∃ g ms, g ∈ group ∧ g <+: σ.remaining start ∧ Listed start g ms ∧
    σ.Takes (.rule r) start (start + g.length) (ms.map .captured)) ∨
  ∃ y ms, Scan σ start [] y [] ms ∧ σ.Misses (.rule r) start (ms.map .captured)

theorem Listed.nil : Listed start [] [] := ⟨.nil fun _ => not_isGroup (by simp), rfl⟩

section Inside

variable {rest : List UInt8} (hrest : σ.remaining start = 40 :: rest)
include hrest

theorem remaining_inside : σ.remaining (start + 1) = rest := by
  rw [← Setting.drop_remaining, hrest, List.drop_one, List.tail_cons]

/-- If the row is followed by a last parenthesis, nothing was begun behind it. -/
theorem Scan.closed (h : Scan σ (start + 1) w y own others)
    (hlast : (rest.drop w.length).head? = some 41) :
    others = [] ∧ 40 :: (w ++ [41]) <+: σ.remaining start := by
  have hstarts := h.begun.starts
  rw [remaining_inside hrest] at hstarts
  obtain ⟨z, hz⟩ := hstarts
  have hbehind : rest.drop w.length = y ++ z := by rw [← hz, List.append_assoc, List.drop_left]
  have hy : y = [] := by
    cases y with
    | nil => rfl
    | cons b y =>
      rw [hbehind] at hlast
      cases h.unfinished.first.symm.trans (Option.some.inj hlast)
  subst hy
  refine ⟨h.beyond.eq_nil fun _ => not_isGroup (by simp), ?_⟩
  rw [hbehind] at hlast
  obtain ⟨z, rfl⟩ := List.head?_eq_some_iff.mp hlast
  rw [hrest, ← hz]
  exact ⟨z, by simp⟩

/-- Otherwise all that was begun goes on unfinished. -/
theorem Scan.unclosed (h : Scan σ (start + 1) w y own others)
    (hlast : (rest.drop w.length).head? ≠ some 41) :
    Scan σ start [] (40 :: (w ++ y)) [] (own ++ others) := by
  have hopen := Unfinished.opening h.balanced h.unfinished
  have hbegun := h.begun
  rw [remaining_inside hrest] at hbegun
  refine ⟨nil_mem_balanced, hopen, ?_, .nil, ?_⟩
  · rw [hrest]
    exact longest_begun_opening h.balanced h.unfinished hbegun hlast
  · refine (enumerates_append h.balanced h.row.1 h.beyond).congr fun m => ?_
    exact (isGroup_of_unfinished hopen).symm

end Inside

/-- A group in front of the row is its first one. -/
theorem Scan.behind (hg : g ∈ group) (hstarts : g <+: σ.remaining start) (hms : Listed start g ms)
    (h : Scan σ (start + g.length) w y own others) :
    Scan σ start (g ++ w) y (ms ++ own) others := by
  have hbalanced := group_balanced hg
  obtain ⟨rest, hrest⟩ := hstarts
  have hbegun := h.begun
  rw [← Setting.drop_remaining, ← hrest, List.drop_left] at hbegun
  refine ⟨append_mem_balanced hbalanced h.balanced, h.unfinished, ?_, hms.append hbalanced h.row, ?_⟩
  · rw [← hrest, List.append_assoc]
    exact longest_begun_behind hbalanced hbegun
  · rw [List.length_append, ← Nat.add_assoc]
    exact h.beyond

theorem takes_byte {b : UInt8} (h : (σ.remaining start).head? = some b) :
    σ.Takes (.literal [b]) start (start + 1) [] := by
  obtain ⟨rest, hrest⟩ := List.head?_eq_some_iff.mp h
  exact Setting.takes_literal (by rw [hrest]; exact ⟨rest, rfl⟩)

theorem misses_byte {b : UInt8} (h : (σ.remaining start).head? ≠ some b) :
    σ.Misses (.literal [b]) start [] := by
  refine Setting.misses_literal fun hstarts => h ?_
  obtain ⟨rest, hrest⟩ := hstarts
  rw [← hrest]
  rfl

variable (hgroup : σ.rules r = some (.capture (.seq (.seq (.lit "(") (.rule r')) (.lit ")"))))
  (hgroups : σ.rules r' = some (.atLeast (.rule r) 0))
include hgroup hgroups

/-- A group is tried with the longest row inside, and no shorter one could have been closed. -/
theorem triesGroup (hinner : (σ.remaining start).head? = some 40 → TakesRow σ r (start + 1)) :
    TriesGroup σ r start := by
  rw [show Pattern.lit "(" = .literal [40] by decide +kernel,
    show Pattern.lit ")" = .literal [41] by decide +kernel] at hgroup
  by_cases hfirst : (σ.remaining start).head? = some 40
  · obtain ⟨w, y, own, others, hscan, htakes⟩ := hinner hfirst
    obtain ⟨rest, hrest⟩ := List.head?_eq_some_iff.mp hfirst
    have hrow := (takes_byte hfirst).seq (htakes.body hgroups)
    have hbehind : σ.remaining (start + 1 + w.length) = rest.drop w.length := by
      rw [← Setting.drop_remaining, remaining_inside hrest]
    by_cases hlast : (rest.drop w.length).head? = some 41
    · obtain ⟨rfl, hstarts⟩ := hscan.closed hrest hlast
      have htaken := ((hrow.seq (takes_byte (hbehind ▸ hlast))).capture).body hgroup
      refine .inl ⟨_, _, ⟨w, hscan.balanced, rfl⟩, hstarts, hscan.row.group hscan.balanced, ?_⟩
      have hstop : start + (40 :: (w ++ [41])).length = start + 1 + w.length + 1 := by
        simp only [List.length_cons, List.length_append, List.length_nil]
        omega
      rw [hstop, show start + (w.length + 2) = start + 1 + w.length + 1 by omega]
      simpa using htaken
    · have hmissed := ((hrow.seq_misses (misses_byte (hbehind ▸ hlast))).capture).body hgroup
      exact .inr ⟨_, _, hscan.unclosed hrest hlast, by simpa using hmissed⟩
  · refine .inr ⟨[], [], ⟨nil_mem_balanced, .nil, longest_begun_nil hfirst, .nil,
      .nil fun _ => not_isGroup (by simp)⟩, ?_⟩
    exact ((((misses_byte hfirst).seq _).seq _).capture).body hgroup

variable (hp : σ.KeepsPosition (.rule r))
include hp

/-- By induction on what is left of the input: a row inside the first group, and a row behind it. -/
theorem takesRow (start : Nat) : TakesRow σ r start := by
  induction hleft : (σ.remaining start).length using Nat.strongRecOn generalizing start with
  | ind left ih =>
    have htries : TriesGroup σ r start := triesGroup hgroup hgroups fun hfirst => by
      obtain ⟨rest, hrest⟩ := List.head?_eq_some_iff.mp hfirst
      refine ih _ ?_ (start + 1) rfl
      rw [remaining_inside hrest, ← hleft, hrest, List.length_cons]
      exact Nat.lt_succ_self _
    rcases htries with ⟨g, ms, hg, hstarts, hms, htakes⟩ | ⟨y, ms, hscan, hmisses⟩
    · have htwo := two_le_length hg
      have hle := hstarts.length_le
      obtain ⟨w, y, own, others, hscan, hrow⟩ := ih _ (by
        rw [← Setting.drop_remaining, List.length_drop, ← hleft]
        omega) (start + g.length) rfl
      refine ⟨g ++ w, y, ms ++ own, others, hscan.behind hg hstarts hms, ?_⟩
      rw [List.length_append, ← Nat.add_assoc, List.append_assoc, List.map_append]
      exact htakes.loop hp (by omega) hrow
    · exact ⟨[], y, [], ms, hscan, hmisses.loop⟩

def rows : Language UInt8 := {w | w ∈ balanced ∧ w ≠ []}

theorem munches_row (sink : SinkId) :
    σ.Munches (.forward (.atLeast (.rule r) 1) sink) rows (Scanned σ sink) fun _ => True := by
  intro start
  have htries : TriesGroup σ r start := triesGroup hgroup hgroups
    fun _ => takesRow hgroup hgroups hp (start + 1)
  rcases htries with ⟨g, ms, hg, hstarts, hms, htakes⟩ | ⟨y, ms, hscan, hmisses⟩
  · obtain ⟨w, y, own, others, hscan, hrow⟩ := takesRow hgroup hgroups hp (start + g.length)
    have hall := hscan.behind hg hstarts hms
    have hlongest := longest_balanced hall.balanced hall.unfinished hall.begun
    refine .inl ⟨g ++ w, _, ⟨⟨hlongest.mem, ?_⟩, hlongest.starts, fun v hv => ?_⟩, ?_,
      y, ms ++ own, others, hall, rfl⟩
    · exact fun hnil => group_ne_nil hg (List.append_eq_nil_iff.mp hnil).1
    · exact hlongest.longest v hv.1
    · have hrows := (htakes.atLeast_one hp hrow).forward sink
      rw [← Setting.extract_of_starts hlongest.starts, List.append_assoc, List.map_append,
        List.length_append, ← Nat.add_assoc]
      exact hrows
  · refine .inr ⟨fun v hv hstarts => ?_, _, hmisses.atLeast_one.forward sink, trivial⟩
    have hlongest := longest_balanced hscan.balanced hscan.unfinished hscan.begun
    exact hv.2 (List.length_eq_zero_iff.mp (Nat.le_zero.mp (hlongest.longest v hv.1 hstarts)))

end Rules

/-- The demo of groups takes the longest row of groups that the input begins with. -/
theorem munches_parens (id : GrammarId) (sink : SinkId) (x : Array UInt8) :
    ((Demo.build .parens id sink).setting x).Munches (Demo.build .parens id sink).start rows
      (Scanned ((Demo.build .parens id sink).setting x) sink) fun _ => True := by
  have hrules : ((Demo.build .parens id sink).setting x).rules =
      (Demo.parens id sink).grammar.resolve? := rfl
  have hstart : (Demo.build .parens id sink).start =
      .forward (.atLeast (.rule ⟨id, 0, "group"⟩) 1) sink := by rw [Demo.build, Demo.parens_eq]
  have hgroup : ((Demo.build .parens id sink).setting x).rules ⟨id, 0, "group"⟩ =
      some (.capture (.seq (.seq (.lit "(") (.rule ⟨id, 1, "groups"⟩)) (.lit ")"))) := by
    simp [hrules, Demo.parens_eq, Grammar.resolve?, Grammar.bodyAt?]
  have hgroups : ((Demo.build .parens id sink).setting x).rules ⟨id, 1, "groups"⟩ =
      some (.atLeast (.rule ⟨id, 0, "group"⟩) 0) := by
    simp [hrules, Demo.parens_eq, Grammar.resolve?, Grammar.bodyAt?]
  rw [hstart]
  exact munches_row hgroup hgroups (Store.keepsPosition rfl _) sink

section Act

variable {σ : Setting Store} (hσ : σ.host = Store.host) (ms : List Span) (sink : SinkId) (m : Span)
  (bytes : Array UInt8)
include hσ

theorem captures_act_captured :
    (σ.act {} (ms.map .captured ++ [.forwarded sink m bytes])).captures = ms.toArray := by
  rw [Store.captures_act hσ]
  simp [Trail.spans]

theorem content_act_captured :
    (σ.act {} (ms.map .captured ++ [.forwarded sink m bytes])).sinks.content sink = bytes := by
  have hbytes : Trail.bytesTo sink (ms.map .captured ++ [.forwarded sink m bytes]) =
      bytes.toList := by simp [Trail.bytesTo]
  rw [Store.content_act hσ, hbytes]

end Act

end Paren

/-- The demo of parentheses matches the longest prefix that is balanced and not empty, and
forwards it. -/
theorem recognizes_parens (id : GrammarId) (sink : SinkId) :
    Recognizes (Demo.build .parens id sink) Paren.rows
      fun w store => store.sinks.content sink = w.toArray := by
  refine recognizes (Paren.munches_parens id sink) ?_
  rintro x w _ - - ⟨y, own, others, -, rfl⟩
  exact Paren.content_act_captured rfl _ sink _ _

namespace Paren

/-- Of an input `x`, the match is `w`, and `y` is the beginning of a group behind it that is never
finished. The groups of the match are `own`, and the `others` are those in `y`; there are none of
these if no parenthesis is opened right behind the match. -/
structure Divided (x w y : List UInt8) (own others : List Span) : Prop where
  longest : LongestPrefix rows x w
  begun : LongestPrefix begun x (w ++ y)
  matched : Enumerates own (IsGroup 0 w)
  half : 2 * own.length = w.length
  within : ∀ m ∈ own, m.Within 0 w.length
  beyond : Enumerates others (IsGroup w.length y)
  none : x[w.length]? ≠ some 40 → others = []

theorem Scan.divided {κ : Type} {σ : Setting κ} (h : Scan σ 0 w y own others)
    (hw : LongestPrefix rows (σ.remaining 0) w) :
    Divided (σ.remaining 0) w y own others := by
  refine ⟨hw, h.begun, h.row.1, h.row.2, fun m hm => ?_, ?_, fun hnext => ?_⟩
  · have hbounds := ((h.row.1.2 m).mp hm).bounds
    exact ⟨hbounds.1, hbounds.2.1.le, by omega⟩
  · rw [← Nat.zero_add w.length]
    exact h.beyond
  · cases y with
    | nil => exact h.beyond.eq_nil fun _ => not_isGroup (by simp)
    | cons b y =>
      obtain ⟨z, hz⟩ := h.begun.starts
      refine absurd ?_ hnext
      rw [← hz, List.append_assoc, List.getElem?_append_right (Nat.le_refl _), Nat.sub_self]
      exact congrArg some h.unfinished.first

/-- The captures are the groups of the match in the order in which they are closed, and behind
them those in a group that was begun behind the match and given up. If the whole input is matched,
there are only the groups of the match. -/
theorem captures_groups (id : GrammarId) (sink : SinkId) (x : Array UInt8) :
    (∀ m t, (Demo.build .parens id sink).run x = some (.hit m, t) →
      ∃ w y own others, m = ⟨0, w.length⟩ ∧ t.ctx.captures.toList = own ++ others ∧
        Divided x.toList w y own others) ∧
    ∀ m t, (Demo.build .parens id sink).anchored.run x = some (.hit m, t) →
      m = ⟨0, x.size⟩ ∧ Enumerates t.ctx.captures.toList (IsGroup 0 x.toList) ∧
        2 * t.ctx.captures.size = x.size ∧ ∀ k ∈ t.ctx.captures, k.Within 0 x.size := by
  have hscan := munches_parens id sink
  refine ⟨fun m t hmatch => ?_, fun m t hmatch => ?_⟩
  · rcases run_cases hscan x with ⟨w, _, hw, ⟨y, own, others, h, rfl⟩, hrun⟩ | ⟨-, _, hrun⟩
    · cases hrun.symm.trans hmatch
      have hdivided : Divided x.toList w y own others := h.divided hw
      refine ⟨w, y, own, others, rfl, ?_, hdivided⟩
      rw [captures_act_captured rfl]
    · cases hrun.symm.trans hmatch
  · rcases run_anchored_cases hscan x with ⟨hx, _, ⟨y, own, others, h, rfl⟩, hrun⟩ | ⟨-, _, hrun⟩
    · cases hrun.symm.trans hmatch
      have hdivided : Divided x.toList _ _ _ _ :=
        h.divided ⟨hx, List.prefix_rfl, fun v _ hv => hv.length_le⟩
      obtain rfl := hdivided.none (by simp)
      rw [captures_act_captured rfl, List.append_nil]
      refine ⟨rfl, hdivided.matched, hdivided.half, fun k hk => ?_⟩
      exact hdivided.within k (List.mem_toArray.mp hk)
    · cases hrun.symm.trans hmatch

/-- A group, and behind it another one that lacks its last parenthesis. -/
theorem run_abandoned : ∃ t,
    (Demo.build .parens 0 0).run #[40, 41, 40, 40, 41] = some (.hit ⟨0, 2⟩, t) ∧
      t.ctx.captures = #[⟨0, 2⟩, ⟨3, 5⟩] := by
  have hrun : (((Demo.build .parens 0 0).setting #[40, 41, 40, 40, 41]).run 8
      (Demo.build .parens 0 0).start ⟨0, {}⟩).map (fun r => (r.1, r.2.ctx.captures)) =
      some (.hit ⟨0, 2⟩, #[⟨0, 2⟩, ⟨3, 5⟩]) := by decide +kernel
  obtain ⟨⟨v, t⟩, ht, heq⟩ := Option.map_eq_some_iff.mp hrun
  obtain ⟨rfl, hcaptures⟩ := Prod.mk.inj heq
  exact ⟨t, run_eq_of_run (by decide) ht, hcaptures⟩

/-- What is captured in the group that was given up is no part of the match. -/
theorem captures_abandoned : ∃ t,
    (Demo.build .parens 0 0).run #[40, 41, 40, 40, 41] = some (.hit ⟨0, 2⟩, t) ∧
      ¬ Enumerates t.ctx.captures.toList (IsGroup 0 [40, 41]) ∧
      (∃ k ∈ t.ctx.captures, ¬ k.Within 0 2) ∧ 2 * t.ctx.captures.size ≠ 2 := by
  obtain ⟨t, hrun, hcaptures⟩ := run_abandoned
  refine ⟨t, hrun, ?_⟩
  rw [hcaptures]
  refine ⟨fun h => ?_, ⟨⟨3, 5⟩, by simp, fun h => absurd h.2.2 (by decide)⟩, by decide⟩
  have hgroup : IsGroup 0 [40, 41] ⟨3, 5⟩ := (h.2 _).mp (by simp)
  exact absurd hgroup.bounds.2.2 (by decide)

theorem groups_of_abandoned_and_nested :
    (∃ t, (Demo.build .parens 0 0).run #[40, 41, 40, 40, 41] = some (.hit ⟨0, 2⟩, t) ∧
      ∃ w y own others, (⟨0, 2⟩ : Span) = ⟨0, w.length⟩ ∧
        t.ctx.captures.toList = own ++ others ∧
        Divided [40, 41, 40, 40, 41] w y own others) ∧
    ∃ t, (Demo.build .parens 0 0).anchored.run #[40, 40, 41, 41] = some (.hit ⟨0, 4⟩, t) ∧
      t.ctx.captures = #[⟨1, 3⟩, ⟨0, 4⟩] ∧
      Enumerates t.ctx.captures.toList (IsGroup 0 [40, 40, 41, 41]) := by
  have hrun : (((Demo.build .parens 0 0).anchored.setting #[40, 40, 41, 41]).run 8
      (Demo.build .parens 0 0).anchored.start ⟨0, {}⟩).map (fun r => (r.1, r.2.ctx.captures)) =
      some (.hit ⟨0, 4⟩, #[⟨1, 3⟩, ⟨0, 4⟩]) := by decide +kernel
  obtain ⟨⟨v, u⟩, hu, heq⟩ := Option.map_eq_some_iff.mp hrun
  obtain ⟨rfl, hnested⟩ := Prod.mk.inj heq
  have hnestedrun := run_eq_of_run (by decide) hu
  obtain ⟨t, habandoned, -⟩ := run_abandoned
  refine ⟨⟨t, habandoned, (captures_groups 0 0 _).1 _ t habandoned⟩, u, hnestedrun, hnested, ?_⟩
  exact ((captures_groups 0 0 _).2 _ u hnestedrun).2.1

end Paren

end Peg
