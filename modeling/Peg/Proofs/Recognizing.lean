import Peg.Proofs.ByteSets
import Peg.Proofs.Demos
import Peg.Proofs.Munching

/-! # Languages that are recognized

If the pattern a demo starts from takes longest prefixes, the demo matches exactly the inputs that
have a prefix in the language, and the anchored demo exactly the words. What they capture and
forward on the way is what the pattern leaves behind.
-/
namespace Peg

namespace CharClass

theorem holds_alpha : ∀ b, alpha.holds b = true ↔ (Char.ofUInt8 b).isAlpha := by decide +kernel

theorem holds_alnum : ∀ b, alnum.holds b = true ↔ (Char.ofUInt8 b).isAlphanum := by decide +kernel

theorem holds_digit : ∀ b, digit.holds b = true ↔ (Char.ofUInt8 b).isDigit := by decide +kernel

theorem holds_hexDigit : ∀ b, hexDigit.holds b = true ↔ (Char.ofUInt8 b).isHexDigit := by
  decide +kernel

theorem holds_blank :
    ∀ b, blank.holds b = true ↔ Char.ofUInt8 b = ' ' ∨ Char.ofUInt8 b = '\t' := by
  decide +kernel

end CharClass

namespace Store

theorem captures_perform (e : Effect) (store : Store) :
    (perform e store).captures = store.captures ++ (Trail.spans [e]).toArray := by
  cases e <;> simp [perform, Trail.spans]

theorem content_perform (e : Effect) (store : Store) (sink : SinkId) :
    (perform e store).sinks.content sink =
      store.sinks.content sink ++ (Trail.bytesTo sink [e]).toArray := by
  cases e with
  | captured | noticed => simp [perform, Trail.bytesTo]
  | forwarded k m bytes =>
    by_cases hk : k = sink
    · simp [perform, Sinks.content_append, Trail.bytesTo, hk]
    · simp [perform, Sinks.content_append, Trail.bytesTo, hk, Ne.symm hk]

variable {σ : Setting Store} (hσ : σ.host = Store.host)
include hσ

/-- A trail adds its spans to the captures and its bytes to the sinks. -/
theorem adds_act (trail : Trail) (store : Store) :
    (σ.act store trail).captures = store.captures ++ trail.spans.toArray ∧
      ∀ sink, (σ.act store trail).sinks.content sink =
        store.sinks.content sink ++ (trail.bytesTo sink).toArray := by
  induction trail generalizing store with
  | nil => simp [Setting.act, Trail.spans, Trail.bytesTo]
  | cons e rest ih =>
    have hperform : σ.host.perform e store = perform e store := by rw [hσ]; rfl
    obtain ⟨hcaptures, hcontent⟩ := ih (perform e store)
    rw [Setting.act_cons, hperform]
    constructor
    · rw [hcaptures, captures_perform, Trail.spans_cons e rest]
      simp
    · intro sink
      rw [hcontent, content_perform, Trail.bytesTo_cons sink e rest]
      simp

theorem captures_act (trail : Trail) : (σ.act {} trail).captures = trail.spans.toArray := by
  rw [(adds_act hσ trail {}).1]
  exact Array.empty_append

theorem content_act (trail : Trail) (sink : SinkId) :
    (σ.act {} trail).sinks.content sink = (trail.bytesTo sink).toArray := by
  rw [(adds_act hσ trail {}).2]
  exact Array.empty_append

end Store

/-- On every input, the demo and the anchored one come to a match or a miss. The demo matches if
the input has a prefix in `L`, and then the longest one; the anchored demo matches if the whole
input is in `L`. After a match the store is as `P` says of what was matched. -/
structure Recognizes (d : Demo) (L : Language UInt8) (P : List UInt8 → Store → Prop) : Prop where
  decides : ∀ x, (∃ m t, d.run x = some (.hit m, t)) ∨ ∃ t, d.run x = some (.miss, t)
  matches_iff : ∀ x, (∃ m t, d.run x = some (.hit m, t)) ↔ ∃ w ∈ L, w <+: x.toList
  of_match : ∀ x m t, d.run x = some (.hit m, t) →
    ∃ w, LongestPrefix L x.toList w ∧ m = ⟨0, w.length⟩ ∧ P w t.ctx
  decides_all : ∀ x, (∃ m t, d.anchored.run x = some (.hit m, t)) ∨
    ∃ t, d.anchored.run x = some (.miss, t)
  matches_all_iff : ∀ x, (∃ m t, d.anchored.run x = some (.hit m, t)) ↔ x.toList ∈ L
  of_match_all : ∀ x m t, d.anchored.run x = some (.hit m, t) →
    m = ⟨0, x.size⟩ ∧ P x.toList t.ctx

/-- A part of a text in two halves is in the first half, in the second one, or goes across. -/
theorem middle_cases {α : Type} {u v x y z : List α} (h : u ++ v = x ++ y ++ z) :
    (∃ k, u = x ++ y ++ k ∧ z = k ++ v) ∨ (∃ k, x = u ++ k ∧ v = k ++ y ++ z) ∨
      ∃ k k', k ≠ [] ∧ k' ≠ [] ∧ u = x ++ k ∧ y = k ++ k' ∧ v = k' ++ z := by
  rw [List.append_assoc] at h
  rcases List.append_eq_append_iff.mp h with ⟨k, rfl, rfl⟩ | ⟨k, rfl, hk⟩
  · exact .inr (.inl ⟨k, rfl, (List.append_assoc k y z).symm⟩)
  · rcases List.append_eq_append_iff.mp hk with ⟨k', rfl, rfl⟩ | ⟨k', rfl, rfl⟩
    · exact .inl ⟨k', (List.append_assoc x y k').symm, rfl⟩
    · by_cases hk : k = []
      · exact .inr (.inl ⟨[], by simp [hk], by simp [hk]⟩)
      · by_cases hk' : k' = []
        · exact .inl ⟨[], by simp [hk'], by simp [hk']⟩
        · exact .inr (.inr ⟨k, k', hk, hk', rfl, rfl, rfl⟩)

/-- These are the spans with the property, each once, in the order in which they end. -/
def Enumerates (ms : List Span) (P : Span → Prop) : Prop :=
  ms.Pairwise (·.stop < ·.stop) ∧ ∀ m, m ∈ ms ↔ P m

namespace Enumerates

variable {ms ms' : List Span} {P Q : Span → Prop}

theorem congr (h : Enumerates ms P) (hPQ : ∀ m, P m ↔ Q m) : Enumerates ms Q :=
  ⟨h.1, fun m => (h.2 m).trans (hPQ m)⟩

theorem nil (h : ∀ m, ¬ P m) : Enumerates [] P :=
  ⟨.nil, fun m => iff_of_false List.not_mem_nil (h m)⟩

theorem eq_nil (h : Enumerates ms P) (hP : ∀ m, ¬ P m) : ms = [] :=
  List.eq_nil_iff_forall_not_mem.mpr fun m hm => hP m ((h.2 m).mp hm)

theorem single {m : Span} (h : ∀ k, P k ↔ k = m) : Enumerates [m] P :=
  ⟨List.pairwise_singleton _ m, fun k => List.mem_singleton.trans (h k).symm⟩

theorem append (h : Enumerates ms P) (h' : Enumerates ms' Q)
    (hPQ : ∀ m n, P m → Q n → m.stop < n.stop) :
    Enumerates (ms ++ ms') fun m => P m ∨ Q m := by
  refine ⟨List.pairwise_append.mpr ⟨h.1, h'.1, fun m hm n hn => ?_⟩, fun m => ?_⟩
  · exact hPQ m n ((h.2 m).mp hm) ((h'.2 n).mp hn)
  · rw [List.mem_append, h.2, h'.2]

end Enumerates

/-- A run that ends within a small limit is what the demo does. -/
theorem run_eq_of_run {d : Demo} {x : Array UInt8} {n : Nat} (hn : n ≤ 1 <<< 62)
    {result : Verdict × State Store}
    (h : ((d.setting x).run n d.start ⟨0, {}⟩) = some result) : d.run x = some result :=
  (d.setting x).run_below (hn.trans (Nat.le_add_left _ _)) d.start _ _ h

section Runs

variable {l : Demo.Language} {id : GrammarId} {sink : SinkId} {L : Language UInt8}
  {T : Array UInt8 → Setting.Imprint} {F : Trail → Prop} {P : List UInt8 → Store → Prop}
variable (h : ∀ x, ((Demo.build l id sink).setting x).Munches (Demo.build l id sink).start L (T x) F)
include h

/-- Every run of the demo comes to the longest prefix, or to a miss where there is none. -/
theorem run_cases (x : Array UInt8) :
    (∃ w k, LongestPrefix L x.toList w ∧ T x 0 w k ∧ (Demo.build l id sink).run x =
      some (.hit ⟨0, w.length⟩, ⟨w.length, ((Demo.build l id sink).setting x).act {} k⟩)) ∨
    (NoPrefix L x.toList ∧ ∃ t, (Demo.build l id sink).run x = some (.miss, t)) := by
  have hends := Demo.run_limit_isSome (σ := (Demo.build l id sink).setting x)
    (p := (Demo.build l id sink).start) rfl (Store.keepsPosition rfl _) ⟨0, {}⟩
  rcases h x 0 with ⟨w, k, hw, htakes, hk⟩ | ⟨hno, k, hmisses, -⟩
  · rw [Nat.zero_add] at htakes
    exact .inl ⟨w, k, hw, hk, htakes.run_eq hends⟩
  · obtain ⟨stop, hrun⟩ := hmisses.run_eq hends
    exact .inr ⟨hno, _, hrun⟩

/-- The anchor leaves nothing behind. -/
theorem run_anchored_cases (x : Array UInt8) :
    (x.toList ∈ L ∧ ∃ k, T x 0 x.toList k ∧ (Demo.build l id sink).anchored.run x =
      some (.hit ⟨0, x.size⟩, ⟨x.size, ((Demo.build l id sink).setting x).act {} k⟩)) ∨
    (x.toList ∉ L ∧ ∃ t, (Demo.build l id sink).anchored.run x = some (.miss, t)) := by
  let σ := (Demo.build l id sink).setting x
  have hends := Demo.run_limit_isSome (σ := σ) (p := (Demo.build l id sink).anchored.start) rfl
    (Store.keepsPosition rfl _) ⟨0, {}⟩
  rcases h x 0 with ⟨w, k, hw, htakes, hk⟩ | ⟨hno, k, hmisses, -⟩
  · rw [Nat.zero_add] at htakes
    by_cases hlength : w.length = x.toList.length
    · obtain rfl := hw.starts.eq_of_length hlength
      have hrest : σ.remaining x.toList.length = [] := List.drop_length
      have hanchored := (htakes.seq (Setting.takes_none hrest)).run_eq hends
      rw [List.append_nil] at hanchored
      exact .inl ⟨hw.mem, k, hk, hanchored⟩
    · have hrest : σ.remaining w.length ≠ [] := by
        intro hnil
        have hle : x.toList.length ≤ w.length := List.drop_eq_nil_iff.mp hnil
        exact hlength (Nat.le_antisymm hw.starts.length_le hle)
      obtain ⟨stop, hrun⟩ := (htakes.seq_misses (Setting.misses_none hrest)).run_eq hends
      exact .inr ⟨fun hmem => hlength (hw.whole.mp hmem), _, hrun⟩
  · obtain ⟨stop, hrun⟩ := (hmisses.seq Pattern.none).run_eq hends
    exact .inr ⟨fun hmem => hno x.toList hmem List.prefix_rfl, _, hrun⟩

/-- It is enough to know what the pattern takes and leaves behind from the beginning. -/
theorem recognizes (hP : ∀ x w k, w ∈ L → w <+: x.toList → T x 0 w k →
      P w (((Demo.build l id sink).setting x).act {} k)) :
    Recognizes (Demo.build l id sink) L P where
  decides x := by
    rcases run_cases h x with ⟨w, k, -, -, hrun⟩ | ⟨-, t, hrun⟩
    · exact .inl ⟨_, _, hrun⟩
    · exact .inr ⟨t, hrun⟩
  matches_iff x := by
    rcases run_cases h x with ⟨w, k, hw, -, hrun⟩ | ⟨hno, t, hrun⟩
    · exact iff_of_true ⟨_, _, hrun⟩ ⟨w, hw.mem, hw.starts⟩
    · refine iff_of_false ?_ fun ⟨w, hw, hstarts⟩ => hno w hw hstarts
      rintro ⟨m, u, hu⟩
      cases hrun.symm.trans hu
  of_match x m t hmatch := by
    rcases run_cases h x with ⟨w, k, hw, hk, hrun⟩ | ⟨-, u, hrun⟩
    · cases hrun.symm.trans hmatch
      exact ⟨w, hw, rfl, hP x w k hw.mem hw.starts hk⟩
    · cases hrun.symm.trans hmatch
  decides_all x := by
    rcases run_anchored_cases h x with ⟨-, k, -, hrun⟩ | ⟨-, t, hrun⟩
    · exact .inl ⟨_, _, hrun⟩
    · exact .inr ⟨t, hrun⟩
  matches_all_iff x := by
    rcases run_anchored_cases h x with ⟨hmem, k, -, hrun⟩ | ⟨hno, t, hrun⟩
    · exact iff_of_true ⟨_, _, hrun⟩ hmem
    · refine iff_of_false ?_ hno
      rintro ⟨m, u, hu⟩
      cases hrun.symm.trans hu
  of_match_all x m t hmatch := by
    rcases run_anchored_cases h x with ⟨hmem, k, hk, hrun⟩ | ⟨-, u, hrun⟩
    · cases hrun.symm.trans hmatch
      exact ⟨rfl, hP x _ k hmem List.prefix_rfl hk⟩
    · cases hrun.symm.trans hmatch

end Runs

end Peg
