import Peg.Proofs.Bounds
import Peg.Workbench.Script

/-! # What an evaluation leaves behind

Without callbacks the context is written and never read: an evaluation comes out the same
whatever is in it, and leaves behind the effects of all the parts that it tried, one after
the other, those of parts that missed and of matches that were given up included.
-/
namespace Peg

variable {κ : Type}

abbrev Trail := List Effect

namespace Trail

def spans (trail : Trail) : List Span :=
  trail.filterMap fun
    | .captured m => some m
    | _ => none

def bytesTo (sink : SinkId) (trail : Trail) : List UInt8 :=
  trail.flatMap fun
    | .forwarded k _ bytes => if k = sink then bytes.toList else []
    | _ => []

theorem spans_append (trail trail' : Trail) :
    spans (trail ++ trail') = spans trail ++ spans trail' := List.filterMap_append

theorem bytesTo_append (sink : SinkId) (trail trail' : Trail) :
    bytesTo sink (trail ++ trail') = bytesTo sink trail ++ bytesTo sink trail' :=
  List.flatMap_append

theorem spans_cons (e : Effect) (trail : Trail) :
    spans (e :: trail) = spans [e] ++ spans trail := spans_append [e] trail

theorem bytesTo_cons (sink : SinkId) (e : Effect) (trail : Trail) :
    bytesTo sink (e :: trail) = bytesTo sink [e] ++ bytesTo sink trail :=
  bytesTo_append sink [e] trail

end Trail

def Host.listing : Host Trail := { perform := fun e trail => trail ++ [e] }

namespace Setting

def listing (σ : Setting κ) : Setting Trail :=
  { host := .listing, input := σ.input, grammar := σ.grammar }

def act (σ : Setting κ) (ctx : κ) (trail : Trail) : κ :=
  trail.foldl (fun ctx e => σ.host.perform e ctx) ctx

theorem act_cons (σ : Setting κ) (ctx : κ) (e : Effect) (rest : Trail) :
    σ.act ctx (e :: rest) = σ.act (σ.host.perform e ctx) rest := rfl

theorem act_append (σ : Setting κ) (ctx : κ) (trail trail' : Trail) :
    σ.act ctx (trail ++ trail') = σ.act (σ.act ctx trail) trail' := List.foldl_append

def Ends (σ : Setting κ) (p : Pattern) (start : Nat) (v : Verdict) (stop : Nat) : Prop :=
  ∃ n ctx ctx', σ.run n p ⟨start, ctx⟩ = some (v, ⟨stop, ctx'⟩)

/-- What the evaluation of a pattern leaves behind: what each part leaves behind that it
tries, in the order of the attempts and however these come out, and then its own effect. -/
inductive Leaves (σ : Setting κ) : Pattern → Nat → Trail → Prop
  | literal (bytes : List UInt8) (s : Nat) : Leaves σ (.literal bytes) s []
  | oneByte {p : Pattern} {accept : UInt8 → Bool} (hp : p.accepts? = some accept) (s : Nat) :
      Leaves σ p s []
  | seq {a b : Pattern} {s u : Nat} {m : Span} {l l' : Trail} (ha : Leaves σ a s l)
      (hit : σ.Ends a s (.hit m) u) (hb : Leaves σ b u l') : Leaves σ (.seq a b) s (l ++ l')
  | seqMiss {a b : Pattern} {s u : Nat} {l : Trail} (ha : Leaves σ a s l)
      (miss : σ.Ends a s .miss u) : Leaves σ (.seq a b) s l
  | choiceLeft {a b : Pattern} {s u : Nat} {m : Span} {l : Trail} (ha : Leaves σ a s l)
      (hit : σ.Ends a s (.hit m) u) : Leaves σ (.choice a b) s l
  | choiceRight {a b : Pattern} {s u : Nat} {l l' : Trail} (ha : Leaves σ a s l)
      (miss : σ.Ends a s .miss u) (hb : Leaves σ b s l') : Leaves σ (.choice a b) s (l ++ l')
  | not {p : Pattern} {s : Nat} {l : Trail} (hp : Leaves σ p s l) : Leaves σ (.not p) s l
  | ahead {p : Pattern} {s : Nat} {l : Trail} (hp : Leaves σ p s l) : Leaves σ (.ahead p) s l
  | exactlyZero (p : Pattern) (s : Nat) : Leaves σ (.exactly p 0) s []
  | exactlyMore {p : Pattern} {n s u : Nat} {m : Span} {l l' : Trail} (hp : Leaves σ p s l)
      (hit : σ.Ends p s (.hit m) u) (hr : Leaves σ (.exactly p n) u l') :
      Leaves σ (.exactly p (n + 1)) s (l ++ l')
  | exactlyMiss {p : Pattern} {n s u : Nat} {l : Trail} (hp : Leaves σ p s l)
      (miss : σ.Ends p s .miss u) : Leaves σ (.exactly p (n + 1)) s l
  | atLeastMore {p : Pattern} {n s u : Nat} {m : Span} {l l' : Trail} (hp : Leaves σ p s l)
      (hit : σ.Ends p s (.hit m) u) (hr : Leaves σ (.atLeast p n) u l') :
      Leaves σ (.atLeast p (n + 1)) s (l ++ l')
  | atLeastMiss {p : Pattern} {n s u : Nat} {l : Trail} (hp : Leaves σ p s l)
      (miss : σ.Ends p s .miss u) : Leaves σ (.atLeast p (n + 1)) s l
  | greedyMore {p : Pattern} {s u : Nat} {m : Span} {l l' : Trail} (hp : Leaves σ p s l)
      (hit : σ.Ends p s (.hit m) u) (moved : u ≠ s) (hr : Leaves σ (.atLeast p 0) u l') :
      Leaves σ (.atLeast p 0) s (l ++ l')
  | greedyStill {p : Pattern} {s : Nat} {m : Span} {l : Trail} (hp : Leaves σ p s l)
      (hit : σ.Ends p s (.hit m) s) : Leaves σ (.atLeast p 0) s l
  | greedyMiss {p : Pattern} {s u : Nat} {l : Trail} (hp : Leaves σ p s l)
      (miss : σ.Ends p s .miss u) : Leaves σ (.atLeast p 0) s l
  | atMostZero (p : Pattern) (s : Nat) : Leaves σ (.atMost p 0) s []
  | atMostMore {p : Pattern} {n s u : Nat} {m : Span} {l l' : Trail} (hp : Leaves σ p s l)
      (hit : σ.Ends p s (.hit m) u) (hr : Leaves σ (.atMost p n) u l') :
      Leaves σ (.atMost p (n + 1)) s (l ++ l')
  | atMostMiss {p : Pattern} {n s u : Nat} {l : Trail} (hp : Leaves σ p s l)
      (miss : σ.Ends p s .miss u) : Leaves σ (.atMost p (n + 1)) s l
  | body {r : RuleRef} {p : Pattern} {s : Nat} {l : Trail} (hr : σ.rules r = some p)
      (hp : Leaves σ p s l) : Leaves σ (.rule r) s l
  | unresolved {r : RuleRef} (hr : σ.rules r = none) (s : Nat) :
      Leaves σ (.rule r) s [.noticed (σ.absence r)]
  | forward {p : Pattern} {s u : Nat} {m : Span} {l : Trail} (sink : SinkId)
      (hp : Leaves σ p s l) (hit : σ.Ends p s (.hit m) u) :
      Leaves σ (.forward p sink) s (l ++ [.forwarded sink m (σ.input.extract m.start m.stop)])
  | forwardMiss {p : Pattern} {s u : Nat} {l : Trail} (sink : SinkId) (hp : Leaves σ p s l)
      (miss : σ.Ends p s .miss u) : Leaves σ (.forward p sink) s l
  | capture {p : Pattern} {s u : Nat} {m : Span} {l : Trail} (hp : Leaves σ p s l)
      (hit : σ.Ends p s (.hit m) u) : Leaves σ (.capture p) s (l ++ [.captured m])
  | captureMiss {p : Pattern} {s u : Nat} {l : Trail} (hp : Leaves σ p s l)
      (miss : σ.Ends p s .miss u) : Leaves σ (.capture p) s l

variable {σ : Setting κ} {p : Pattern}

/-- A run does on a context what the listing run writes on its trail. -/
theorem follows_listing (hp : p.HookFree σ.rules) (n : Nat) (ctx : κ) :
    (σ.listing.run n p).Follows 0 (σ.act ctx) (σ.run n p) := by
  have hperform : ∀ e trail, σ.host.perform (e.shift 0) (σ.act ctx trail) =
      σ.act ctx (σ.listing.host.perform e trail) := by
    simp [act, listing, Host.listing]
  exact run_follows (σ := σ) (.refl σ.listing.input) rfl hperform n p
    fun q id hr => absurd hr (hp q id)

/-- An evaluation goes the way that it goes with an empty trail, and performs what is on the
trail in the end. -/
theorem run_eq_listing (hp : p.HookFree σ.rules) (n start : Nat) (ctx : κ) :
    σ.run n p ⟨start, ctx⟩ =
      (σ.listing.run n p ⟨start, []⟩).map fun r => (r.1, ⟨r.2.pos, σ.act ctx r.2.ctx⟩) := by
  have hfollows := follows_listing hp n ctx ⟨start, []⟩
  simp only [Verdict.shift_zero] at hfollows
  exact hfollows

def Adds (σ : Setting κ) (p : Pattern) (s t : State Trail) : Prop :=
  ∃ trail, t.ctx = s.ctx ++ trail ∧ σ.Leaves p s.pos trail

structure Lists (σ : Setting κ) (p : Pattern) (s : State Trail) (v : Verdict) (t : State Trail) :
    Prop where
  ends : σ.Ends p s.pos v t.pos
  goesOn : ∀ why, v ≠ .stop why
  adds : σ.Adds p s t

variable {P next : Step Trail} {s t u : State Trail} {q r : Pattern}

theorem Adds.nothing (h : σ.Leaves p s.pos []) (ht : t.ctx = s.ctx) : σ.Adds p s t :=
  ⟨[], by simp [ht], h⟩

theorem Adds.only (h : σ.Adds q s u) (ht : t.ctx = u.ctx)
    (hp : ∀ l, σ.Leaves q s.pos l → σ.Leaves p s.pos l) : σ.Adds p s t := by
  obtain ⟨l, hl, hq⟩ := h
  exact ⟨l, by rw [ht, hl], hp l hq⟩

theorem Adds.also {e : Effect} (h : σ.Adds q s u) (ht : t.ctx = u.ctx ++ [e])
    (hp : ∀ l, σ.Leaves q s.pos l → σ.Leaves p s.pos (l ++ [e])) : σ.Adds p s t := by
  obtain ⟨l, hl, hq⟩ := h
  exact ⟨l ++ [e], by simp [ht, hl], hp l hq⟩

theorem Adds.append (h : σ.Adds q s u) (h' : σ.Adds r u t)
    (hp : ∀ l l', σ.Leaves q s.pos l → σ.Leaves r u.pos l' → σ.Leaves p s.pos (l ++ l')) :
    σ.Adds p s t := by
  obtain ⟨l, hl, hq⟩ := h
  obtain ⟨l', hl', hr⟩ := h'
  exact ⟨l ++ l', by simp [hl, hl'], hp l l' hq hr⟩

theorem seq_adds {Q : Step Trail} (hp : P.Ensures s (σ.Lists q s))
    (hq : ∀ u, Q.Ensures u (σ.Lists r u)) :
    (Step.seq P Q).Ensures s fun _ t => σ.Adds (.seq q r) s t := by
  refine hp.branch (fun m u hu => ?_) (fun u hu => .give ?_)
    (fun why u hu => absurd rfl (hu.goesOn why))
  · have hboth : ∀ t, σ.Adds r u t → σ.Adds (.seq q r) s t := fun t ht =>
      hu.adds.append ht fun l l' hl hl' => .seq hl hu.ends hl'
    exact (hq u).branch (fun _ t ht => .give (hboth t ht.adds))
      (fun t ht => .give (hboth t ht.adds)) (fun why t ht => absurd rfl (ht.goesOn why))
  · exact hu.adds.only rfl fun l hl => .seqMiss hl hu.ends

/-- What the left side of a choice added stays when the right side is tried. -/
theorem choice_adds {Q : Step Trail} (hp : P.Ensures s (σ.Lists q s))
    (hq : ∀ u, Q.Ensures u (σ.Lists r u)) :
    (Step.choice P Q).Ensures s fun _ t => σ.Adds (.choice q r) s t := by
  refine Step.Ensures.branch hp (fun m u hu => ?_) (fun u hu => .movedTo ?_)
    (fun why u hu => absurd rfl (hu.goesOn why))
  · exact (Step.Ensures.close_same _ u).mono fun _ t ht =>
      hu.adds.only (ht ▸ rfl) fun l hl => .choiceLeft hl hu.ends
  · have hback : σ.Adds q s { u with pos := s.pos } := hu.adds.only rfl fun _ hl => hl
    have hboth : ∀ t, σ.Adds r { u with pos := s.pos } t → σ.Adds (.choice q r) s t :=
      fun t ht => hback.append ht fun l l' hl hl' => .choiceRight hl hu.ends hl'
    refine Step.Ensures.branch (hq _) (fun _ t ht => ?_) (fun t ht => .movedTo (.give ?_))
      (fun why t ht => absurd rfl (ht.goesOn why))
    · exact (Step.Ensures.close_same _ t).mono fun _ t' ht' => ht' ▸ hboth t ht.adds
    · exact (hboth t ht.adds).only rfl fun _ hl => hl

theorem forward_adds (sink : SinkId) (hp : P.Ensures s (σ.Lists q s))
    (hspan : P.Ensures s fun v _ => ∀ m, v = .hit m → m.start ≤ m.stop) :
    (Step.forward .listing σ.input sink P).Ensures s
      fun _ t => σ.Adds (.forward q sink) s t := by
  refine .forward (hp.and hspan) (fun m u hu => ⟨hu.2 m rfl, ?_⟩) (fun u hu => ?_)
    (fun why u hu => absurd rfl (hu.1.goesOn why))
  · exact hu.1.adds.also rfl fun l hl => .forward sink hl hu.1.ends
  · exact hu.1.adds.only rfl fun l hl => .forwardMiss sink hl hu.1.ends

theorem capture_adds (hp : P.Ensures s (σ.Lists q s)) :
    (Step.capture .listing P).Ensures s fun _ t => σ.Adds (.capture q) s t := by
  refine hp.branch (fun m u hu => .performing (.give ?_)) (fun u hu => .give ?_)
    (fun why u hu => absurd rfl (hu.goesOn why))
  · exact hu.adds.also rfl fun l hl => .capture hl hu.ends
  · exact hu.adds.only rfl fun l hl => .captureMiss hl hu.ends

theorem back_adds (hp : P.Ensures s (σ.Lists p s))
    (hq : ∀ l, σ.Leaves p s.pos l → σ.Leaves q s.pos l) (hit : Span → Verdict) (missed : Verdict) :
    (Step.branch P (fun m => Step.movedTo s.pos (Step.give (hit m)))
      (Step.movedTo s.pos (Step.give missed))).Ensures s fun _ t => σ.Adds q s t :=
  hp.branch (fun _ _ hu => .movedTo (.give (hu.adds.only rfl hq)))
    (fun _ hu => .movedTo (.give (hu.adds.only rfl hq)))
    (fun why _ hu => absurd rfl (hu.goesOn why))

/-- Of the patterns `q`, each is one more `p` before the one below. -/
theorem repeated_adds {q : Nat → Pattern}
    (more : ∀ {n s u m l l'}, σ.Leaves p s l → σ.Ends p s (.hit m) u → σ.Leaves (q n) u l' →
      σ.Leaves (q (n + 1)) s (l ++ l'))
    (fails : ∀ {n s u l}, σ.Leaves p s l → σ.Ends p s .miss u → σ.Leaves (q (n + 1)) s l)
    (hp : ∀ s, P.Ensures s (σ.Lists p s))
    (hnext : ∀ s, next.Ensures s fun _ t => σ.Adds (q 0) s t) (n : Nat) :
    ∀ s, (Step.repeated P next n).Ensures s fun _ t => σ.Adds (q n) s t := by
  induction n with
  | zero => exact hnext
  | succ n ih =>
    intro s
    refine (hp s).branch (fun m u hu => ?_) (fun u hu => .give ?_)
      (fun why u hu => absurd rfl (hu.goesOn why))
    · exact (ih u).mono fun _ t ht => hu.adds.append ht fun l l' hl hl' => more hl hu.ends hl'
    · exact hu.adds.only rfl fun l hl => fails hl hu.ends

theorem greedy_adds (hp : ∀ s, P.Ensures s (σ.Lists p s)) (start rounds : Nat) :
    ∀ s, (Step.greedy P start rounds s.pos).Ensures s fun _ t => σ.Adds (.atLeast p 0) s t := by
  induction rounds with
  | zero => exact fun s v t ht => by simp [Step.greedy] at ht
  | succ rounds ih =>
    intro s
    have hend : ∀ u : State Trail, σ.Adds (.atLeast p 0) s u →
        (Step.movedTo s.pos (Step.close start)).Ensures u fun _ t => σ.Adds (.atLeast p 0) s t :=
      fun u hu => .movedTo ((Step.Ensures.close_same start _).mono fun _ t ht =>
        hu.only (ht ▸ rfl) fun _ hl => hl)
    refine (hp s).branch (fun m u hu v t ht => ?_) (fun u hu => hend u ?_)
      (fun why u hu => absurd rfl (hu.goesOn why))
    · split at ht
      · rename_i hstill
        have hends : σ.Ends p s.pos (.hit m) s.pos := hstill ▸ hu.ends
        exact hend u (hu.adds.only rfl fun l hl => .greedyStill hl hends) v t ht
      · rename_i hmoved
        exact hu.adds.append (ih u v t ht) fun l l' hl hl' => .greedyMore hl hu.ends hmoved hl'
    · exact hu.adds.only rfl fun l hl => .greedyMiss hl hu.ends

theorem upTo_adds (hp : ∀ s, P.Ensures s (σ.Lists p s)) (start n : Nat) :
    ∀ s, (Step.upTo P start n).Ensures s fun _ t => σ.Adds (.atMost p n) s t := by
  induction n with
  | zero =>
    exact fun s => (Step.Ensures.close_same start s).mono fun _ t ht =>
      .nothing (.atMostZero p s.pos) (ht ▸ rfl)
  | succ n ih =>
    intro s
    refine Step.Ensures.branch (hp s) (fun m u hu => ?_) (fun u hu => ?_)
      (fun why u hu => absurd rfl (hu.goesOn why))
    · exact (ih u).mono fun _ t ht =>
        hu.adds.append ht fun l l' hl hl' => .atMostMore hl hu.ends hl'
    · exact .movedTo ((Step.Ensures.close_same start _).mono fun _ t ht =>
        hu.adds.only (ht ▸ rfl) fun l hl => .atMostMiss hl hu.ends)

/-- An evaluation that lists its effects does as every other one. -/
theorem listing_ends (ctx : κ) (hp : p.HookFree σ.rules) (n : Nat) (s : State Trail) :
    (σ.listing.run n p).Ensures s fun v t => σ.Ends p s.pos v t.pos ∧ ∀ why, v ≠ .stop why := by
  intro v t ht
  refine ⟨⟨n, σ.act ctx s.ctx, σ.act ctx t.ctx, ?_⟩, ?_⟩
  · have hfollows := follows_listing hp n ctx s
    simp only [ht, Verdict.shift_zero] at hfollows
    exact hfollows
  · rintro why rfl
    exact run_ne_stop (σ := σ.listing) hp ht

/-- With the ends at hand it is enough to show what is added. -/
theorem lists_of_adds (ctx : κ) (hp : p.HookFree σ.rules) {n : Nat}
    (h : ∀ s, (σ.listing.run n p).Ensures s fun _ t => σ.Adds p s t) (s : State Trail) :
    (σ.listing.run n p).Ensures s (σ.Lists p s) := fun v t ht =>
  ⟨(listing_ends ctx hp n s v t ht).1, (listing_ends ctx hp n s v t ht).2, h s v t ht⟩

/-- A run that lists its effects adds what its pattern leaves behind. -/
theorem listing_adds (ctx : κ) (n : Nat) (p : Pattern) (hp : p.HookFree σ.rules) :
    ∀ s, (σ.listing.run n p).Ensures s fun _ t => σ.Adds p s t := by
  induction n, p using σ.listing.run_induct with
  | literal n bytes =>
    exact fun s => .literal bytes (Nat.le_refl _) (fun _ => .nothing (.literal bytes s.pos) rfl)
      (fun _ _ _ => .nothing (.literal bytes s.pos) rfl)
  | oneByte n p accept h =>
    rw [σ.listing.run_oneByte h]
    exact fun s => .oneByte (fun _ => .nothing (.oneByte h s.pos) rfl)
      (fun _ _ _ => .nothing (.oneByte h s.pos) rfl) (fun _ _ _ => .nothing (.oneByte h s.pos) rfl)
  | seq n a b iha ihb =>
    have hleft := hp.part (.seqLeft a b)
    have hright := hp.part (.seqRight a b)
    exact fun s => seq_adds (lists_of_adds ctx hleft (iha hleft) s)
      (lists_of_adds ctx hright (ihb hright))
  | choice n a b iha ihb =>
    have hleft := hp.part (.choiceLeft a b)
    have hright := hp.part (.choiceRight a b)
    exact fun s => choice_adds (lists_of_adds ctx hleft (iha hleft) s)
      (lists_of_adds ctx hright (ihb hright))
  | not n p ih =>
    have hpart := hp.part (.not p)
    exact fun s => back_adds (lists_of_adds ctx hpart (ih hpart) s) (fun _ => .not)
      (fun _ => .miss) _
  | ahead n p ih =>
    have hpart := hp.part (.ahead p)
    exact fun s => back_adds (lists_of_adds ctx hpart (ih hpart) s) (fun _ => .ahead) .hit .miss
  | exactly n p k ih =>
    have hpart := hp.part (.exactly p k)
    exact fun s => repeated_adds (q := .exactly p) .exactlyMore .exactlyMiss
      (lists_of_adds ctx hpart (ih hpart))
      (fun t => (Step.Ensures.close_same s.pos t).mono fun _ t' ht =>
        .nothing (.exactlyZero p t.pos) (ht ▸ rfl)) k s
  | atLeast n p k ih =>
    have hpart := hp.part (.atLeast p k)
    have hlists := lists_of_adds ctx hpart (ih hpart)
    exact fun s => repeated_adds (q := .atLeast p) .atLeastMore .atLeastMiss hlists
      (greedy_adds hlists s.pos n) k s
  | atMost n p k ih =>
    have hpart := hp.part (.atMost p k)
    exact fun s => upTo_adds (lists_of_adds ctx hpart (ih hpart)) s.pos k s
  | spent r => exact fun s v t ht => by simp [run_rule_zero] at ht
  | body n r p hr ih =>
    rw [σ.listing.run_rule_body hr]
    exact fun s => (ih (hp.body hr) s).mono fun _ t ht => ht.only rfl fun l hl => .body hr hl
  | unresolved n r hr =>
    have hnone : σ.rules r = none := hr
    rw [σ.listing.run_rule_none hr]
    exact fun s => .performing (.give ⟨[.noticed (σ.absence r)], rfl, .unresolved hnone s.pos⟩)
  | hook n p id ih => exact absurd (.refl _) (hp p id)
  | forward n p sink ih =>
    have hpart := hp.part (.forward p sink)
    exact fun s => forward_adds sink (lists_of_adds ctx hpart (ih hpart) s)
      (run_ordered (σ := σ.listing) (.of_hookFree hpart) n s)
  | capture n p ih =>
    have hpart := hp.part (.capture p)
    exact fun s => capture_adds (lists_of_adds ctx hpart (ih hpart) s)

/-- Within every limit that suffices in one context, an evaluation ends in every context and
under every host, and performs what its pattern leaves behind. -/
theorem exists_trail (hp : p.HookFree σ.rules) {n start : Nat} {ctx : κ}
    (h : (σ.run n p ⟨start, ctx⟩).isSome) :
    ∃ v stop trail, (v = .miss ∨ ∃ m, v = .hit m) ∧ σ.Leaves p start trail ∧
      ∀ limit, n ≤ limit → ∀ ctx, σ.run limit p ⟨start, ctx⟩ = some (v, ⟨stop, σ.act ctx trail⟩) := by
  rw [run_eq_listing hp, Option.isSome_map] at h
  obtain ⟨⟨v, t⟩, hrun⟩ := Option.isSome_iff_exists.mp h
  obtain ⟨trail, htrail, hleaves⟩ := listing_adds ctx n p hp _ v t hrun
  have hgoes := (listing_ends ctx hp n _ v t hrun).2
  refine ⟨v, t.pos, trail, ?_, hleaves, fun limit hlimit ctx' => ?_⟩
  · cases v with
    | hit m => exact .inr ⟨m, rfl⟩
    | miss => exact .inl rfl
    | stop why => exact absurd rfl (hgoes why)
  · rw [run_eq_listing hp, σ.listing.run_below hlimit p _ _ hrun, Option.map_some, htrail]
    rfl

end Setting

namespace Desk

/-- The second desk has what was captured and what the sinks held on the first one, and the
spans and the bytes behind that; it keeps captures if the first one does. -/
structure Gains (desk desk' : Desk) (spans : List Span) (bytes : SinkId → List UInt8) : Prop where
  captures : desk'.captures = desk.captures.map (· ++ spans.toArray)
  content : ∀ sink, desk'.sinks.content sink = desk.sinks.content sink ++ (bytes sink).toArray

theorem captures_perform (e : Effect) (desk : Desk) :
    (perform e desk).captures = desk.captures.map (· ++ (Trail.spans [e]).toArray) := by
  cases e with
  | captured m => simp [perform, capture, Trail.spans]
  | forwarded sink m bytes => simp [perform, Trail.spans]
  | noticed n =>
    simp only [perform, notice]
    split <;> simp [write, Trail.spans]

theorem content_perform (e : Effect) (desk : Desk) (sink : SinkId) :
    (perform e desk).sinks.content sink =
      desk.sinks.content sink ++ (Trail.bytesTo sink [e]).toArray := by
  cases e with
  | captured m => simp [perform, capture, Trail.bytesTo]
  | forwarded k m bytes =>
    by_cases hk : sink = k
    · simp [perform, Sinks.content_append, Trail.bytesTo, hk]
    · simp [perform, Sinks.content_append, Trail.bytesTo, hk, Ne.symm hk]
  | noticed n =>
    simp only [perform, notice]
    split <;> simp [write, Trail.bytesTo]

variable {σ : Setting Desk} (hσ : σ.host.perform = perform)
include hσ

/-- A trail adds its spans to the captures and its bytes to the sinks. -/
theorem gains_act (trail : Trail) (desk : Desk) :
    desk.Gains (σ.act desk trail) trail.spans fun sink => trail.bytesTo sink := by
  induction trail generalizing desk with
  | nil => exact ⟨by simp [Setting.act, Trail.spans], by simp [Setting.act, Trail.bytesTo]⟩
  | cons e rest ih =>
    have hrest := ih (perform e desk)
    rw [← hσ, ← Setting.act_cons] at hrest
    constructor
    · rw [hrest.captures, hσ, captures_perform, Trail.spans_cons e rest]
      simp [Function.comp_def]
    · intro sink
      rw [hrest.content, hσ, content_perform, Trail.bytesTo_cons sink e rest]
      simp

end Desk

namespace Setting

/-- Without callbacks there are a match or a miss, a place for the cursor and a trail of
effects, those of parts that were given up included, for every start at which an evaluation
ends. The evaluation comes out like that whatever was captured and written to sinks before,
and adds the spans and the bytes of the trail behind that; if nothing is captured, it does
the same but for the captures. -/
theorem run_appends {σ : Setting Desk} (hσ : σ.host.perform = Desk.perform) {p : Pattern}
    (hp : p.HookFree σ.rules) {n start : Nat} {desk₀ : Desk} (h : (σ.run n p ⟨start, desk₀⟩).isSome) :
    ∃ v stop trail, (v = .miss ∨ ∃ m, v = .hit m) ∧ σ.Leaves p start trail ∧
      ∀ limit, n ≤ limit → ∀ desk : Desk, ∃ desk' : Desk,
        σ.run limit p ⟨start, desk⟩ = some (v, ⟨stop, desk'⟩) ∧
        desk.Gains desk' trail.spans fun sink => trail.bytesTo sink := by
  obtain ⟨v, stop, trail, hv, hleaves, hrun⟩ := exists_trail hp h
  refine ⟨v, stop, trail, hv, hleaves, fun limit hlimit desk => ?_⟩
  exact ⟨_, hrun limit hlimit desk, Desk.gains_act hσ trail desk⟩

/-- A side that is given up behind a capture and a copy, a capture that is only looked ahead
at, and a loop whose last attempt captures and then misses: all of it stays, also when the
evaluation starts with captures and written sinks. -/
theorem given_up_appends :
    let item : Pattern := .rule ⟨0, 0, "item"⟩
    let given : Pattern := .seq (.capture .any) (.seq (.forward .any 4) (.literal [99]))
    let loop : Pattern := .atLeast (.seq item (.not (.literal [98]))) 0
    let p : Pattern := .choice given (.seq (.ahead (.capture (.literal [97, 97]))) loop)
    let σ : Setting Desk :=
      { host := Desk.host #[[.push, .seek 0]]
        input := #[97, 97, 98]
        grammar := some { id := 0, slots := #[⟨"item", some (.capture .any)⟩] } }
    σ.host.perform = Desk.perform ∧ p.HookFree σ.rules ∧ ∀ desk : Desk, ∃ desk' : Desk,
      σ.run 4 p ⟨0, desk⟩ = some (.hit ⟨0, 1⟩, ⟨1, desk'⟩) ∧
      desk'.captures = desk.captures.map (· ++ #[⟨0, 1⟩, ⟨0, 2⟩, ⟨0, 1⟩, ⟨1, 2⟩]) ∧
      desk'.sinks.content 4 = desk.sinks.content 4 ++ #[97] := by
  intro item given loop p σ
  have hfree : p.HookFree σ.rules := hookFree_of_slots rfl (by decide +kernel) rfl
  have hrun : (σ.run 4 p ⟨0, {}⟩).map
      (fun r => (r.1, r.2.pos, r.2.ctx.captures, r.2.ctx.sinks.content 4)) =
      some (.hit ⟨0, 1⟩, 1, some #[⟨0, 1⟩, ⟨0, 2⟩, ⟨0, 1⟩, ⟨1, 2⟩], #[97]) := by
    decide +kernel
  have hsome : (σ.run 4 p ⟨0, {}⟩).isSome := by
    rw [← Option.isSome_map, hrun]
    rfl
  obtain ⟨v, stop, trail, _, _, hadds⟩ := run_appends rfl hfree hsome
  obtain ⟨desk, hdesk, hgains⟩ := hadds 4 (Nat.le_refl 4) {}
  rw [hdesk, Option.map_some, hgains.captures, hgains.content] at hrun
  simp only [Option.map_some, Option.some.injEq, Prod.mk.injEq] at hrun
  obtain ⟨rfl, rfl, hspans, hbytes⟩ := hrun
  refine ⟨rfl, hfree, fun desk => ?_⟩
  obtain ⟨desk', hdesk', hgains'⟩ := hadds 4 (Nat.le_refl 4) desk
  refine ⟨desk', hdesk', ?_, ?_⟩
  · rw [hgains'.captures, ← hspans]
    simp
  · rw [hgains'.content, ← hbytes]
    simp [Sinks.content, Sinks.heldIn]

end Setting

end Peg
