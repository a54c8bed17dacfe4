import Peg.Eval.Host

/-! # Steps of an evaluation

A step takes a state to a verdict and a state, or to nothing when the rounds of a loop
run out. Each kind of pattern is one combinator on the steps of its parts. Only choices,
negations and lookaheads put the position back after a part that missed, and the
repetitions that may go on put it back behind their last match.
-/
namespace Peg

abbrev Step (κ : Type) := State κ → Option (Verdict × State κ)

namespace Step

variable {κ : Type}

def give (v : Verdict) : Step κ := fun s => some (v, s)

def movedTo (pos : Nat) (next : Step κ) : Step κ := fun s => next { s with pos }

def performing (host : Host κ) (e : Effect) (next : Step κ) : Step κ :=
  fun s => next { s with ctx := host.perform e s.ctx }

/-- Goes on after `p`, one way after a match and another way after a miss. -/
@[inline] def branch (p : Step κ) (onHit : Span → Step κ) (onMiss : Step κ) : Step κ :=
  fun s =>
    match p s with
    | none => none
    | some (.hit m, t) => onHit m t
    | some (.miss, t) => onMiss t
    | some (.stop why, t) => some (.stop why, t)

def close (start : Nat) : Step κ := fun s =>
  match Span.between start s.pos with
  | .ok m => some (.hit m, s)
  | .error f => some (.stop (.fault f), s)

/-- The bytes one after the other; the first that differs is read, too. -/
def literal (input : Array UInt8) (start : Nat) : List UInt8 → Step κ
  | [] => close start
  | b :: rest => fun s =>
    match input[s.pos]? with
    | none => some (.miss, s)
    | some c =>
      if c = b then literal input start rest { s with pos := s.pos + 1 }
      else some (.miss, { s with pos := s.pos + 1 })

def oneByte (input : Array UInt8) (accept : UInt8 → Bool) : Step κ := fun s =>
  match input[s.pos]? with
  | none => some (.miss, s)
  | some c =>
    if accept c then close s.pos { s with pos := s.pos + 1 }
    else some (.miss, { s with pos := s.pos + 1 })

def seq (p q : Step κ) : Step κ :=
  branch p (fun m => branch q (fun n => give (.hit (m.upTo n))) (give .miss)) (give .miss)

def choice (p q : Step κ) : Step κ := fun s =>
  branch p (fun _ => close s.pos)
    (movedTo s.pos (branch q (fun _ => close s.pos) (movedTo s.pos (give .miss)))) s

def not (p : Step κ) : Step κ := fun s =>
  branch p (fun _ => movedTo s.pos (give .miss))
    (movedTo s.pos (give (.hit (Span.emptyAt s.pos)))) s

def ahead (p : Step κ) : Step κ := fun s =>
  branch p (fun m => movedTo s.pos (give (.hit m))) (movedTo s.pos (give .miss)) s

def repeated (p : Step κ) (next : Step κ) : Nat → Step κ
  | 0 => next
  | n + 1 => branch p (fun _ => repeated p next n) (give .miss)

/-- Matches for as long as they go on from `reached`, and then closes there. A match
that does not move is the last one, since every further one would be the same. -/
def greedy (p : Step κ) (start : Nat) : Nat → Nat → Step κ
  | 0, _ => fun _ => none
  | rounds + 1, reached =>
    branch p
      (fun _ s =>
        if s.pos = reached then movedTo reached (close start) s
        else greedy p start rounds s.pos s)
      (movedTo reached (close start))

def upTo (p : Step κ) (start : Nat) : Nat → Step κ
  | 0 => close start
  | n + 1 => fun s => branch p (fun _ => upTo p start n) (movedTo s.pos (close start)) s

def exactly (p : Step κ) (n : Nat) : Step κ := fun s => repeated p (close s.pos) n s

def atLeast (p : Step κ) (rounds n : Nat) : Step κ := fun s =>
  repeated p (fun t => greedy p s.pos rounds t.pos t) n s

def atMost (p : Step κ) (n : Nat) : Step κ := fun s => upTo p s.pos n s

def hook (input : Array UInt8) (callback : Callback κ) (p : Step κ) : Step κ := fun s =>
  match p s with
  | none => none
  | some (.stop why, t) => some (.stop why, t)
  | some (v, t) =>
    let r := callback ⟨input, t.pos⟩ v.span? t.ctx
    match r.abort with
    | none => some (v, ⟨r.pos, r.ctx⟩)
    | some why => some (.stop why, ⟨r.pos, r.ctx⟩)

/-- Copies the bytes of a match of `p`, read again through the same cursor. -/
def forward (host : Host κ) (input : Array UInt8) (sink : SinkId) (p : Step κ) : Step κ :=
  branch p
    (fun m s =>
      match m.replay ⟨input, s.pos⟩ with
      | (.ok bytes, c) =>
        performing host (.forwarded sink m bytes) (movedTo c.pos (give (.hit m))) s
      | (.error f, c) => some (.stop (.fault f), { s with pos := c.pos }))
    (give .miss)

def capture (host : Host κ) (p : Step κ) : Step κ :=
  branch p (fun m => performing host (.captured m) (give (.hit m))) (give .miss)

end Step

end Peg
