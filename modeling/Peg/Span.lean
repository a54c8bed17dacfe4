/-! # Spans of matched input

A span is the half-open range of positions that a match covers. Its two ends are
kept as they were found, so a span put together from two others may end before it
starts; asking such a span for its length is a fault.
-/
namespace Peg

inductive Fault
  | inverted (start stop : Nat)
  | negativeLength
  /-- Room was asked for more bytes than one buffer can have. -/
  | tooLong
  deriving DecidableEq, Repr

def Fault.message : Fault → String
  | .inverted start stop => s!"match end {stop} precedes begin {start}"
  | .negativeLength => "attempt to subtract with overflow"
  | .tooLong => "capacity overflow"

structure Span where
  start : Nat
  stop : Nat
  deriving DecidableEq, Repr, Inhabited

namespace Span

def between (start stop : Nat) : Except Fault Span :=
  if start ≤ stop then .ok ⟨start, stop⟩ else .error (.inverted start stop)

def emptyAt (pos : Nat) : Span := ⟨pos, pos⟩

/-- The span from the start of `m` to the stop of `n`, in whatever order they are. -/
def upTo (m n : Span) : Span := ⟨m.start, n.stop⟩

def length (m : Span) : Except Fault Nat :=
  if m.start ≤ m.stop then .ok (m.stop - m.start) else .error .negativeLength

def isEmpty (m : Span) : Bool := m.start == m.stop

def describe (m : Span) : String :=
  "Match \x7b begin: " ++ toString m.start ++ ", end: " ++ toString m.stop ++ " \x7d"

theorem between_of_le {b e : Nat} (h : b ≤ e) : between b e = .ok ⟨b, e⟩ := by
  simp [between, h]

theorem between_of_lt {b e : Nat} (h : e < b) : between b e = .error (.inverted b e) := by
  simp [between, Nat.not_le.mpr h]

@[simp] theorem between_self (b : Nat) : between b b = .ok (emptyAt b) := by
  simp [between, emptyAt]

theorem length_of_le {m : Span} (h : m.start ≤ m.stop) : m.length = .ok (m.stop - m.start) := by
  simp [length, h]

theorem length_of_lt {m : Span} (h : m.stop < m.start) : m.length = .error .negativeLength := by
  simp [length, Nat.not_le.mpr h]

@[simp] theorem upTo_start (m n : Span) : (m.upTo n).start = m.start := rfl

@[simp] theorem upTo_stop (m n : Span) : (m.upTo n).stop = n.stop := rfl

end Span

end Peg
