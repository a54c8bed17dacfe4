import Peg.Span
import Peg.Text.Utf8

/-! # Cursors over a byte input

A cursor is an input with a position in it. It reads byte by byte and may be moved
anywhere, also past the end, where it reads nothing. The bytes of a span are read
back through a cursor, which is put back where it was.
-/
namespace Peg

structure Cursor where
  input : Array UInt8
  pos : Nat := 0
  deriving DecidableEq, Repr, Inhabited

namespace Cursor

def seek (c : Cursor) (pos : Nat) : Cursor := { c with pos }

def read (c : Cursor) : Option UInt8 × Cursor :=
  match c.input[c.pos]? with
  | some b => (some b, { c with pos := c.pos + 1 })
  | none => (none, c)

def atEnd (c : Cursor) : Bool := decide (c.input.size ≤ c.pos)

def readUpTo : Nat → Cursor → Array UInt8 → Array UInt8 × Cursor
  | 0, c, acc => (acc, c)
  | n + 1, c, acc =>
    match c.read with
    | (some b, c') => readUpTo n c' (acc.push b)
    | (none, c') => (acc, c')

@[simp] theorem seek_pos (c : Cursor) : c.seek c.pos = c := rfl

@[simp] theorem seek_seek (c : Cursor) (p q : Nat) : (c.seek p).seek q = c.seek q := rfl

theorem read_of_lt {c : Cursor} (h : c.pos < c.input.size) :
    c.read = (some c.input[c.pos], c.seek (c.pos + 1)) := by
  simp [read, h, seek]

theorem read_of_le {c : Cursor} (h : c.input.size ≤ c.pos) : c.read = (none, c) := by
  simp [read, h]

theorem readUpTo_input (n : Nat) (c : Cursor) (acc : Array UInt8) :
    (readUpTo n c acc).2.input = c.input := by
  induction n generalizing c acc with
  | zero => rfl
  | succ n ih =>
    by_cases h : c.pos < c.input.size
    · simp only [readUpTo, read_of_lt h, ih, seek]
    · simp only [readUpTo, read_of_le (Nat.not_lt.mp h)]

/-- Reading yields the stretch of the input behind the cursor, behind what was there. -/
theorem readUpTo_bytes (n : Nat) (c : Cursor) (acc : Array UInt8) :
    (readUpTo n c acc).1 = acc ++ c.input.extract c.pos (c.pos + n) := by
  induction n generalizing c acc with
  | zero =>
    have hnothing : c.input.extract c.pos (c.pos + 0) = #[] :=
      Array.extract_eq_empty_of_le (Nat.min_le_left c.pos c.input.size)
    rw [readUpTo, hnothing, Array.append_empty]
  | succ n ih =>
    by_cases h : c.pos < c.input.size
    · have hread : c.input.extract c.pos (c.pos + (n + 1)) =
          #[c.input[c.pos]] ++ c.input.extract (c.pos + 1) (c.pos + 1 + n) := by
        apply Array.ext'
        simp only [Array.toList_extract, Array.toList_append, List.extract_eq_take_drop]
        rw [show c.pos + (n + 1) - c.pos = n + 1 by omega,
          show c.pos + 1 + n - (c.pos + 1) = n by omega,
          List.drop_eq_getElem_cons (by simpa using h), List.take_succ_cons]
        simp
      simp only [readUpTo, read_of_lt h, ih, seek, hread]
      simp
    · simp [readUpTo, read_of_le (Nat.not_lt.mp h),
        Array.extract_empty_of_size_le_start (Nat.not_lt.mp h)]

end Cursor

namespace Span

/-- The most bytes that one buffer can be made for. -/
def bufferLimit : Nat := (1 <<< 63) - 1

/-- The bytes of a span with the cursor afterwards, which is where it was before
unless the span has no length; a span that reaches past the input is cut short. -/
def replay (m : Span) (c : Cursor) : Except Fault (Array UInt8) × Cursor :=
  match m.length with
  | .error f => (.error f, c.seek m.start)
  | .ok n =>
    let (bytes, after) := (c.seek m.start).readUpTo n #[]
    (.ok bytes, after.seek c.pos)

/-- The bytes of a span in order are those of the input there, as far as it goes, and the
cursor is where it was. -/
theorem replay_of_le {m : Span} (h : m.start ≤ m.stop) (c : Cursor) :
    m.replay c = (.ok (c.input.extract m.start m.stop), c) := by
  have hstop : m.start + (m.stop - m.start) = m.stop := by omega
  have hback : (Cursor.readUpTo (m.stop - m.start) (c.seek m.start) #[]).2.seek c.pos = c := by
    simp [Cursor.seek, Cursor.readUpTo_input]
  simp only [replay, length_of_le h, hback]
  simp [Cursor.readUpTo_bytes, Cursor.seek, hstop]

/-- The bytes of a span, read into a buffer that is made for its whole length first. -/
def bytes (m : Span) (c : Cursor) : Except Fault (Array UInt8) × Cursor :=
  match m.length with
  | .error f => (.error f, c)
  | .ok n => if bufferLimit < n then (.error .tooLong, c) else m.replay c

theorem bytes_of_le {m : Span} (h : m.start ≤ m.stop) (hfits : m.stop - m.start ≤ bufferLimit)
    (c : Cursor) : m.bytes c = (.ok (c.input.extract m.start m.stop), c) := by
  simp only [bytes, length_of_le h, if_neg (Nat.not_lt.mpr hfits), replay_of_le h]

theorem bytes_of_tooLong {m : Span} (h : m.start ≤ m.stop)
    (hlong : bufferLimit < m.stop - m.start) (c : Cursor) :
    m.bytes c = (.error .tooLong, c) := by
  simp only [bytes, length_of_le h, if_pos hlong]

/-- The bytes of a span as text; bytes that are not UTF-8 become replacement characters. -/
def text (m : Span) (c : Cursor) : Except Fault String × Cursor :=
  match m.bytes c with
  | (.ok bs, c') => (.ok (Utf8.decodeLossy bs), c')
  | (.error f, c') => (.error f, c')

theorem text_of_le {m : Span} (h : m.start ≤ m.stop) (hfits : m.stop - m.start ≤ bufferLimit)
    (c : Cursor) : m.text c = (.ok (Utf8.decodeLossy (c.input.extract m.start m.stop)), c) := by
  rw [text, bytes_of_le h hfits]

theorem text_of_tooLong {m : Span} (h : m.start ≤ m.stop)
    (hlong : bufferLimit < m.stop - m.start) (c : Cursor) : m.text c = (.error .tooLong, c) := by
  rw [text, bytes_of_tooLong h hlong]

def text? (m : Span) (c : Cursor) : Except Fault (Option String) :=
  if m.stop < m.start then .ok none else some <$> (m.text c).1

/-- Copies the bytes of a span behind those of `sink`: their number, the sink after
that and the cursor. -/
def forward (m : Span) (c : Cursor) (sink : Array UInt8) :
    Except Fault (Nat × Array UInt8) × Cursor :=
  match m.replay c with
  | (.ok bs, c') => (.ok (bs.size, sink ++ bs), c')
  | (.error f, c') => (.error f, c')

theorem forward_of_le {m : Span} (h : m.start ≤ m.stop) (c : Cursor) (sink : Array UInt8) :
    m.forward c sink = (.ok ((c.input.extract m.start m.stop).size,
      sink ++ c.input.extract m.start m.stop), c) := by
  rw [forward, replay_of_le h]

end Span

end Peg
