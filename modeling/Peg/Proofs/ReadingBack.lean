import Peg.Cursor

/-! # Reading spans back

The bytes of a span can be asked for, its text, or a copy of its bytes to a sink. Each of the
three goes over the part of the span that lies within the input and puts the cursor back. They
part over the room that they ask for: a copy takes bytes as they come, while the other two make
a buffer for all of the span first, also for what lies behind the end of the input.
-/
namespace Peg.Span

/-- A stretch that reaches behind the end is the same as the one cut off there. -/
theorem extract_cut (input : Array UInt8) (start stop : Nat) :
    input.extract (min start input.size) (min stop input.size) = input.extract start stop := by
  apply Array.ext
  · simp only [Array.size_extract]
    omega
  · intro i _ hi
    rw [Array.size_extract] at hi
    have hstart : min start input.size = start := by omega
    simp only [Array.getElem_extract, hstart]

/-- Whatever the cursor is at and however far the span reaches behind the end of the input, a copy
appends the part of the input that the span covers, counts its bytes and puts the cursor back.
The bytes and the text of the span are those of the same part, with the cursor back, as long as
the whole span is no longer than a buffer can be; of a longer one they are refused. -/
theorem reads_back {m : Span} (h : m.start ≤ m.stop) (c : Cursor) (sink : Array UInt8) :
    let lo := min m.start c.input.size
    let hi := min m.stop c.input.size
    let covered := c.input.extract lo hi
    m.forward c sink = (.ok (hi - lo, sink ++ covered), c) ∧
    (m.stop - m.start ≤ bufferLimit →
      m.bytes c = (.ok covered, c) ∧ m.text c = (.ok (Utf8.decodeLossy covered), c)) ∧
    (bufferLimit < m.stop - m.start →
      m.bytes c = (.error .tooLong, c) ∧ m.text c = (.error .tooLong, c)) := by
  intro lo hi covered
  have hcovered : covered = c.input.extract m.start m.stop := extract_cut c.input m.start m.stop
  have hsize : covered.size = hi - lo := by
    rw [Array.size_extract]
    omega
  constructor
  · rw [forward_of_le h, ← hcovered, hsize]
  constructor
  · intro hfits
    rw [bytes_of_le h hfits, text_of_le h hfits, ← hcovered]
    exact ⟨rfl, rfl⟩
  · intro hlong
    exact ⟨bytes_of_tooLong h hlong c, text_of_tooLong h hlong c⟩

/-- Two bytes of three are there to be read, from a cursor that is far behind all of them. -/
theorem reads_back_two :
    let m : Span := ⟨1, 10⟩
    let c : Cursor := ⟨#[97, 98, 99], 7⟩
    m.start ≤ m.stop ∧ m.forward c #[33] = (.ok (2, #[33, 98, 99]), c) ∧
      m.bytes c = (.ok #[98, 99], c) ∧ m.text c = (.ok "bc", c) := by
  intro m c
  have hle : m.start ≤ m.stop := by decide
  have htext : Utf8.decodeLossy #[98, 99] = "bc" := by decide +kernel
  obtain ⟨hforward, hfits, _⟩ := reads_back hle c #[33]
  rw [← htext]
  exact ⟨hle, hforward, hfits (by decide)⟩

/-- Of a span of `2 ^ 63` bytes, a copy takes the two that are there, but the bytes and the text
cannot be asked for, since no buffer has that much room. -/
theorem long_span_refused :
    let m : Span := ⟨1, (1 <<< 63) + 1⟩
    let c : Cursor := ⟨#[97, 98, 99], 0⟩
    m.start ≤ m.stop ∧ m.stop < 1 <<< 64 ∧ m.forward c #[] = (.ok (2, #[98, 99]), c) ∧
      m.bytes c = (.error .tooLong, c) ∧ m.text c = (.error .tooLong, c) := by
  intro m c
  have hle : m.start ≤ m.stop := by decide
  have hlong : bufferLimit < m.stop - m.start := by decide
  refine ⟨hle, by decide, ?_, bytes_of_tooLong hle hlong c, text_of_tooLong hle hlong c⟩
  rw [forward_of_le hle, ← extract_cut]
  rfl

end Peg.Span
