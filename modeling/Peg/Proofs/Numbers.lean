import Peg.Proofs.Recognizing

/-! # Numbers are recognized

The language of numbers in the operations on languages, and the demo for it. A mark without digits
behind it is not taken: its zero is a number by itself, and nothing of the attempt is left behind.
-/
namespace Peg

open Pattern
open scoped Computability

namespace Numeral

def sign : Language UInt8 := byteOf (· ∈ "+-".toUTF8.data.toList)

def mark : Language UInt8 := {"0x".toUTF8.data.toList} + {"0X".toUTF8.data.toList}

def digit : Language UInt8 := byteOf fun b => (Char.ofUInt8 b).isDigit

def hexDigit : Language UInt8 := byteOf fun b => (Char.ofUInt8 b).isHexDigit

def numerals : Language UInt8 := (1 + sign) * (mark * (hexDigit * hexDigit∗) + digit * digit∗)

structure Split (s m d w : List UInt8) : Prop where
  whole : w = s ++ m ++ d
  sign : s ∈ 1 + sign
  digits : m ∈ mark ∧ d ∈ hexDigit * hexDigit∗ ∨ m = [] ∧ d ∈ digit * digit∗

/-- Sign and digits have been captured, and the digits have been forwarded. -/
def Kept (sink : SinkId) (w : List UInt8) (store : Store) : Prop :=
  ∃ s m d, Split s m d w ∧
    store.captures = #[⟨0, s.length⟩, ⟨s.length + m.length, w.length⟩] ∧
    store.sinks.content sink = d.toArray

/-! Where one part ends and the next one begins. -/

theorem length_mark {w : List UInt8} (hw : w ∈ mark) : w.length = 2 := by
  rcases hw with rfl | rfl <;> decide +kernel

theorem heads_mark : Heads mark fun b => (Char.ofUInt8 b).isDigit := by
  rintro w (rfl | rfl) b hb <;> revert b <;> decide +kernel

theorem madeOf_digits : MadeOf (digit * digit∗) fun b => (Char.ofUInt8 b).isDigit :=
  (MadeOf.byteOf _).mul (MadeOf.byteOf _).kstar

theorem commits_sign :
    Commits (1 + sign) (mark * (hexDigit * hexDigit∗) + digit * digit∗) := by
  have hheads : Heads (mark * (hexDigit * hexDigit∗)) fun b => (Char.ofUInt8 b).isDigit :=
    heads_mark.mul fun hnil => absurd (length_mark hnil) (by decide)
  refine .of_follows (MadeOf.byteOf _).one_add.follows (hheads.add madeOf_digits.heads) ?_
  decide +kernel

/-- A mark is not made of digits. -/
theorem not_prefix_of_mark {u v : List UInt8} (hu : u ∈ mark * (hexDigit * hexDigit∗))
    (hv : v ∈ digit * digit∗) : ¬ u <+: v := by
  intro hle
  obtain ⟨m, hm, d, -, rfl⟩ := Language.mem_mul.mp hu
  have hdigits : ∀ b ∈ m, (Char.ofUInt8 b).isDigit := fun b hb =>
    madeOf_digits v hv b (hle.subset (List.mem_append_left d hb))
  revert hdigits
  rcases hm with rfl | rfl <;> decide +kernel

/-! What the parts of the pattern take. -/

variable {σ : Setting Store} (hσ : σ.host = Store.host) (sink : SinkId)

theorem munches_sign :
    σ.Munches (capture (quantify (oneOf "+-") (-1))) (1 + sign) .captured (· = []) := by
  have hsign : σ.Munches (oneOf "+-") sign .silent (· = []) :=
    Setting.munches_oneByte rfl fun c => by rw [ByteSet.contains_ofList, decide_eq_true_iff]
  exact (hsign.optional (· = [])).captured

include hσ

theorem munches_decimal : σ.Munches (forward (capture (quantify (cls .digit) 1)) sink)
    (digit * digit∗) (.copied sink) (· = []) :=
  ((Setting.munches_oneByte rfl CharClass.holds_digit).someBytes
    (Store.keepsPosition hσ _)).copied sink

theorem munches_hexadecimal :
    σ.Munches (seq (choice (lit "0x") (lit "0X"))
        (forward (capture (quantify (cls .hexDigit) 1)) sink))
      (mark * (hexDigit * hexDigit∗))
      ((Setting.Imprint.silent.within mark).andThen
        ((Setting.Imprint.copied sink).within (hexDigit * hexDigit∗))) (· = []) := by
  have hmark : σ.Munches (choice (lit "0x") (lit "0X")) mark .silent (· = []) := by
    refine ((Setting.munches_literal _).choice (Setting.munches_literal _) ?_).mono ?_ fun _ hl => hl
    · rintro _ rfl _ rfl -
      decide +kernel
    · rintro s w l - - (⟨-, hl⟩ | ⟨-, hl⟩) <;> exact hl
  have hdigits := ((Setting.munches_oneByte rfl CharClass.holds_hexDigit).someBytes
    (Store.keepsPosition hσ (cls .hexDigit))).copied sink
  exact hmark.seq_silent hdigits (.of_length (fun _ => length_mark) _) rfl

theorem munches_number : σ.Munches (Demo.number sink) numerals
    (fun start w l => ∃ s m d, Split s m d w ∧
      l = .captured ⟨start, start + s.length⟩ :: [
        .captured ⟨start + s.length + m.length, start + w.length⟩,
        .forwarded sink ⟨start + s.length + m.length, start + w.length⟩ d.toArray])
    fun _ => True := by
  refine (munches_sign.seq ((munches_hexadecimal hσ sink).choice (munches_decimal hσ sink) ?_)
    commits_sign (fun _ _ => trivial) fun _ _ _ _ _ _ _ => trivial).mono ?_ fun _ hl => hl
  · exact fun _ hu _ hv hle => absurd hle (not_prefix_of_mark hu hv)
  · rintro start _ _ - - ⟨s, v, _, k, rfl, rfl, ⟨hs, rfl⟩, ⟨-, hv⟩⟩
    rcases hv with ⟨-, m, d, _, _, rfl, rfl, ⟨hm, rfl⟩, hd, rfl⟩ | ⟨hd, rfl⟩
    · refine ⟨s, m, d, ⟨(List.append_assoc s m d).symm, hs, .inl ⟨hm, hd⟩⟩, ?_⟩
      simp [Nat.add_assoc]
    · refine ⟨s, [], v, ⟨by simp, hs, .inr ⟨rfl, hd⟩⟩, ?_⟩
      simp [Nat.add_assoc]

end Numeral

/-- The demo of numbers matches the longest prefix that is a number, captures its sign and its
digits, and forwards the digits. -/
theorem recognizes_number (id : GrammarId) (sink : SinkId) :
    Recognizes (Demo.build .number id sink) Numeral.numerals (Numeral.Kept sink) := by
  refine recognizes (fun x => Numeral.munches_number rfl sink) ?_
  rintro x w _ - - ⟨s, m, d, hsplit, rfl⟩
  refine ⟨s, m, d, hsplit, ?_, ?_⟩
  · rw [Store.captures_act rfl]
    simp [Trail.spans]
  · rw [Store.content_act rfl]
    simp [Trail.bytesTo]

end Peg
