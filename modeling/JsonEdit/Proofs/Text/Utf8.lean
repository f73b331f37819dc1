import JsonEdit.Text.Utf8

/-!
# Reading back what was encoded

The bytes of a character, read in turn, give the character again. The first byte alone says how
many there are.

* `length_utf8`: how many bytes a text has;
* `encode_ascii`: one byte, the code itself;
* **`push_two`**, **`push_three`**, **`push_four`**: characters of more bytes.
-/

namespace JsonEdit

theorem length_utf8 (text : String) : (utf8 text).length = text.utf8ByteSize := by
  rw [← String.size_toByteArray, ← String.utf8Encode_toList, List.utf8Encode]
  simp [utf8, utf8Chars]

theorem charCode_lt (c : Char) : c.toNat < 0x110000 := by
  rcases c.valid with h | ⟨-, h⟩
  · exact Nat.lt_trans h (by decide)
  · exact h

theorem encode_ascii {c : Char} (h : c.toNat < 0x80) :
    String.utf8EncodeChar c = [UInt8.ofNat c.toNat] :=
  if_pos (Nat.le_of_lt_succ h)

theorem utf8Chars_ascii {c : Char} (h : c.toNat < 0x80) (text : List Char) :
    utf8Chars (c :: text) = UInt8.ofNat c.toNat :: utf8Chars text := by
  rw [utf8Chars_cons, encode_ascii h]
  rfl

namespace Utf8

theorem charFrom_toNat {least : Nat} {c : Char} (h : least ≤ c.toNat) :
    charFrom least c.toNat = .char c := by
  have hv : c.toNat.isValidChar := c.valid
  rw [charFrom, if_neg (by omega), dif_pos hv]
  rfl

/-- The byte that adds the lowest six bits of a number. -/
def tail (n : Nat) : UInt8 := UInt8.ofNat (n % 64 + 128)

theorem isContinuation_tail (n : Nat) : isContinuation (tail n) = true := by
  simp [isContinuation, tail, UInt8.le_iff_toNat_le, UInt8.lt_iff_toNat_lt]
  omega

theorem extend_tail (value n : Nat) : extend value (tail n) = value * 64 + n % 64 := by
  simp [extend, tail]
  omega

/-- **Characters of two bytes.** -/
theorem push_two {c : Char} (hlow : 0x80 ≤ c.toNat) (hhigh : c.toNat < 0x800) :
    ∃ a b, String.utf8EncodeChar c = [a, b] ∧ 0x80 ≤ a ∧ push [a] b = .char c := by
  have he : String.utf8EncodeChar c =
      [UInt8.ofNat (c.toNat / 64 % 32 + 192), tail c.toNat] := by
    simp only [String.utf8EncodeChar]
    rw [if_neg (by change ¬ c.toNat ≤ 127; omega), if_pos (by change c.toNat ≤ 2047; omega)]
    rfl
  refine ⟨_, _, he, ?_, ?_⟩
  · simp [UInt8.le_iff_toNat_le]
    omega
  have hfirst : (0xC0 ≤ UInt8.ofNat (c.toNat / 64 % 32 + 192) &&
      UInt8.ofNat (c.toNat / 64 % 32 + 192) < 0xE0) = true := by
    simp [UInt8.le_iff_toNat_le, UInt8.lt_iff_toNat_lt]
    omega
  have hvalue : (UInt8.ofNat (c.toNat / 64 % 32 + 192)).toNat % 32 * 64 + c.toNat % 64 =
      c.toNat := by
    simp
    omega
  simp only [push, isContinuation_tail, hfirst, extend_tail, hvalue]
  exact charFrom_toNat hlow

/-- **Characters of three bytes.** -/
theorem push_three {c : Char} (hlow : 0x800 ≤ c.toNat) (hhigh : c.toNat < 0x10000) :
    ∃ a b d, String.utf8EncodeChar c = [a, b, d] ∧ 0x80 ≤ a ∧ push [a] b = .more [a, b] ∧
      push [a, b] d = .char c := by
  have he : String.utf8EncodeChar c =
      [UInt8.ofNat (c.toNat / 4096 % 16 + 224), tail (c.toNat / 64), tail c.toNat] := by
    simp only [String.utf8EncodeChar]
    rw [if_neg (by change ¬ c.toNat ≤ 127; omega), if_neg (by change ¬ c.toNat ≤ 2047; omega),
      if_pos (by change c.toNat ≤ 65535; omega)]
    rfl
  have hnot : (0xC0 ≤ UInt8.ofNat (c.toNat / 4096 % 16 + 224) &&
      UInt8.ofNat (c.toNat / 4096 % 16 + 224) < 0xE0) = false := by
    simp [UInt8.le_iff_toNat_le, UInt8.lt_iff_toNat_lt]
    omega
  have hfirst : (0xE0 ≤ UInt8.ofNat (c.toNat / 4096 % 16 + 224) &&
      UInt8.ofNat (c.toNat / 4096 % 16 + 224) < 0xF0) = true := by
    simp [UInt8.le_iff_toNat_le, UInt8.lt_iff_toNat_lt]
    omega
  have hvalue : ((UInt8.ofNat (c.toNat / 4096 % 16 + 224)).toNat % 16 * 64 +
      c.toNat / 64 % 64) * 64 + c.toNat % 64 = c.toNat := by
    simp
    omega
  refine ⟨_, _, _, he, ?_, ?_, ?_⟩
  · simp [UInt8.le_iff_toNat_le]
    omega
  · simp only [push, isContinuation_tail, hnot]
    rfl
  · simp only [push, isContinuation_tail, hfirst, extend_tail, hvalue]
    exact charFrom_toNat hlow

/-- **Characters of four bytes.** -/
theorem push_four {c : Char} (hlow : 0x10000 ≤ c.toNat) :
    ∃ a b d e, String.utf8EncodeChar c = [a, b, d, e] ∧ 0x80 ≤ a ∧ push [a] b = .more [a, b] ∧
      push [a, b] d = .more [a, b, d] ∧ push [a, b, d] e = .char c := by
  have hc := charCode_lt c
  have he : String.utf8EncodeChar c =
      [UInt8.ofNat (c.toNat / 262144 % 8 + 240), tail (c.toNat / 4096), tail (c.toNat / 64),
        tail c.toNat] := by
    simp only [String.utf8EncodeChar]
    rw [if_neg (by change ¬ c.toNat ≤ 127; omega), if_neg (by change ¬ c.toNat ≤ 2047; omega),
      if_neg (by change ¬ c.toNat ≤ 65535; omega)]
    rfl
  have hnot : (0xC0 ≤ UInt8.ofNat (c.toNat / 262144 % 8 + 240) &&
      UInt8.ofNat (c.toNat / 262144 % 8 + 240) < 0xE0) = false := by
    simp [UInt8.le_iff_toNat_le, UInt8.lt_iff_toNat_lt]
    omega
  have hnot' : (0xE0 ≤ UInt8.ofNat (c.toNat / 262144 % 8 + 240) &&
      UInt8.ofNat (c.toNat / 262144 % 8 + 240) < 0xF0) = false := by
    simp [UInt8.le_iff_toNat_le, UInt8.lt_iff_toNat_lt]
    omega
  have hfirst : (0xF0 ≤ UInt8.ofNat (c.toNat / 262144 % 8 + 240) &&
      UInt8.ofNat (c.toNat / 262144 % 8 + 240) < 0xF8) = true := by
    simp [UInt8.le_iff_toNat_le, UInt8.lt_iff_toNat_lt]
    omega
  have hvalue : (((UInt8.ofNat (c.toNat / 262144 % 8 + 240)).toNat % 8 * 64 +
      c.toNat / 4096 % 64) * 64 + c.toNat / 64 % 64) * 64 + c.toNat % 64 = c.toNat := by
    simp
    omega
  refine ⟨_, _, _, _, he, ?_, ?_, ?_, ?_⟩
  · simp [UInt8.le_iff_toNat_le]
    omega
  · simp only [push, isContinuation_tail, hnot]
    rfl
  · simp only [push, isContinuation_tail, hnot', hfirst]
    rfl
  · simp only [push, isContinuation_tail, extend_tail, hvalue]
    exact charFrom_toNat hlow

end Utf8

end JsonEdit
