import IncludeDeps.Text.Decoding
import Mathlib.Tactic.Common

/-!
# Decoding undoes encoding

`decode` reads bytes one by one and keeps the character that it has begun.  On
the UTF-8 bytes of a character it begins that character at the first of them,
adds six bits at each further one, and is between characters again after the
last (`decodeFrom_utf8EncodeChar`).  The second byte is the one that has to lie in
a narrower range after some first bytes, and there it does because the encoding is
the shortest and encodes no surrogate.

So the text of the bytes of a text is that text (`decode_bytes`).
-/

namespace IncludeDeps.Text

variable {bits missing n : ℕ} {low high : UInt8} {rest : List UInt8}

theorem bytes_ofList (text : List Char) :
    bytes (String.ofList text) = text.flatMap String.utf8EncodeChar := by
  rw [bytes, String.toUTF8_eq_toByteArray, String.toByteArray_ofList, List.utf8Encode,
    List.data_toByteArray]

/-! ## The first byte of a character -/

theorem decodeFrom_start {byte : UInt8} {text : List Char} {begun : Option Begun}
    (hstart : start byte = (text, begun)) :
    decodeFrom none (byte :: rest) = text ++ decodeFrom begun rest := by
  rw [decodeFrom, step, hstart]

theorem start_one (hhigh : n < 128) : start (UInt8.ofNat n) = ([Char.ofNat n], none) := by
  have hbyte : (UInt8.ofNat n).toNat = n :=
    UInt8.toNat_ofNat_of_lt' (by show n < 256; omega)
  rw [start, hbyte, if_pos hhigh]

theorem start_two (hlow : 128 ≤ n) (hhigh : n < 2048) :
    start (UInt8.ofNat (n / 64 % 32 + 192)) = ([], some ⟨n / 64, 0, 0x80, 0xBF⟩) := by
  have hbyte : (UInt8.ofNat (n / 64 % 32 + 192)).toNat = n / 64 % 32 + 192 :=
    UInt8.toNat_ofNat_of_lt' (by show n / 64 % 32 + 192 < 256; omega)
  have hbits : (n / 64 % 32 + 192) % 32 = n / 64 := by omega
  simp only [start, hbyte, hbits]
  rw [if_neg (by omega), if_neg (by omega), if_pos (by omega)]

/-- A byte with the six bits of a number may come next in a range. -/
structure Fits (low high : UInt8) (n : ℕ) : Prop where
  above : low.toNat ≤ n % 64 + 128
  below : n % 64 + 128 ≤ high.toNat

theorem fits_any (n : ℕ) : Fits 0x80 0xBF n := by
  constructor
  · show 128 ≤ n % 64 + 128
    omega
  · show n % 64 + 128 ≤ 191
    omega

theorem start_three (hlow : 2048 ≤ n) (hhigh : n < 65536) (hvalid : n.isValidChar) :
    ∃ low high : UInt8, start (UInt8.ofNat (n / 4096 % 16 + 224)) =
      ([], some ⟨n / 4096, 1, low, high⟩) ∧ Fits low high (n / 64) := by
  have hbyte : (UInt8.ofNat (n / 4096 % 16 + 224)).toNat = n / 4096 % 16 + 224 :=
    UInt8.toNat_ofNat_of_lt' (by show n / 4096 % 16 + 224 < 256; omega)
  have hbits : (n / 4096 % 16 + 224) % 16 = n / 4096 := by omega
  have hscalar : n < 0xD800 ∨ 0xDFFF < n := hvalid.imp_right And.left
  simp only [start, hbyte, hbits]
  rw [if_neg (by omega), if_neg (by omega), if_neg (by omega)]
  by_cases hfirst : n / 4096 % 16 + 224 = 0xE0
  · -- a smaller second byte would make a longer form of a shorter encoding
    refine ⟨0xA0, 0xBF, if_pos hfirst, ?_, (fits_any _).below⟩
    show 160 ≤ n / 64 % 64 + 128
    omega
  · rw [if_neg hfirst]
    by_cases hsurrogate : n / 4096 % 16 + 224 = 0xED
    · refine ⟨0x80, 0x9F, if_pos hsurrogate, (fits_any _).above, ?_⟩
      show n / 64 % 64 + 128 ≤ 159
      omega
    · rw [if_neg hsurrogate, if_pos (by omega)]
      exact ⟨0x80, 0xBF, rfl, fits_any _⟩

theorem start_four (hlow : 65536 ≤ n) (hhigh : n < 0x110000) :
    ∃ low high : UInt8, start (UInt8.ofNat (n / 262144 % 8 + 240)) =
      ([], some ⟨n / 262144, 2, low, high⟩) ∧ Fits low high (n / 4096) := by
  have hbyte : (UInt8.ofNat (n / 262144 % 8 + 240)).toNat = n / 262144 % 8 + 240 :=
    UInt8.toNat_ofNat_of_lt' (by show n / 262144 % 8 + 240 < 256; omega)
  have hbits : (n / 262144 % 8 + 240) % 8 = n / 262144 := by omega
  simp only [start, hbyte, hbits]
  rw [if_neg (by omega), if_neg (by omega), if_neg (by omega), if_neg (by omega),
    if_neg (by omega), if_neg (by omega)]
  by_cases hfirst : n / 262144 % 8 + 240 = 0xF0
  · refine ⟨0x90, 0xBF, if_pos hfirst, ?_, (fits_any _).below⟩
    show 144 ≤ n / 4096 % 64 + 128
    omega
  · rw [if_neg hfirst]
    by_cases hmiddle : n / 262144 % 8 + 240 < 0xF4
    · exact ⟨0x80, 0xBF, if_pos hmiddle, fits_any _⟩
    · rw [if_neg hmiddle, if_pos (by omega)]
      refine ⟨0x80, 0x8F, rfl, (fits_any _).above, ?_⟩
      show n / 4096 % 64 + 128 ≤ 143
      omega

/-! ## The other bytes of a character -/

theorem step_of_fits (hfits : Fits low high n) :
    step (some ⟨bits, missing, low, high⟩) (UInt8.ofNat (n % 64 + 128)) =
      match missing with
      | 0 => ([Char.ofNat (bits * 64 + n % 64)], none)
      | missing + 1 => ([], some ⟨bits * 64 + n % 64, missing, 0x80, 0xBF⟩) := by
  have hbyte : (UInt8.ofNat (n % 64 + 128)).toNat = n % 64 + 128 :=
    UInt8.toNat_ofNat_of_lt' (by show n % 64 + 128 < 256; omega)
  have hbits : (n % 64 + 128) % 64 = n % 64 := by omega
  simp only [step, UInt8.le_iff_toNat_le, hbyte, hbits]
  refine (if_pos (And.intro hfits.above hfits.below)).trans ?_
  cases missing <;> rfl

theorem decodeFrom_last (hfits : Fits low high n) :
    decodeFrom (some ⟨bits, 0, low, high⟩) (UInt8.ofNat (n % 64 + 128) :: rest) =
      Char.ofNat (bits * 64 + n % 64) :: decodeFrom none rest := by
  rw [decodeFrom, step_of_fits hfits]
  rfl

theorem decodeFrom_more (hfits : Fits low high n) :
    decodeFrom (some ⟨bits, missing + 1, low, high⟩) (UInt8.ofNat (n % 64 + 128) :: rest) =
      decodeFrom (some ⟨bits * 64 + n % 64, missing, 0x80, 0xBF⟩) rest := by
  rw [decodeFrom, step_of_fits hfits]
  rfl

/-! ## Whole characters and texts -/

theorem decodeFrom_utf8EncodeChar (c : Char) (rest : List UInt8) :
    decodeFrom none (String.utf8EncodeChar c ++ rest) = c :: decodeFrom none rest := by
  obtain ⟨n, hn⟩ : ∃ n, c.val.toNat = n := ⟨_, rfl⟩
  have hchar : Char.ofNat n = c := hn ▸ Char.ofNat_toNat c
  have hvalid : n.isValidChar := hn ▸ c.valid
  have hbound : n < 0x110000 := by
    rcases hvalid with h | h <;> omega
  simp only [String.utf8EncodeChar, hn]
  split
  · rw [List.singleton_append, decodeFrom_start (start_one (by omega)), hchar]
    rfl
  · split
    · have hjoin : n / 64 * 64 + n % 64 = n := by omega
      simp only [List.cons_append, List.nil_append]
      rw [decodeFrom_start (start_two (by omega) (by omega)), List.nil_append,
        decodeFrom_last (fits_any n), hjoin, hchar]
    · split
      · have hjoin : (n / 4096 * 64 + n / 64 % 64) * 64 + n % 64 = n := by omega
        obtain ⟨low, high, hstart, hfits⟩ := start_three (n := n) (by omega) (by omega) hvalid
        simp only [List.cons_append, List.nil_append]
        rw [decodeFrom_start hstart, List.nil_append, decodeFrom_more hfits,
          decodeFrom_last (fits_any n), hjoin, hchar]
      · have hjoin : ((n / 262144 * 64 + n / 4096 % 64) * 64 + n / 64 % 64) * 64 + n % 64 = n := by
          omega
        obtain ⟨low, high, hstart, hfits⟩ := start_four (n := n) (by omega) hbound
        simp only [List.cons_append, List.nil_append]
        rw [decodeFrom_start hstart, List.nil_append, decodeFrom_more hfits,
          decodeFrom_more (fits_any (n / 64)), decodeFrom_last (fits_any n), hjoin, hchar]

/-- **Decoding undoes encoding.** -/
theorem decode_bytes (text : String) : decode (bytes text) = text.toList := by
  rw [← String.ofList_toList (s := text), bytes_ofList, String.toList_ofList, decode]
  induction text.toList with
  | nil => rfl
  | cons first rest ih => rw [List.flatMap_cons, decodeFrom_utf8EncodeChar, ih]

end IncludeDeps.Text
