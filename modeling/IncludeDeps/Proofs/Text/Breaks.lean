import IncludeDeps.Proofs.Text.Encoding
import Mathlib.Algebra.Order.Ring.Nat
import Mathlib.Tactic.Ring

/-!
# Decoding between ASCII bytes

An ASCII byte stands for its character wherever it occurs: it can neither belong to a
longer character nor be swallowed by one that is cut off before it.  So the bytes before
it and the bytes after it are decoded on their own (`decode_append_ascii`), valid or not.

The other way round, what is decoded as a line feed was the byte for it
(`feed_notMem_decode`).  A character of more than one byte is none of ASCII: the ranges
for the second byte leave out those that would be encoded in too many bytes.
`Begun.IsLong` is the invariant that says it of the bits read so far.
-/

namespace IncludeDeps.Text

variable {byte : UInt8} {begun : Option Begun}

/-- The bytes that may come next are no ASCII, and whatever they are, nor is the character
begun. -/
structure Begun.IsLong (begun : Begun) : Prop where
  low : 0x80 ≤ begun.low.toNat
  high : begun.high.toNat ≤ 0xBF
  bits : 0x80 ≤ (begun.bits * 64 + begun.low.toNat % 64) * 64 ^ begun.missing

/-- A byte that starts anew is a character, is replaced, or begins a long character. -/
theorem start_cases (byte : UInt8) :
    start byte = ([Char.ofNat byte.toNat], none) ∨ start byte = ([replacement], none) ∨
      ∃ begun, start byte = ([], some begun) ∧ begun.IsLong := by
  generalize hstart : start byte = result
  unfold start at hstart
  generalize byte.toNat = n at hstart ⊢
  dsimp only at hstart
  -- one case for each range of first bytes
  repeat' split at hstart
  all_goals subst hstart
  · exact Or.inl rfl
  · exact Or.inr (Or.inl rfl)
  any_goals
    refine Or.inr (Or.inr ⟨_, rfl, ?_⟩)
    constructor <;> simp
    omega
  · exact Or.inr (Or.inl rfl)

theorem isLong_of_start {begun : Begun} (hstart : begun ∈ (start byte).2) : begun.IsLong := by
  obtain hwhole | hreplaced | ⟨first, hfirst, hlong⟩ := start_cases byte
  · rw [hwhole] at hstart
    cases hstart
  · rw [hreplaced] at hstart
    cases hstart
  · rw [hfirst] at hstart
    cases hstart
    exact hlong

/-- A byte that may come next adds no less than the least one. -/
theorem Begun.IsLong.mod_le {bits missing : ℕ} {low high : UInt8}
    (hlong : Begun.IsLong ⟨bits, missing, low, high⟩) (hlow : low ≤ byte) (hhigh : byte ≤ high) :
    low.toNat % 64 ≤ byte.toNat % 64 := by
  have hleast : 0x80 ≤ low.toNat := hlong.low
  have hgreatest : high.toNat ≤ 0xBF := hlong.high
  rw [UInt8.le_iff_toNat_le] at hlow hhigh
  omega

/-- The bits are as long as before with one more byte. -/
theorem Begun.IsLong.next {bits missing : ℕ} {low high : UInt8}
    (hlong : Begun.IsLong ⟨bits, missing + 1, low, high⟩) (hlow : low ≤ byte)
    (hhigh : byte ≤ high) :
    Begun.IsLong ⟨bits * 0x40 + byte.toNat % 0x40, missing, 0x80, 0xBF⟩ := by
  have hbyte := hlong.mod_le hlow hhigh
  refine ⟨by simp, by simp, ?_⟩
  calc 0x80
    _ ≤ (bits * 64 + low.toNat % 64) * 64 ^ (missing + 1) := hlong.bits
    _ ≤ (bits * 64 + byte.toNat % 64) * 64 ^ (missing + 1) := by gcongr
    _ = ((bits * 64 + byte.toNat % 64) * 64 + 0) * 64 ^ missing := by ring
    _ = ((bits * 64 + byte.toNat % 64) * 64 + (0x80 : UInt8).toNat % 64) * 64 ^ missing := rfl

theorem isLong_of_step (hbegun : ∀ first ∈ begun, first.IsLong) {next : Begun}
    (hnext : next ∈ (step begun byte).2) : next.IsLong := by
  cases begun with
  | none => exact isLong_of_start hnext
  | some first =>
      obtain ⟨bits, missing, low, high⟩ := first
      unfold step at hnext
      dsimp only at hnext
      split at hnext
      · next hrange =>
        cases missing with
        | zero => cases hnext
        | succ missing =>
            cases hnext
            exact (hbegun _ rfl).next hrange.1 hrange.2
      · exact isLong_of_start hnext

theorem decodeFrom_cons (begun : Option Begun) (byte : UInt8) (rest : List UInt8) :
    decodeFrom begun (byte :: rest) =
      (step begun byte).1 ++ decodeFrom (step begun byte).2 rest := by
  rw [decodeFrom]

/-! ## An ASCII byte -/

theorem start_ascii (hbyte : byte < 0x80) : start byte = ([Char.ofNat byte.toNat], none) := by
  have hsmall : byte.toNat < 0x80 := UInt8.lt_iff_toNat_lt.mp hbyte
  rw [start, if_pos hsmall]

/-- An ASCII byte ends the character before it, whether that is complete or not. -/
theorem decodeFrom_ascii (hbegun : ∀ first ∈ begun, first.IsLong) (hbyte : byte < 0x80)
    (below : List UInt8) :
    decodeFrom begun (byte :: below) =
      decodeFrom begun [] ++ Char.ofNat byte.toNat :: decodeFrom none below := by
  cases begun with
  | none => exact decodeFrom_start (start_ascii hbyte)
  | some first =>
      have hrange : ¬ (first.low ≤ byte ∧ byte ≤ first.high) := by
        rintro ⟨hlow, -⟩
        have hlong : 0x80 ≤ first.low.toNat := (hbegun first rfl).low
        have hsmall : byte.toNat < 0x80 := UInt8.lt_iff_toNat_lt.mp hbyte
        exact absurd (UInt8.le_iff_toNat_le.mp hlow) (by omega)
      have hstep : step (some first) byte = ([replacement, Char.ofNat byte.toNat], none) := by
        simp only [step, if_neg hrange, start_ascii hbyte]
      rw [decodeFrom_cons, hstep]
      rfl

theorem decodeFrom_append_ascii (hbegun : ∀ first ∈ begun, first.IsLong) (hbyte : byte < 0x80)
    (above below : List UInt8) :
    decodeFrom begun (above ++ byte :: below) =
      decodeFrom begun above ++ Char.ofNat byte.toNat :: decodeFrom none below := by
  induction above generalizing begun with
  | nil => exact decodeFrom_ascii hbegun hbyte below
  | cons first rest ih =>
      rw [List.cons_append, decodeFrom_cons, decodeFrom_cons,
        ih fun next hnext => isLong_of_step hbegun hnext, List.append_assoc]

/-- What stands before an ASCII byte and what stands after it are decoded on their own. -/
theorem decode_append_ascii (hbyte : byte < 0x80) (above below : List UInt8) :
    decode (above ++ byte :: below) =
      decode above ++ Char.ofNat byte.toNat :: decode below :=
  decodeFrom_append_ascii (by simp) hbyte above below

/-! ## A line feed -/

theorem eq_of_ofNat_eq_feed {n : ℕ} (hfeed : Char.ofNat n = '\n') : n = 0x0A := by
  by_cases hvalid : n.isValidChar
  · have hcode := congrArg Char.toNat hfeed
    rw [Char.ofNat, dif_pos hvalid] at hcode
    exact hcode
  · rw [Char.ofNat, dif_neg hvalid] at hfeed
    exact absurd hfeed (by decide)

theorem feed_notMem_start (hbyte : byte ≠ 0x0A) : '\n' ∉ (start byte).1 := by
  have hother : '\n' ≠ Char.ofNat byte.toNat := fun hfeed =>
    hbyte (UInt8.toNat_inj.mp (eq_of_ofNat_eq_feed hfeed.symm))
  have hreplacement : '\n' ≠ replacement := by decide
  obtain hwhole | hreplaced | ⟨first, hfirst, -⟩ := start_cases byte
  · simp [hwhole, hother]
  · simp [hreplaced, hreplacement]
  · simp [hfirst]

theorem feed_notMem_step (hbegun : ∀ first ∈ begun, first.IsLong) (hbyte : byte ≠ 0x0A) :
    '\n' ∉ (step begun byte).1 := by
  have hreplaced : '\n' ≠ replacement := by decide
  cases begun with
  | none => exact feed_notMem_start hbyte
  | some first =>
      obtain ⟨bits, missing, low, high⟩ := first
      unfold step
      dsimp only
      split
      · next hrange =>
        cases missing with
        | zero =>
            have hbyte := (hbegun _ rfl).mod_le hrange.1 hrange.2
            have hbits : 0x80 ≤ (bits * 64 + low.toNat % 64) * 64 ^ 0 := (hbegun _ rfl).bits
            intro hfeed
            have hcode := eq_of_ofNat_eq_feed (List.mem_singleton.mp hfeed).symm
            omega
        | succ missing => exact List.not_mem_nil
      · exact List.not_mem_cons_of_ne_of_not_mem hreplaced (feed_notMem_start hbyte)

theorem feed_notMem_decodeFrom (hbegun : ∀ first ∈ begun, first.IsLong) {bytes : List UInt8}
    (hfeed : 0x0A ∉ bytes) : '\n' ∉ decodeFrom begun bytes := by
  induction bytes generalizing begun with
  | nil =>
      cases begun with
      | none => exact List.not_mem_nil
      | some first => exact fun hmem => absurd (List.mem_singleton.mp hmem) (by decide)
  | cons byte rest ih =>
      rw [List.mem_cons, not_or] at hfeed
      rw [decodeFrom_cons, List.mem_append, not_or]
      exact ⟨feed_notMem_step hbegun (Ne.symm hfeed.1),
        ih (fun next hnext => isLong_of_step hbegun hnext) hfeed.2⟩

theorem feed_notMem_decode {bytes : List UInt8} (hfeed : 0x0A ∉ bytes) : '\n' ∉ decode bytes :=
  feed_notMem_decodeFrom (by simp) hfeed

end IncludeDeps.Text
