import IncludeDeps.Text.ByteOrder

/-!
# Reading bytes as text

`decode` reads any bytes as UTF-8.  Where they are no valid UTF-8 it writes a
replacement character for each longest beginning of a character that cannot
be continued, and for each byte that begins no character; then it goes on with
the next byte.  So an invalid byte never swallows a valid one.

`ofBytes?` accepts valid UTF-8 only.
-/

namespace IncludeDeps.Text

/-- A character whose first bytes have been read. -/
structure Begun where
  /-- The bits of the code point read so far. -/
  bits : Nat
  /-- The number of bytes that follow the next one. -/
  missing : Nat
  /-- The least byte that may come next. -/
  low : UInt8
  /-- The greatest byte that may come next. -/
  high : UInt8
  deriving DecidableEq, Repr

/-- What stands for bytes that are no character. -/
def replacement : Char := '\uFFFD'

/-- What a byte that starts anew yields, and the character it begins.  The
ranges for the second byte leave out overlong forms, surrogates and code
points above the greatest. -/
def start (byte : UInt8) : List Char × Option Begun :=
  let n := byte.toNat
  if n < 0x80 then ([Char.ofNat n], none)
  else if n < 0xC2 then ([replacement], none)
  else if n < 0xE0 then ([], some ⟨n % 0x20, 0, 0x80, 0xBF⟩)
  else if n = 0xE0 then ([], some ⟨n % 0x10, 1, 0xA0, 0xBF⟩)
  else if n = 0xED then ([], some ⟨n % 0x10, 1, 0x80, 0x9F⟩)
  else if n < 0xF0 then ([], some ⟨n % 0x10, 1, 0x80, 0xBF⟩)
  else if n = 0xF0 then ([], some ⟨n % 0x08, 2, 0x90, 0xBF⟩)
  else if n < 0xF4 then ([], some ⟨n % 0x08, 2, 0x80, 0xBF⟩)
  else if n = 0xF4 then ([], some ⟨n % 0x08, 2, 0x80, 0x8F⟩)
  else ([replacement], none)

/-- What the next byte yields after the beginning of a character, if any, and
the character begun then. -/
def step (begun : Option Begun) (byte : UInt8) : List Char × Option Begun :=
  match begun with
  | none => start byte
  | some ⟨bits, missing, low, high⟩ =>
    if low ≤ byte ∧ byte ≤ high then
      let bits := bits * 0x40 + byte.toNat % 0x40
      match missing with
      | 0 => ([Char.ofNat bits], none)
      | missing + 1 => ([], some ⟨bits, missing, 0x80, 0xBF⟩)
    else
      let (text, next) := start byte
      (replacement :: text, next)

/-- The text of the bytes that follow the beginning of a character, if any. -/
def decodeFrom : Option Begun → List UInt8 → List Char
  | none, [] => []
  | some _, [] => [replacement]
  | begun, byte :: rest =>
    let (text, next) := step begun byte
    text ++ decodeFrom next rest

/-- The text of any bytes, with replacement characters for what is no UTF-8. -/
def decode (bytes : List UInt8) : List Char :=
  decodeFrom none bytes

/-- The text whose UTF-8 bytes are those given, if they are valid. -/
def ofBytes? (bytes : List UInt8) : Option String :=
  String.fromUTF8? ⟨bytes.toArray⟩

/-- The text of any bytes as a string. -/
def ofBytes (bytes : List UInt8) : String :=
  String.ofList (decode bytes)

theorem ofBytes?_eq_some_iff {given : List UInt8} {text : String} :
    ofBytes? given = some text ↔ bytes text = given := by
  unfold ofBytes? String.fromUTF8? bytes
  constructor
  · intro h
    split at h
    · simp only [Option.some.injEq] at h
      subst h
      simp [String.fromUTF8]
    · simp at h
  · rintro rfl
    simp [String.fromUTF8, text.isValidUTF8]

end IncludeDeps.Text
