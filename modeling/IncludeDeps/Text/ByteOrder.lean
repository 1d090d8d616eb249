/-!
# Byte order

Names are compared by their UTF-8 bytes, from the first byte on; a proper
beginning of a name comes before it.
-/

namespace IncludeDeps.Text

/-- The UTF-8 bytes of a text. -/
def bytes (text : String) : List UInt8 :=
  text.toUTF8.data.toList

/-- Whether the first text comes before the second in byte order. -/
def byteLt (first second : String) : Bool :=
  decide (bytes first < bytes second)

/-- Whether the first text is the second or comes before it in byte order. -/
def byteLe (first second : String) : Bool :=
  decide (bytes first ≤ bytes second)

@[simp] theorem bytes_inj {first second : String} :
    bytes first = bytes second ↔ first = second := by
  simp [bytes, ← ByteArray.ext_iff, String.toByteArray_inj]

end IncludeDeps.Text
