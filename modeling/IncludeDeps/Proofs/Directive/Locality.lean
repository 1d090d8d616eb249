import IncludeDeps.Proofs.Directive.Grammar
import IncludeDeps.Proofs.Text.Breaks
import IncludeDeps.SourceDirectory

/-!
# Lines stand on their own

What a line of a file holds does not depend on the bytes of other lines.  Bytes that are
no valid text spoil at most the line that they stand on, since a line feed is decoded on
its own (`decode_append_ascii`); and neither they nor the form of the line ends moves a
line to another number.

Bytes are taken apart at their line feeds (`lineInduction`).  For the bytes of one line
the reader is asked about that line alone (`directivesOf_unfed`), and it does not care for
a carriage return at the end of the line, which is not part of the line where a line feed
follows but is part of the last line (`ofLine?_dropReturn`).
-/

namespace IncludeDeps

open Text

/-- The directive with more lines above it. -/
def Directive.lower (lines : ℕ) (directive : Directive) : Directive :=
  { directive with line := directive.line + lines }

theorem Directive.map_lower_map_lower (first second : ℕ) (directives : List Directive) :
    (directives.map (lower first)).map (lower second) =
      directives.map (lower (first + second)) := by
  simp [lower, Nat.add_assoc]

theorem Directive.ofLines_add (number more : ℕ) (lines : List (List Char)) :
    ofLines (number + more) lines = (ofLines number lines).map (lower more) := by
  induction lines generalizing number with
  | nil => rfl
  | cons line rest ih =>
      rw [ofLines, ofLines, Nat.add_right_comm, ih]
      split <;> rfl

theorem Directive.ofLines_dropReturn (number : ℕ) (line : List Char) :
    ofLines number [dropReturn line] = ofLines number [line] := by
  simp only [ofLines, ofLine?_dropReturn]

/-- Bytes hold no line feed, or a line above the first line feed and bytes below it. -/
@[elab_as_elim]
theorem lineInduction {motive : List UInt8 → Prop}
    (unfed : ∀ bytes, 0x0A ∉ bytes → motive bytes)
    (fed : ∀ above below, 0x0A ∉ above → motive below → motive (above ++ 0x0A :: below))
    (bytes : List UInt8) : motive bytes := by
  induction hlength : bytes.length using Nat.strong_induction_on generalizing bytes with
  | _ length ih =>
      by_cases hfeed : 0x0A ∈ bytes
      · obtain ⟨above, below, rfl, habove⟩ := List.eq_append_cons_of_mem hfeed
        refine fed above below habove (ih below.length ?_ below rfl)
        rw [← hlength, List.length_append, List.length_cons]
        omega
      · exact unfed bytes hfeed

/-! ## One line -/

/-- Bytes without a line feed are one line. -/
theorem directivesOf_unfed {bytes : List UInt8} (hfeed : 0x0A ∉ bytes) :
    directivesOf bytes = Directive.ofLines 1 [decode bytes] := by
  rw [directivesOf, Directive.extract]
  by_cases hempty : decode bytes = []
  · rw [hempty]
    decide
  · rw [lines_unended (feed_notMem_decode hfeed) hempty]

/-- A carriage return at the end makes no difference. -/
theorem directivesOf_concat_return {bytes : List UInt8} (hfeed : 0x0A ∉ bytes) :
    directivesOf (bytes ++ [0x0D]) = directivesOf bytes := by
  have hdecode : decode (bytes ++ [0x0D]) = decode bytes ++ ['\r'] :=
    decode_append_ascii (by decide) bytes []
  rw [directivesOf_unfed hfeed, directivesOf_unfed (by simpa using hfeed), hdecode,
    ← Directive.ofLines_dropReturn, dropReturn_concat]

/-- What stands on the first line is read as if the file ended there. -/
theorem directivesOf_first {above : List UInt8} (hfeed : 0x0A ∉ above) (below : List UInt8) :
    directivesOf (above ++ 0x0A :: below) =
      directivesOf above ++ (directivesOf below).map (Directive.lower 1) := by
  have hdecode : decode (above ++ 0x0A :: below) = decode above ++ '\n' :: decode below :=
    decode_append_ascii (by decide) above below
  have hfirst : Directive.ofLines 1 [dropReturn (decode above)] = directivesOf above := by
    rw [Directive.ofLines_dropReturn, directivesOf_unfed hfeed]
  rw [directivesOf, Directive.extract, hdecode, lines_feed (feed_notMem_decode hfeed),
    ← List.singleton_append, Directive.ofLines_append, hfirst, List.length_singleton,
    Directive.ofLines_add]
  rfl

/-! ## All lines -/

theorem directivesOf_append_feed (above below : List UInt8) :
    directivesOf (above ++ 0x0A :: below) = directivesOf above ++
      (directivesOf below).map (Directive.lower (1 + above.count 0x0A)) := by
  induction above using lineInduction with
  | unfed above hfeed => rw [directivesOf_first hfeed, List.count_eq_zero_of_not_mem hfeed]
  | fed first rest hfirst ih =>
      have hcount : 1 + (first ++ 0x0A :: rest).count 0x0A = 1 + rest.count 0x0A + 1 := by
        rw [List.count_append, List.count_cons_self, List.count_eq_zero_of_not_mem hfirst]
        omega
      rw [List.append_assoc, List.cons_append, directivesOf_first hfirst, ih,
        directivesOf_first hfirst, List.map_append, Directive.map_lower_map_lower, hcount,
        List.append_assoc]

/-- The bytes with a carriage return before each line feed. -/
def withReturns (bytes : List UInt8) : List UInt8 :=
  bytes.flatMap fun byte => if byte = 0x0A then [0x0D, 0x0A] else [byte]

theorem withReturns_unfed {bytes : List UInt8} (hfeed : 0x0A ∉ bytes) :
    withReturns bytes = bytes := by
  induction bytes with
  | nil => rfl
  | cons byte rest ih =>
      rw [List.mem_cons, not_or] at hfeed
      rw [withReturns, List.flatMap_cons, if_neg (Ne.symm hfeed.1), ← withReturns, ih hfeed.2]
      rfl

theorem withReturns_feed {above : List UInt8} (hfeed : 0x0A ∉ above) (below : List UInt8) :
    withReturns (above ++ 0x0A :: below) = above ++ [0x0D] ++ 0x0A :: withReturns below := by
  rw [withReturns, List.flatMap_append, List.flatMap_cons, ← withReturns, ← withReturns,
    withReturns_unfed hfeed, if_pos rfl, List.append_assoc]
  rfl

theorem directivesOf_withReturns (bytes : List UInt8) :
    directivesOf (withReturns bytes) = directivesOf bytes := by
  induction bytes using lineInduction with
  | unfed bytes hfeed => rw [withReturns_unfed hfeed]
  | fed above below hfeed ih =>
      rw [withReturns_feed hfeed, directivesOf_first (by simpa using hfeed),
        directivesOf_concat_return hfeed, ih, directivesOf_first hfeed]

/-- **Lines stand on their own.**  Bytes above a line feed hold the directives that they
would hold alone, whether they are valid text or not, and so do the bytes below it, but
for the lines above these.  The form of the line ends makes no difference. -/
theorem directivesOf_lines (above below : List UInt8) :
    directivesOf (above ++ 0x0A :: below) = directivesOf above ++
      (directivesOf below).map (Directive.lower (1 + above.count 0x0A)) ∧
    ∀ bytes, directivesOf (withReturns bytes) = directivesOf bytes :=
  ⟨directivesOf_append_feed above below, directivesOf_withReturns⟩

example : directivesOf (Text.bytes "#include \"a\" " ++ [0xE2, 0x82, 0x0A] ++
    Text.bytes "#include <b>\r") = [⟨"a", .quoted, 1⟩, ⟨"b", .angle, 2⟩] := by
  decide +kernel

end IncludeDeps
