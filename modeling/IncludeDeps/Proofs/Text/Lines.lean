import IncludeDeps.Text.Line
import Mathlib.Data.List.Basic

/-!
# The lines of a text by rules

`Text.lines` cuts a text at its line feeds and mends the pieces.  `IsLine` says
by rules what stands on the line with a number: either it is the first line, and
how that ends tells what belongs to it, or it is a line of what follows the first
line feed.

Both take a text apart at its first line feed (`lines_feed`), so the rules say
what `lines` lists, line by line (`isLine_iff`).
-/

namespace IncludeDeps.Text

variable {text above line rest : List Char} {number : ℕ}

/-- What stands on the line with a number.  The first line has number 1. -/
inductive IsLine : List Char → ℕ → List Char → Prop
  /-- A line ends at a line feed. -/
  | fed {line rest : List Char} (hfeed : '\n' ∉ line) (hreturn : line.getLast? ≠ some '\r') :
      IsLine (line ++ '\n' :: rest) 1 line
  /-- One carriage return before the line feed belongs to the end of the line. -/
  | returned {line rest : List Char} (hfeed : '\n' ∉ line) :
      IsLine (line ++ '\r' :: '\n' :: rest) 1 line
  /-- The last line needs no line feed, if there is something on it. -/
  | unended {line : List Char} (hfeed : '\n' ∉ line) (hne : line ≠ []) : IsLine line 1 line
  /-- Further lines are those of what follows the first line feed. -/
  | further {above rest line : List Char} {number : ℕ} (habove : '\n' ∉ above)
      (hline : IsLine rest number line) : IsLine (above ++ '\n' :: rest) (number + 1) line

/-! ## Taking a text apart -/

theorem dropReturn_of_ne (hreturn : line.getLast? ≠ some '\r') : dropReturn line = line := by
  rw [dropReturn, if_neg hreturn]

@[simp] theorem dropReturn_concat (line : List Char) : dropReturn (line ++ ['\r']) = line := by
  simp [dropReturn]

theorem lines_feed (habove : '\n' ∉ above) :
    lines (above ++ '\n' :: rest) = dropReturn above :: lines rest := by
  have hne : rest.splitOn '\n' ≠ [] := List.splitOn_ne_nil '\n' rest
  simp only [lines, List.splitOn_append_cons_self_of_not_mem habove,
    List.dropLast_cons_of_ne_nil hne, List.getLast?_cons_of_ne_nil hne, List.map_cons,
    List.cons_append]

theorem lines_unended (hfeed : '\n' ∉ line) (hne : line ≠ []) : lines line = [line] := by
  simp [lines, List.splitOn_eq_singleton hfeed, hne]

/-- Lines that are each ended by a line feed are the lines of their text. -/
theorem lines_flatMap {ended : List (List Char)} (hfeed : ∀ line ∈ ended, '\n' ∉ line) :
    lines (ended.flatMap (· ++ ['\n'])) = ended.map dropReturn := by
  induction ended with
  | nil => rfl
  | cons first rest ih =>
      obtain ⟨hfirst, hrest⟩ := List.forall_mem_cons.mp hfeed
      rw [List.flatMap_cons, List.append_assoc, List.singleton_append, lines_feed hfirst, ih hrest,
        List.map_cons]

/-! ## The rules and the list -/

theorem IsLine.getElem? (hline : IsLine text number line) :
    ∃ index, number = index + 1 ∧ (lines text)[index]? = some line := by
  induction hline with
  | fed hfeed hreturn =>
      refine ⟨0, rfl, ?_⟩
      rw [lines_feed hfeed, dropReturn_of_ne hreturn, List.getElem?_cons_zero]
  | @returned line rest hfeed =>
      have habove : '\n' ∉ line ++ ['\r'] := by simp [hfeed]
      refine ⟨0, rfl, ?_⟩
      rw [List.append_cons, lines_feed habove, dropReturn_concat, List.getElem?_cons_zero]
  | unended hfeed hne =>
      refine ⟨0, rfl, ?_⟩
      rw [lines_unended hfeed hne, List.getElem?_cons_zero]
  | further habove _ ih =>
      obtain ⟨index, rfl, hindex⟩ := ih
      refine ⟨index + 1, rfl, ?_⟩
      rw [lines_feed habove, List.getElem?_cons_succ, hindex]

theorem isLine_of_getElem? {index : ℕ} (hindex : (lines text)[index]? = some line) :
    IsLine text (index + 1) line := by
  induction index generalizing text with
  | zero =>
      by_cases hfeed : '\n' ∈ text
      · obtain ⟨above, rest, rfl, habove⟩ := List.eq_append_cons_of_mem hfeed
        rw [lines_feed habove, List.getElem?_cons_zero, Option.some.injEq] at hindex
        subst hindex
        by_cases hreturn : above.getLast? = some '\r'
        · obtain ⟨line, rfl⟩ := List.getLast?_eq_some_iff.mp hreturn
          rw [dropReturn_concat, List.append_assoc]
          exact .returned fun hmem => habove (List.mem_append_left _ hmem)
        · rw [dropReturn_of_ne hreturn]
          exact .fed habove hreturn
      · by_cases hne : text = []
        · simp [hne] at hindex
        · rw [lines_unended hfeed hne, List.getElem?_cons_zero, Option.some.injEq] at hindex
          exact hindex ▸ .unended hfeed hne
  | succ index ih =>
      by_cases hfeed : '\n' ∈ text
      · obtain ⟨above, rest, rfl, habove⟩ := List.eq_append_cons_of_mem hfeed
        rw [lines_feed habove, List.getElem?_cons_succ] at hindex
        exact .further habove (ih hindex)
      · -- without a line feed there is one line at most
        by_cases hne : text = []
        · simp [hne] at hindex
        · simp [lines_unended hfeed hne] at hindex

theorem isLine_iff :
    IsLine text number line ↔ ∃ index, number = index + 1 ∧ (lines text)[index]? = some line := by
  constructor
  · exact IsLine.getElem?
  · rintro ⟨index, rfl, hindex⟩
    exact isLine_of_getElem? hindex

end IncludeDeps.Text
