import IncludeDeps.Directive
import IncludeDeps.Proofs.Text.Lines
import Mathlib.Data.List.TakeWhile
import Mathlib.Order.Basic

/-!
# The grammar of include directives

`Spells line form target` says how a line is written that holds a directive:
blanks, a hash, blanks, the word, blanks, and the target between its delimiters.
What stands after the closing delimiter does not matter.

The reader passes over blanks and words from left to right.  Each of its steps
says exactly how the text begins (`afterWord?_trimStart_eq_some_iff`,
`targetOf?_eq_some_iff`), and none of the parts can start with a blank, so the
reader finds the one way in which a line can be written (`ofLine?_eq_some_iff`).
What a text yields follows line by line.
-/

namespace IncludeDeps

open Text

/-- Nothing but blanks. -/
def Text.IsBlanks (blanks : List Char) : Prop :=
  ∀ c ∈ blanks, isBlank c = true

theorem Form.ofOpening?_eq_some_iff {delimiter : Char} {form : Form} :
    ofOpening? delimiter = some form ↔ delimiter = form.opening := by
  constructor
  · intro h
    unfold ofOpening? at h
    split at h <;> cases h <;> rfl
  · rintro rfl
    exact ofOpening?_opening form

theorem Form.isBlank_opening (form : Form) : isBlank form.opening = false := by
  cases form <;> decide

namespace Directive

variable {text line rest body : List Char} {form : Form} {target : List Char}

/-- The ways to write a directive on a line. -/
def Spells (line : List Char) (form : Form) (target : List Char) : Prop :=
  ∃ before between after rest, IsBlanks before ∧ IsBlanks between ∧ IsBlanks after ∧
    target ≠ [] ∧ form.closing ∉ target ∧
    line = before ++ '#' :: (between ++ ['i', 'n', 'c', 'l', 'u', 'd', 'e'] ++
      (after ++ form.opening :: (target ++ form.closing :: rest)))

/-! ## Steps of the reader -/

theorem trimStart_eq_cons_iff {first : Char} :
    trimStart text = first :: rest ↔
      isBlank first = false ∧ ∃ blanks, IsBlanks blanks ∧ text = blanks ++ first :: rest := by
  constructor
  · intro h
    have hhead := List.head?_dropWhile_not isBlank text
    rw [← trimStart, h, List.head?_cons] at hhead
    refine ⟨by simpa using hhead, text.takeWhile isBlank, fun c => List.mem_takeWhile_imp, ?_⟩
    rw [← h, trimStart, List.takeWhile_append_dropWhile]
  · rintro ⟨hfirst, blanks, hblanks, rfl⟩
    rw [trimStart, List.dropWhile_append_of_pos hblanks,
      List.dropWhile_cons_of_neg (by simp [hfirst])]

theorem afterWord?_eq_some_iff {word : List Char} :
    afterWord? word text = some rest ↔ text = word ++ rest := by
  unfold afterWord?
  split
  · next hbegins =>
    obtain ⟨more, rfl⟩ := List.isPrefixOf_iff_prefix.mp hbegins
    simp
  · next hdiffers =>
    constructor
    · intro h
      cases h
    · rintro rfl
      exact absurd (List.isPrefixOf_iff_prefix.mpr (List.prefix_append word rest)) hdiffers

/-- A word is found after blanks, if it does not begin with a blank itself. -/
theorem afterWord?_trimStart_eq_some_iff {first : Char} {word : List Char}
    (hfirst : isBlank first = false) :
    afterWord? (first :: word) (trimStart text) = some rest ↔
      ∃ blanks, IsBlanks blanks ∧ text = blanks ++ first :: (word ++ rest) := by
  rw [afterWord?_eq_some_iff, List.cons_append, trimStart_eq_cons_iff]
  simp [hfirst]

theorem targetOf?_eq_some_iff :
    targetOf? form body = some target ↔
      target ≠ [] ∧ form.closing ∉ target ∧ ∃ rest, body = target ++ form.closing :: rest := by
  unfold targetOf?
  constructor
  · intro h
    dsimp only at h
    split at h
    · next hfound =>
      obtain rfl := Option.some.inj h
      have hsplit := List.takeWhile_append_dropWhile (p := (· ≠ form.closing)) (l := body)
      refine ⟨hfound.2, fun hclosing => by simpa using List.mem_takeWhile_imp hclosing, ?_⟩
      cases hrest : body.dropWhile (· ≠ form.closing) with
      | nil =>
          -- without the delimiter the target would be the whole body
          rw [hrest, List.append_nil] at hsplit
          exact absurd hfound.1 (by rw [hsplit]; exact lt_irrefl _)
      | cons first rest =>
          have hfirst := List.head?_dropWhile_not (· ≠ form.closing) body
          rw [hrest, List.head?_cons] at hfirst
          obtain rfl : first = form.closing := by simpa using hfirst
          exact ⟨rest, by rw [← hrest, hsplit]⟩
    · cases h
  · rintro ⟨hne, hclosing, rest, rfl⟩
    have htarget : (target ++ form.closing :: rest).takeWhile (· ≠ form.closing) = target := by
      rw [List.takeWhile_append_of_pos fun c hc => by simpa using ne_of_mem_of_not_mem hc hclosing,
        List.takeWhile_cons_of_neg (by simp), List.append_nil]
    rw [htarget, if_pos ⟨by simp, hne⟩]

theorem ofLine?_eq_some_iff_exists :
    ofLine? line = some (form, target) ↔ ∃ hashed operand body,
      afterWord? ['#'] (trimStart line) = some hashed ∧
        afterWord? ['i', 'n', 'c', 'l', 'u', 'd', 'e'] (trimStart hashed) = some operand ∧
        trimStart operand = form.opening :: body ∧ targetOf? form body = some target := by
  unfold ofLine?
  constructor
  · intro h
    obtain ⟨hashed, hhashed, hafter⟩ := Option.bind_eq_some_iff.mp h
    obtain ⟨operand, hoperand, hread⟩ := Option.bind_eq_some_iff.mp hafter
    split at hread
    · cases hread
    · next opening body htrimmed =>
      obtain ⟨announced, hform, hrest⟩ := Option.bind_eq_some_iff.mp hread
      obtain ⟨found, htarget, hpair⟩ := Option.bind_eq_some_iff.mp hrest
      cases hpair
      obtain rfl := Form.ofOpening?_eq_some_iff.mp hform
      exact ⟨hashed, operand, body, hhashed, hoperand, htrimmed, htarget⟩
  · rintro ⟨hashed, operand, body, hhashed, hoperand, htrimmed, htarget⟩
    simp [hhashed, hoperand, htrimmed, htarget]

/-! ## One line -/

/-- The reader finds what a line is written to hold, and nothing else. -/
theorem ofLine?_eq_some_iff : ofLine? line = some (form, target) ↔ Spells line form target := by
  have hhash : isBlank '#' = false := by decide
  have hword : isBlank 'i' = false := by decide
  rw [ofLine?_eq_some_iff_exists]
  constructor
  · rintro ⟨hashed, operand, body, hhashed, hoperand, htrimmed, htarget⟩
    obtain ⟨before, hbefore, rfl⟩ := (afterWord?_trimStart_eq_some_iff hhash).mp hhashed
    obtain ⟨between, hbetween, rfl⟩ := (afterWord?_trimStart_eq_some_iff hword).mp hoperand
    obtain ⟨-, after, hafter, rfl⟩ := trimStart_eq_cons_iff.mp htrimmed
    obtain ⟨hne, hclosing, rest, rfl⟩ := targetOf?_eq_some_iff.mp htarget
    exact ⟨before, between, after, rest, hbefore, hbetween, hafter, hne, hclosing, by simp⟩
  · rintro ⟨before, between, after, rest, hbefore, hbetween, hafter, hne, hclosing, rfl⟩
    refine ⟨_, _, _, (afterWord?_trimStart_eq_some_iff hhash).mpr ⟨before, hbefore, rfl⟩,
      (afterWord?_trimStart_eq_some_iff hword).mpr ⟨between, hbetween, by simp⟩,
      trimStart_eq_cons_iff.mpr ⟨form.isBlank_opening, after, hafter, rfl⟩,
      targetOf?_eq_some_iff.mpr ⟨hne, hclosing, rest, rfl⟩⟩

/-- What a line spells does not depend on a carriage return at its end. -/
theorem spells_dropReturn_iff :
    Spells (dropReturn line) form target ↔ Spells line form target := by
  by_cases hreturn : line.getLast? = some '\r'
  · obtain ⟨line, rfl⟩ := List.getLast?_eq_some_iff.mp hreturn
    rw [dropReturn_concat]
    constructor
    · rintro ⟨before, between, after, rest, hbefore, hbetween, hafter, hne, hclosing, rfl⟩
      exact ⟨before, between, after, rest ++ ['\r'], hbefore, hbetween, hafter, hne, hclosing,
        by simp⟩
    · rintro ⟨before, between, after, rest, hbefore, hbetween, hafter, hne, hclosing, hline⟩
      rcases List.eq_nil_or_concat rest with rfl | ⟨rest, last, rfl⟩
      · -- the closing delimiter is no carriage return
        have hlast := congrArg List.getLast? hline
        cases form <;> simp [List.getLast?_append, List.getLast?_cons, Form.closing] at hlast
      · refine ⟨before, between, after, rest, hbefore, hbetween, hafter, hne, hclosing, ?_⟩
        simp only [List.concat_eq_append, ← List.cons_append, ← List.append_assoc] at hline
        rw [(List.append_inj' hline rfl).1]
        simp
  · rw [dropReturn_of_ne hreturn]

theorem ofLine?_dropReturn (line : List Char) : ofLine? (dropReturn line) = ofLine? line := by
  refine Option.ext fun ⟨form, target⟩ => ?_
  rw [ofLine?_eq_some_iff, ofLine?_eq_some_iff, spells_dropReturn_iff]

/-! ## All lines -/

theorem ofLines_append (number : ℕ) (above below : List (List Char)) :
    ofLines number (above ++ below) =
      ofLines number above ++ ofLines (number + above.length) below := by
  induction above generalizing number with
  | nil => rfl
  | cons first rest ih =>
      rw [List.cons_append, ofLines, ofLines, ih, List.length_cons, Nat.add_assoc,
        Nat.add_comm 1 rest.length]
      split <;> rfl

theorem ofLines_eq_nil {number : ℕ} {lines : List (List Char)}
    (hnone : ∀ line ∈ lines, ofLine? line = none) : ofLines number lines = [] := by
  induction lines generalizing number with
  | nil => rfl
  | cons first rest ih =>
      obtain ⟨hfirst, hrest⟩ := List.forall_mem_cons.mp hnone
      rw [ofLines, hfirst]
      exact ih hrest

theorem mem_ofLines_cons_iff {number : ℕ} {lines : List (List Char)} {directive : Directive} :
    directive ∈ ofLines number (line :: lines) ↔
      directive.line = number ∧ ofLine? line = some (directive.form, directive.target.toList) ∨
        directive ∈ ofLines (number + 1) lines := by
  rw [ofLines]
  cases hread : ofLine? line with
  | none => simp
  | some found =>
      obtain ⟨form, target⟩ := found
      rw [List.mem_cons]
      refine or_congr_left ?_
      constructor
      · rintro rfl
        simp
      · rintro ⟨rfl, hfound⟩
        cases hfound
        simp

theorem mem_ofLines_iff {number : ℕ} {lines : List (List Char)} {directive : Directive} :
    directive ∈ ofLines number lines ↔ ∃ index line, lines[index]? = some line ∧
      directive.line = number + index ∧
      ofLine? line = some (directive.form, directive.target.toList) := by
  induction lines generalizing number with
  | nil => simp [ofLines]
  | cons first rest ih =>
      rw [mem_ofLines_cons_iff, ih]
      constructor
      · rintro (⟨hnumber, hread⟩ | ⟨index, line, hindex, hnumber, hread⟩)
        · exact ⟨0, first, rfl, hnumber, hread⟩
        · exact ⟨index + 1, line, hindex, by omega, hread⟩
      · rintro ⟨_ | index, line, hindex, hnumber, hread⟩
        · obtain rfl := Option.some.inj hindex
          exact Or.inl ⟨hnumber, hread⟩
        · exact Or.inr ⟨index, line, hindex, by omega, hread⟩

/-- **A text yields the directives that its lines spell.**  They come in the order of their
lines, and none of the lines yields two. -/
theorem mem_extract_iff (text : List Char) :
    (∀ directive, directive ∈ extract text ↔
      ∃ line, IsLine text directive.line line ∧
        Spells line directive.form directive.target.toList) ∧
    (extract text).Pairwise (·.line < ·.line) := by
  refine ⟨fun directive => ?_, pairwise_line_ofLines 1 (lines text)⟩
  rw [extract, mem_ofLines_iff]
  constructor
  · rintro ⟨index, line, hindex, hnumber, hread⟩
    rw [Nat.add_comm] at hnumber
    exact ⟨line, hnumber ▸ isLine_of_getElem? hindex, ofLine?_eq_some_iff.mp hread⟩
  · rintro ⟨line, hline, hspells⟩
    obtain ⟨index, hnumber, hindex⟩ := isLine_iff.mp hline
    exact ⟨index, line, hindex, by omega, ofLine?_eq_some_iff.mpr hspells⟩

example :
    extract " # include\t<a b>x\r\n#include_next <b>\n#include \"\"\n\u3000#include\"c>\"".toList =
      [⟨"a b", .angle, 1⟩, ⟨"c>", .quoted, 4⟩] := by
  decide +kernel

end Directive

end IncludeDeps
