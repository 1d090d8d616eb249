import IncludeDeps.Text.Blank
import IncludeDeps.Text.Line

/-!
# Include directives

A directive is a line `#include "target"` or `#include <target>`.  The reading
is purely lexical: conditionals, macros, continued lines and comments are not
interpreted, so a directive inside a comment counts as well.

`Directive.ofLine?` reads one line, `Directive.extract` a whole text.
-/

namespace IncludeDeps

/-- The delimiters around a directive's target. -/
inductive Form where
  /-- Double quotes: the file is sought in the source directory. -/
  | quoted
  /-- Angle brackets: the file may belong to the system. -/
  | angle
  deriving DecidableEq, Repr

namespace Form

/-- The form that an opening delimiter announces. -/
def ofOpening? : Char → Option Form
  | '"' => some .quoted
  | '<' => some .angle
  | _ => none

/-- The delimiter that opens a target. -/
def opening : Form → Char
  | quoted => '"'
  | angle => '<'

/-- The delimiter that closes a target. -/
def closing : Form → Char
  | quoted => '"'
  | angle => '>'

@[simp] theorem ofOpening?_opening (form : Form) : ofOpening? form.opening = some form := by
  cases form <;> rfl

end Form

/-- One include directive of a text. -/
structure Directive where
  /-- The text between the delimiters, exactly as written. -/
  target : String
  /-- The delimiters used. -/
  form : Form
  /-- The number of the directive's line; the first line has number 1. -/
  line : Nat
  deriving DecidableEq, Repr

namespace Directive

/-- What follows a word at the beginning of a text. -/
def afterWord? (word text : List Char) : Option (List Char) :=
  if word.isPrefixOf text then some (text.drop word.length) else none

/-- The target of the form at the beginning of a text: everything up to the
first closing delimiter, which must be there, and not empty. -/
def targetOf? (form : Form) (body : List Char) : Option (List Char) :=
  let target := body.takeWhile (· ≠ form.closing)
  if target.length < body.length ∧ target ≠ [] then some target else none

/-- The form and the target of the directive that a line holds. -/
def ofLine? (line : List Char) : Option (Form × List Char) := do
  let hashed ← afterWord? ['#'] (Text.trimStart line)
  let operand ← afterWord? ['i', 'n', 'c', 'l', 'u', 'd', 'e'] (Text.trimStart hashed)
  match Text.trimStart operand with
  | [] => none
  | opening :: body => do
    let form ← Form.ofOpening? opening
    let target ← targetOf? form body
    return (form, target)

/-- The directives of the lines, the first of which has the number given. -/
def ofLines (number : Nat) : List (List Char) → List Directive
  | [] => []
  | line :: rest =>
    match ofLine? line with
    | none => ofLines (number + 1) rest
    | some (form, target) => ⟨String.ofList target, form, number⟩ :: ofLines (number + 1) rest

/-- The include directives of a text, in the order of their lines. -/
def extract (text : List Char) : List Directive :=
  ofLines 1 (Text.lines text)

theorem le_line_of_mem_ofLines {number : Nat} {lines : List (List Char)} {directive : Directive}
    (held : directive ∈ ofLines number lines) : number ≤ directive.line := by
  induction lines generalizing number with
  | nil => cases held
  | cons line rest ih =>
    rw [ofLines] at held
    split at held
    · exact Nat.le_of_succ_le (ih held)
    · rcases List.mem_cons.mp held with rfl | later
      · exact Nat.le_refl _
      · exact Nat.le_of_succ_le (ih later)

/-- No line holds two directives. -/
theorem pairwise_line_ofLines (number : Nat) (lines : List (List Char)) :
    (ofLines number lines).Pairwise (·.line < ·.line) := by
  induction lines generalizing number with
  | nil => exact .nil
  | cons line rest ih =>
    rw [ofLines]
    split
    · exact ih (number + 1)
    · exact .cons (fun _ later => le_line_of_mem_ofLines later) (ih (number + 1))

end Directive

end IncludeDeps
