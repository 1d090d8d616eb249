import IncludeDeps.Text.Quoted
import Mathlib.Data.List.Basic
import Mathlib.Data.List.TakeWhile
import Mathlib.Data.Nat.Digits.Defs

/-!
# Quoted texts show where they end

Whatever is quoted, a quoted text can be read back, and what stands behind it does
not matter: `quoted_selfDelimiting` says that texts which begin with a quoted text
and agree have quoted the same and go on the same.

A character is written in one of three forms (`Written`): as it is, as a letter
after a backslash, or as its number in hexadecimal digits between braces.  The
first character tells the plain form from the others, the second one the letters
from the number, and the number ends at its brace.  So no written form is the
beginning of another one (`escaped_selfDelimiting`).  None begins with a quote, so
the first quote that is not part of a written form ends the text
(`SelfDelimiting.flatMap_inj`).
-/

namespace IncludeDeps.Text

/-- What is written shows where it ends: texts that begin with something written and
agree begin with the same and go on the same. -/
def SelfDelimiting {α : Type} (write : α → List Char) : Prop :=
  ∀ ⦃first second : α⦄ ⦃rest more : List Char⦄,
    write first ++ rest = write second ++ more → first = second ∧ rest = more

/-- Items in a row show where each of them ends, and a mark that no item begins with
shows where the row ends. -/
theorem SelfDelimiting.flatMap_inj {α : Type} {write : α → List Char} {mark : Char}
    (hwrite : SelfDelimiting write)
    (hmark : ∀ item rest more, write item ++ rest ≠ mark :: more) {items others : List α}
    {rest more : List Char}
    (hsame : items.flatMap write ++ mark :: rest = others.flatMap write ++ mark :: more) :
    items = others ∧ rest = more := by
  induction items generalizing others with
  | nil =>
      cases others with
      | nil => exact ⟨rfl, List.cons_inj_right mark |>.mp hsame⟩
      | cons other others =>
          rw [List.flatMap_cons, List.append_assoc] at hsame
          exact absurd hsame.symm (hmark other _ rest)
  | cons item items ih =>
      rw [List.flatMap_cons, List.append_assoc] at hsame
      cases others with
      | nil => exact absurd hsame (hmark item _ more)
      | cons other others =>
          rw [List.flatMap_cons, List.append_assoc] at hsame
          obtain ⟨rfl, hitems⟩ := hwrite hsame
          obtain ⟨rfl, hrest⟩ := ih hitems
          exact ⟨rfl, hrest⟩

/-! ## Numbers -/

/-- The value of a hexadecimal digit. -/
def digitValue (digit : Char) : ℕ :=
  ((List.range 16).find? fun n => Nat.digitChar n == digit).getD 0

/-- The number that hexadecimal digits spell. -/
def numberOf (digits : List Char) : ℕ :=
  digits.foldl (fun above digit => 16 * above + digitValue digit) 0

theorem digitValue_digitChar {n : ℕ} (hn : n < 16) : digitValue (Nat.digitChar n) = n := by
  revert n
  decide

theorem numberOf_toDigits (n : ℕ) : numberOf (Nat.toDigits 16 n) = n := by
  induction n using Nat.strongRecOn with
  | ind n ih =>
    rw [Nat.toDigits_eq_if (by decide)]
    split
    · next hn => simp [numberOf, digitValue_digitChar hn]
    · next hn =>
      have habove := ih (n / 16) (by omega)
      have hunit := digitValue_digitChar (Nat.mod_lt n (by decide : 16 > 0))
      rw [numberOf, List.foldl_append, ← numberOf, habove, List.foldl_cons, List.foldl_nil, hunit]
      omega

/-- A number ends before the first character that is no digit. -/
theorem ne_brace_of_mem_toDigits {c : Char} {n : ℕ} (hc : c ∈ Nat.toDigits 16 n) : c ≠ '\x7d' := by
  induction n using Nat.strongRecOn with
  | ind n ih =>
    rw [Nat.toDigits_eq_if (by decide)] at hc
    split at hc
    · rw [List.mem_singleton.mp hc]
      exact Nat.digitChar_ne _ rfl
    · next hn =>
      rcases List.mem_append.mp hc with habove | hlast
      · exact ih (n / 16) (by omega) habove
      · rw [List.mem_singleton.mp hlast]
        exact Nat.digitChar_ne _ rfl

/-! ## Characters -/

/-- The character that a letter stands for behind a backslash. -/
def meaning? : Char → Option Char
  | '0' => some '\x00'
  | 't' => some '\t'
  | 'r' => some '\r'
  | 'n' => some '\n'
  | '\\' => some '\\'
  | '"' => some '"'
  | _ => none

/-- The forms in which a quoted text shows a character. -/
inductive Written : Char → List Char → Prop
  /-- As it is. -/
  | plain {c : Char} (hslash : c ≠ '\\') (hquote : c ≠ '"') : Written c [c]
  /-- By a letter. -/
  | letter {c letter : Char} (hmeaning : meaning? letter = some c) : Written c ['\\', letter]
  /-- By its number. -/
  | number {c : Char} :
      Written c ('\\' :: 'u' :: '\x7b' :: (Nat.toDigits 16 c.toNat ++ ['\x7d']))

theorem written_escaped (c : Char) : Written c (escaped c) := by
  unfold escaped
  split_ifs with hnull htab hreturn hfeed hslash hquote hhidden
  iterate 6
    · subst c
      exact .letter rfl
  · exact .number
  · exact .plain hslash hquote

theorem number_inj {c d : Char} {rest more : List Char}
    (hsame : Nat.toDigits 16 c.toNat ++ '\x7d' :: rest =
      Nat.toDigits 16 d.toNat ++ '\x7d' :: more) :
    c = d ∧ rest = more := by
  have hdigits : ∀ (e : Char) (tail : List Char),
      (Nat.toDigits 16 e.toNat ++ '\x7d' :: tail).takeWhile (· ≠ '\x7d') =
        Nat.toDigits 16 e.toNat := by
    intro e tail
    rw [List.takeWhile_append_of_pos fun digit hdigit => by
      simpa using ne_brace_of_mem_toDigits hdigit]
    simp
  have hnumber := (hdigits c rest).symm.trans ((congrArg _ hsame).trans (hdigits d more))
  rw [hnumber] at hsame
  have hvalue := (numberOf_toDigits _).symm.trans
    ((congrArg numberOf hnumber).trans (numberOf_toDigits _))
  exact ⟨Char.toNat_inj.mp hvalue,
    List.cons_inj_right _ |>.mp (List.append_cancel_left hsame)⟩

theorem Written.unique {c d : Char} {first second rest more : List Char} (hfirst : Written c first)
    (hsecond : Written d second) (hsame : first ++ rest = second ++ more) :
    c = d ∧ rest = more := by
  cases hfirst with
  | plain hslash _ =>
      cases hsecond with
      | plain => simpa using hsame
      | letter => exact absurd (List.head_eq_of_cons_eq hsame) hslash
      | number => exact absurd (List.head_eq_of_cons_eq hsame) hslash
  | letter hmeaning =>
      cases hsecond with
      | plain hslash' _ => exact absurd (List.head_eq_of_cons_eq hsame).symm hslash'
      | letter hmeaning' =>
          simp only [List.cons_append, List.nil_append, List.cons.injEq, true_and] at hsame
          obtain ⟨rfl, hrest⟩ := hsame
          exact ⟨Option.some.inj (hmeaning.symm.trans hmeaning'), hrest⟩
      | number =>
          simp only [List.cons_append, List.nil_append, List.cons.injEq, true_and] at hsame
          obtain ⟨rfl, -⟩ := hsame
          cases hmeaning
  | number =>
      cases hsecond with
      | plain hslash' _ => exact absurd (List.head_eq_of_cons_eq hsame).symm hslash'
      | letter hmeaning' =>
          simp only [List.cons_append, List.nil_append, List.cons.injEq, true_and] at hsame
          obtain ⟨rfl, -⟩ := hsame
          cases hmeaning'
      | number =>
          simp only [List.cons_append, List.cons.injEq, true_and, List.append_assoc,
            List.nil_append] at hsame
          exact number_inj hsame

theorem escaped_selfDelimiting : SelfDelimiting escaped :=
  fun c d _ _ => (written_escaped c).unique (written_escaped d)

theorem Written.head?_ne_quote {c : Char} {written : List Char} (hwritten : Written c written)
    (rest : List Char) : (written ++ rest).head? ≠ some '"' := by
  cases hwritten with
  | plain _ hquote => simpa using hquote
  | letter => simp
  | number => simp

theorem escaped_append_ne_quote (c : Char) (rest more : List Char) :
    escaped c ++ rest ≠ '"' :: more :=
  fun hsame => (written_escaped c).head?_ne_quote rest (congrArg List.head? hsame)

/-! ## Texts -/

theorem quoted_selfDelimiting : SelfDelimiting fun text => (quoted text).toList := by
  intro first second rest more hsame
  simp only [quoted, String.toList_ofList, List.cons_append, List.append_assoc, List.nil_append,
    List.cons.injEq, true_and] at hsame
  obtain ⟨htexts, hrest⟩ := escaped_selfDelimiting.flatMap_inj escaped_append_ne_quote hsame
  exact ⟨String.toList_inj.mp htexts, hrest⟩

end IncludeDeps.Text
