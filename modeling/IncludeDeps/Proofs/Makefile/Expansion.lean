import Mathlib.Data.List.DropRight
import Mathlib.Data.List.TakeWhile

/-!
# What make expands a text to

`Make.expand? value text` is the text with every reference `$(NAME)` replaced by the value
of the variable and every call `$(function argument,...)` by what the function makes of
its expanded arguments.  References stand inside the arguments of one another, so the
text is scanned from left to right with a stack of those that are open.  Values are not
scanned: a comma that comes from the value of a variable divides no arguments.

The functions are those on lists of file names, `basename`, `addsuffix` and `addprefix`.
They take their list apart into words and put single spaces between the names that they
make; a name with blanks in it is then several words (`words_unwords`).

What else make knows in references is not expanded at all, so that no text gets a meaning
here that it does not have for make: other functions, names that are computed or have
special characters in them, braces, parentheses that belong to no reference, and
references that are not closed.

A text that closes what it opens and nothing else yields the same wherever it stands
(`Yields`), so what it expands to is put together from what its parts yield
(`yields_call`).  Outside of references a text may hold anything (`Expands`).
-/

namespace IncludeDeps.Make

/-! ## Words -/

/-- Whether a character separates words. -/
def isBlank (c : Char) : Bool :=
  c == ' ' || c == '\t' || c == '\n'

/-- The words of a text. -/
def words (text : List Char) : List (List Char) :=
  (text.splitOnP isBlank).filter fun word => !word.isEmpty

/-- The text of some names, with a space between any two. -/
def unwords (names : List (List Char)) : List Char :=
  List.intercalate [' '] names

theorem words_append_blank {c : Char} (hblank : isBlank c = true) (before after : List Char) :
    words (before ++ c :: after) = words before ++ words after := by
  unfold words
  rw [List.splitOnP_append_cons before after hblank, List.filter_append]

/-- A name that is one word. -/
def IsWord (name : List Char) : Prop :=
  name ≠ [] ∧ ∀ c ∈ name, isBlank c = false

theorem words_of_isWord {name : List Char} (hname : IsWord name) : words name = [name] := by
  rw [words, List.splitOnP_eq_singleton hname.2]
  simp [hname.1]

theorem unwords_cons (name : List Char) (names : List (List Char)) :
    unwords (name :: names) = name ++ names.flatMap fun next => ' ' :: next := by
  induction names generalizing name with
  | nil => simp [unwords]
  | cons next others ih =>
      rw [List.flatMap_cons, List.cons_append, ← ih]
      simp [unwords, List.intercalate_cons_cons]

theorem unwords_singleton (name : List Char) : unwords [name] = name :=
  List.intercalate_singleton

theorem notMem_unwords {c : Char} {names : List (List Char)} (hspace : c ≠ ' ')
    (hnames : ∀ name ∈ names, c ∉ name) : c ∉ unwords names := by
  cases names with
  | nil => exact List.not_mem_nil
  | cons name names =>
      rw [List.forall_mem_cons] at hnames
      rw [unwords_cons, List.mem_append, List.mem_flatMap]
      rintro (hc | ⟨next, hnext, hc⟩)
      · exact hnames.1 hc
      · exact hnames.2 next hnext ((List.mem_cons.mp hc).resolve_left hspace)

/-- The words of some names are those of each in turn. -/
theorem words_unwords (names : List (List Char)) : words (unwords names) = names.flatMap words := by
  cases names with
  | nil => rfl
  | cons name names =>
      rw [unwords_cons, List.flatMap_cons]
      induction names generalizing name with
      | nil => simp
      | cons next others ih =>
          rw [List.flatMap_cons, List.cons_append, words_append_blank (by decide), ih]
          rfl

theorem dropWhile_isBlank_of_isWord {name : List Char} (hname : IsWord name) (rest : List Char) :
    (name ++ rest).dropWhile isBlank = name ++ rest := by
  obtain ⟨first, others, rfl⟩ := List.exists_cons_of_ne_nil hname.1
  have hfirst := hname.2 first List.mem_cons_self
  exact List.dropWhile_cons_of_neg (by simp [hfirst])

theorem dropWhile_isBlank_unwords {names : List (List Char)}
    (hnames : ∀ name ∈ names, IsWord name) : (unwords names).dropWhile isBlank = unwords names := by
  cases names with
  | nil => rfl
  | cons name names =>
      rw [unwords_cons, dropWhile_isBlank_of_isWord (hnames name List.mem_cons_self)]

theorem words_unwords_of_isWord {names : List (List Char)} (hnames : ∀ name ∈ names, IsWord name) :
    words (unwords names) = names := by
  rw [words_unwords]
  calc names.flatMap words
    _ = names.flatMap fun name => [name] :=
        List.flatMap_congr fun name hname => words_of_isWord (hnames name hname)
    _ = names := List.flatMap_singleton' names

/-! ## Functions on file names -/

/-- A name without its last period and what follows it, if that period stands behind all
slashes. -/
def withoutSuffix (name : List Char) : List Char :=
  match name.reverse.dropWhile fun c => c != '.' && c != '/' with
  | '.' :: before => before.reverse
  | _ => name

theorem withoutSuffix_append {before suffix : List Char} (hperiod : '.' ∉ suffix)
    (hslash : '/' ∉ suffix) : withoutSuffix (before ++ '.' :: suffix) = before := by
  have hsuffix : ∀ c ∈ suffix.reverse, (c != '.' && c != '/') = true := by
    intro c hc
    rw [List.mem_reverse] at hc
    simp [ne_of_mem_of_not_mem hc hperiod, ne_of_mem_of_not_mem hc hslash]
  rw [withoutSuffix, List.reverse_append, List.reverse_cons, List.append_assoc,
    List.dropWhile_append_of_pos hsuffix]
  simp

/-- A function on lists of file names. -/
inductive Builtin where
  /-- The names without their suffixes. -/
  | stems
  /-- The names with a text after each. -/
  | suffixed
  /-- The names with a text in front of each. -/
  | prefixed

/-- The function with a name. -/
def Builtin.ofName? (name : List Char) : Option Builtin :=
  if name = "basename".toList then some .stems
  else if name = "addsuffix".toList then some .suffixed
  else if name = "addprefix".toList then some .prefixed
  else none

/-- How many arguments a function takes.  Further commas belong to the last of them. -/
def Builtin.arity : Builtin → ℕ
  | stems => 1
  | suffixed | prefixed => 2

/-- What a function makes of its arguments. -/
def Builtin.apply : Builtin → List (List Char) → List Char
  | stems, [names] => unwords ((words names).map withoutSuffix)
  | suffixed, [suffix, names] => unwords ((words names).map (· ++ suffix))
  | prefixed, [start, names] => unwords ((words names).map (start ++ ·))
  | _, _ => []

/-! ## References -/

/-- The visible characters that mean something to make in some place of a line. -/
def specials : List Char :=
  ['$', '#', ':', ';', '=', '|', '&', '%', '*', '?', '[', ']', '~', '\\', '(', ')', ',']

/-- Whether a character means nothing to make but itself, wherever it stands. -/
def isLiteral (c : Char) : Bool :=
  decide (' ' < c) && !specials.contains c

/-- A text that stands for itself. -/
def IsLiteral (text : List Char) : Prop :=
  ∀ c ∈ text, isLiteral c = true

instance (text : List Char) : Decidable (IsLiteral text) :=
  decidable_of_iff (text.all isLiteral = true) List.all_eq_true

theorem ne_of_isLiteral {c : Char} (hc : isLiteral c = true) (special : Char)
    (hspecial : isLiteral special = false) : c ≠ special := by
  rintro rfl
  cases hc.symm.trans hspecial

theorem IsLiteral.notMem {text : List Char} (htext : IsLiteral text) (special : Char)
    (hspecial : isLiteral special = false) : special ∉ text :=
  fun hmem => ne_of_isLiteral (htext special hmem) special hspecial rfl

theorem isBlank_of_isLiteral {c : Char} (hc : isLiteral c = true) : isBlank c = false := by
  have hspace := ne_of_isLiteral hc ' ' (by decide)
  have htab := ne_of_isLiteral hc '\t' (by decide)
  have hfeed := ne_of_isLiteral hc '\n' (by decide)
  simp [isBlank, hspace, htab, hfeed]

/-- A reference whose closing parenthesis has not been met, with the expanded text in
front of it. -/
inductive Reference where
  /-- A variable, or a function whose name is not complete. -/
  | name (before : List Char)
  /-- A call with the arguments that are complete. -/
  | call (before : List Char) (builtin : Builtin) (arguments : List (List Char))

/-- A text that has been scanned up to some character. -/
structure Scan where
  /-- The open references, from the innermost to the outermost. -/
  opened : List Reference
  /-- The expanded text since the innermost reference was opened, or since the last of its
  arguments. -/
  text : List Char
  /-- Whether the last character was a dollar sign that waits for the next. -/
  dollar : Bool

/-- Whether the innermost of the open references is a name that is not complete. -/
def inName : List Reference → Bool
  | .name _ :: _ => true
  | _ => false

/-- Whether a dollar sign and the character make a reference. -/
def isShort (c : Char) : Bool :=
  c.isAlphanum || c == '@' || c == '<' || c == '^'

/-- The scan with one more character that stands for itself. -/
def Scan.keep (scan : Scan) (c : Char) : Scan :=
  { scan with text := scan.text ++ [c] }

/-- The scan with one more character, if that is understood. -/
def Scan.next (value : List Char → List Char) (scan : Scan) (c : Char) : Option Scan :=
  if scan.dollar then
    if c = '(' then some ⟨.name scan.text :: scan.opened, [], false⟩
    else if c = '$' then some ⟨scan.opened, scan.text ++ ['$'], false⟩
    else if isShort c then some ⟨scan.opened, scan.text ++ value [c], false⟩
    else none
  else if c = '$' then if inName scan.opened then none else some { scan with dollar := true }
  else match scan.opened with
    | [] => some (scan.keep c)
    | .name before :: outer =>
      if c = ')' then some ⟨outer, before ++ value scan.text, false⟩
      else if isBlank c then
        (Builtin.ofName? scan.text).map fun builtin => ⟨.call before builtin [] :: outer, [], false⟩
      else if isLiteral c then some (scan.keep c)
      else none
    | .call before builtin arguments :: outer =>
      if c = ')' then
        if arguments.length + 1 = builtin.arity then
          some ⟨outer, before ++ builtin.apply (arguments ++ [scan.text]), false⟩
        else none
      else if c = ',' ∧ arguments.length + 1 < builtin.arity then
        some ⟨.call before builtin (arguments ++ [scan.text]) :: outer, [], false⟩
      else if c = '(' ∨ isBlank c ∧ arguments = [] ∧ scan.text = [] then none
      else some (scan.keep c)

/-- What a text expands to when the variables have the values given. -/
def expand? (value : List Char → List Char) (text : List Char) : Option (List Char) :=
  (text.foldlM (Scan.next value) ⟨[], [], false⟩).bind fun scan =>
    if scan.opened.isEmpty && !scan.dollar then some scan.text else none

/-! ## Texts that are whole

A text is whole if it leaves open what was open before and closes nothing of it.  Such a
text yields the same wherever it stands, so a call of whole arguments is whole as well. -/

variable {value : List Char → List Char} {text result name : List Char} {builtin : Builtin}

/-- A text adds a result to the text in front of it, whatever is open there but a name. -/
def Yields (value : List Char → List Char) (text result : List Char) : Prop :=
  ∀ opened before, inName opened = false →
    text.foldlM (Scan.next value) ⟨opened, before, false⟩ = some ⟨opened, before ++ result, false⟩

theorem next_of_isLiteral {c : Char} (hc : isLiteral c = true) (opened : List Reference)
    (before : List Char) :
    Scan.next value ⟨opened, before, false⟩ c = some ⟨opened, before ++ [c], false⟩ := by
  have hdollar := ne_of_isLiteral hc '$' (by decide)
  have hopen := ne_of_isLiteral hc '(' (by decide)
  have hclose := ne_of_isLiteral hc ')' (by decide)
  have hcomma := ne_of_isLiteral hc ',' (by decide)
  have hblank := isBlank_of_isLiteral hc
  cases opened with
  | nil => simp [Scan.next, Scan.keep, hdollar]
  | cons reference outer =>
      cases reference with
      | name start => simp [Scan.next, Scan.keep, hdollar, hclose, hblank, hc]
      | call start builtin arguments =>
          simp [Scan.next, Scan.keep, hdollar, hopen, hclose, hcomma, hblank]

/-- Also in a name that is not complete, literal characters stand for themselves. -/
theorem foldlM_next_literal (hliteral : IsLiteral text) (opened : List Reference)
    (before : List Char) :
    text.foldlM (Scan.next value) ⟨opened, before, false⟩ =
      some ⟨opened, before ++ text, false⟩ := by
  induction text generalizing before with
  | nil => simp
  | cons c rest ih =>
      obtain ⟨hc, hrest⟩ := List.forall_mem_cons.mp hliteral
      rw [List.foldlM_cons, next_of_isLiteral hc, Option.bind_eq_bind, Option.bind_some, ih hrest,
        List.append_assoc, List.singleton_append]

theorem yields_literal (hliteral : IsLiteral text) : Yields value text text :=
  fun opened before _ => foldlM_next_literal hliteral opened before

/-- The reference to a variable. -/
def variableReference (name : List Char) : List Char :=
  '$' :: '(' :: (name ++ [')'])

/-- The call of a function. -/
def callReference (name : List Char) (arguments : List (List Char)) : List Char :=
  '$' :: '(' :: (name ++ ' ' :: (List.intercalate [','] arguments ++ [')']))

theorem foldlM_next_open (hname : IsLiteral name) {opened : List Reference}
    (hopened : inName opened = false) (before rest : List Char) :
    ('$' :: '(' :: (name ++ rest)).foldlM (Scan.next value) ⟨opened, before, false⟩ =
      rest.foldlM (Scan.next value) ⟨.name before :: opened, name, false⟩ := by
  have hdollar : Scan.next value ⟨opened, before, false⟩ '$' = some ⟨opened, before, true⟩ := by
    simp [Scan.next, hopened]
  have hopen : Scan.next value ⟨opened, before, true⟩ '(' =
      some ⟨.name before :: opened, [], false⟩ := rfl
  rw [List.foldlM_cons, hdollar, Option.bind_eq_bind, Option.bind_some, List.foldlM_cons, hopen,
    Option.bind_eq_bind, Option.bind_some, List.foldlM_append, foldlM_next_literal hname,
    Option.bind_eq_bind, Option.bind_some, List.nil_append]

theorem yields_variable (hname : IsLiteral name) :
    Yields value (variableReference name) (value name) := by
  intro opened before hopened
  rw [variableReference, foldlM_next_open hname hopened]
  rfl

/-- The arguments that a call still waits for complete it. -/
theorem foldlM_next_arguments {arguments results complete : List (List Char)}
    (hresults : List.Forall₂ (Yields value) arguments results) (hne : arguments ≠ [])
    (harity : complete.length + arguments.length = builtin.arity) (outer : List Reference)
    (before : List Char) :
    (List.intercalate [','] arguments ++ [')']).foldlM (Scan.next value)
        ⟨.call before builtin complete :: outer, [], false⟩ =
      some ⟨outer, before ++ builtin.apply (complete ++ results), false⟩ := by
  induction hresults generalizing complete with
  | nil => exact absurd rfl hne
  | @cons argument result arguments results hresult hothers ih =>
      cases hothers with
      | nil =>
          have hlast : complete.length + 1 = builtin.arity := harity
          rw [List.intercalate_singleton, List.foldlM_append, hresult _ _ rfl,
            Option.bind_eq_bind, Option.bind_some]
          simp [Scan.next, hlast]
      | @cons next nextResult arguments results hnext hothers =>
          have hcomma :
              Scan.next value ⟨.call before builtin complete :: outer, result, false⟩ ',' =
                some ⟨.call before builtin (complete ++ [result]) :: outer, [], false⟩ := by
            have hwaits : complete.length + 1 < builtin.arity := by
              simp only [List.length_cons] at harity
              omega
            simp [Scan.next, hwaits]
          rw [List.intercalate_cons_cons, List.append_assoc, List.append_assoc,
            List.foldlM_append, hresult _ _ rfl, Option.bind_eq_bind, Option.bind_some,
            List.nil_append, List.singleton_append, List.foldlM_cons, hcomma,
            Option.bind_eq_bind, Option.bind_some,
            ih (List.cons_ne_nil _ _) (by simp at harity ⊢; omega)]
          simp

theorem yields_call {arguments results : List (List Char)}
    (hbuiltin : Builtin.ofName? name = some builtin) (hname : IsLiteral name)
    (hresults : List.Forall₂ (Yields value) arguments results)
    (harity : arguments.length = builtin.arity) :
    Yields value (callReference name arguments) (builtin.apply results) := by
  intro opened before hopened
  have hcall : Scan.next value ⟨.name before :: opened, name, false⟩ ' ' =
      some ⟨.call before builtin [] :: opened, [], false⟩ := by
    simp [Scan.next, isBlank, hbuiltin]
  have hne : arguments ≠ [] := by
    rintro rfl
    cases builtin <;> cases harity
  rw [callReference, foldlM_next_open hname hopened, List.foldlM_cons, hcall,
    Option.bind_eq_bind, Option.bind_some,
    foldlM_next_arguments hresults hne (by simpa using harity), List.nil_append]

/-! ## Texts outside of references -/

/-- A text adds a result to the text in front of it where no reference is open. -/
def Expands (value : List Char → List Char) (text result : List Char) : Prop :=
  ∀ before, text.foldlM (Scan.next value) ⟨[], before, false⟩ =
    some ⟨[], before ++ result, false⟩

theorem Expands.expand?_eq (h : Expands value text result) : expand? value text = some result := by
  rw [expand?, h, Option.bind_some, List.nil_append]
  rfl

theorem Yields.expands (h : Yields value text result) : Expands value text result :=
  fun before => h [] before rfl

theorem Expands.append {more other : List Char} (h : Expands value text result)
    (hmore : Expands value more other) : Expands value (text ++ more) (result ++ other) := by
  intro before
  rw [List.foldlM_append, h, Option.bind_eq_bind, Option.bind_some, hmore, List.append_assoc]

/-- Outside of references only the dollar sign is special. -/
theorem expands_of_notMem (hdollar : '$' ∉ text) : Expands value text text := by
  intro before
  induction text generalizing before with
  | nil => simp
  | cons c rest ih =>
      rw [List.mem_cons, not_or] at hdollar
      have hnext : Scan.next value ⟨[], before, false⟩ c = some ⟨[], before ++ [c], false⟩ := by
        simp [Scan.next, Scan.keep, Ne.symm hdollar.1]
      rw [List.foldlM_cons, hnext, Option.bind_eq_bind, Option.bind_some, ih hdollar.2,
        List.append_assoc, List.singleton_append]

/-- The text behind a space. -/
theorem Expands.spaced (h : Expands value text result) :
    Expands value (' ' :: text) (' ' :: result) :=
  (expands_of_notMem (by decide : '$' ∉ [' '])).append h

end IncludeDeps.Make
