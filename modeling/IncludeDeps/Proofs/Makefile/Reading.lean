import IncludeDeps.Proofs.Makefile.Expansion
import Mathlib.Logic.Function.Basic

/-!
# What make reads in a Makefile

`Make.read? value text` goes through the lines of a Makefile as make does, and holds the
values that its variables have then and the rules that were met, each with the names of
its targets and prerequisites and with the lines of its recipe.  What the variables expand
to before is given.  Those that the Makefile does not define keep it, and those that it
defines are not overridden from outside.

A line that ends with a backslash goes on with the next one (`logicalLines`).  A line that
begins with a tab belongs to the recipe of the rule above and is kept as it is, to be
expanded when the recipe runs (`Rule.commands?`).  Of other lines a comment is cut off.  A
definition with `:=` is expanded at once, and one with `=` holds nothing to expand.  The
targets and prerequisites of a rule are expanded at once, too; they have to be names that
make reads as themselves (`IsFile`).

The reading ends where a line has a meaning for make that is not given here: directives,
other kinds of definitions, patterns, rules with their recipe on the same line, and names
with characters that make treats in a special way.  So what is read is what make reads,
if anything is.

A text is read line by line (`Database.readFrom?_unlines`).
-/

namespace IncludeDeps.Make

/-! ## Names of files -/

/-- A name that make reads as itself.  It takes no character of it for something else, and
no reference to the current directory off its front. -/
structure IsFile (name : List Char) : Prop where
  ne_nil : name ≠ []
  literal : IsLiteral name
  leaves : ¬ ['.', '/'] <+: name

instance (name : List Char) : Decidable (IsFile name) :=
  decidable_of_iff (name ≠ [] ∧ IsLiteral name ∧ ¬ ['.', '/'] <+: name)
    ⟨fun ⟨hne, hliteral, hleaves⟩ => ⟨hne, hliteral, hleaves⟩,
      fun ⟨hne, hliteral, hleaves⟩ => ⟨hne, hliteral, hleaves⟩⟩

namespace IsFile

variable {name part : List Char}

theorem isWord (hname : IsFile name) : IsWord name :=
  ⟨hname.ne_nil, fun c hc => isBlank_of_isLiteral (hname.literal c hc)⟩

/-- What a name begins with is a name as well. -/
theorem of_isPrefix (hname : IsFile name) (hpart : part <+: name) (hne : part ≠ []) :
    IsFile part :=
  ⟨hne, fun c hc => hname.literal c (hpart.subset hc),
    fun hleaves => hname.leaves (hleaves.trans hpart)⟩

theorem append (hname : IsFile name) {suffix : List Char} (hsuffix : IsLiteral suffix)
    (hslash : suffix.head? ≠ some '/') : IsFile (name ++ suffix) := by
  refine ⟨List.append_ne_nil_of_left_ne_nil hname.ne_nil _, fun c hc => ?_, fun hleaves => ?_⟩
  · exact (List.mem_append.mp hc).elim (hname.literal c) (hsuffix c)
  · obtain ⟨more, hmore⟩ := hleaves
    cases name with
    | nil => exact hname.ne_nil rfl
    | cons first rest =>
        obtain ⟨rfl, htail⟩ := List.cons.inj hmore
        cases rest with
        | nil =>
            have hstart : '/' :: more = suffix := htail
            exact hslash (by rw [← hstart]; rfl)
        | cons second others =>
            obtain ⟨rfl, -⟩ := List.cons.inj htail
            exact hname.leaves ⟨others, rfl⟩

theorem notMem (hname : IsFile name) (special : Char) (hspecial : isLiteral special = false) :
    special ∉ name :=
  hname.literal.notMem special hspecial

end IsFile

/-- The names of files in an expanded text. -/
def files? (text : List Char) : Option (List (List Char)) :=
  if ∀ word ∈ words text, IsFile word then some (words text) else none

theorem files?_eq_some {text : List Char} (hfiles : ∀ word ∈ words text, IsFile word) :
    files? text = some (words text) :=
  if_pos hfiles

theorem files?_unwords {names : List (List Char)} (hnames : ∀ name ∈ names, IsFile name) :
    files? (unwords names) = some names := by
  have hwords := words_unwords_of_isWord fun name hname => (hnames name hname).isWord
  rw [files?_eq_some (by rwa [hwords]), hwords]

/-- The space in front of some names does not matter. -/
theorem files?_space {text : List Char} : files? (' ' :: text) = files? text := by
  have hwords : words (' ' :: text) = words text := words_append_blank (by decide) [] text
  rw [files?, files?, hwords]

/-! ## Rules -/

/-- A rule that was read. -/
structure Rule where
  targets : List (List Char)
  prerequisites : List (List Char)
  /-- The lines of the recipe, without the tab in front. -/
  recipe : List (List Char)
  deriving DecidableEq, Repr

/-- The rule that is made of the texts in front of its colon and behind it. -/
def rule? (value : List Char → List Char) (front back : List Char) : Option Rule := do
  let targets ← files? (← expand? value front)
  let prerequisites ← files? (← expand? value back)
  return ⟨targets, prerequisites, []⟩

theorem rule?_eq_some {value : List Char → List Char} {front back targets prerequisites : List Char}
    {names others : List (List Char)} (hfront : Expands value front targets)
    (hback : Expands value back prerequisites) (hnames : files? targets = some names)
    (hothers : files? prerequisites = some others) :
    rule? value front back = some ⟨names, others, []⟩ := by
  rw [rule?, hfront.expand?_eq, hback.expand?_eq]
  simp [hnames, hothers]

/-- What is known after some lines. -/
structure Database where
  /-- The values of the variables. -/
  value : List Char → List Char
  /-- The rules that are complete. -/
  complete : List Rule
  /-- The rule whose recipe may go on. -/
  current : Option Rule

namespace Database

/-- The rules that were read. -/
def rules (database : Database) : List Rule :=
  database.complete ++ database.current.toList

/-- The database with another value for a variable. -/
def define (database : Database) (name text : List Char) : Database :=
  ⟨Function.update database.value name text, database.rules, none⟩

@[simp] theorem value_define_self (database : Database) (name text : List Char) :
    (database.define name text).value name = text := by
  simp [define]

theorem value_define_of_ne {name other : List Char} (hne : other ≠ name) (database : Database)
    (text : List Char) : (database.define name text).value other = database.value other := by
  simp [define, hne]

/-- The database with another rule. -/
def addRule (database : Database) (rule : Rule) : Database :=
  ⟨database.value, database.rules, some rule⟩

/-- The database with another line in the recipe of the current rule. -/
def addLine? (database : Database) (line : List Char) : Option Database :=
  if line.getLast? = some '\\' then none
  else database.current.map fun rule =>
    { database with current := some { rule with recipe := rule.recipe ++ [line] } }

end Database

/-- Whether a text is a name for a variable, and no more than that. -/
def isVariable (name : List Char) : Bool :=
  !name.isEmpty && name.all fun c => c.isAlphanum || c == '_'

/-- The words that make a line a directive when it begins with them. -/
def directives : List (List Char) :=
  ["define", "endef", "undefine", "ifdef", "ifndef", "ifeq", "ifneq", "else", "endif",
    "include", "-include", "sinclude", "override", "export", "unexport", "private", "vpath",
    "load", "-load"].map String.toList

/-- Whether a line is a directive. -/
def isDirective (text : List Char) : Bool :=
  directives.contains (text.takeWhile fun c => !isBlank c)

namespace Database

/-- The database after a line that is a definition or begins a rule. -/
def readStatement? (database : Database) (text : List Char) : Option Database :=
  let front := text.takeWhile fun c => c != '=' && c != ':'
  let name := front.rdropWhile isBlank
  match text.drop front.length with
  | '=' :: back =>
    if isVariable name && !back.contains '$' then
      some (database.define name (back.dropWhile isBlank))
    else none
  | ':' :: '=' :: back =>
    if isVariable name then
      (expand? database.value (back.dropWhile isBlank)).map (database.define name)
    else none
  | ':' :: back => (rule? database.value front back).map database.addRule
  | _ => none

/-- The database after a line, if the line is understood. -/
def readLine? (database : Database) (line : List Char) : Option Database :=
  if line.head? = some '\t' then database.addLine? line.tail
  else if '\\' ∈ line then none
  else
    let text := (line.takeWhile (· ≠ '#')).dropWhile isBlank
    if text.isEmpty then some database
    else if isDirective text then none
    else database.readStatement? text

end Database

/-- The lines of a text after those that end with a backslash have been joined with the
next.  There is one space for the backslash and the blanks around it. -/
def logicalLines : List (List Char) → List (List Char)
  | [] => []
  | line :: rest =>
    if line.head? ≠ some '\t' ∧ line.getLast? = some '\\' then
      match logicalLines rest with
      | [] => [line]
      | next :: others =>
        (line.dropLast.rdropWhile isBlank ++ ' ' :: next.dropWhile isBlank) :: others
    else line :: logicalLines rest

/-- The database after a text. -/
def Database.readFrom? (database : Database) (text : List Char) : Option Database :=
  (logicalLines (text.splitOn '\n')).foldlM readLine? database

/-- What make knows after a Makefile when the variables had the values given. -/
def read? (value : List Char → List Char) (text : List Char) : Option Database :=
  Database.readFrom? ⟨value, [], none⟩ text

/-! ## One line -/

variable {database : Database} {value : List Char → List Char}
  {line front back name text result rest : List Char}

theorem isVariable_iff : isVariable name = true ↔
    name ≠ [] ∧ ∀ c ∈ name, (c.isAlphanum || c == '_') = true := by
  simp [isVariable]

theorem notMem_of_isVariable (hname : isVariable name = true) (special : Char)
    (hspecial : (special.isAlphanum || special == '_') = false) : special ∉ name := by
  intro hmem
  cases ((isVariable_iff.mp hname).2 special hmem).symm.trans hspecial

theorem isBlank_of_isVariable (hname : isVariable name = true) {c : Char} (hc : c ∈ name) :
    isBlank c = false := by
  have hspace := ne_of_mem_of_not_mem hc (notMem_of_isVariable hname ' ' (by decide))
  have htab := ne_of_mem_of_not_mem hc (notMem_of_isVariable hname '\t' (by decide))
  have hfeed := ne_of_mem_of_not_mem hc (notMem_of_isVariable hname '\n' (by decide))
  simp [isBlank, hspace, htab, hfeed]

/-- A directive has letters only, and perhaps a dash in front. -/
theorem isDirective_eq_false {c : Char} (hc : c ∈ text.takeWhile fun c => !isBlank c)
    (hsign : (c.isAlpha || c == '-') = false) : isDirective text = false := by
  have hletters : directives.all (fun word => word.all fun c => c.isAlpha || c == '-') = true := by
    decide
  rw [isDirective, List.contains_eq_mem, decide_eq_false_iff_not]
  intro hword
  have hletter := List.all_eq_true.mp (List.all_eq_true.mp hletters _ hword) c hc
  cases hletter.symm.trans hsign

/-- A line that begins with a word and a sign behind it is no directive. -/
theorem isDirective_append {c : Char} (hfront : ∀ c ∈ front, isBlank c = false)
    (hc : c = '=' ∨ c = ':') : isDirective (front ++ c :: back) = false := by
  have hinked : ∀ c ∈ front, (!isBlank c) = true := fun c hmem => by
    rw [hfront c hmem]
    rfl
  have hmem : c ∈ (front ++ c :: back).takeWhile fun c => !isBlank c := by
    rw [List.takeWhile_append_of_pos hinked, List.takeWhile_cons_of_pos]
    · simp
    · rcases hc with rfl | rfl <;> decide
  exact isDirective_eq_false hmem (by rcases hc with rfl | rfl <;> decide)

theorem isDirective_dollar : isDirective ('$' :: rest) = false := by
  have hmem : '$' ∈ ('$' :: rest).takeWhile fun c => !isBlank c := by
    rw [List.takeWhile_cons_of_pos (by decide)]
    exact List.mem_cons_self
  exact isDirective_eq_false hmem (by decide)

namespace Database

theorem readLine?_nil : database.readLine? [] = some database := rfl

theorem readLine?_tab {rule : Rule} (hcurrent : database.current = some rule)
    (hslash : line.getLast? ≠ some '\\') :
    database.readLine? ('\t' :: line) =
      some { database with current := some { rule with recipe := rule.recipe ++ [line] } } := by
  have htab : ('\t' :: line).head? = some '\t' := rfl
  rw [readLine?, if_pos htab, List.tail_cons, addLine?, if_neg hslash, hcurrent]
  rfl

/-- A line without comment that is no directive is a definition or begins a rule. -/
theorem readLine?_eq_readStatement? {c : Char} (hhead : text.head? = some c)
    (hblank : isBlank c = false) (hslash : '\\' ∉ text) (hcomment : '#' ∉ text)
    (hdirective : isDirective text = false) :
    database.readLine? text = database.readStatement? text := by
  have htab : text.head? ≠ some '\t' := by
    intro heq
    rw [Option.some.inj (hhead.symm.trans heq)] at hblank
    cases hblank
  have hwhole : text.takeWhile (· ≠ '#') = text :=
    List.takeWhile_eq_self_iff.mpr fun other hother => by
      simpa using ne_of_mem_of_not_mem hother hcomment
  obtain ⟨rest, rfl⟩ := List.head?_eq_some_iff.mp hhead
  have hleft : (c :: rest).dropWhile isBlank = c :: rest :=
    List.dropWhile_cons_of_neg (by simp [hblank])
  rw [readLine?, if_neg htab, if_neg hslash, hwhole, hleft]
  simp [hdirective]

theorem takeWhile_front {c : Char} (back : List Char) (hequals : '=' ∉ front)
    (hcolon : ':' ∉ front) (hc : c = '=' ∨ c = ':') :
    (front ++ c :: back).takeWhile (fun c => c != '=' && c != ':') = front := by
  have hfront : ∀ c ∈ front, (c != '=' && c != ':') = true := fun c hc => by
    simp [ne_of_mem_of_not_mem hc hequals, ne_of_mem_of_not_mem hc hcolon]
  rw [List.takeWhile_append_of_pos hfront, List.takeWhile_cons_of_neg, List.append_nil]
  rcases hc with rfl | rfl <;> decide

/-- A line that begins with the name of a variable and a sign is a definition. -/
theorem readLine?_of_isVariable {c : Char} (hname : isVariable name = true)
    (hc : c = '=' ∨ c = ':') (hslash : '\\' ∉ text) (hcomment : '#' ∉ text) :
    database.readLine? (name ++ c :: text) = database.readStatement? (name ++ c :: text) := by
  have hdirective : isDirective (name ++ c :: text) = false :=
    isDirective_append (fun c hmem => isBlank_of_isVariable hname hmem) hc
  have hsigns : '\\' ∉ c :: text ∧ '#' ∉ c :: text := by
    rcases hc with rfl | rfl <;> simp [hslash, hcomment]
  have hwhole := List.not_mem_append (notMem_of_isVariable hname '\\' (by decide)) hsigns.1
  have hplain := List.not_mem_append (notMem_of_isVariable hname '#' (by decide)) hsigns.2
  obtain ⟨first, others, rfl⟩ := List.exists_cons_of_ne_nil (isVariable_iff.mp hname).1
  exact readLine?_eq_readStatement? rfl (isBlank_of_isVariable hname List.mem_cons_self) hwhole
    hplain hdirective

theorem rdropWhile_of_isVariable (hname : isVariable name = true) :
    name.rdropWhile isBlank = name :=
  List.rdropWhile_eq_self_iff.mpr fun hne => by
    simp [isBlank_of_isVariable hname (List.getLast_mem hne)]

theorem readLine?_define (hname : isVariable name = true) (hslash : '\\' ∉ text)
    (hcomment : '#' ∉ text) (hdollar : '$' ∉ text) :
    database.readLine? (name ++ '=' :: text) =
      some (database.define name (text.dropWhile isBlank)) := by
  have hfront := takeWhile_front text (notMem_of_isVariable hname '=' (by decide))
    (notMem_of_isVariable hname ':' (by decide)) (Or.inl rfl)
  rw [readLine?_of_isVariable hname (Or.inl rfl) hslash hcomment, readStatement?, hfront,
    List.drop_left, rdropWhile_of_isVariable hname]
  simp [hname, hdollar]

theorem readLine?_expand (hname : isVariable name = true) (hslash : '\\' ∉ text)
    (hcomment : '#' ∉ text)
    (hresult : expand? database.value (text.dropWhile isBlank) = some result) :
    database.readLine? (name ++ ':' :: '=' :: text) = some (database.define name result) := by
  have hfront := takeWhile_front ('=' :: text) (notMem_of_isVariable hname '=' (by decide))
    (notMem_of_isVariable hname ':' (by decide)) (Or.inr rfl)
  rw [readLine?_of_isVariable hname (Or.inr rfl) (by simp [hslash]) (by simp [hcomment]),
    readStatement?, hfront, List.drop_left, rdropWhile_of_isVariable hname]
  simp [hname, hresult]

/-- A line with a colon that is no definition begins a rule. -/
theorem readLine?_rule {rule : Rule} {c : Char} (hhead : front.head? = some c)
    (hblank : isBlank c = false) (hdirective : isDirective (front ++ ':' :: back) = false)
    (hequals : '=' ∉ front) (hcolon : ':' ∉ front) (hback : back.head? ≠ some '=')
    (hslash : '\\' ∉ front ++ ':' :: back) (hcomment : '#' ∉ front ++ ':' :: back)
    (hrule : rule? database.value front back = some rule) :
    database.readLine? (front ++ ':' :: back) = some (database.addRule rule) := by
  have hfirst : (front ++ ':' :: back).head? = some c := by
    rw [List.head?_append, hhead]
    rfl
  rw [readLine?_eq_readStatement? hfirst hblank hslash hcomment hdirective, readStatement?,
    takeWhile_front back hequals hcolon (Or.inr rfl), List.drop_left]
  split
  · next heq => cases heq
  · next heq =>
    rw [(List.cons.inj heq).2] at hback
    exact absurd rfl hback
  · next heq =>
    rw [← (List.cons.inj heq).2, hrule]
    rfl
  · next hother => exact absurd rfl (hother back)

end Database

/-! ## Lines in a row -/

/-- A line that does not go on with the next one. -/
def IsWhole (line : List Char) : Prop :=
  '\n' ∉ line ∧ (line.head? = some '\t' ∨ line.getLast? ≠ some '\\')

theorem isWhole_of_notMem (hfeed : '\n' ∉ line) (hslash : '\\' ∉ line) : IsWhole line :=
  ⟨hfeed, Or.inr fun hlast => hslash (List.mem_of_getLast? hlast)⟩

/-- The text of some lines. -/
def unlines (lines : List (List Char)) : List Char :=
  lines.flatMap fun line => line ++ ['\n']

namespace Database

theorem logicalLines_cons {lines : List (List Char)} (hline : IsWhole line) :
    logicalLines (line :: lines) = line :: logicalLines lines := by
  rw [logicalLines, if_neg]
  rintro ⟨htab, hslash⟩
  exact hline.2.elim htab fun h => h hslash

theorem readFrom?_nil : database.readFrom? [] = some database := rfl

theorem readFrom?_line (hline : IsWhole line) :
    database.readFrom? (line ++ '\n' :: rest) =
      (database.readLine? line).bind fun later => later.readFrom? rest := by
  rw [readFrom?, List.splitOn_append_cons_self_of_not_mem hline.1, logicalLines_cons hline]
  rfl

theorem foldlM_readLine?_cons {later : Database} {lines : List (List Char)}
    (hline : database.readLine? line = some later) :
    (line :: lines).foldlM readLine? database = lines.foldlM readLine? later := by
  rw [List.foldlM_cons, hline]
  rfl

/-- Lines are read in turn. -/
theorem readFrom?_unlines {lines : List (List Char)} (hlines : ∀ line ∈ lines, IsWhole line) :
    database.readFrom? (unlines lines ++ rest) =
      (lines.foldlM readLine? database).bind fun later => later.readFrom? rest := by
  induction lines generalizing database with
  | nil => rfl
  | cons line others ih =>
      obtain ⟨hline, hothers⟩ := List.forall_mem_cons.mp hlines
      rw [unlines, List.flatMap_cons, List.append_assoc, List.append_assoc, List.singleton_append,
        readFrom?_line hline, List.foldlM_cons, Option.bind_eq_bind, Option.bind_assoc]
      exact congrArg _ (funext fun later => ih hothers)

end Database

/-! ## Targets -/

/-- The targets of the rule that a text begins with. -/
def targets (value : List Char → List Char) (text : List Char) : List (List Char) :=
  ((expand? value (text.takeWhile (· ≠ ':'))).bind files?).getD []

/-- An empty line in front of a rule does not matter. -/
theorem targets_of_expands {names : List (List Char)} (hfront : Expands value front (unwords names))
    (hnames : ∀ name ∈ names, IsFile name) (hcolon : ':' ∉ front) :
    targets value ('\n' :: (front ++ ':' :: back)) = names := by
  have hbefore : ∀ c ∈ '\n' :: front, decide (c ≠ ':') = true := by
    intro c hc
    obtain rfl | hc := List.mem_cons.mp hc
    · decide
    · simpa using ne_of_mem_of_not_mem hc hcolon
  have htext : ('\n' :: (front ++ ':' :: back)).takeWhile (· ≠ ':') = '\n' :: front := by
    rw [← List.cons_append, List.takeWhile_append_of_pos hbefore,
      List.takeWhile_cons_of_neg (by decide), List.append_nil]
  have hfeed : Expands value ('\n' :: front) ('\n' :: unwords names) :=
    (expands_of_notMem (by decide : '$' ∉ ['\n'])).append hfront
  have hwords : words ('\n' :: unwords names) = words (unwords names) :=
    words_append_blank (by decide) [] _
  rw [targets, htext, hfeed.expand?_eq, Option.bind_some, files?, hwords, ← files?,
    files?_unwords hnames, Option.getD_some]

end IncludeDeps.Make
