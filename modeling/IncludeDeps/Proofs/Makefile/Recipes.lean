import IncludeDeps.Proofs.Discovery
import IncludeDeps.Proofs.Makefile.Preamble

/-!
# The rules for the objects, read by make

Each source adds one rule to what make knows, and nothing is defined in it
(`exists_rules`).  The rule has the object for its target and the list of the source for
its prerequisites, in their order (`readRule`).  Its recipe compiles what comes first
among them (`commands?_readRule`).
-/

namespace IncludeDeps

open Make

/-! ## Names of objects -/

theorem mem_intercalate {α : Type*} (separator : List α) {piece : List α}
    {pieces : List (List α)} {x : α} (hpiece : piece ∈ pieces) (hx : x ∈ piece) :
    x ∈ List.intercalate separator pieces := by
  induction pieces with
  | nil => cases hpiece
  | cons first rest ih =>
      by_cases hrest : rest = []
      · rw [hrest, List.mem_singleton] at hpiece
        rwa [hrest, List.intercalate_singleton, ← hpiece]
      · rw [List.intercalate_cons_of_ne_nil hrest]
        rcases List.mem_cons.mp hpiece with rfl | hpiece
        · exact List.mem_append_left _ (List.mem_append_left _ hx)
        · exact List.mem_append_right _ (ih hpiece)

/-- The name of a file is a piece of its path. -/
theorem Path.mem_pieces_of_fileName? {path name : String} (h : fileName? path = some name) :
    name.toList ∈ pieces path := by
  unfold fileName? at h
  split at h
  · cases h
  · next found hlast =>
    split at h
    · cases h
    · rw [← Option.some.inj h, String.toList_ofList]
      exact (trimIdle_isPrefix _).subset (List.mem_of_getLast? hlast)

theorem Path.exists_isPrefix_of_stem? {path stem : String} (h : stem? path = some stem) :
    ∃ piece ∈ pieces path, stem.toList <+: piece := by
  obtain ⟨name, hname, rfl⟩ := Option.map_eq_some_iff.mp h
  refine ⟨name.toList, mem_pieces_of_fileName? hname, ?_⟩
  split
  · exact List.prefix_rfl
  · next stem extension hsplit =>
    obtain ⟨heq, -⟩ := splitExtension?_eq_some hsplit
    rw [String.toList_ofList, heq]
    exact List.prefix_append _ _

namespace Makefile

variable {source : String} {value : List Char → List Char} {start : List Char}
  {settings : MakefileSettings} {database : Database}

/-- The object of a source is a name that make reads as itself if the source is. -/
theorem isFile_objectName (hsource : IsFile source.toList) :
    IsFile (objectName source).toList := by
  have hsuffix : IsLiteral ".o".toList := by decide
  rw [objectName, String.toList_append]
  cases hstem : Path.stem? source with
  | none => exact hsource.append hsuffix (by decide)
  | some stem =>
      rw [Option.getD_some]
      obtain ⟨piece, hpiece, hbegins⟩ := Path.exists_isPrefix_of_stem? hstem
      refine ⟨by simp, fun c hc => ?_, fun hleaves => ?_⟩
      · rcases List.mem_append.mp hc with hc | hc
        · have hmem := mem_intercalate ['/'] hpiece (hbegins.subset hc)
          rw [Path.intercalate_pieces] at hmem
          exact hsource.literal c hmem
        · exact hsuffix c hc
      · -- a stem has no slashes
        rcases List.mem_append.mp (hleaves.subset (by simp : '/' ∈ ['.', '/'])) with hmem | hmem
        · exact Path.slash_notMem_of_mem_splitOn hpiece (hbegins.subset hmem)
        · exact absurd hmem (by decide)

/-! ## Reading the rules -/

/-- The recipe of every object, without the tab in front. -/
def compileText : List Char :=
  "$(TARGET_CC) $(TARGET_CFLAGS) $(CFLAGS) -c -o $@ $<".toList

/-- The rule that is read for a source. -/
def readRule (settings : MakefileSettings) (start : List Char) (entry : String × Prerequisites) :
    Make.Rule where
  targets := [objectFile settings start entry.1]
  prerequisites := entry.2.paths.map String.toList
  recipe := [compileText]

theorem toList_target (settings : MakefileSettings) (source : String) :
    (target settings source).toList =
      if settings.prefixObjects then prefixedText (objectName source).toList
      else (objectName source).toList := by
  unfold target
  split
  · simp [prefixedText, callReference, variableReference]
  · rfl

theorem yields_target (settings : MakefileSettings) (hsource : IsFile source.toList)
    (hstart : value "OBJECT_PREFIX".toList = start) :
    Yields value (target settings source).toList
      (unwords [objectFile settings start source]) := by
  have hfile := isFile_objectName hsource
  have hobject : Yields value (objectName source).toList
      (unwords [(objectName source).toList]) := by
    rw [unwords_singleton]
    exact yields_literal hfile.literal
  rw [toList_target, objectFile, objectStart]
  split
  · rw [← hstart]
    exact yields_prefixedText hobject (by simpa using hfile.isWord)
  · simpa using hobject

theorem notMem_target (settings : MakefileSettings) (hsource : IsFile source.toList)
    (special : Char) (hspecial : isLiteral special = false)
    (hreference : special ∉ "$(addprefix $(OBJECT_PREFIX),)".toList) :
    special ∉ (target settings source).toList := by
  have hname := (isFile_objectName hsource).notMem special hspecial
  have hparts : "$(addprefix $(OBJECT_PREFIX),)".toList =
      "$(addprefix $(OBJECT_PREFIX),".toList ++ ")".toList := by decide +kernel
  rw [hparts, List.mem_append, not_or] at hreference
  unfold target
  split
  · rw [String.toList_append, String.toList_append]
    exact List.not_mem_append (List.not_mem_append hreference.1 hname) hreference.2
  · exact hname

/-- The line of a rule is no directive, since it begins with a reference or has its colon
behind its first word. -/
theorem isDirective_target (settings : MakefileSettings) (hsource : IsFile source.toList)
    (back : List Char) :
    ∃ c, (target settings source).toList.head? = some c ∧ Make.isBlank c = false ∧
      isDirective ((target settings source).toList ++ ':' :: back) = false := by
  rw [toList_target]
  split
  · exact ⟨'$', rfl, rfl, isDirective_dollar⟩
  · have hword := (isFile_objectName hsource).isWord
    have hdirective : isDirective ((objectName source).toList ++ ':' :: back) = false :=
      isDirective_append hword.2 (Or.inr rfl)
    obtain ⟨first, others, heq⟩ := List.exists_cons_of_ne_nil hword.1
    exact ⟨first, by rw [heq]; rfl, hword.2 first (by rw [heq]; exact List.mem_cons_self),
      hdirective⟩

/-- The prerequisites of a rule, with a space in front of each. -/
def pathsText (paths : List String) : List Char :=
  paths.flatMap fun path => ' ' :: path.toList

theorem wordsAfter_eq (rest : List Char) (paths : List String) :
    wordsAfter [] rest paths = pathsText paths ++ '\n' :: rest := by
  induction paths with
  | nil => rfl
  | cons path others ih =>
      rw [wordsAfter, ih, pathsText, pathsText, List.flatMap_cons]
      simp

theorem notMem_pathsText {paths : List String} (hpaths : ∀ path ∈ paths, IsFile path.toList)
    (special : Char) (hspecial : isLiteral special = false) (hspace : special ≠ ' ') :
    special ∉ pathsText paths := by
  rw [pathsText, List.mem_flatMap]
  rintro ⟨path, hpath, hmem⟩
  rcases List.mem_cons.mp hmem with hblank | hmem
  · exact hspace hblank
  · exact (hpaths path hpath).notMem special hspecial hmem

theorem files?_pathsText {paths : List String} (hpaths : ∀ path ∈ paths, IsFile path.toList) :
    files? (pathsText paths) = some (paths.map String.toList) := by
  have hnames : ∀ name ∈ paths.map String.toList, IsFile name := List.forall_mem_map.mpr hpaths
  cases paths with
  | nil => rfl
  | cons path others =>
      have htext : pathsText (path :: others) =
          ' ' :: unwords ((path :: others).map String.toList) := by
        rw [List.map_cons, unwords_cons, List.flatMap_map, pathsText, List.flatMap_cons]
        rfl
      rw [htext, files?_space, files?_unwords hnames]

theorem readLine?_rule (hclear : Clear settings value start)
    (hstart : database.value "OBJECT_PREFIX".toList = start) {entry : String × Prerequisites}
    (hsource : IsFile entry.1.toList) (hpaths : ∀ path ∈ entry.2.paths, IsFile path.toList) :
    database.readLine? ((target settings entry.1).toList ++ ':' :: pathsText entry.2.paths) =
      some (database.addRule { readRule settings start entry with recipe := [] }) := by
  have htarget := isFile_objectStart_append hclear (isFile_objectName hsource)
  have hnames : ∀ name ∈ [objectFile settings start entry.1], IsFile name :=
    List.forall_mem_singleton.mpr htarget
  have hplain : ∀ special, isLiteral special = false →
      special ∉ "$(addprefix $(OBJECT_PREFIX),)".toList → special ∉ [' ', ':'] →
      special ∉ (target settings entry.1).toList ++ ':' :: pathsText entry.2.paths := by
    intro special hspecial hreference hsign
    rw [List.mem_cons, List.mem_singleton, not_or] at hsign
    refine List.not_mem_append (notMem_target settings hsource special hspecial hreference) ?_
    rw [List.mem_cons, not_or]
    exact ⟨hsign.2, notMem_pathsText hpaths special hspecial hsign.1⟩
  have hback : (pathsText entry.2.paths).head? ≠ some '=' := by
    intro hhead
    exact notMem_pathsText hpaths '=' (by decide) (by decide) (List.mem_of_mem_head? hhead)
  have hdollar := notMem_pathsText hpaths '$' (by decide) (by decide)
  obtain ⟨c, hhead, hblank, hdirective⟩ :=
    isDirective_target settings hsource (pathsText entry.2.paths)
  exact Database.readLine?_rule hhead hblank hdirective
    (notMem_target settings hsource '=' (by decide) (by decide))
    (notMem_target settings hsource ':' (by decide) (by decide)) hback
    (hplain '\\' (by decide) (by decide) (by decide))
    (hplain '#' (by decide) (by decide) (by decide))
    (rule?_eq_some (yields_target settings hsource hstart).expands (expands_of_notMem hdollar)
      (files?_unwords hnames) (files?_pathsText hpaths))

/-- A rule is read whole, and nothing is defined in it. -/
theorem readFrom?_rule (hclear : Clear settings value start)
    (hstart : database.value "OBJECT_PREFIX".toList = start) {entry : String × Prerequisites}
    (hsource : IsFile entry.1.toList) (hpaths : ∀ path ∈ entry.2.paths, IsFile path.toList)
    (rest : List Char) :
    database.readFrom? ((rule settings entry).toList ++ rest) =
      Database.readFrom? ⟨database.value, database.rules, some (readRule settings start entry)⟩
        rest := by
  have hcommand : compileCommand.toList = '\t' :: (compileText ++ ['\n']) := by decide +kernel
  have htext : (rule settings entry).toList ++ rest = [] ++ '\n' ::
      ((target settings entry.1).toList ++ ':' :: pathsText entry.2.paths ++ '\n' ::
        ('\t' :: compileText ++ '\n' :: rest)) := by
    rw [toList_rule, wordsAfter_eq, hcommand]
    simp
  have hline : IsWhole ((target settings entry.1).toList ++ ':' :: pathsText entry.2.paths) := by
    refine isWhole_of_notMem (List.not_mem_append
      (notMem_target settings hsource '\n' (by decide) (by decide)) ?_) (List.not_mem_append
      (notMem_target settings hsource '\\' (by decide) (by decide)) ?_)
    · simpa using notMem_pathsText hpaths '\n' (by decide) (by decide)
    · simpa using notMem_pathsText hpaths '\\' (by decide) (by decide)
  have hrecipe : IsWhole ('\t' :: compileText) := by
    exact isWhole_of_notMem (by decide) (by decide)
  rw [htext, Database.readFrom?_line (isWhole_of_notMem (by simp) (by simp)),
    Database.readLine?_nil, Option.bind_some, Database.readFrom?_line hline,
    readLine?_rule hclear hstart hsource hpaths, Option.bind_some,
    Database.readFrom?_line hrecipe, Database.readLine?_tab rfl (by decide)]
  rfl

/-- The rules are read one after the other. -/
theorem exists_rules (hclear : Clear settings value start)
    (hstart : database.value "OBJECT_PREFIX".toList = start)
    {entries : List (String × Prerequisites)}
    (hsources : ∀ entry ∈ entries, IsFile entry.1.toList)
    (hpaths : ∀ entry ∈ entries, ∀ path ∈ entry.2.paths, IsFile path.toList) :
    ∃ whole, database.readFrom? (String.join (entries.map (rule settings))).toList = some whole ∧
      whole.value = database.value ∧
      whole.rules = database.rules ++ entries.map (readRule settings start) := by
  induction entries generalizing database with
  | nil => exact ⟨database, rfl, rfl, by simp⟩
  | cons entry others ih =>
      obtain ⟨hsource, hsources⟩ := List.forall_mem_cons.mp hsources
      obtain ⟨hentry, hpaths⟩ := List.forall_mem_cons.mp hpaths
      rw [List.map_cons, String.join_cons, String.toList_append,
        readFrom?_rule hclear hstart hsource hentry]
      have hnext : Database.value ⟨database.value, database.rules,
          some (readRule settings start entry)⟩ "OBJECT_PREFIX".toList = start := hstart
      obtain ⟨whole, hread, hvalue, hrules⟩ := ih hnext hsources hpaths
      refine ⟨whole, hread, hvalue, ?_⟩
      rw [hrules]
      simp [Database.rules]

end Makefile

end IncludeDeps
