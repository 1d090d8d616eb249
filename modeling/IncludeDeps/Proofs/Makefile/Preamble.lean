import IncludeDeps.Proofs.Makefile.SourceList

/-!
# The preamble, read by make

The preamble defines the prefix of the objects, the list of the objects and the name of the
program.  It has the rule for the program, whose prerequisites are the objects
(`exists_front`).

All that is asked of the sources is that make reads their names as themselves.  Of the
settings it is asked that their prefixes make such names of such names, and that they
expand to the same texts whatever the variables of the Makefile itself hold (`Clear`).
-/

namespace IncludeDeps.Makefile

open Make

variable {source : String} {sources : List String} {value : List Char → List Char}
  {start : List Char} {settings : MakefileSettings} {database : Database}

/-! ## Settings -/

/-- The variables that a Makefile defines. -/
def ownNames : List (List Char) :=
  ["SOURCES", "OBJECT_PREFIX", "OBJECTS", "OUTPUT_PREFIX", "TARGET_OUTPUT"].map String.toList

/-- Values that differ from others in what a Makefile defines at most. -/
def Agrees (value other : List Char → List Char) : Prop :=
  ∀ name, name ∉ ownNames → other name = value name

theorem Agrees.update {other : List Char → List Char} (h : Agrees value other)
    {name : List Char} (hown : name ∈ ownNames) (text : List Char) :
    Agrees value (Function.update other name text) := by
  intro outer houter
  rw [Function.update_of_ne (ne_of_mem_of_not_mem hown houter).symm]
  exact h outer houter

/-- A text on one line that make expands to a result, whatever the variables hold that the
Makefile defines itself. -/
structure Settles (value : List Char → List Char) (text result : List Char) : Prop where
  feed : '\n' ∉ text
  comment : '#' ∉ text
  slash : '\\' ∉ text
  expand?_eq : ∀ other, Agrees value other →
    expand? other (text.dropWhile Make.isBlank) = some result

/-- Settings whose prefixes settle, that of the objects on a start.  Where it is put in front
of names that make reads as themselves, there are such names again, and so it is with the
prefix of the program. -/
structure Clear (settings : MakefileSettings) (value : List Char → List Char)
    (start : List Char) : Prop where
  object : Settles value settings.objectPrefix.toList start
  isFile_start : settings.prefixObjects = true → ∀ name, IsFile name → IsFile (start ++ name)
  output : ∃ ending, Settles value settings.outputPrefix.toList ending ∧
    ∀ name ∈ words (value "TARGET_OUTPUT".toList), IsFile (ending ++ name)

/-- What stands in front of the name of every object. -/
def objectStart (settings : MakefileSettings) (start : List Char) : List Char :=
  if settings.prefixObjects then start else []

/-- The object of a source, as make names it. -/
def objectFile (settings : MakefileSettings) (start : List Char) (source : String) : List Char :=
  objectStart settings start ++ (objectName source).toList

/-- The settings that are taken where none are given are clear if `TARGET` has no special
characters. -/
theorem clear_default (htarget : IsLiteral (value "TARGET".toList))
    (hprogram : ∀ name ∈ words (value "TARGET_OUTPUT".toList), IsFile name) :
    Clear {} value ("../obj/".toList ++ (value "TARGET".toList ++ "/".toList)) := by
  have hobject : Settles value "../obj/$(TARGET)/".toList
      ("../obj/".toList ++ (value "TARGET".toList ++ "/".toList)) := by
    refine ⟨by decide, by decide, by decide, fun other hagrees => ?_⟩
    have htext : "../obj/$(TARGET)/".toList.dropWhile Make.isBlank =
        "../obj/".toList ++ (variableReference "TARGET".toList ++ "/".toList) := by decide +kernel
    have hreference : Yields other (variableReference "TARGET".toList) _ :=
      yields_variable (by decide)
    rw [hagrees _ (by decide)] at hreference
    rw [htext]
    exact ((expands_of_notMem (by decide)).append
      (hreference.expands.append (expands_of_notMem (by decide)))).expand?_eq
  have houtput : Settles value "../bin/".toList "../bin/".toList := by
    refine ⟨by decide, by decide, by decide, fun other _ => ?_⟩
    exact (expands_of_notMem (by decide)).expand?_eq
  refine ⟨hobject, fun _ name hname => ⟨by simp, fun c hc => ?_, by simp⟩, _, houtput,
    fun name hname => ⟨by simp, fun c hc => ?_, by simp⟩⟩
  · have hsigns : IsLiteral "../obj/".toList ∧ IsLiteral "/".toList := by decide
    rcases List.mem_append.mp hc with hc | hc
    · rcases List.mem_append.mp hc with hc | hc
      · exact hsigns.1 c hc
      · exact (List.mem_append.mp hc).elim (htarget c) (hsigns.2 c)
    · exact hname.literal c hc
  · have hsigns : IsLiteral "../bin/".toList := by decide
    exact (List.mem_append.mp hc).elim (hsigns c) ((hprogram name hname).literal c)

/-- The values of a build of one program. -/
def programValues (name : List Char) : List Char :=
  if name = "TARGET".toList ∨ name = "TARGET_OUTPUT".toList then "prog".toList else []

theorem clear_programValues : Clear {} programValues "../obj/prog/".toList :=
  clear_default (by decide) (by decide +kernel)

/-! ## The lines of the preamble -/

/-- The text that makes the names of the objects from those of the sources. -/
def stemsText : List Char :=
  callReference "addsuffix".toList
    [".o".toList, callReference "basename".toList [variableReference "SOURCES".toList]]

/-- The text that puts the prefix of the objects in front of names. -/
def prefixedText (names : List Char) : List Char :=
  callReference "addprefix".toList [variableReference "OBJECT_PREFIX".toList, names]

/-- The text of the variable that lists the objects. -/
def objectsText (settings : MakefileSettings) : List Char :=
  if settings.prefixObjects then prefixedText stemsText else stemsText

/-- The text of the variable that names the program. -/
def programText : List Char :=
  callReference "addprefix".toList
    [variableReference "OUTPUT_PREFIX".toList, variableReference "TARGET_OUTPUT".toList]

/-- The lines of the preamble that depend on the settings. -/
def settingLines (settings : MakefileSettings) : List (List Char) :=
  ["OBJECT_PREFIX".toList ++ ':' :: '=' :: settings.objectPrefix.toList,
    "OBJECTS".toList ++ ':' :: '=' :: objectsText settings,
    "OUTPUT_PREFIX".toList ++ ':' :: '=' :: settings.outputPrefix.toList]

/-- The lines with the rules that prepare a build. -/
def prepareLines : List (List Char) :=
  [[],
    "all".toList ++ ':' :: " prepare_build ".toList ++ variableReference "TARGET_OUTPUT".toList,
    [],
    "prepare_build:".toList,
    '\t' :: "mkdir -p $(OBJECT_PREFIX)".toList,
    '\t' :: "mkdir -p $(OUTPUT_PREFIX)".toList,
    ".PHONY: all prepare_build".toList,
    []]

/-- The lines with the rule for the program. -/
def linkLines : List (List Char) :=
  [variableReference "TARGET_OUTPUT".toList ++ ':' :: ' ' :: variableReference "OBJECTS".toList,
    '\t' :: "$(TARGET_CC) $(TARGET_CFLAGS) $(TARGET_LDFLAGS) $(LDFLAGS) $(CFLAGS) $^ -o $@".toList]

/-- The lines that are the same in every preamble. -/
def commonLines : List (List Char) :=
  ("TARGET_OUTPUT".toList ++ ':' :: '=' :: programText) :: (prepareLines ++ linkLines)

theorem toList_objectList (settings : MakefileSettings) :
    (objectList settings).toList =
      "OBJECTS".toList ++ ':' :: '=' :: (objectsText settings ++ ['\n']) := by
  unfold objectList objectsText
  split <;> rfl

theorem toList_preamble (settings : MakefileSettings) :
    (preamble settings).toList = unlines (settingLines settings ++ commonLines) := by
  have hlines : unlines (settingLines settings ++ commonLines) = "OBJECT_PREFIX:=".toList ++
      (settings.objectPrefix.toList ++ ("\n".toList ++ ((objectList settings).toList ++
        ("OUTPUT_PREFIX:=".toList ++ (settings.outputPrefix.toList ++ ("\n".toList ++
          unlines commonLines)))))) := by
    simp [unlines, settingLines, toList_objectList]
  rw [hlines]
  unfold preamble
  simp only [String.append_assoc, String.toList_append, List.append_cancel_left_eq]
  decide +kernel

/-- The preamble ends its last line. -/
theorem getLast?_preamble (before : String) (settings : MakefileSettings) :
    (before ++ preamble settings).toList.getLast? = some '\n' := by
  have hcommon : (unlines commonLines).getLast? = some '\n' := by decide +kernel
  rw [String.toList_append, toList_preamble, unlines, List.flatMap_append, ← unlines, ← unlines,
    ← List.append_assoc, List.getLast?_append, hcommon, Option.some_or]

/-! ## What they define -/

/-- The names that the list of objects makes of the sources. -/
def stemNames (sources : List String) : List (List Char) :=
  (sources.map fun source => withoutSuffix source.toList).flatMap words |>.map (· ++ ".o".toList)

theorem withoutSuffix_isPrefix (name : List Char) : withoutSuffix name <+: name := by
  unfold withoutSuffix
  split
  · next before hbefore =>
    have hsuffix : '.' :: before <:+ name.reverse := hbefore ▸ List.dropWhile_suffix _
    rw [← List.reverse_suffix, List.reverse_reverse]
    exact (List.suffix_cons _ _).trans hsuffix
  · exact List.prefix_rfl

theorem isFile_of_mem_stemNames (hsources : ∀ source ∈ sources, IsFile source.toList)
    {name : List Char} (hname : name ∈ stemNames sources) : IsFile name := by
  obtain ⟨stem, hstem, rfl⟩ := List.mem_map.mp hname
  obtain ⟨cut, hcut, hstem⟩ := List.mem_flatMap.mp hstem
  obtain ⟨source, hsource, rfl⟩ := List.mem_map.mp hcut
  have hbegins := withoutSuffix_isPrefix source.toList
  by_cases hempty : withoutSuffix source.toList = []
  · rw [hempty] at hstem
    cases hstem
  · have hfile := (hsources source hsource).of_isPrefix hbegins hempty
    rw [words_of_isWord hfile.isWord, List.mem_singleton] at hstem
    rw [hstem]
    exact hfile.append (by decide) (by decide)

theorem yields_stemsText (hsources : ∀ source ∈ sources, IsFile source.toList)
    (hvalue : value "SOURCES".toList = unwords (sources.map String.toList)) :
    Yields value stemsText (unwords (stemNames sources)) := by
  have hnames : ∀ name ∈ sources.map String.toList, IsWord name :=
    List.forall_mem_map.mpr fun source hsource => (hsources source hsource).isWord
  have hlist : Yields value (variableReference "SOURCES".toList) _ := yields_variable (by decide)
  have hstems : Yields value (callReference "basename".toList [variableReference "SOURCES".toList])
      (Builtin.stems.apply [value "SOURCES".toList]) :=
    yields_call rfl (by decide) (.cons hlist .nil) rfl
  have hsuffix : Yields value ".o".toList _ := yields_literal (by decide)
  have hcall : Yields value stemsText (Builtin.suffixed.apply [".o".toList,
      Builtin.stems.apply [value "SOURCES".toList]]) :=
    yields_call rfl (by decide) (.cons hsuffix (.cons hstems .nil)) rfl
  rw [hvalue] at hcall
  simp only [Builtin.apply, words_unwords_of_isWord hnames, words_unwords, List.map_map] at hcall
  exact hcall

theorem yields_prefixedText {names : List (List Char)} {text : List Char}
    (htext : Yields value text (unwords names)) (hnames : ∀ name ∈ names, IsWord name) :
    Yields value (prefixedText text) (unwords (names.map (value "OBJECT_PREFIX".toList ++ ·))) := by
  have hstart : Yields value (variableReference "OBJECT_PREFIX".toList) _ :=
    yields_variable (by decide)
  have hcall : Yields value (prefixedText text)
      (Builtin.prefixed.apply [value "OBJECT_PREFIX".toList, unwords names]) :=
    yields_call rfl (by decide) (.cons hstart (.cons htext .nil)) rfl
  rw [Builtin.apply, words_unwords_of_isWord hnames] at hcall
  exact hcall

/-- The names of the objects in the list. -/
def objectNames (settings : MakefileSettings) (start : List Char) (sources : List String) :
    List (List Char) :=
  (stemNames sources).map (objectStart settings start ++ ·)

theorem yields_objectsText (settings : MakefileSettings)
    (hsources : ∀ source ∈ sources, IsFile source.toList)
    (hvalue : value "SOURCES".toList = unwords (sources.map String.toList))
    (hstart : value "OBJECT_PREFIX".toList = start) :
    Yields value (objectsText settings) (unwords (objectNames settings start sources)) := by
  have hstems := yields_stemsText hsources hvalue
  have hwords : ∀ name ∈ stemNames sources, IsWord name := fun name hname =>
    (isFile_of_mem_stemNames hsources hname).isWord
  unfold objectsText objectNames objectStart
  split
  · rw [← hstart]
    exact yields_prefixedText hstems hwords
  · simpa using hstems

theorem isFile_objectStart_append (hclear : Clear settings value start) {name : List Char}
    (hname : IsFile name) : IsFile (objectStart settings start ++ name) := by
  unfold objectStart
  split
  · next hprefixed => exact hclear.isFile_start hprefixed name hname
  · exact hname

theorem isFile_of_mem_objectNames (hclear : Clear settings value start)
    (hsources : ∀ source ∈ sources, IsFile source.toList) {name : List Char}
    (hname : name ∈ objectNames settings start sources) : IsFile name := by
  obtain ⟨object, hobject, rfl⟩ := List.mem_map.mp hname
  exact isFile_objectStart_append hclear (isFile_of_mem_stemNames hsources hobject)

/-! ## Reading the preamble -/

theorem readLine?_settles {name text result : List Char} (hname : isVariable name = true)
    (htext : Settles value text result) (hagrees : Agrees value database.value) :
    database.readLine? (name ++ ':' :: '=' :: text) = some (database.define name result) :=
  Database.readLine?_expand hname htext.slash htext.comment (htext.expand?_eq _ hagrees)

theorem readLine?_objects (settings : MakefileSettings)
    (hsources : ∀ source ∈ sources, IsFile source.toList)
    (hvalue : database.value "SOURCES".toList = unwords (sources.map String.toList))
    (hstart : database.value "OBJECT_PREFIX".toList = start) :
    database.readLine? ("OBJECTS".toList ++ ':' :: '=' :: objectsText settings) =
      some (database.define "OBJECTS".toList (unwords (objectNames settings start sources))) := by
  have hyields := yields_objectsText settings hsources hvalue hstart
  have hplain : '\\' ∉ objectsText settings ∧ '#' ∉ objectsText settings ∧
      (objectsText settings).dropWhile Make.isBlank = objectsText settings := by
    unfold objectsText
    split <;> decide +kernel
  refine Database.readLine?_expand (by decide) hplain.1 hplain.2.1 ?_
  rw [hplain.2.2]
  exact hyields.expands.expand?_eq

/-- The names of the program. -/
def programNames (value : List Char → List Char) (ending : List Char) : List (List Char) :=
  (words (value "TARGET_OUTPUT".toList)).map (ending ++ ·)

theorem readLine?_program {ending : List Char}
    (hending : database.value "OUTPUT_PREFIX".toList = ending) :
    database.readLine? ("TARGET_OUTPUT".toList ++ ':' :: '=' :: programText) =
      some (database.define "TARGET_OUTPUT".toList
        (unwords (programNames database.value ending))) := by
  have hreference : Yields database.value (variableReference "OUTPUT_PREFIX".toList) _ :=
    yields_variable (by decide)
  have hname : Yields database.value (variableReference "TARGET_OUTPUT".toList) _ :=
    yields_variable (by decide)
  have hcall : Yields database.value programText (Builtin.prefixed.apply
      [database.value "OUTPUT_PREFIX".toList, database.value "TARGET_OUTPUT".toList]) :=
    yields_call rfl (by decide) (.cons hreference (.cons hname .nil)) rfl
  rw [Builtin.apply, hending] at hcall
  exact Database.readLine?_expand (by decide) (by decide) (by decide) hcall.expands.expand?_eq

/-- The lines with the settings define the prefixes and the objects. -/
theorem exists_settings {ending : List Char} (hclear : Clear settings value start)
    (hsources : ∀ source ∈ sources, IsFile source.toList) (hagrees : Agrees value database.value)
    (hvalue : database.value "SOURCES".toList = unwords (sources.map String.toList))
    (hending : Settles value settings.outputPrefix.toList ending) :
    ∃ later, (settingLines settings).foldlM Database.readLine? database = some later ∧
      Agrees value later.value ∧ later.value "OBJECT_PREFIX".toList = start ∧
      later.value "OBJECTS".toList = unwords (objectNames settings start sources) ∧
      later.value "OUTPUT_PREFIX".toList = ending ∧
      later.value "TARGET_OUTPUT".toList = database.value "TARGET_OUTPUT".toList := by
  have hprefixed := hagrees.update (by decide : "OBJECT_PREFIX".toList ∈ ownNames) start
  have hlisted := hprefixed.update (by decide : "OBJECTS".toList ∈ ownNames)
    (unwords (objectNames settings start sources))
  have hobjects := readLine?_objects settings hsources
    ((Database.value_define_of_ne (by decide) database start).trans hvalue)
    (database.value_define_self "OBJECT_PREFIX".toList start)
  refine ⟨_, (Database.foldlM_readLine?_cons (readLine?_settles (by decide) hclear.object
    hagrees)).trans <| (Database.foldlM_readLine?_cons hobjects).trans <|
    (Database.foldlM_readLine?_cons (readLine?_settles (by decide) hending hlisted)).trans rfl,
    hlisted.update (by decide) ending, ?_, ?_, Database.value_define_self _ _ _, ?_⟩
  · rw [Database.value_define_of_ne (by decide), Database.value_define_of_ne (by decide),
      Database.value_define_self]
  · rw [Database.value_define_of_ne (by decide), Database.value_define_self]
  · rw [Database.value_define_of_ne (by decide), Database.value_define_of_ne (by decide),
      Database.value_define_of_ne (by decide)]

theorem readLine?_all {programs : List (List Char)}
    (hvalue : database.value "TARGET_OUTPUT".toList = unwords programs)
    (hprograms : ∀ name ∈ programs, IsFile name) :
    database.readLine? ("all".toList ++ ':' :: " prepare_build ".toList ++
        variableReference "TARGET_OUTPUT".toList) =
      some (database.addRule ⟨["all".toList], "prepare_build".toList :: programs, []⟩) := by
  have hwords : words (" prepare_build ".toList ++ unwords programs) =
      "prepare_build".toList :: programs := by
    have hbefore : words " prepare_build".toList = ["prepare_build".toList] := by decide +kernel
    have hsplit : words (" prepare_build".toList ++ ' ' :: unwords programs) = _ :=
      words_append_blank (by decide) _ _
    rw [hbefore, words_unwords_of_isWord fun name hname => (hprograms name hname).isWord] at hsplit
    exact hsplit
  have hfiles : files? (" prepare_build ".toList ++ unwords programs) =
      some ("prepare_build".toList :: programs) := by
    rw [files?_eq_some, hwords]
    rw [hwords]
    exact List.forall_mem_cons.mpr ⟨by decide, hprograms⟩
  have hname : Yields database.value (variableReference "TARGET_OUTPUT".toList) _ :=
    yields_variable (by decide)
  rw [hvalue] at hname
  have hrule := rule?_eq_some (expands_of_notMem (by decide : '$' ∉ "all".toList))
    ((expands_of_notMem (by decide : '$' ∉ " prepare_build ".toList)).append hname.expands)
    (by decide +kernel : files? "all".toList = some ["all".toList]) hfiles
  exact Database.readLine?_rule rfl (by decide) (by decide) (by decide) (by decide) (by decide)
    (by decide) (by decide) hrule

theorem readLine?_prepare :
    database.readLine? "prepare_build:".toList =
      some (database.addRule ⟨["prepare_build".toList], [], []⟩) := by
  have hrule : rule? database.value "prepare_build".toList [] = _ :=
    rule?_eq_some (expands_of_notMem (by decide)) (expands_of_notMem (by decide))
      (by decide +kernel : files? "prepare_build".toList = some ["prepare_build".toList]) rfl
  exact Database.readLine?_rule rfl (by decide) (by decide) (by decide) (by decide) (by decide)
    (by decide) (by decide) hrule

theorem readLine?_phony :
    database.readLine? ".PHONY: all prepare_build".toList = some (database.addRule
      ⟨[".PHONY".toList], ["all".toList, "prepare_build".toList], []⟩) := by
  have hrule : rule? database.value ".PHONY".toList " all prepare_build".toList = _ :=
    rule?_eq_some (expands_of_notMem (by decide)) (expands_of_notMem (by decide))
      (by decide +kernel : files? ".PHONY".toList = some [".PHONY".toList])
      (by decide +kernel : files? " all prepare_build".toList =
        some ["all".toList, "prepare_build".toList])
  exact Database.readLine?_rule rfl (by decide) (by decide) (by decide) (by decide) (by decide)
    (by decide) (by decide) hrule

/-- The rules that prepare a build define nothing. -/
theorem exists_prepared {programs : List (List Char)}
    (hvalue : database.value "TARGET_OUTPUT".toList = unwords programs)
    (hprograms : ∀ name ∈ programs, IsFile name) :
    ∃ later, prepareLines.foldlM Database.readLine? database = some later ∧
      later.value = database.value :=
  ⟨_, (Database.foldlM_readLine?_cons Database.readLine?_nil).trans <|
    (Database.foldlM_readLine?_cons (readLine?_all hvalue hprograms)).trans <|
    (Database.foldlM_readLine?_cons Database.readLine?_nil).trans <|
    (Database.foldlM_readLine?_cons readLine?_prepare).trans <|
    (Database.foldlM_readLine?_cons (Database.readLine?_tab rfl (by decide))).trans <|
    (Database.foldlM_readLine?_cons (Database.readLine?_tab rfl (by decide))).trans <|
    (Database.foldlM_readLine?_cons readLine?_phony).trans <|
    (Database.foldlM_readLine?_cons Database.readLine?_nil).trans rfl, rfl⟩

theorem readLine?_link {programs objects : List (List Char)}
    (hvalue : database.value "TARGET_OUTPUT".toList = unwords programs)
    (hlist : database.value "OBJECTS".toList = unwords objects)
    (hprograms : ∀ name ∈ programs, IsFile name) (hobjects : ∀ name ∈ objects, IsFile name) :
    database.readLine? (variableReference "TARGET_OUTPUT".toList ++ ':' :: ' ' ::
        variableReference "OBJECTS".toList) =
      some (database.addRule ⟨programs, objects, []⟩) := by
  have hname : Yields database.value (variableReference "TARGET_OUTPUT".toList) _ :=
    yields_variable (by decide)
  have hobjectList : Yields database.value (variableReference "OBJECTS".toList) _ :=
    yields_variable (by decide)
  rw [hvalue] at hname
  rw [hlist] at hobjectList
  exact Database.readLine?_rule rfl (by decide) isDirective_dollar (by decide) (by decide)
    (by decide) (by decide) (by decide) (rule?_eq_some hname.expands hobjectList.expands.spaced
      (files?_unwords hprograms) (files?_space.trans (files?_unwords hobjects)))

/-- The rule for the program is the last one in the preamble. -/
theorem exists_linked {programs objects : List (List Char)}
    (hvalue : database.value "TARGET_OUTPUT".toList = unwords programs)
    (hlist : database.value "OBJECTS".toList = unwords objects)
    (hprograms : ∀ name ∈ programs, IsFile name) (hobjects : ∀ name ∈ objects, IsFile name) :
    ∃ later recipe, linkLines.foldlM Database.readLine? database = some later ∧
      later.current = some ⟨programs, objects, recipe⟩ ∧ later.value = database.value :=
  ⟨_, _, (Database.foldlM_readLine?_cons
      (readLine?_link hvalue hlist hprograms hobjects)).trans <|
    (Database.foldlM_readLine?_cons (Database.readLine?_tab rfl (by decide))).trans rfl, rfl, rfl⟩

/-- The common lines define the name of the program, and the last of their rules has the
objects for its prerequisites. -/
theorem exists_common {ending : List Char} {objects : List (List Char)}
    (hending : database.value "OUTPUT_PREFIX".toList = ending)
    (hlist : database.value "OBJECTS".toList = unwords objects)
    (hprograms : ∀ name ∈ programNames database.value ending, IsFile name)
    (hobjects : ∀ name ∈ objects, IsFile name) :
    ∃ later programs recipe, commonLines.foldlM Database.readLine? database = some later ∧
      later.current = some ⟨programs, objects, recipe⟩ ∧ words (unwords programs) = programs ∧
      later.value = (database.define "TARGET_OUTPUT".toList (unwords programs)).value := by
  have hwords := words_unwords_of_isWord fun name hname => (hprograms name hname).isWord
  have hprogram := readLine?_program hending
  generalize programNames database.value ending = programs at hprograms hprogram hwords
  generalize hnamed : database.define "TARGET_OUTPUT".toList (unwords programs) = named
    at hprogram
  have hvalue : named.value "TARGET_OUTPUT".toList = unwords programs := by
    rw [← hnamed, Database.value_define_self]
  have hobjectList : named.value "OBJECTS".toList = unwords objects := by
    rw [← hnamed, Database.value_define_of_ne (by decide), hlist]
  obtain ⟨prepared, hprepared, hkept⟩ := exists_prepared hvalue hprograms
  rw [← hkept] at hvalue hobjectList
  obtain ⟨linked, recipe, hlinked, hcurrent, hsame⟩ :=
    exists_linked hvalue hobjectList hprograms hobjects
  refine ⟨linked, programs, recipe, ?_, hcurrent, hwords, hsame.trans (hkept.trans ?_)⟩
  · calc commonLines.foldlM Database.readLine? database
      _ = (prepareLines ++ linkLines).foldlM Database.readLine? named :=
          Database.foldlM_readLine?_cons hprogram
      _ = linkLines.foldlM Database.readLine? prepared := by
          rw [List.foldlM_append, hprepared, Option.bind_eq_bind, Option.bind_some]
      _ = some linked := hlinked
  · rw [hnamed]

/-- What make knows in front of the rules for the objects. -/
structure Front (settings : MakefileSettings) (value : List Char → List Char) (start : List Char)
    (sources : List String) (database : Database) : Prop where
  agrees : Agrees value database.value
  objectPrefix : database.value "OBJECT_PREFIX".toList = start
  objects : database.value "OBJECTS".toList = unwords (objectNames settings start sources)
  link : ∃ programs recipe,
    database.current = some ⟨programs, objectNames settings start sources, recipe⟩ ∧
      words (database.value "TARGET_OUTPUT".toList) = programs

theorem isWhole_of_mem_preamble {ending line : List Char} (hclear : Clear settings value start)
    (hending : Settles value settings.outputPrefix.toList ending)
    (hline : line ∈ settingLines settings ++ commonLines) : IsWhole line := by
  have hdefinition : ∀ {name text : List Char}, isVariable name = true → '\n' ∉ text →
      '\\' ∉ text → IsWhole (name ++ ':' :: '=' :: text) := fun hname hfeed hslash =>
    isWhole_of_notMem (by simp [notMem_of_isVariable hname '\n' (by decide), hfeed])
      (by simp [notMem_of_isVariable hname '\\' (by decide), hslash])
  have hobjects : '\n' ∉ objectsText settings ∧ '\\' ∉ objectsText settings := by
    unfold objectsText
    split <;> decide +kernel
  have hcommon : ∀ line ∈ commonLines, '\n' ∉ line ∧ '\\' ∉ line := by
    decide +kernel
  rcases List.mem_append.mp hline with hsetting | hmem
  · rw [settingLines, List.mem_cons, List.mem_cons, List.mem_singleton] at hsetting
    rcases hsetting with rfl | rfl | rfl
    · exact hdefinition (by decide) hclear.object.feed hclear.object.slash
    · exact hdefinition (by decide) hobjects.1 hobjects.2
    · exact hdefinition (by decide) hending.feed hending.slash
  · exact isWhole_of_notMem (hcommon line hmem).1 (hcommon line hmem).2

/-- Whatever follows, the front of a Makefile is read first. -/
theorem exists_front (hclear : Clear settings value start)
    (hsources : ∀ source ∈ sources, IsFile source.toList) :
    ∃ database, Front settings value start sources database ∧
      ∀ rest, read? value ((sourceList sources ++ "\n" ++ preamble settings).toList ++ rest) =
        database.readFrom? rest := by
  obtain ⟨ending, hending, hoffered⟩ := hclear.output
  have hwhole : ∀ line ∈ settingLines settings ++ commonLines, IsWhole line :=
    fun line => isWhole_of_mem_preamble hclear hending
  generalize hlisted : Database.define ⟨value, [], none⟩ "SOURCES".toList
    (unwords (sources.map String.toList)) = listed
  have hagrees : Agrees value listed.value := by
    rw [← hlisted]
    exact Agrees.update (fun _ _ => rfl) (by decide) _
  have hvalue : listed.value "SOURCES".toList = unwords (sources.map String.toList) := by
    rw [← hlisted, Database.value_define_self]
  have hprogram : listed.value "TARGET_OUTPUT".toList = value "TARGET_OUTPUT".toList := by
    rw [← hlisted, Database.value_define_of_ne (by decide)]
  obtain ⟨later, hsettings, hlater, hstart, hobjects, hafter, hsame⟩ :=
    exists_settings hclear hsources hagrees hvalue hending
  have hprograms : ∀ name ∈ programNames later.value ending, IsFile name := by
    rw [programNames, hsame, hprogram]
    exact List.forall_mem_map.mpr hoffered
  obtain ⟨database, programs, recipe, hcommon, hcurrent, hwords, hdefined⟩ :=
    exists_common hafter hobjects hprograms fun name hname =>
      isFile_of_mem_objectNames hclear hsources hname
  refine ⟨database, ⟨?_, ?_, ?_, programs, recipe, hcurrent, ?_⟩, fun rest => ?_⟩
  · rw [hdefined]
    exact hlater.update (by decide) _
  · rw [hdefined, Database.value_define_of_ne (by decide), hstart]
  · rw [hdefined, Database.value_define_of_ne (by decide), hobjects]
  · rw [hdefined, Database.value_define_self, hwords]
  · have htext : (sourceList sources ++ "\n" ++ preamble settings).toList ++ rest =
        (sourceList sources).toList ++ ([] ++ '\n' ::
          (unlines (settingLines settings ++ commonLines) ++ rest)) := by
      rw [← toList_preamble]
      simp
    rw [htext, read?, readFrom?_sourceList hsources, hlisted,
      Database.readFrom?_line (isWhole_of_notMem (by simp) (by simp)), Database.readLine?_nil,
      Option.bind_some, Database.readFrom?_unlines hwhole, List.foldlM_append, hsettings,
      Option.bind_eq_bind, Option.bind_some, hcommon, Option.bind_some]

end IncludeDeps.Makefile
