import IncludeDeps.Proofs.Makefile.Recipes

/-!
# The objects and their rules

A Makefile computes the list of objects from the list of sources when make reads it, while
the target of each rule was computed when the Makefile was written.  Make cuts off what
follows the last period of a name.  The target is made in the same way, but for a name that
begins with its only period, which has no extension and is kept as it is.  Such a name, or
one without a period, is never found as a source: what is found has an extension, if only
an empty one (`exists_extension`).  So the names in the list are those of the objects
(`objectNames_eq`), and so are the targets (`targets_rule`).

The list is read where the Makefile stands, with all of its definitions: the front of the
Makefile is read up to its end (`exists_front`), and the rules behind it define nothing
(`exists_rules`).  What `OBJECT_PREFIX` holds stands in front of the same names in both.
-/

namespace IncludeDeps

open Make

/-! ## Names of sources -/

/-- Whether a character is a letter, a digit, or one of the signs that are usual in names. -/
def isPortable (c : Char) : Bool :=
  c.isAlphanum || c == '.' || c == '_' || c == '-' || c == '+'

/-- A name of portable characters only. -/
def IsPortable (name : String) : Prop :=
  ∀ c ∈ name.toList, isPortable c = true

instance (name : String) : Decidable (IsPortable name) :=
  decidable_of_iff (name.toList.all isPortable = true) List.all_eq_true

theorem ne_of_isPortable {c : Char} (hc : isPortable c = true) (special : Char)
    (hspecial : isPortable special = false) : c ≠ special := by
  rintro rfl
  cases hc.symm.trans hspecial

theorem notMem_of_isPortable {name : String} (hname : IsPortable name) (special : Char)
    (hspecial : isPortable special = false) : special ∉ name.toList :=
  fun hmem => ne_of_isPortable (hname special hmem) special hspecial rfl

theorem lt_of_isAlphanum {c : Char} (hc : c.isAlphanum = true) : ' ' < c := by
  have hkinds : (c.isUpper || c.isLower || c.isDigit) = true := hc
  rw [Bool.or_eq_true, Bool.or_eq_true] at hkinds
  rcases hkinds with (hupper | hlower) | hdigit
  · have hbounds := of_decide_eq_true hupper
    exact UInt32.lt_of_lt_of_le (by decide : ' '.val < 'A'.val) hbounds.1
  · have hbounds := (Bool.and_eq_true _ _).mp hlower
    exact UInt32.lt_of_lt_of_le (by decide : ' '.val < 'a'.val) (of_decide_eq_true hbounds.1)
  · have hbounds := (Bool.and_eq_true _ _).mp hdigit
    exact UInt32.lt_of_lt_of_le (by decide : ' '.val < '0'.val) (of_decide_eq_true hbounds.1)

/-- A portable character means nothing to make. -/
theorem isLiteral_of_isPortable {c : Char} (hc : isPortable c = true) : isLiteral c = true := by
  have hspecial : specials.all (fun special => !isPortable special) = true := by decide
  have hinked : ' ' < c := by
    simp only [isPortable, Bool.or_eq_true, beq_iff_eq] at hc
    rcases hc with (((halphanum | rfl) | rfl) | rfl) | rfl
    · exact lt_of_isAlphanum halphanum
    all_goals decide
  rw [isLiteral, Bool.and_eq_true, decide_eq_true_iff, Bool.not_eq_true', List.contains_eq_mem,
    decide_eq_false_iff_not]
  refine ⟨hinked, fun hmem => ?_⟩
  have hother := List.all_eq_true.mp hspecial c hmem
  rw [hc] at hother
  cases hother

/-- A portable name is one that make reads as itself. -/
theorem IsPortable.isFile {name : String} (hname : IsPortable name) (hne : name ≠ "") :
    IsFile name.toList := by
  refine ⟨by simpa using hne, fun c hc => isLiteral_of_isPortable (hname c hc), fun hleaves => ?_⟩
  exact notMem_of_isPortable hname '/' (by decide) (hleaves.subset (by simp))

theorem hasSourceExtension_of_discovered {tree : Tree} {location : Location}
    {wanted : List String} {source : String} (h : source ∈ (tree.discover location wanted).1) :
    hasSourceExtension wanted source = true :=
  (mem_discoverAmong_iff.mp h).2

/-- A source without slashes is a stem, a period and an extension that is wanted. -/
theorem exists_extension {wanted : List String} {source : String} (hslash : '/' ∉ source.toList)
    (h : hasSourceExtension wanted source = true) :
    ∃ stem extension, source = stem ++ "." ++ extension ∧ '.' ∉ extension.toList ∧ stem ≠ "" ∧
      Path.stem? source = some stem ∧ ∃ candidate ∈ wanted, dropDot candidate = extension := by
  unfold hasSourceExtension at h
  split at h
  · cases h
  · next extension hextension =>
    obtain ⟨name, hname, hsplit⟩ := Option.bind_eq_some_iff.mp hextension
    obtain rfl := Path.eq_of_fileName? hslash hname
    obtain ⟨⟨stem, rest⟩, hparts, hrest⟩ := Option.map_eq_some_iff.mp hsplit
    obtain rfl : String.ofList rest = extension := hrest
    obtain ⟨hsource, hperiod, hne⟩ := Path.splitExtension?_eq_some hparts
    obtain ⟨candidate, hcandidate, hwanted⟩ := List.any_eq_true.mp h
    refine ⟨String.ofList stem, String.ofList rest, ?_, by simpa using hperiod, by simpa using hne,
      ?_, candidate, hcandidate, eq_of_beq hwanted⟩
    · apply String.toList_inj.mp
      simpa using hsource
    · rw [Path.stem?, hname, Option.map_some, hparts]

namespace Makefile

variable {sources : List String} {source : String} {value : List Char → List Char}

theorem objectName_of_stem? {stem : String} (h : Path.stem? source = some stem) :
    objectName source = stem ++ ".o" := by
  rw [objectName, h, Option.getD_some]

/-- A name that make reads as itself, of which something stays without its suffix, and
whose object is named after what stays. -/
structure IsSource (source : String) : Prop where
  isFile : IsFile source.toList
  withoutSuffix_ne_nil : withoutSuffix source.toList ≠ []
  objectName_eq : (objectName source).toList = withoutSuffix source.toList ++ ".o".toList

theorem isSource_of_discovered {tree : Tree} {location : Location} {wanted : List String}
    (hportable : IsPortable source) (h : source ∈ (tree.discover location wanted).1) :
    IsSource source := by
  have hslash := notMem_of_isPortable hportable '/' (by decide)
  obtain ⟨stem, extension, hname, hperiod, hne, hstem, -⟩ :=
    exists_extension hslash (hasSourceExtension_of_discovered h)
  have hsource : source.toList = stem.toList ++ '.' :: extension.toList := by
    rw [hname]
    simp
  have hwithout : withoutSuffix source.toList = stem.toList := by
    rw [hsource] at hslash ⊢
    exact withoutSuffix_append hperiod fun hmem => hslash (by simp [hmem])
  have hempty : source ≠ "" := by
    rintro rfl
    simp at hsource
  refine ⟨hportable.isFile hempty, by simpa [hwithout] using hne, ?_⟩
  rw [objectName_of_stem? hstem, hwithout, String.toList_append]

/-! ## The two ways to name objects -/

theorem stemNames_eq (hsources : ∀ source ∈ sources, IsSource source) :
    stemNames sources = sources.map fun source => (objectName source).toList := by
  have hwords : ∀ source ∈ sources,
      words (withoutSuffix source.toList) = [withoutSuffix source.toList] := by
    intro source hsource
    obtain ⟨hfile, hne, -⟩ := hsources source hsource
    exact words_of_isWord (hfile.of_isPrefix (withoutSuffix_isPrefix _) hne).isWord
  rw [stemNames, List.flatMap_map, List.flatMap_congr hwords, List.map_flatMap,
    ← List.flatMap_pure_eq_map]
  exact List.flatMap_congr fun source hsource =>
    congrArg (fun name => [name]) (hsources source hsource).objectName_eq.symm

/-- The names in the list are those of the objects. -/
theorem objectNames_eq (settings : MakefileSettings) (start : List Char)
    (hsources : ∀ source ∈ sources, IsSource source) :
    objectNames settings start sources =
      sources.map (objectFile settings start) := by
  rw [objectNames, stemNames_eq hsources, List.map_map]
  rfl

/-- The target of a rule is the object of its source. -/
theorem targets_rule (settings : MakefileSettings) (entry : String × Prerequisites)
    (hsource : IsFile entry.1.toList)
    (hstart : settings.prefixObjects = true →
      ∀ name, IsFile name → IsFile (value "OBJECT_PREFIX".toList ++ name)) :
    targets value (rule settings entry).toList =
      [objectFile settings (value "OBJECT_PREFIX".toList) entry.1] := by
  have hobject := isFile_objectName hsource
  have htarget : IsFile (objectFile settings (value "OBJECT_PREFIX".toList) entry.1) := by
    unfold objectFile objectStart
    split
    · next hprefixed => exact hstart hprefixed _ hobject
    · exact hobject
  have hrule : (rule settings entry).toList ++ [] = _ := toList_rule settings entry
  rw [List.append_nil] at hrule
  rw [hrule, targets_of_expands (yields_target settings hsource rfl).expands
    (by simpa using htarget) (notMem_target settings hsource ':' (by decide) (by decide))]

example :
    let value := fun name => if name = "SOURCES".toList then "foo. ..c".toList else "obj/".toList
    (expand? value (objectsText {})).map words = some ["obj/foo.o".toList, "obj/..o".toList] := by
  decide +kernel

end Makefile

open Makefile

/-- **The objects that are linked are those with rules.**  The sources are found in a
directory and have portable names, and the prefixes are such that make reads names with
them as themselves.  Then the front of the Makefile, which ends its last line, leaves
`OBJECTS` with the targets of the rules, position by position, and has a rule for the
program whose prerequisites are the objects.  If make reads the prerequisites as themselves
too, it reads the whole Makefile, and the rules define nothing. -/
theorem Graph.objects_eq_targets {tree : Tree} {location : Location} {wanted : List String}
    {graph : Graph}
    (hdiscovered : ∀ source ∈ graph.sources, source ∈ (tree.discover location wanted).1)
    (hportable : ∀ source ∈ graph.sources, IsPortable source) {settings : MakefileSettings}
    {value : List Char → List Char} {start : List Char} (hclear : Clear settings value start) :
    ∃ front database,
      graph.makefile settings = front ++ String.join (graph.entries.map (rule settings)) ∧
      front.toList.getLast? = some '\n' ∧
      read? value front.toList = some database ∧
      (∃ link ∈ database.rules, link.targets = words (database.value "TARGET_OUTPUT".toList) ∧
        link.prerequisites = words (database.value "OBJECTS".toList)) ∧
      List.Forall₂
        (fun object entry => targets database.value (rule settings entry).toList = [object])
        (words (database.value "OBJECTS".toList)) graph.entries ∧
      ((∀ entry ∈ graph.entries, ∀ path ∈ entry.2.paths, IsFile path.toList) →
        ∃ whole objectRules,
          read? value (graph.makefile settings).toList = some whole ∧
          whole.value = database.value ∧ whole.rules = database.rules ++ objectRules ∧
          List.Forall₂ (fun object rule => rule.targets = [object])
            (words (whole.value "OBJECTS".toList)) objectRules) := by
  have hsources : ∀ source ∈ graph.sources, IsSource source := fun source hsource =>
    isSource_of_discovered (hportable source hsource) (hdiscovered source hsource)
  have hfiles : ∀ source ∈ graph.sources, IsFile source.toList := fun source hsource =>
    (hsources source hsource).isFile
  have hentries : ∀ entry ∈ graph.entries, IsFile entry.1.toList := fun entry hentry =>
    hfiles entry.1 (List.mem_map_of_mem hentry)
  obtain ⟨database, hfront, hread⟩ := exists_front hclear hfiles
  have hlist : words (database.value "OBJECTS".toList) =
      objectNames settings start graph.sources := by
    rw [hfront.objects]
    exact words_unwords_of_isWord fun name hname =>
      (isFile_of_mem_objectNames hclear hfiles hname).isWord
  have hwords : words (database.value "OBJECTS".toList) = graph.entries.map fun entry =>
      objectFile settings start entry.1 := by
    rw [hlist, objectNames_eq settings start hsources, Graph.sources, List.map_map]
    rfl
  obtain ⟨programs, recipe, hcurrent, hprograms⟩ := hfront.link
  refine ⟨sourceList graph.sources ++ "\n" ++ preamble settings, database, rfl, ?_, ?_,
    ⟨⟨programs, objectNames settings start graph.sources, recipe⟩, ?_, hprograms.symm, ?_⟩, ?_,
    fun hpaths => ?_⟩
  · exact getLast?_preamble _ settings
  · have hwhole := hread []
    rwa [List.append_nil, Database.readFrom?_nil] at hwhole
  · rw [Database.rules, hcurrent]
    exact List.mem_append_right _ (List.mem_singleton_self _)
  · exact hlist.symm
  · rw [hwords, List.forall₂_map_left_iff, List.forall₂_same]
    intro entry hentry
    rw [targets_rule settings entry (hentries entry hentry)
      (hfront.objectPrefix ▸ hclear.isFile_start), hfront.objectPrefix]
  · obtain ⟨whole, hrules, hvalue, hwhole⟩ :=
      exists_rules hclear hfront.objectPrefix hentries hpaths
    refine ⟨whole, _, ?_, hvalue, hwhole, ?_⟩
    · rw [makefile, String.toList_append, hread, hrules]
    · rw [hvalue, hwords, List.forall₂_map_left_iff, List.forall₂_map_right_iff, List.forall₂_same]
      exact fun entry _ => rfl

/-- Files with names that have their only period at the beginning, two periods there, one at
the end, and several. -/
def Tree.dotted : Tree :=
  .file (Text.bytes ".c") [] <| .file (Text.bytes "..c") [] <| .file (Text.bytes "foo.") [] <|
    .file (Text.bytes "a.b.c") [] .empty

/-- The sources among the dotted names, in another order than they are found. -/
def Graph.dotted : Graph where
  entries := [("foo.", .ofList ["foo."]), ("..c", .ofList ["..c"]), ("a.b.c", .ofList ["a.b.c"])]
  skipped := []
  nodup := by decide

theorem Graph.objects_eq_targets_dotted :
    (∀ source ∈ Graph.dotted.sources, source ∈ (Tree.dotted.discover [] ["c", ""]).1) ∧
      Clear {} programValues "../obj/prog/".toList ∧
      ∃ whole before objectRules,
        read? programValues (Graph.dotted.makefile {}).toList = some whole ∧
        whole.rules = before ++ objectRules ∧
        List.Forall₂ (fun object rule => rule.targets = [object])
          (words (whole.value "OBJECTS".toList)) objectRules := by
  have hdiscovered : ∀ source ∈ Graph.dotted.sources,
      source ∈ (Tree.dotted.discover [] ["c", ""]).1 := by
    intro source hsource
    refine List.mem_mergeSort.mpr ?_
    revert source
    decide +kernel
  have hpaths : ∀ entry ∈ Graph.dotted.entries, ∀ path ∈ entry.2.paths, IsFile path.toList := by
    decide
  obtain ⟨-, database, -, -, -, -, -, hrules⟩ :=
    objects_eq_targets hdiscovered (by decide) clear_programValues
  obtain ⟨whole, objectRules, hread, -, hwhole, htargets⟩ := hrules hpaths
  exact ⟨hdiscovered, clear_programValues, whole, database.rules, objectRules, hread, hwhole,
    htargets⟩

end IncludeDeps
