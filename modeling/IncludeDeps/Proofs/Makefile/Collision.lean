import IncludeDeps.Proofs.Graph.Policies
import IncludeDeps.Proofs.Makefile.Objects

/-!
# Sources that share an object

The target of a rule keeps the stem of its source and drops the extension, and several
extensions may be wanted at once.  So two sources of a directory get one target just if
their names are the same up to their extensions (`target_eq_iff`).  There is no other way
to collide, since each name has but one last period (`Path.stem_unique`).

A graph has no source twice, so its rules have different targets just if no two of its
sources are such names (`Graph.distinct_targets`).  One wanted extension is enough for
that.
-/

namespace IncludeDeps

open Make

/-! ## Names that are the same up to their extensions -/

/-- Two names have the same text in front of their last period. -/
def Path.SameUpToExtension (first second : String) : Prop :=
  ∃ stem extension other, first = stem ++ "." ++ extension ∧ second = stem ++ "." ++ other ∧
    stem ≠ "" ∧ '.' ∉ extension.toList ∧ '.' ∉ other.toList

/-- The last period of a name divides it in one way. -/
theorem Path.stem_unique {stem other extension ending : String} (hstem : stem ≠ "")
    (hother : other ≠ "") (hextension : '.' ∉ extension.toList) (hending : '.' ∉ ending.toList)
    (hsame : stem ++ "." ++ extension = other ++ "." ++ ending) : stem = other := by
  have hlists : stem.toList ++ '.' :: extension.toList = other.toList ++ '.' :: ending.toList := by
    simpa using congrArg String.toList hsame
  have hfirst : splitExtension? (stem.toList ++ '.' :: extension.toList) = _ :=
    splitExtension?_append hextension (by simpa using hstem)
  have hsecond : splitExtension? (other.toList ++ '.' :: ending.toList) = _ :=
    splitExtension?_append hending (by simpa using hother)
  rw [hlists, hsecond] at hfirst
  exact (String.toList_inj.mp (Prod.mk.inj (Option.some.inj hfirst)).1).symm

namespace Makefile

variable {wanted : List String} {settings : MakefileSettings} {first second : String}

theorem target_inj :
    target settings first = target settings second ↔ objectName first = objectName second := by
  unfold target
  split
  · rw [String.append_left_inj, String.append_right_inj]
  · rfl

theorem target_eq_iff_stem {stem other : String} (hfirst : Path.stem? first = some stem)
    (hsecond : Path.stem? second = some other) :
    target settings first = target settings second ↔ stem = other := by
  rw [target_inj, objectName_of_stem? hfirst, objectName_of_stem? hsecond,
    String.append_left_inj]

/-- What is found in a directory gets the same target just if it is the same up to its
extension. -/
theorem target_eq_iff (hfirst : '/' ∉ first.toList) (hsecond : '/' ∉ second.toList)
    (hfound : hasSourceExtension wanted first = true)
    (hother : hasSourceExtension wanted second = true) :
    target settings first = target settings second ↔ Path.SameUpToExtension first second := by
  obtain ⟨stem, extension, hname, hperiod, hne, hstem, -⟩ := exists_extension hfirst hfound
  obtain ⟨stem', extension', hname', hperiod', hne', hstem', -⟩ := exists_extension hsecond hother
  rw [target_eq_iff_stem hstem hstem']
  constructor
  · rintro rfl
    exact ⟨stem, extension, extension', hname, hname', hne, hperiod, hperiod'⟩
  · rintro ⟨shared, ending, ending', hsame, hsame', hshared, hending, hending'⟩
    rw [Path.stem_unique hne hshared hperiod hending (hname.symm.trans hsame),
      Path.stem_unique hne' hshared hperiod' hending' (hname'.symm.trans hsame')]

end Makefile

open Makefile

/-! ## The rules of a graph -/

section

variable {tree : Tree} {root : Location} {wanted : List String} {options : BuildOptions}
  {graph : Graph} {source : String}

theorem Tree.slash_notMem_of_discovered
    (hnames : ∀ child ∈ tree.children root, IsFileName child.1)
    (hsource : source ∈ (tree.discover root wanted).1) : '/' ∉ source.toList := by
  obtain ⟨⟨content, hchild⟩, -⟩ := mem_discoverAmong_iff.mp hsource
  exact slash_notMem_of_isFileName (hnames _ hchild)

theorem hasSourceExtension_unique {extension : String} (hslash : '/' ∉ source.toList)
    (hwanted : ∀ candidate ∈ wanted, dropDot candidate = extension)
    (h : hasSourceExtension wanted source = true) :
    ∃ stem, source = stem ++ "." ++ extension ∧ Path.stem? source = some stem := by
  obtain ⟨stem, ending, hname, -, -, hstem, candidate, hcandidate, hending⟩ :=
    exists_extension hslash h
  rw [← hending, hwanted candidate hcandidate] at hname
  exact ⟨stem, hname, hstem⟩

theorem Makefile.exists_rule_eq (settings : MakefileSettings) (entry : String × Prerequisites) :
    ∃ after, rule settings entry = "\n" ++ target settings entry.1 ++ ":" ++ after := by
  refine ⟨String.join (entry.2.paths.map fun path => " " ++ path) ++ "\n" ++ compileCommand, ?_⟩
  simp only [rule, String.append_assoc]

/-- What make finds in front of the colons of the rules is one target for each source. -/
theorem Graph.flatMap_targets {settings : MakefileSettings} {value : List Char → List Char}
    (hsources : ∀ source ∈ graph.sources, IsFile source.toList)
    (hstart : settings.prefixObjects = true →
      ∀ name, IsFile name → IsFile (value "OBJECT_PREFIX".toList ++ name)) :
    graph.entries.flatMap (fun entry => targets value (rule settings entry).toList) =
      graph.sources.map (objectFile settings (value "OBJECT_PREFIX".toList)) := by
  rw [Graph.sources, List.map_map, ← List.flatMap_pure_eq_map]
  exact List.flatMap_congr fun entry hentry =>
    targets_rule settings entry (hsources entry.1 (List.mem_map_of_mem hentry)) hstart

end

/-- **One object, one rule, up to extensions.**  In the Makefile of a graph whose sources
are found in a directory, two sources have the same target just if their names are the
same up to their extensions.  So no target is defined twice just if no two sources are
such names, as is the case if only one extension is wanted.  If the names are portable and
make reads names with the prefix in front as themselves, that holds for what it reads as
the targets, too. -/
theorem Graph.distinct_targets (tree : Tree) (root : Location) (wanted : List String)
    (options : BuildOptions) (settings : MakefileSettings) (graph : Graph)
    (hnames : ∀ child ∈ tree.children root, IsFileName child.1)
    (hbuilt : (build (tree.sources root) options (tree.discover root wanted).1).1 = .ok graph) :
    (∃ before, graph.makefile settings =
        before ++ String.join (graph.entries.map (rule settings)) ∧
      ∀ entry ∈ graph.entries, ∃ after,
        rule settings entry = "\n" ++ target settings entry.1 ++ ":" ++ after) ∧
      (∀ first ∈ graph.sources, ∀ second ∈ graph.sources,
        target settings first = target settings second ↔ Path.SameUpToExtension first second) ∧
      ((graph.sources.map (target settings)).Nodup ↔
        ∀ first ∈ graph.sources, ∀ second ∈ graph.sources,
          Path.SameUpToExtension first second → first = second) ∧
      (∀ extension, (∀ candidate ∈ wanted, dropDot candidate = extension) →
        (graph.sources.map (target settings)).Nodup) ∧
      ((∀ source ∈ graph.sources, IsPortable source) → ∀ value,
        (settings.prefixObjects = true →
          ∀ name, IsFile name → IsFile (value "OBJECT_PREFIX".toList ++ name)) →
        ((graph.entries.flatMap fun entry =>
            targets value (rule settings entry).toList).Nodup ↔
          (graph.sources.map (target settings)).Nodup)) := by
  have hdiscovered : ∀ source ∈ graph.sources, source ∈ (tree.discover root wanted).1 :=
    fun source => mem_of_mem_sources hbuilt
  have hslash : ∀ source ∈ graph.sources, '/' ∉ source.toList := fun source hsource =>
    Tree.slash_notMem_of_discovered hnames (hdiscovered source hsource)
  have hfound : ∀ source ∈ graph.sources, hasSourceExtension wanted source = true :=
    fun source hsource => hasSourceExtension_of_discovered (hdiscovered source hsource)
  have hcollide : ∀ first ∈ graph.sources, ∀ second ∈ graph.sources,
      (target settings first = target settings second ↔ Path.SameUpToExtension first second) :=
    fun first hfirst second hsecond => target_eq_iff (hslash first hfirst) (hslash second hsecond)
      (hfound first hfirst) (hfound second hsecond)
  have hnodup := List.nodup_map_iff_inj_on (f := target settings) graph.nodup
  refine ⟨⟨_, rfl, fun entry _ => exists_rule_eq settings entry⟩, hcollide, ?_,
    fun extension hwanted => ?_, fun hportable value hstart => ?_⟩
  · rw [Graph.sources, hnodup]
    exact forall₂_congr fun first hfirst => forall₂_congr fun second hsecond =>
      imp_congr_left (hcollide first hfirst second hsecond)
  · refine hnodup.mpr fun first hfirst second hsecond hsame => ?_
    obtain ⟨stem, hname, hstem⟩ :=
      hasSourceExtension_unique (hslash first hfirst) hwanted (hfound first hfirst)
    obtain ⟨stem', hname', hstem'⟩ :=
      hasSourceExtension_unique (hslash second hsecond) hwanted (hfound second hsecond)
    rw [hname, hname', (target_eq_iff_stem hstem hstem').mp hsame]
  · have hsources : ∀ source ∈ graph.sources, IsFile source.toList := fun source hsource =>
      (isSource_of_discovered (hportable source hsource) (hdiscovered source hsource)).isFile
    rw [graph.flatMap_targets hsources hstart, Graph.sources, hnodup,
      List.nodup_map_iff_inj_on graph.nodup]
    refine forall₂_congr fun first hfirst => forall₂_congr fun second hsecond => ?_
    rw [target_inj, objectFile, objectFile, List.append_right_inj, String.toList_inj]

/-- A directory with two files that are the same up to their extensions, and one with their
stem in front of another period. -/
def Tree.twins : Tree :=
  .file (Text.bytes "a.b.c") [] <| .file (Text.bytes "a.c") [] <|
    .file (Text.bytes "a.cc") [] .empty

/-- With one wanted extension, given in two ways, the twin is not among the sources. -/
theorem Graph.distinct_targets_twins :
    (∀ child ∈ Tree.twins.children [], IsFileName child.1) ∧
      ∃ graph, (build (Tree.twins.sources []) {} (Tree.twins.discover [] [".c", "c"]).1).1 =
          .ok graph ∧ graph.sources = ["a.b.c", "a.c"] ∧
        (graph.sources.map (target {})).Nodup := by
  have hnames : ∀ child ∈ Tree.twins.children [], IsFileName child.1 := by decide
  have hdiscovered : (Tree.twins.discover [] [".c", "c"]).1 = ["a.b.c", "a.c"] :=
    discoverAmong_of_pairwise (by decide) (by decide)
  obtain ⟨graph, hbuilt, hsources⟩ : ∃ graph, (build (Tree.twins.sources []) {}
      (Tree.twins.discover [] [".c", "c"]).1).1 = .ok graph ∧ graph.sources = ["a.b.c", "a.c"] := by
    rw [hdiscovered]
    exact ⟨_, rfl, rfl⟩
  obtain ⟨-, -, -, hdistinct, -⟩ :=
    distinct_targets Tree.twins [] [".c", "c"] {} {} graph hnames hbuilt
  exact ⟨hnames, graph, hbuilt, hsources, hdistinct "c" (by decide)⟩

/-- Both twins are sources by default, and their rules make one object. -/
theorem Graph.targets_twins_eq :
    ∃ graph, (build (Tree.twins.sources []) {}
        (Tree.twins.discover [] defaultExtensions).1).1 = .ok graph ∧
      graph.sources = ["a.b.c", "a.c", "a.cc"] ∧
      target {} "a.c" = "$(addprefix $(OBJECT_PREFIX),a.o)" ∧
      target {} "a.cc" = "$(addprefix $(OBJECT_PREFIX),a.o)" := by
  have hdiscovered : (Tree.twins.discover [] defaultExtensions).1 = ["a.b.c", "a.c", "a.cc"] :=
    discoverAmong_of_pairwise (by decide) (by decide)
  rw [hdiscovered]
  exact ⟨_, rfl, rfl, by decide, by decide⟩

end IncludeDeps
