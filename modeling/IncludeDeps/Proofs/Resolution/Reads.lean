import IncludeDeps.Proofs.Resolution.Prerequisites
import Mathlib.Data.Set.Card

/-!
# What a walk reads

A walk reads the file that it is to expand and then every target that it enters.
`Walks.reads` ties the files read to the files visited: those read after the
first, together with those visited before, are just those visited in the end.
A set of visited files holds each once, so no target is read twice, whether the
walk succeeds or not, and one that was visited before is not read at all.
`Walks.readable` adds that a walk fails on the last file that it reads or on
none.

`reads_once` draws the conclusions for a whole call.  It ends at any depth
from `depthBound` on with the outcome of the rules, which know no depth; it
reads only its own file a second time, and that only if the file was not visited
when it began; and there are no more reads after the first than unvisited
targets that some readable file names.
-/

namespace IncludeDeps

open scoped List

/-- The files that the steps of a walk read or fail to read, in order. -/
def readsOf (steps : List Step) : List String :=
  steps.filterMap fun
    | .read file => some file
    | _ => none

theorem readsOf_append (first second : List Step) :
    readsOf (first ++ second) = readsOf first ++ readsOf second :=
  List.filterMap_append ..

/-- The file that a stage reads itself. -/
def Stage.own : Stage → List String
  | .expand _ file => [file]
  | .follow _ _ => []

/-! ## Visited files -/

namespace VisitedSet

theorem insert_of_isEmpty {visited : VisitedSet} (file : String)
    (hempty : visited.isEmpty = true) : visited.insert file = .rooted file := by
  rw [eq_empty_of_isEmpty hempty, rooted]

theorem mem_seeded_of_mem {visited : VisitedSet} {file path : String} (hpath : path ∈ visited) :
    path ∈ visited.seeded file := by
  unfold seeded
  split
  · next hempty =>
    rw [eq_empty_of_isEmpty hempty] at hpath
    exact absurd hpath (not_mem_empty path)
  · exact hpath

theorem perm_of_insert {visited later : VisitedSet} {target : String} {below : List String}
    (hnew : target ∉ visited) (hlater : later.paths ~ below ++ (visited.insert target).paths) :
    later.paths ~ target :: below ++ visited.paths := by
  have hinsert : (visited.insert target).paths = target :: visited.paths := by
    rw [insert, dif_neg hnew]
  rw [hinsert] at hlater
  exact hlater.trans List.perm_middle

end VisitedSet

namespace SourceDirectory

open Relation

variable {directory : SourceDirectory} {strict : Bool}

/-! ## Reads of a stage -/

@[simp] theorem readsOf_expanded (file : String) (content : List UInt8) (steps : List Step) :
    readsOf (.read file :: directory.droppedSteps strict content ++ steps) =
      file :: readsOf steps := by
  rw [readsOf_append]
  simp [readsOf, droppedSteps]

@[simp] theorem readsOf_listed (trail : List String) (file target : String) (steps : List Step) :
    readsOf (closingSteps trail file target ++ steps) = readsOf steps := by
  rw [readsOf_append]
  unfold closingSteps
  split <;> rfl

@[simp] theorem readsOf_stopped (file target : String) (steps : List Step) :
    readsOf (.expanding file target :: steps) = readsOf steps := rfl

@[simp] theorem readsOf_entered (file target : String) (inner later : List Step) :
    readsOf (.expanding file target :: inner ++ later) = readsOf inner ++ readsOf later :=
  readsOf_append inner later

section

variable {stage : Stage} {trail : List String} {visited : VisitedSet}
  {outcome : Outcome (List String)}

/-- The files read after the stage's own are those that the walk enters. -/
theorem Walks.reads (hwalk : Walks directory strict stage trail visited outcome) :
    ∃ entered, readsOf outcome.steps = stage.own ++ entered ∧
      outcome.visited.paths ~ entered ++ visited.paths := by
  induction hwalk with
  | unreadable _ => exact ⟨[], rfl, .refl _⟩
  | expanded _ _ ih =>
      obtain ⟨entered, hreads, hperm⟩ := ih
      exact ⟨entered, by rw [readsOf_expanded, hreads]; rfl, hperm⟩
  | done => exact ⟨[], rfl, .refl _⟩
  | listed _ _ ih =>
      obtain ⟨entered, hreads, hperm⟩ := ih
      exact ⟨entered, by rw [readsOf_listed, hreads]; rfl, hperm⟩
  | @stopped _ _ _ directive _ _ _ hnew _ _ ih =>
      obtain ⟨below, hreads, hperm⟩ := ih
      exact ⟨directive.target :: below, by rw [readsOf_stopped, hreads]; rfl,
        VisitedSet.perm_of_insert hnew hperm⟩
  | @entered _ _ visited directive _ inner _ later hnew _ _ _ ihinner ihlater =>
      obtain ⟨below, hbelow, hinner⟩ := ihinner
      obtain ⟨after, hafter, hlater⟩ := ihlater
      -- the rest adds `after` to what the expansion leaves, which added the target and `below`
      refine ⟨directive.target :: below ++ after, by rw [readsOf_entered, hbelow, hafter]; rfl, ?_⟩
      calc later.visited.paths
        _ ~ after ++ inner.visited.paths := hlater
        _ ~ after ++ (directive.target :: below ++ visited.paths) :=
            (VisitedSet.perm_of_insert hnew hinner).append_left after
        _ ~ directive.target :: below ++ (after ++ visited.paths) :=
            List.perm_append_comm_assoc ..
        _ ~ directive.target :: below ++ after ++ visited.paths := by rw [List.append_assoc]

theorem Walks.mem_reads_of_mem_visited
    (hwalk : Walks directory strict stage trail visited outcome) {path : String}
    (hpath : path ∈ outcome.visited) (hnew : path ∉ visited) : path ∈ readsOf outcome.steps := by
  obtain ⟨entered, hreads, hperm⟩ := hwalk.reads
  have hentered : path ∈ entered :=
    (List.mem_append.mp (hperm.mem_iff.mp hpath)).resolve_right hnew
  rw [hreads]
  exact List.mem_append_right _ hentered

theorem Walks.mem_visited_of_mem_reads
    (hwalk : Walks directory strict stage trail visited outcome) {path : String}
    (hread : path ∈ readsOf outcome.steps) (hown : path ∉ stage.own) : path ∈ outcome.visited := by
  obtain ⟨entered, hreads, hperm⟩ := hwalk.reads
  rw [hreads] at hread
  have hentered : path ∈ entered := (List.mem_append.mp hread).resolve_left hown
  exact hperm.mem_iff.mpr (List.mem_append_left _ hentered)

/-- A file that a walk reads can be read, unless the walk fails on it. -/
theorem Walks.readable (hwalk : Walks directory strict stage trail visited outcome) {file : String}
    (hfile : file ∈ readsOf outcome.steps) :
    (∃ content, directory.read file = .ok content) ∨
      ∃ error, outcome.result = .error error ∧ error.path = file := by
  induction hwalk with
  | unreadable _ =>
      obtain rfl := List.mem_singleton.mp hfile
      exact Or.inr ⟨_, rfl, ResolveError.path_ofFault ..⟩
  | expanded hread _ ih =>
      rw [readsOf_expanded, List.mem_cons] at hfile
      rcases hfile with rfl | hfile
      · exact Or.inl ⟨_, hread⟩
      · simpa only [map_eq_error_iff] using ih hfile
  | done => cases hfile
  | listed _ _ ih =>
      rw [readsOf_listed] at hfile
      simpa only [map_eq_error_iff] using ih hfile
  | stopped _ _ herror ih =>
      rw [herror] at ih
      exact ih hfile
  | entered _ _ hfound _ ihinner ihlater =>
      rw [readsOf_entered, List.mem_append] at hfile
      rcases hfile with hfile | hfile
      · -- the expansion of the target succeeded, so it did not fail on the file
        refine (ihinner hfile).imp_right fun ⟨error, herror, _⟩ => ?_
        cases hfound.symm.trans herror
      · simpa only [map_eq_error_iff] using ihlater hfile

end

/-! ## Reads of a call -/

/-- A readable file holds a directive for the target, whether it is followed or not. -/
def Named (directory : SourceDirectory) (target : String) : Prop :=
  ∃ file content, directory.read file = .ok content ∧
    ∃ directive ∈ directivesOf content, directive.target = target

theorem Includes.named {file target : String} (hincludes : directory.Includes strict file target) :
    directory.Named target := by
  obtain ⟨content, hread, directive, hmem, htarget, -⟩ := hincludes
  exact ⟨file, content, hread, directive, hmem, htarget⟩

theorem finite_named (directory : SourceDirectory) : {target | directory.Named target}.Finite := by
  refine directory.targets.toFinset.finite_toSet.subset ?_
  rintro target ⟨file, content, hread, directive, hmem, rfl⟩
  exact List.mem_toFinset.mpr (directory.mem_targets hread hmem)

/-- A call ends: the rules lead from its file to an outcome, the program comes to
this outcome at every depth from `depthBound` on, and the call has its visited
files and steps and fails where it fails. -/
structure EndsIn {α : Type} (directory : SourceDirectory) (strict : Bool) (file : String)
    (visited : VisitedSet) (call : Outcome α) (outcome : Outcome (List String)) : Prop where
  walk : Walks directory strict (.expand .sourceList file) [] visited outcome
  depth : ∀ depth, directory.depthBound ≤ depth →
    directory.expand strict depth [] .sourceList file visited = outcome
  visited : call.visited = outcome.visited
  steps : call.steps = outcome.steps
  error : ∀ error, call.result = .error error ↔ outcome.result = .error error

section

variable {file : String} {visited : VisitedSet} {α : Type} {call : Outcome α}
  {outcome : Outcome (List String)}

theorem endsIn_walkFrom (directory : SourceDirectory) (strict topLevel : Bool) (file : String)
    (visited : VisitedSet) :
    ∃ outcome, directory.EndsIn strict file visited
      (directory.walkFrom strict topLevel file visited) outcome := by
  have hwalk : Walks directory strict (.expand .sourceList file) [] visited _ :=
    walks_depthBound [] .sourceList file visited
  exact ⟨_, hwalk, fun _ hdepth => expand_eq hwalk hdepth, rfl, rfl, fun _ => map_eq_error_iff⟩

theorem resolve_eq (file : String) (visited : VisitedSet) :
    directory.resolve strict file visited =
      (directory.walkFrom strict visited.isEmpty file (visited.seeded file)).map
        Resolution.prerequisites := by
  unfold resolve VisitedSet.seeded
  split
  · next hempty => rw [VisitedSet.insert_of_isEmpty file hempty]
  · rfl

theorem endsIn_resolve (directory : SourceDirectory) (strict : Bool) (file : String)
    (visited : VisitedSet) :
    ∃ outcome, directory.EndsIn strict file (visited.seeded file)
      (directory.resolve strict file visited) outcome := by
  obtain ⟨outcome, hends⟩ :=
    endsIn_walkFrom directory strict visited.isEmpty file (visited.seeded file)
  rw [resolve_eq]
  exact ⟨outcome, hends.walk, hends.depth, hends.visited, hends.steps,
    fun error => map_eq_error_iff.trans (hends.error error)⟩

/-- A call reads its file, and then targets that were not visited when it
began, each once. -/
theorem EndsIn.exists_entered (hends : directory.EndsIn strict file visited call outcome) :
    ∃ entered, readsOf call.steps = file :: entered ∧ entered.Nodup ∧
      ∀ target ∈ entered, directory.Named target ∧ target ∉ visited := by
  obtain ⟨entered, hreads, hperm⟩ := hends.walk.reads
  -- a set of visited files holds no path twice, so nor do the parts that make it up
  obtain ⟨hnodup, -, hdisjoint⟩ :=
    List.nodup_append.mp (hperm.nodup_iff.mp outcome.visited.nodup)
  refine ⟨entered, hends.steps ▸ hreads, hnodup, fun target htarget => ?_⟩
  have hnew : target ∉ visited := fun hseen => hdisjoint target htarget target hseen rfl
  have hvisited : target ∈ outcome.visited :=
    hperm.mem_iff.mpr (List.mem_append_left _ htarget)
  obtain ⟨includer, -, hincludes, -⟩ :=
    TransGen.tail'_iff.mp (reaches_expand_iff.mp (hends.walk.reached hvisited hnew))
  exact ⟨hincludes.named, hnew⟩

/-- A call that begins with its file visited reads no file twice. -/
theorem EndsIn.nodup_reads (hends : directory.EndsIn strict file visited call outcome)
    (hfile : file ∈ visited) : (readsOf call.steps).Nodup := by
  obtain ⟨entered, hreads, hnodup, htargets⟩ := hends.exists_entered
  rw [hreads, List.nodup_cons]
  exact ⟨fun hmem => (htargets file hmem).2 hfile, hnodup⟩

/-- Any other call may read its own file twice, but no other. -/
theorem EndsIn.count_reads_le (hends : directory.EndsIn strict file visited call outcome)
    (path : String) :
    (readsOf call.steps).count path ≤ if path = file then 2 else 1 := by
  obtain ⟨entered, hreads, hnodup, -⟩ := hends.exists_entered
  have hentered : entered.count path ≤ 1 := List.nodup_iff_count_le_one.mp hnodup path
  rw [hreads]
  split
  · next hpath =>
    rw [hpath] at hentered ⊢
    rw [List.count_cons_self]
    omega
  · next hpath => rwa [List.count_cons_of_ne (Ne.symm hpath)]

/-- The reads after the first are no more than the targets that are named and
lie outside of a part of the files visited when the call began. -/
theorem EndsIn.length_reads_le (hends : directory.EndsIn strict file visited call outcome)
    {avoided : String → Prop} (havoided : ∀ path, avoided path → path ∈ visited) :
    (readsOf call.steps).length ≤
      1 + {target | directory.Named target ∧ ¬ avoided target}.ncard := by
  obtain ⟨entered, hreads, hnodup, htargets⟩ := hends.exists_entered
  have hsubset : (entered.toFinset : Set String) ⊆
      {target | directory.Named target ∧ ¬ avoided target} := by
    intro target htarget
    obtain ⟨hnamed, hnew⟩ := htargets target (List.mem_toFinset.mp htarget)
    exact ⟨hnamed, fun hmem => hnew (havoided target hmem)⟩
  have hcard := Set.ncard_le_ncard hsubset
    (directory.finite_named.subset fun _ hnamed => hnamed.1)
  rw [Set.ncard_coe_finset, List.toFinset_card_of_nodup hnodup] at hcard
  rw [hreads, List.length_cons]
  omega

end

/-! ## Main result -/

/-- **Every call ends, and reads each file once.**  Only a file that was not
among the files visited when its call began may be read a second time, and then
no more than that.  The reads after the first are bounded by the targets that
readable files name and that were not visited. -/
theorem reads_once (directory : SourceDirectory) (strict : Bool) (file : String)
    (visited : VisitedSet) :
    (∃ outcome, directory.EndsIn strict file (visited.seeded file)
      (directory.resolve strict file visited) outcome) ∧
    (∃ outcome, directory.EndsIn strict file (.rooted file)
      (directory.resolveRoot strict file) outcome) ∧
    (readsOf (directory.resolveRoot strict file).steps).Nodup ∧
    (visited.isEmpty = true ∨ file ∈ visited →
      (readsOf (directory.resolve strict file visited).steps).Nodup) ∧
    (∀ path, (readsOf (directory.resolve strict file visited).steps).count path ≤
      if path = file then 2 else 1) ∧
    (readsOf (directory.resolveRoot strict file).steps).length ≤
      1 + {target | directory.Named target ∧ target ≠ file}.ncard ∧
    (readsOf (directory.resolve strict file visited).steps).length ≤
      1 + {target | directory.Named target ∧ target ∉ visited}.ncard := by
  obtain ⟨outcome, hends⟩ := endsIn_resolve directory strict file visited
  obtain ⟨rootOutcome, hroot⟩ := endsIn_walkFrom directory strict true file (.rooted file)
  refine ⟨⟨outcome, hends⟩, ⟨rootOutcome, hroot⟩,
    hroot.nodup_reads (VisitedSet.mem_rooted.mpr rfl), fun hfile => ?_, hends.count_reads_le,
    hroot.length_reads_le fun _ => VisitedSet.mem_rooted.mpr,
    hends.length_reads_le fun _ => VisitedSet.mem_seeded_of_mem⟩
  refine hends.nodup_reads ?_
  rcases hfile with hempty | hfile
  · rw [VisitedSet.seeded, if_pos hempty]
    exact VisitedSet.mem_rooted.mpr rfl
  · exact VisitedSet.mem_seeded_of_mem hfile

/-- A file that was not visited before is read again when it is reached, and
only then. -/
theorem reads_once_knot :
    readsOf ((knot.sources []).resolve false "a.c" (.rooted "x.h")).steps =
      ["a.c", "a.h", "b.h", "a.c"] ∧
    readsOf ((knot.sources []).resolve false "a.c" (.rooted "a.c")).steps = ["a.c", "a.h", "b.h"] ∧
    ((VisitedSet.rooted "a.c").isEmpty = true ∨ "a.c" ∈ VisitedSet.rooted "a.c") ∧
    (readsOf ((knot.sources []).resolve false "a.c" (.rooted "a.c")).steps).Nodup := by
  have hfile : (VisitedSet.rooted "a.c").isEmpty = true ∨ "a.c" ∈ VisitedSet.rooted "a.c" :=
    Or.inr (VisitedSet.mem_rooted.mpr rfl)
  exact ⟨rfl, rfl, hfile, (reads_once (knot.sources []) false "a.c" (.rooted "a.c")).2.2.2.1 hfile⟩

end SourceDirectory

end IncludeDeps
