import IncludeDeps.Proofs.Resolution.Cycles

/-!
# The prerequisites of a file

`mem_prerequisites_iff` and `mem_resolve_iff` say which paths are listed: the
first for a file resolved on its own, the second for a call that shares its set
of visited files.

What the walk finds is given by `Walks.mem_found_iff`.  A file resolved on its
own is then left out again unless a cycle recorded for it is the file itself
twice.  No file includes itself on such a cycle without a directive for itself,
and such a directive is recorded: the step from the file to itself is a closed
chain, and of the canonical cycles only one takes a step from a file to itself
(`Canonical.files_eq_pair`).  So the test on the recorded cycles is a test on
the directives of the file (`exists_isSelfIncludeOf_iff`).
-/

namespace IncludeDeps

/-- The files visited when a call begins to expand a file. -/
def VisitedSet.seeded (visited : VisitedSet) (file : String) : VisitedSet :=
  if visited.isEmpty then .rooted file else visited

theorem VisitedSet.eq_empty_of_isEmpty {visited : VisitedSet} (h : visited.isEmpty = true) :
    visited = .empty := by
  obtain ⟨paths, hnodup⟩ := visited
  obtain rfl : paths = [] := List.isEmpty_iff.mp h
  rfl

namespace SourceDirectory

open Relation

variable {directory : SourceDirectory} {strict : Bool} {root : String} {resolution : Resolution}

/-! ## Files that include themselves -/

/-- A canonical cycle with a step from a file to itself is that file twice. -/
theorem Canonical.files_eq_pair {cycle : Cycle} {file : String}
    (hcanonical : directory.Canonical strict root cycle) (hstep : [file, file] <:+: cycle.files) :
    cycle.files = [file, file] := by
  obtain ⟨first, rest, hfiles, hnodup, -⟩ := hcanonical.ring
  cases rest with
  | nil =>
      rw [hfiles] at hstep ⊢
      exact (hstep.eq_of_length rfl).symm
  | cons second more =>
      -- the ring has two files or more, so no step of it stays where it is
      have hmoves : cycle.files.IsChain (· ≠ ·) := by
        rw [hfiles, List.isChain_append]
        refine ⟨List.Pairwise.isChain hnodup, List.isChain_singleton _, ?_⟩
        intro last hlast next hnext
        obtain rfl : first = next := Option.some.inj hnext
        rw [List.getLast?_cons_cons] at hlast
        rintro rfl
        exact (List.nodup_cons.mp hnodup).1 (List.mem_of_getLast? hlast)
      have hpair := hmoves.infix hstep
      exact absurd rfl (List.isChain_pair.mp hpair)

section

variable {outcome : Outcome (List String)} {found : List String}

/-- A cycle that is a file resolved on its own twice is recorded exactly if the
file includes itself. -/
theorem exists_isSelfIncludeOf_iff
    (hwalk : Walks directory strict (.expand .sourceList root) [] (.rooted root) outcome)
    (hok : outcome.result = .ok found) :
    (∃ cycle ∈ cyclesOf outcome.steps, cycle.isSelfIncludeOf root = true) ↔
      directory.Includes strict root root := by
  simp only [Cycle.isSelfIncludeOf, beq_iff_eq]
  constructor
  · rintro ⟨cycle, hcycle, hfiles⟩
    have hchain := (canonical_of_mem_cyclesOf hwalk hok hcycle).chain
    rw [hfiles] at hchain
    exact List.isChain_pair.mp hchain
  · intro hself
    by_contra hnone
    -- a step that is not recorded would close a chain through an accessible file
    have hunrecorded : directory.Unrecorded strict (cyclesOf outcome.steps) root root :=
      ⟨hself, fun ⟨cycle, hcycle, hstep⟩ => hnone ⟨cycle, hcycle,
        (canonical_of_mem_cyclesOf hwalk hok hcycle).files_eq_pair hstep⟩⟩
    exact not_transGen_self_of_acc (acc_of_reachable hwalk hok .refl) (.single hunrecorded)

end

/-! ## Main results -/

/-- **A file's prerequisites are what it can reach.**  A path other than the
file itself is listed exactly if a chain of includes leads to it, the file
itself exactly if it includes itself directly; and nothing is listed twice. -/
theorem mem_prerequisites_iff (h : (directory.resolveRoot strict root).result = .ok resolution) :
    (∀ path, path ≠ root →
      (path ∈ resolution.prerequisites ↔ TransGen (directory.Includes strict) root path)) ∧
    (root ∈ resolution.prerequisites ↔ directory.Includes strict root root) ∧
    resolution.prerequisites.paths.Nodup := by
  obtain ⟨outcome, found, hwalk, hok, -, -, hcycles, hlisted⟩ := walkFrom_eq_ok h
  have hself := exists_isSelfIncludeOf_iff hwalk hok
  rw [← hcycles] at hself
  refine ⟨fun path hpath => ?_, ?_, resolution.prerequisites.nodup⟩
  · rw [hlisted, hwalk.mem_found_iff_transGen hok]
    exact and_iff_left fun hroot => absurd hroot hpath
  · rw [hlisted, hwalk.mem_found_iff_transGen hok, ← hself]
    refine ⟨fun ⟨_, hkept⟩ => hkept rfl rfl, fun hkept => ⟨.single (hself.mp hkept), ?_⟩⟩
    exact fun _ _ => hkept

theorem mem_prerequisites_knot :
    ((knot.sources []).resolveRoot false "a.c").result = .ok knotResolution ∧
    ("b.h" ∈ knotResolution.prerequisites ↔
      TransGen ((knot.sources []).Includes false) "a.c" "b.h") ∧
    ("a.c" ∈ knotResolution.prerequisites ↔ (knot.sources []).Includes false "a.c" "a.c") ∧
    knotResolution.prerequisites.paths.Nodup := by
  obtain ⟨hother, hself, hnodup⟩ := mem_prerequisites_iff resolveRoot_knot
  exact ⟨resolveRoot_knot, hother "b.h" (by decide), hself, hnodup⟩

/-- **What a call with a shared set does.**  It visits what it can reach outside
the files visited when it begins, which is the file alone if none were, and it
lists what the file and those reached include.  Only a file resolved on its own
is left out of its list, unless it includes itself directly. -/
theorem mem_resolve_iff {file : String} {visited : VisitedSet} {prerequisites : Prerequisites}
    (h : (directory.resolve strict file visited).result = .ok prerequisites) :
    (∀ path, path ∈ (directory.resolve strict file visited).visited ↔
      path ∈ visited.seeded file ∨
        TransGen (directory.IncludesOutside strict (visited.seeded file)) file path) ∧
    ∀ path, path ∈ prerequisites ↔
      (directory.Includes strict file path ∨ ∃ included,
        TransGen (directory.IncludesOutside strict (visited.seeded file)) file included ∧
          directory.Includes strict included path) ∧
      (path = file → visited.isEmpty = true → directory.Includes strict file file) := by
  have hseeded : (if visited.isEmpty then visited.insert file else visited) =
      visited.seeded file := by
    unfold VisitedSet.seeded
    split
    · next hempty =>
      rw [VisitedSet.eq_empty_of_isEmpty hempty]
      rfl
    · rfl
  simp only [resolve, hseeded] at h ⊢
  obtain ⟨resolution, hresolution, rfl⟩ := map_eq_ok_iff.mp h
  obtain ⟨outcome, found, hwalk, hok, hvisited, -, hcycles, hlisted⟩ := walkFrom_eq_ok hresolution
  refine ⟨fun path => ?_, fun path => ?_⟩
  · rw [← reaches_expand_iff, ← hwalk.mem_visited_iff hok, hvisited]
    rfl
  · simp only [hlisted, hwalk.mem_found_iff hok, reaches_expand_iff, Leads]
    refine and_congr_right fun _ => imp_congr_right fun _ => imp_congr_right fun hempty => ?_
    rw [VisitedSet.seeded, if_pos hempty] at hwalk
    rw [hcycles]
    exact exists_isSelfIncludeOf_iff hwalk hok

/-- A file that was not visited before can be reached from itself, and is then
expanded a second time and listed. -/
theorem mem_resolve_knot :
    ((knot.sources []).resolve false "a.c" (.rooted "x.h")).result =
      .ok (.ofList ["a.h", "a.c", "b.h"]) ∧
    "a.c" ∉ VisitedSet.rooted "x.h" ∧
    TransGen ((knot.sources []).IncludesOutside false (.rooted "x.h")) "a.c" "a.c" ∧
    ("a.c" ∈ Prerequisites.ofList ["a.h", "a.c", "b.h"] ↔
      (knot.sources []).Includes false "a.c" "a.c" ∨ ∃ included,
        TransGen ((knot.sources []).IncludesOutside false (.rooted "x.h")) "a.c" included ∧
          (knot.sources []).Includes false included "a.c") := by
  have hresult : ((knot.sources []).resolve false "a.c" (.rooted "x.h")).result =
      .ok (.ofList ["a.h", "a.c", "b.h"]) := rfl
  have hvisited : "a.c" ∈ ((knot.sources []).resolve false "a.c" (.rooted "x.h")).visited := by
    decide +kernel
  have hnew : "a.c" ∉ VisitedSet.rooted "x.h" := by decide
  obtain ⟨hreached, hlisted⟩ := mem_resolve_iff hresult
  refine ⟨hresult, hnew, ((hreached "a.c").mp hvisited).resolve_left hnew, ?_⟩
  exact (hlisted "a.c").trans (and_iff_left fun _ hempty => absurd hempty (by decide))

end SourceDirectory

end IncludeDeps
