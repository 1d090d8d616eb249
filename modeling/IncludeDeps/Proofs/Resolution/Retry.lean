import IncludeDeps.Proofs.Resolution.Sharing

/-!
# Calls that are made again

A call that failed may be made again with the files that it has visited, on a directory
that has not changed.  It does not always fail a second time.

If the file that the call is for cannot be read, nothing was visited, and the call
comes to the same as before (`resolve_of_unreadable`).  Otherwise the file on which the
first call failed was visited right before it was to be read.  So the second call passes
it by: it lists this file where a directive names it, but does not read it, and if it
fails at all, then on a file that was not visited before (`fails_on_unvisited`).  Whether
it fails is settled by the files that it expands itself, as for every call that shares its
visited files (`fails_iff_of_shared`).
-/

namespace IncludeDeps

theorem VisitedSet.seeded_of_shared {visited : VisitedSet} (hshared : visited.isEmpty = false)
    (file : String) : visited.seeded file = visited := by
  rw [seeded, hshared]
  rfl

namespace SourceDirectory

open Relation

variable {directory : SourceDirectory} {strict : Bool} {file : String} {visited : VisitedSet}
  {error : ResolveError}

/-! ## Calls that share their visited files -/

/-- A call for a file that cannot be read fails on it, whatever was visited. -/
theorem resolve_of_unreadable {fault : Fault} (hread : directory.read file = .error fault)
    (visited : VisitedSet) :
    (directory.resolve strict file visited).result = .error (.ofFault file .sourceList fault) ∧
      (directory.resolve strict file visited).visited = visited.seeded file := by
  obtain ⟨outcome, hends⟩ := endsIn_resolve directory strict file visited
  have houtcome := hends.walk.unique (.unreadable hread)
  constructor
  · rw [hends.error, houtcome]
  · rw [hends.visited, houtcome]

/-- A call that shares its visited files fails exactly if it expands a file that cannot be
read. -/
theorem fails_iff_of_shared (hshared : visited.isEmpty = false) :
    (∃ error, (directory.resolve strict file visited).result = .error error) ↔
      ∃ path, directory.Expanded strict visited [file] path ∧
        ∀ content, directory.read path ≠ .ok content := by
  have hsettles : directory.Settles strict visited [file] _ _ := settles_resolve hshared
  constructor
  · intro ⟨error, herror⟩
    by_contra hnone
    push Not at hnone
    obtain ⟨list, hlist⟩ := hsettles.succeeds_iff.mpr hnone
    cases herror.symm.trans hlist
  · intro ⟨path, hexpanded, hunreadable⟩
    cases hresult : (directory.resolve strict file visited).result with
    | error error => exact ⟨error, rfl⟩
    | ok list =>
        obtain ⟨content, hcontent⟩ := hsettles.succeeds_iff.mp ⟨list, hresult⟩ path hexpanded
        exact absurd hcontent (hunreadable content)

/-- A call that shares its visited files fails on its own file or on one that was not
visited before, and this one is named by a file that can be read. -/
theorem fails_on_unvisited (hother : error.path ≠ file)
    (h : (directory.resolve strict file visited).result = .error error) :
    error.path ∉ visited ∧ ∃ includer line, error.referrer = .directive includer line ∧
      directory.Includes strict includer error.path := by
  obtain ⟨outcome, hends⟩ := endsIn_resolve directory strict file visited
  obtain hown | ⟨-, hnew, hblame⟩ := hends.walk.failed ((hends.error error).mp h)
  · exact absurd (Stage.expand.inj hown).2.symm hother
  refine ⟨fun hseen => hnew (VisitedSet.mem_seeded_of_mem hseen), ?_⟩
  obtain ⟨includer, referrer, hblame⟩ : ∃ includer referrer,
      directory.Blames strict (.expand referrer includer) error := by
    rcases hblame with hblame | ⟨includer, -, -, referrer, hblame⟩
    · exact ⟨file, .sourceList, hblame⟩
    · exact ⟨includer, referrer, hblame⟩
  obtain ⟨line, hreferrer, hline, -⟩ := isLeast_line_of_blames hblame
  exact ⟨includer, line, hreferrer, hline.includes⟩

/-- A call that fails on its own file fails in the same way whatever was visited. -/
theorem resolve_eq_error_of_own (hown : error.path = file)
    (h : (directory.resolve strict file visited).result = .error error) (other : VisitedSet) :
    (directory.resolve strict file other).result = .error error ∧
      (directory.resolve strict file other).visited = other.seeded file := by
  obtain ⟨outcome, hends⟩ := endsIn_resolve directory strict file visited
  obtain ⟨fault, hfault, -⟩ := hends.walk.eq_ofFault ((hends.error error).mp h)
  rw [hown] at hfault
  obtain rfl := Except.error.inj (h.symm.trans (resolve_of_unreadable hfault visited).1)
  exact resolve_of_unreadable hfault other

/-! ## Main result -/

/-- What a call that fails has visited is not empty, so that a second call shares it. -/
theorem shared_of_error (h : (directory.resolve strict file visited).result = .error error) :
    (directory.resolve strict file visited).visited.isEmpty = false := by
  obtain ⟨-, -, hfailed | ⟨-, hshared, hsame⟩⟩ := resolve_leaves h
  · exact List.isEmpty_eq_false_iff_exists_mem.mpr ⟨error.path, hfailed⟩
  · rw [hsame]
    exact hshared

/-- **What becomes of a call that is made again.**  Let a call fail, and let the same call
be made with the files that the first one has visited.  It fails exactly if its own file,
or a file to which a way outside of these files leads, cannot be read.  On its own file it
fails just as before.  Any other file that stopped the first call is not read any more: a
second error is about a file that the first call had not visited, and a list that is
returned holds the unreadable file if the call's own file names it. -/
theorem resolve_again (h : (directory.resolve strict file visited).result = .error error) :
    let left := (directory.resolve strict file visited).visited
    let again := directory.resolve strict file left
    ((∃ later, again.result = .error later) ↔ ∃ path,
      (path = file ∨ TransGen (directory.IncludesOutside strict left) file path) ∧
        ∀ content, directory.read path ≠ .ok content) ∧
    (error.path = file → again.result = .error error ∧ again.visited = left) ∧
    (error.path ≠ file →
      error.path ∉ readsOf again.steps ∧
      (∀ later, again.result = .error later → later.path ∉ left) ∧
      ∀ prerequisites, again.result = .ok prerequisites → ∀ line,
        error.referrer = .directive file line → error.path ∈ prerequisites) := by
  intro left again
  have hshared : left.isEmpty = false := shared_of_error h
  have hseeded : left.seeded file = left := VisitedSet.seeded_of_shared hshared file
  refine ⟨?_, fun hown => ?_, fun hother => ⟨?_, fun later hlater => ?_, ?_⟩⟩
  · simp only [← expanded_singleton_iff]
    exact fails_iff_of_shared hshared
  · have hsame := resolve_eq_error_of_own hown h left
    rwa [hseeded] at hsame
  · obtain ⟨outcome, hends⟩ := endsIn_resolve directory strict file left
    obtain ⟨entered, hreads, -, htargets⟩ := hends.exists_entered
    rw [hseeded] at htargets
    -- the file was visited when the second call began
    have hvisited : error.path ∈ left :=
      (resolve_leaves h).2.2.resolve_right fun ⟨hown, _⟩ => hother hown
    show error.path ∉ readsOf again.steps
    rw [hreads, List.mem_cons, not_or]
    exact ⟨hother, fun hentered => (htargets _ hentered).2 hvisited⟩
  · have hdifferent : later.path ≠ file := by
      intro hown
      -- then the first call would have failed on its own file as well
      obtain rfl := Except.error.inj (h.symm.trans (resolve_eq_error_of_own hown hlater visited).1)
      exact hother hown
    exact (fails_on_unvisited hdifferent hlater).1
  · intro prerequisites hlist line hreferrer
    obtain ⟨-, includer, number, hdirective, hincludes⟩ := fails_on_unvisited hother h
    obtain ⟨rfl, -⟩ := Referrer.directive.inj (hreferrer.symm.trans hdirective)
    exact ((settles_resolve hshared).lists_iff prerequisites hlist error.path).mpr
      ⟨file, expanded_singleton_iff.mpr (Or.inl rfl), hincludes⟩

/-- The header that names the missing file is listed and not expanded, so the second call
succeeds. -/
theorem resolve_again_torn :
    ((torn.sources []).resolve false "a.c" .empty).result =
      .error (.missingFile "gone.h" (.directive "a.h" 2)) ∧
    "gone.h" ∉ readsOf ((torn.sources []).resolve false "a.c"
      ((torn.sources []).resolve false "a.c" .empty).visited).steps ∧
    ¬ ∃ path, (path = "a.c" ∨ TransGen ((torn.sources []).IncludesOutside false
        ((torn.sources []).resolve false "a.c" .empty).visited) "a.c" path) ∧
      ∀ content, (torn.sources []).read path ≠ .ok content := by
  have hfirst : ((torn.sources []).resolve false "a.c" .empty).result =
      .error (.missingFile "gone.h" (.directive "a.h" 2)) := rfl
  have hagain : ((torn.sources []).resolve false "a.c"
      ((torn.sources []).resolve false "a.c" .empty).visited).result = .ok (.ofList ["a.h"]) := rfl
  obtain ⟨hfails, -, hmasked⟩ := resolve_again hfirst
  refine ⟨hfirst, (hmasked (by decide)).1, ?_⟩
  intro hunreadable
  obtain ⟨later, hlater⟩ := hfails.mpr hunreadable
  cases hagain.symm.trans hlater

/-- A file that names a file that does not exist. -/
def stub : Tree :=
  .file (Text.bytes "a.c") (Text.bytes "#include \"gone.h\"\n") .empty

/-- The first call fails, and the second one lists the missing file. -/
theorem resolve_again_stub :
    ((stub.sources []).resolve false "a.c" .empty).result =
      .error (.missingFile "gone.h" (.directive "a.c" 1)) ∧
    ((stub.sources []).resolve false "a.c"
      ((stub.sources []).resolve false "a.c" .empty).visited).result =
      .ok (.ofList ["gone.h"]) ∧
    (stub.sources []).read "gone.h" = .error .notFound :=
  ⟨rfl, rfl, rfl⟩

end SourceDirectory

end IncludeDeps
