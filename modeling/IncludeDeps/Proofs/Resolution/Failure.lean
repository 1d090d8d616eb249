import IncludeDeps.Proofs.Resolution.Reads
import Mathlib.Order.Bounds.Basic

/-!
# Why a resolution fails

A resolution fails exactly if a reachable file cannot be read, and the error
tells which file this is and where it is first named.

`Walks.failed` follows an error up through the expansions that stand inside one
another.  Its path is a target that a stage entered, so it was not visited when
the stage began: the directives that the stage passed before name other files.
Hence the directive that the error refers to is the first of its file that names
the path, in the order in which the walk follows them.  It is also the first in
the file, since moving the own headers of a file to the front moves all
directives for one target together (`find?_promoteOwn`).
-/

namespace IncludeDeps

/-- The first item with a path is the same before and after the own headers of a
file are moved to the front. -/
theorem find?_promoteOwn {α : Type} (file wanted : String) (path : α → String) (items : List α) :
    (promoteOwn file path items).find? (path · = wanted) = items.find? (path · = wanted) := by
  have hnone : items.find? (fun _ => false) = none := List.find?_eq_none.mpr (by simp)
  -- a part of the items that is chosen by their paths holds all items with the path or none
  have hpart : ∀ test : String → Bool, (items.filter fun item => test (path item)).find?
      (path · = wanted) = if test wanted then items.find? (path · = wanted) else none := by
    intro test
    have hitem : ∀ item, test (path item) = true ∧ path item = wanted ↔
        test wanted = true ∧ path item = wanted :=
      fun item => and_congr_left fun hsame => by rw [hsame]
    rw [List.find?_filter]
    cases htest : test wanted <;> simp [hitem, htest, hnone]
  rw [promoteOwn, List.find?_append, hpart, hpart fun other => !Path.sharesStem file other]
  cases Path.sharesStem file wanted <;> simp

/-- An error refers to the first of a file's directives that names its path. -/
def ResolveError.RefersTo (error : ResolveError) (file : String) (directives : List Directive) :
    Prop :=
  ∃ directive, directives.find? (·.target = error.path) = some directive ∧
    error.referrer = .directive file directive.line

theorem ResolveError.RefersTo.cons {error : ResolveError} {file : String} {directive : Directive}
    {rest : List Directive} (hrefers : error.RefersTo file rest)
    (hother : directive.target ≠ error.path) : error.RefersTo file (directive :: rest) := by
  obtain ⟨first, hfirst, hreferrer⟩ := hrefers
  exact ⟨first, by rw [List.find?_cons_of_neg (by simpa using hother), hfirst], hreferrer⟩

namespace SourceDirectory

open Relation

variable {directory : SourceDirectory} {strict : Bool}

/-! ## Following an error -/

/-- A directive that a stage deals with itself is the one that an error refers to. -/
def Blames (directory : SourceDirectory) (strict : Bool) : Stage → ResolveError → Prop
  | .expand _ file, error => ∃ content, directory.read file = .ok content ∧
      error.RefersTo file (promoteOwn file Directive.target (directory.kept strict content))
  | .follow file directives, error => error.RefersTo file directives

section

variable {stage : Stage} {trail : List String} {visited : VisitedSet}
  {outcome : Outcome (List String)} {error : ResolveError}

/-- The path of an error is a file that could not be read. -/
theorem Walks.eq_ofFault (hwalk : Walks directory strict stage trail visited outcome)
    (herror : outcome.result = .error error) :
    ∃ fault, directory.read error.path = .error fault ∧
      error = .ofFault error.path error.referrer fault := by
  induction hwalk with
  | @unreadable _ referrer file _ fault hread =>
      obtain rfl : ResolveError.ofFault file referrer fault = error := Except.error.inj herror
      exact ⟨fault, by simpa using hread, by simp⟩
  | expanded _ _ ih => exact ih (map_eq_error_iff.mp herror)
  | done => cases herror
  | listed _ _ ih => exact ih (map_eq_error_iff.mp herror)
  | stopped _ _ hinnerError ih => exact ih (hinnerError.trans herror)
  | entered _ _ _ _ _ ihlater => exact ihlater (map_eq_error_iff.mp herror)

/-- A stage fails on the file that it is to expand, or on a target that is
entered; and then the stage or a file entered during it is to blame. -/
theorem Walks.failed (hwalk : Walks directory strict stage trail visited outcome)
    (herror : outcome.result = .error error) :
    stage = .expand error.referrer error.path ∨
      (error.path ∈ outcome.visited ∧ error.path ∉ visited ∧
        (directory.Blames strict stage error ∨ ∃ file, file ∈ outcome.visited ∧ file ∉ visited ∧
          ∃ referrer, directory.Blames strict (.expand referrer file) error)) := by
  induction hwalk with
  | @unreadable _ referrer file _ fault _ =>
      obtain rfl : ResolveError.ofFault file referrer fault = error := Except.error.inj herror
      exact Or.inl (by simp)
  | expanded hread _ ih =>
      obtain hown | ⟨hentered, hnew, hblame⟩ := ih (map_eq_error_iff.mp herror)
      · cases hown
      · exact Or.inr ⟨hentered, hnew, hblame.imp_left fun hrefers => ⟨_, hread, hrefers⟩⟩
  | done => cases herror
  | @listed _ _ _ directive _ _ hseen _ ih =>
      obtain hown | ⟨hentered, hnew, hblame⟩ := ih (map_eq_error_iff.mp herror)
      · cases hown
      · have hother : directive.target ≠ error.path := fun hsame => hnew (hsame ▸ hseen)
        exact Or.inr ⟨hentered, hnew, hblame.imp_left fun hrefers => hrefers.cons hother⟩
  | @stopped _ file visited directive rest inner _ hnew hinner hinnerError ih =>
      rcases ih (hinnerError.trans herror) with hown | ⟨hentered, hlate, hblame⟩
      · obtain ⟨hreferrer, hpath⟩ := Stage.expand.inj hown
        have hfirst : (directive :: rest).find? (·.target = error.path) = some directive :=
          List.find?_cons_of_pos (by simpa using hpath)
        exact Or.inr ⟨hpath ▸ hinner.target_mem, hpath ▸ hnew,
          Or.inl ⟨directive, hfirst, hreferrer.symm⟩⟩
      · -- the file to blame is the target, or was entered below it
        have hout : ∀ {path}, path ∉ visited.insert directive.target → path ∉ visited :=
          fun hout hseen => hout (VisitedSet.mem_insert_of_mem _ hseen)
        refine Or.inr ⟨hentered, hout hlate, Or.inr ?_⟩
        rcases hblame with hblame | ⟨includer, hmem, hlater, hblame⟩
        · exact ⟨directive.target, hinner.target_mem, hnew, _, hblame⟩
        · exact ⟨includer, hmem, hout hlater, hblame⟩
  | @entered _ _ visited directive _ inner _ _ _ hinner _ _ _ ihlater =>
      obtain hown | ⟨hentered, hlate, hblame⟩ := ihlater (map_eq_error_iff.mp herror)
      · cases hown
      · have hother : directive.target ≠ error.path :=
          fun hsame => hlate (hsame ▸ hinner.target_mem)
        have hout : ∀ {path}, path ∉ inner.visited → path ∉ visited :=
          fun hout hseen => hout (hinner.mem_of_enter _ hseen)
        refine Or.inr ⟨hentered, hout hlate, hblame.imp (·.cons hother) ?_⟩
        exact fun ⟨includer, hmem, hlater, hblame⟩ => ⟨includer, hmem, hout hlater, hblame⟩

end

/-! ## Lines -/

/-- A file that can be read has at a line a directive for a target that is
followed: a quoted one, or any if the target is present or the reading strict. -/
def NamesAt (directory : SourceDirectory) (strict : Bool) (file target : String) (line : ℕ) :
    Prop :=
  ∃ content, directory.read file = .ok content ∧ ∃ directive ∈ directivesOf content,
    directive.target = target ∧ directive.line = line ∧
      (directive.form = .quoted ∨ directory.present target = true ∨ strict = true)

theorem NamesAt.includes {file target : String} {line : ℕ}
    (hnames : directory.NamesAt strict file target line) :
    directory.Includes strict file target := by
  obtain ⟨content, hread, directive, hmem, htarget, -, hkeeps⟩ := hnames
  exact ⟨content, hread, directive, hmem, htarget, htarget ▸ hkeeps⟩

theorem namesAt_iff_kept {file target : String} {line : ℕ} {content : List UInt8}
    (hread : directory.read file = .ok content) :
    directory.NamesAt strict file target line ↔
      ∃ directive ∈ directory.kept strict content,
        directive.target = target ∧ directive.line = line := by
  constructor
  · rintro ⟨content', hread', directive, hmem, rfl, hline, hkeeps⟩
    obtain rfl : content' = content := Except.ok.inj (hread'.symm.trans hread)
    exact ⟨directive, List.mem_filter.mpr ⟨hmem, keeps_iff.mpr hkeeps⟩, rfl, hline⟩
  · rintro ⟨directive, hkept, rfl, hline⟩
    obtain ⟨hmem, hkeeps⟩ := List.mem_filter.mp hkept
    exact ⟨content, hread, directive, hmem, rfl, hline, keeps_iff.mp hkeeps⟩

/-- The directive that an error refers to stands on the least line of those for
its path. -/
theorem isLeast_line_of_blames {referrer : Referrer} {file : String} {error : ResolveError}
    (hblame : directory.Blames strict (.expand referrer file) error) :
    ∃ line, error.referrer = .directive file line ∧
      IsLeast {line | directory.NamesAt strict file error.path line} line := by
  obtain ⟨content, hread, directive, hfirst, hreferrer⟩ := hblame
  rw [find?_promoteOwn, List.find?_eq_some_iff_append] at hfirst
  obtain ⟨hpath, before, after, hsplit, hbefore⟩ := hfirst
  have hsorted : (directory.kept strict content).Pairwise (·.line < ·.line) :=
    (Directive.pairwise_line_ofLines 1 _).filter _
  rw [hsplit, List.pairwise_append, List.pairwise_cons] at hsorted
  refine ⟨directive.line, hreferrer, ?_, fun line hline => ?_⟩
  · refine (namesAt_iff_kept hread).mpr ⟨directive, ?_, of_decide_eq_true hpath, rfl⟩
    exact hsplit ▸ List.mem_append_right _ List.mem_cons_self
  · obtain ⟨other, hother, htarget, rfl⟩ := (namesAt_iff_kept hread).mp hline
    rw [hsplit, List.mem_append, List.mem_cons] at hother
    rcases hother with hother | rfl | hother
    · exact absurd htarget (by simpa using hbefore other hother)
    · exact le_rfl
    · exact (hsorted.2.1.1 other hother).le

/-! ## Main result -/

section

variable {root : String} {error : ResolveError}

/-- What the error of a resolution tells: which file could not be read and why,
and the first directive that names it in a file that can be reached. -/
structure Explained (directory : SourceDirectory) (strict : Bool) (root : String)
    (error : ResolveError) : Prop where
  cause : ∃ fault, directory.read error.path = .error fault ∧
    error = if fault = .notFound then .missingFile error.path error.referrer
      else .unreadableFile error.path error.referrer fault
  sourceList : error.referrer = .sourceList ↔ error.path = root
  directive : error.path ≠ root → ∃ file line, error.referrer = .directive file line ∧
    ReflTransGen (directory.Includes strict) root file ∧
    IsLeast {line | directory.NamesAt strict file error.path line} line
  quoted : strict = false →
    (∀ path, directory.present path = true → directory.read path ≠ .error .notFound) →
    ∀ path file line, error = .missingFile path (.directive file line) →
      ∃ content, directory.read file = .ok content ∧ ⟨path, .quoted, line⟩ ∈ directivesOf content

/-- Whatever a walk for a file on its own visits can be reached, whether it
succeeds or not. -/
theorem Walks.reflTransGen_of_mem_visited {outcome : Outcome (List String)}
    (hwalk : Walks directory strict (.expand .sourceList root) [] (.rooted root) outcome)
    {path : String} (hpath : path ∈ outcome.visited) :
    ReflTransGen (directory.Includes strict) root path := by
  by_cases hroot : path = root
  · rw [hroot]
  · have hreached := reaches_expand_iff.mp
      (hwalk.reached hpath (mt VisitedSet.mem_rooted.mp hroot))
    exact (TransGen.mono (fun _ _ hstep => hstep.1) _ _ hreached).to_reflTransGen

/-- A call for a file on its own fails on that file, or on a target that a file
it reached names. -/
theorem Walks.failed_from_root {outcome : Outcome (List String)}
    (hwalk : Walks directory strict (.expand .sourceList root) [] (.rooted root) outcome)
    (herror : outcome.result = .error error) :
    error.path = root ∧ error.referrer = .sourceList ∨
      error.path ≠ root ∧ ∃ file line, error.referrer = .directive file line ∧
        ReflTransGen (directory.Includes strict) root file ∧
        IsLeast {line | directory.NamesAt strict file error.path line} line := by
  rcases hwalk.failed herror with hown | ⟨-, hnew, hblame⟩
  · obtain ⟨hreferrer, hpath⟩ := Stage.expand.inj hown
    exact Or.inl ⟨hpath.symm, hreferrer.symm⟩
  · refine Or.inr ⟨mt VisitedSet.mem_rooted.mpr hnew, ?_⟩
    rcases hblame with hblame | ⟨file, hmem, -, _, hblame⟩
    · obtain ⟨line, hreferrer, hleast⟩ := isLeast_line_of_blames hblame
      exact ⟨root, line, hreferrer, .refl, hleast⟩
    · obtain ⟨line, hreferrer, hleast⟩ := isLeast_line_of_blames hblame
      exact ⟨file, line, hreferrer, hwalk.reflTransGen_of_mem_visited hmem, hleast⟩

/-- A call that succeeds has read every file that can be reached. -/
theorem Walks.mem_reads_of_ok {outcome : Outcome (List String)} {found : List String}
    (hwalk : Walks directory strict (.expand .sourceList root) [] (.rooted root) outcome)
    (hok : outcome.result = .ok found) {path : String}
    (hreached : ReflTransGen (directory.Includes strict) root path) :
    path ∈ readsOf outcome.steps := by
  by_cases hroot : path = root
  · obtain ⟨entered, hreads, -⟩ := hwalk.reads
    rw [hreads, hroot]
    exact List.mem_append_left _ (List.mem_singleton.mpr rfl)
  · have hvisited := (hwalk.mem_visited_iff_reflTransGen hok).mpr hreached
    exact hwalk.mem_reads_of_mem_visited hvisited (mt VisitedSet.mem_rooted.mp hroot)

theorem Walks.readable_of_ok {outcome : Outcome (List String)} {found : List String}
    (hwalk : Walks directory strict (.expand .sourceList root) [] (.rooted root) outcome)
    (hok : outcome.result = .ok found) {path : String}
    (hreached : ReflTransGen (directory.Includes strict) root path) :
    ∃ content, directory.read path = .ok content := by
  refine (hwalk.readable (hwalk.mem_reads_of_ok hok hreached)).resolve_right
    fun ⟨error, herror, _⟩ => ?_
  cases hok.symm.trans herror

/-- What an error is about can be reached, since what names it can be. -/
theorem Explained.reached (hexplained : directory.Explained strict root error) :
    ReflTransGen (directory.Includes strict) root error.path := by
  by_cases hpath : error.path = root
  · rw [hpath]
  · obtain ⟨file, line, -, hfile, hline, -⟩ := hexplained.directive hpath
    exact hfile.tail hline.includes

theorem explained_of_error (h : (directory.resolveRoot strict root).result = .error error) :
    directory.Explained strict root error := by
  obtain ⟨outcome, hends⟩ := endsIn_walkFrom directory strict true root (.rooted root)
  have herror : outcome.result = .error error := (hends.error error).mp h
  obtain ⟨fault, hread, hfault⟩ := hends.walk.eq_ofFault herror
  have hcases := hends.walk.failed_from_root herror
  refine ⟨⟨fault, hread, hfault.trans (by cases fault <;> rfl)⟩, ?_, ?_, ?_⟩
  · rcases hcases with ⟨hpath, hreferrer⟩ | ⟨hpath, file, line, hreferrer, -⟩
    · simp [hpath, hreferrer]
    · simp [hpath, hreferrer]
  · exact fun hpath => (hcases.resolve_left fun hown => hpath hown.1).2
  · rintro rfl hpresent path file line rfl
    have hmissing : directory.read path = .error .notFound := by
      cases fault with
      | notFound => exact hread
      | _ => cases hfault
    obtain ⟨-, hreferrer⟩ | ⟨-, includer, least, hreferrer, -, hline, -⟩ := hcases
    · cases hreferrer
    · obtain ⟨rfl, rfl⟩ := Referrer.directive.inj hreferrer
      obtain ⟨content, hcontent, ⟨target, form, number⟩, hmem, rfl, rfl, hkeeps⟩ := hline
      -- an angle bracket directive was only followed if its target is present
      obtain rfl : form = .quoted := by
        rcases hkeeps with hquoted | hfound | hstrict
        · exact hquoted
        · exact absurd hmissing (hpresent _ hfound)
        · cases hstrict
      exact ⟨content, hcontent, hmem⟩

/-- **A resolution fails exactly where it has to, and says where.**  It succeeds
if and only if every file that it reaches can be read.  When it fails, the error
names a file that cannot be read with the reason, and the first line on which a
file that was reached names it; without a strict reading a file that does not
exist was named in quotes. -/
theorem resolveRoot_fails (directory : SourceDirectory) (strict : Bool) (root : String) :
    ((∃ resolution, (directory.resolveRoot strict root).result = .ok resolution) ↔
      ∀ path, ReflTransGen (directory.Includes strict) root path →
        ∃ content, directory.read path = .ok content) ∧
    ∀ error, (directory.resolveRoot strict root).result = .error error →
      directory.Explained strict root error := by
  refine ⟨⟨?_, fun hreadable => ?_⟩, fun error herror => explained_of_error herror⟩
  · rintro ⟨resolution, h⟩ path hreached
    obtain ⟨outcome, found, hwalk, hok, -⟩ := walkFrom_eq_ok h
    exact hwalk.readable_of_ok hok hreached
  · cases hresult : (directory.resolveRoot strict root).result with
    | ok resolution => exact ⟨resolution, rfl⟩
    | error error =>
        have hexplained := explained_of_error hresult
        obtain ⟨fault, hfault, -⟩ := hexplained.cause
        obtain ⟨content, hcontent⟩ := hreadable error.path hexplained.reached
        cases hfault.symm.trans hcontent

/-- In the directory of a tree a path that can be looked up is not missing when
it is read. -/
theorem read_ne_notFound_of_present {tree : Tree} {location : Location} {path : String}
    (h : (tree.sources location).present path = true) :
    (tree.sources location).read path ≠ .error .notFound := by
  cases hlocate : tree.locate (.confined location) path with
  | error fault => simp [Tree.sources, hlocate, Except.toOption] at h
  | ok found => exact Tree.read_ne_notFound hlocate

/-- A header that names a system header and twice a file that does not exist. -/
def torn : Tree :=
  .file (Text.bytes "a.c") (Text.bytes "#include \"a.h\"\n")
    (.file (Text.bytes "a.h")
      (Text.bytes "#include <stdio.h>\n#include \"gone.h\"\n#include \"gone.h\"\n") .empty)

theorem resolveRoot_fails_torn :
    ((torn.sources []).resolveRoot false "a.c").result =
      .error (.missingFile "gone.h" (.directive "a.h" 2)) ∧
    (torn.sources []).Explained false "a.c" (.missingFile "gone.h" (.directive "a.h" 2)) ∧
    (∃ content, (torn.sources []).read "a.h" = .ok content ∧
      ⟨"gone.h", .quoted, 2⟩ ∈ directivesOf content) ∧
    ¬ ∀ path, ReflTransGen ((torn.sources []).Includes false) "a.c" path →
      ∃ content, (torn.sources []).read path = .ok content := by
  have hresult : ((torn.sources []).resolveRoot false "a.c").result =
      .error (.missingFile "gone.h" (.directive "a.h" 2)) := rfl
  obtain ⟨hok, hexplained⟩ := resolveRoot_fails (torn.sources []) false "a.c"
  have hquoted := (hexplained _ hresult).quoted rfl
    (fun _ => read_ne_notFound_of_present) "gone.h" "a.h" 2 rfl
  refine ⟨hresult, hexplained _ hresult, hquoted, fun hreadable => ?_⟩
  obtain ⟨resolution, h⟩ := hok.mpr hreadable
  cases hresult.symm.trans h

end

end SourceDirectory

end IncludeDeps
