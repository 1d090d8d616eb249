import IncludeDeps.Proofs.Resolution.Failure

/-!
# Calls that share their visited files

A caller may hand the same set of visited files to one call after the other.

A call that fails has already visited some files (`resolve_leaves`).  A target is
visited right before it is read, so the one file that a call visits without having
read it is the file on which it fails; but the file that a call on its own starts
with is visited from the beginning.

Calls that succeed cut the include graph for those that follow: what one of them
visits is not entered by the next.  `Expanded` says which files are expanded by any
of them, and this does not speak of an order: the files that the calls are for, and
what can be reached from these outside of what was visited before the first call.
A file that a later call is kept from has been expanded by an earlier one
(`expanded_cons_iff`).  Whether all calls succeed, what they list between them and
what is visited in the end is settled by which files are expanded
(`settles_resolveInTurn`), so the order of the calls does not matter
(`resolveInTurn_perm`).
-/

namespace IncludeDeps

open scoped List

theorem VisitedSet.isEmpty_of_subset {visited later : VisitedSet}
    (hshared : visited.isEmpty = false) (hsubset : ∀ path ∈ visited, path ∈ later) :
    later.isEmpty = false := by
  obtain ⟨path, hpath⟩ := List.isEmpty_eq_false_iff_exists_mem.mp hshared
  exact List.isEmpty_eq_false_iff_exists_mem.mpr ⟨path, hsubset path hpath⟩

namespace SourceDirectory

open Relation

variable {directory : SourceDirectory} {strict : Bool} {file : String} {visited : VisitedSet}

/-! ## A call that fails -/

section

variable {α : Type} {call : Outcome α} {outcome : Outcome (List String)} {error : ResolveError}

/-- What a call that fails has visited since it began is what it has read on the
way from its file, but for the file on which it fails. -/
theorem EndsIn.read_of_mem_visited (hends : directory.EndsIn strict file visited call outcome)
    (herror : call.result = .error error) {path : String} (hpath : path ∈ call.visited)
    (hnew : path ∉ visited) (hother : path ≠ error.path) :
    path ∈ readsOf call.steps ∧ (∃ content, directory.read path = .ok content) ∧
      TransGen (directory.Includes strict) file path := by
  rw [hends.visited] at hpath
  have hread : path ∈ readsOf outcome.steps := hends.walk.mem_reads_of_mem_visited hpath hnew
  refine ⟨hends.steps ▸ hread, ?_, ?_⟩
  · refine (hends.walk.readable hread).resolve_right ?_
    rintro ⟨failure, hfailure, rfl⟩
    obtain rfl : failure = error :=
      Except.error.inj (hfailure.symm.trans ((hends.error error).mp herror))
    exact hother rfl
  · have hreached := reaches_expand_iff.mp (hends.walk.reached hpath hnew)
    exact TransGen.mono (fun _ _ hstep => hstep.1) _ _ hreached

/-- A call that fails has visited the file on which it fails, unless this is the
file that it was made for. -/
theorem EndsIn.error_path_mem_visited
    (hends : directory.EndsIn strict file visited call outcome)
    (herror : call.result = .error error) (hother : error.path ≠ file) :
    error.path ∈ call.visited := by
  rcases hends.walk.failed ((hends.error error).mp herror) with hown | ⟨hentered, -⟩
  · exact absurd (Stage.expand.inj hown).2.symm hother
  · rwa [hends.visited]

/-- A call that fails on the file that it was made for has visited nothing. -/
theorem EndsIn.visited_eq_of_error_path
    (hends : directory.EndsIn strict file visited call outcome)
    (herror : call.result = .error error) (hown : error.path = file) : call.visited = visited := by
  obtain ⟨fault, hfault, -⟩ := hends.walk.eq_ofFault ((hends.error error).mp herror)
  rw [hown] at hfault
  rw [hends.visited]
  cases hends.walk with
  | unreadable _ => rfl
  | expanded hread _ => cases hfault.symm.trans hread

end

/-- **What a call that fails leaves behind.**  Nothing that was visited is forgotten.
What was added is the file on which the call fails, the file that it was made for if
no other was visited, and files that the call has read and that can be reached from
its own.  The file on which it fails is always visited then, unless the call shares
the files visited and fails on its own file; nothing is added in this case. -/
theorem resolve_leaves {error : ResolveError}
    (h : (directory.resolve strict file visited).result = .error error) :
    (∀ path ∈ visited, path ∈ (directory.resolve strict file visited).visited) ∧
    (∀ path ∈ (directory.resolve strict file visited).visited, path ∉ visited →
      path ≠ error.path → (visited.isEmpty = true → path ≠ file) →
      path ∈ readsOf (directory.resolve strict file visited).steps ∧
        (∃ content, directory.read path = .ok content) ∧
        TransGen (directory.Includes strict) file path) ∧
    (error.path ∈ (directory.resolve strict file visited).visited ∨
      error.path = file ∧ visited.isEmpty = false ∧
        (directory.resolve strict file visited).visited = visited) := by
  obtain ⟨outcome, hends⟩ := endsIn_resolve directory strict file visited
  refine ⟨fun path hpath => ?_, fun path hpath hnew hother hfile => ?_, ?_⟩
  · rw [hends.visited]
    exact hends.walk.mem_visited (VisitedSet.mem_seeded_of_mem hpath)
  · refine hends.read_of_mem_visited h hpath ?_ hother
    unfold VisitedSet.seeded
    split
    · next hempty => exact mt VisitedSet.mem_rooted.mp (hfile hempty)
    · exact hnew
  · by_cases hown : error.path = file
    · rw [hends.visited_eq_of_error_path h hown, VisitedSet.seeded]
      cases hempty : visited.isEmpty with
      | true => exact Or.inl (VisitedSet.mem_rooted.mpr hown)
      | false => exact Or.inr ⟨hown, rfl, rfl⟩
    · exact Or.inl (hends.error_path_mem_visited h hown)

/-- The header was read before the call failed, the file that it names was not. -/
theorem resolve_leaves_torn :
    ((torn.sources []).resolve false "a.c" (.rooted "x.h")).result =
      .error (.missingFile "gone.h" (.directive "a.h" 2)) ∧
    "x.h" ∈ ((torn.sources []).resolve false "a.c" (.rooted "x.h")).visited ∧
    "a.h" ∈ ((torn.sources []).resolve false "a.c" (.rooted "x.h")).visited ∧
    TransGen ((torn.sources []).Includes false) "a.c" "a.h" ∧
    "gone.h" ∈ ((torn.sources []).resolve false "a.c" (.rooted "x.h")).visited := by
  have hresult : ((torn.sources []).resolve false "a.c" (.rooted "x.h")).result =
      .error (.missingFile "gone.h" (.directive "a.h" 2)) := rfl
  have hheader : "a.h" ∈ ((torn.sources []).resolve false "a.c" (.rooted "x.h")).visited := by
    decide +kernel
  obtain ⟨hkept, hadded, hfailed⟩ := resolve_leaves hresult
  have hread := hadded "a.h" hheader (by decide) (by decide) (by decide)
  exact ⟨hresult, hkept "x.h" (by decide), hheader, hread.2.2,
    hfailed.resolve_right fun hown => absurd hown.1 (by decide)⟩

/-! ## Files that are expanded -/

/-- The calls for some files that share the files visited expand a file: it is one
of these files or can be reached from one, and the way does not lead into what was
visited before. -/
def Expanded (directory : SourceDirectory) (strict : Bool) (visited : VisitedSet)
    (files : List String) (path : String) : Prop :=
  ∃ file ∈ files, ReflTransGen (directory.IncludesOutside strict visited) file path

/-- A file that these calls expand includes a target. -/
def IncludedFrom (directory : SourceDirectory) (strict : Bool) (visited : VisitedSet)
    (files : List String) (target : String) : Prop :=
  ∃ includer, directory.Expanded strict visited files includer ∧
    directory.Includes strict includer target

section

variable {files : List String} {path : String}

theorem expanded_singleton_iff :
    directory.Expanded strict visited [file] path ↔
      path = file ∨ TransGen (directory.IncludesOutside strict visited) file path := by
  simp only [Expanded, List.mem_singleton, exists_eq_left, reflTransGen_iff_eq_or_transGen]

theorem Expanded.mono {others : List String}
    (hexpanded : directory.Expanded strict visited files path) (hsubset : files ⊆ others) :
    directory.Expanded strict visited others path := by
  obtain ⟨start, hstart, hchain⟩ := hexpanded
  exact ⟨start, hsubset hstart, hchain⟩

/-- The order of the calls does not matter for what they expand. -/
theorem expanded_perm {others : List String} (hperm : files ~ others) :
    directory.Expanded strict visited files path ↔ directory.Expanded strict visited others path :=
  ⟨fun hexpanded => hexpanded.mono hperm.subset, fun hexpanded => hexpanded.mono hperm.symm.subset⟩

theorem Expanded.tail {target : String}
    (hexpanded : directory.Expanded strict visited files path)
    (hincludes : directory.Includes strict path target) (hnew : target ∉ visited) :
    directory.Expanded strict visited files target := by
  obtain ⟨start, hstart, hchain⟩ := hexpanded
  exact ⟨start, hstart, hchain.tail ⟨hincludes, hnew⟩⟩

/-- A call keeps those that follow from nothing that it has not expanded itself. -/
theorem expanded_cons_iff {later : VisitedSet}
    (hlater : ∀ path, path ∈ later ↔
      path ∈ visited ∨ directory.IncludedFrom strict visited [file] path) :
    directory.Expanded strict visited (file :: files) path ↔
      directory.Expanded strict visited [file] path ∨
        directory.Expanded strict later files path := by
  constructor
  · rintro ⟨start, hstart, hchain⟩
    rcases List.mem_cons.mp hstart with rfl | hstart
    · exact Or.inl ⟨start, List.mem_singleton.mpr rfl, hchain⟩
    -- where the way first meets what the call has visited, the call went on from there
    induction hchain with
    | refl => exact Or.inr ⟨start, hstart, .refl⟩
    | @tail includer target _ hstep ih =>
        obtain ⟨hincludes, hnew⟩ := hstep
        rcases ih with hearlier | hfollowing
        · exact Or.inl (hearlier.tail hincludes hnew)
        · by_cases htarget : target ∈ later
          · obtain ⟨other, hother, hnames⟩ := ((hlater target).mp htarget).resolve_left hnew
            exact Or.inl (hother.tail hnames hnew)
          · exact Or.inr (hfollowing.tail hincludes htarget)
  · rintro (hearlier | ⟨start, hstart, hchain⟩)
    · exact hearlier.mono (by simp)
    · have hwider : directory.IncludesOutside strict later ≤
          directory.IncludesOutside strict visited :=
        includesOutside_anti fun _ hseen => (hlater _).mpr (Or.inl hseen)
      exact ⟨start, List.mem_cons_of_mem _ hstart, ReflTransGen.mono hwider _ _ hchain⟩

theorem includedFrom_cons_iff (files : List String) {later : VisitedSet}
    (hlater : ∀ path, path ∈ later ↔
      path ∈ visited ∨ directory.IncludedFrom strict visited [file] path) :
    directory.IncludedFrom strict visited (file :: files) path ↔
      directory.IncludedFrom strict visited [file] path ∨
        directory.IncludedFrom strict later files path := by
  unfold IncludedFrom
  rw [← exists_or]
  refine exists_congr fun includer => ?_
  rw [expanded_cons_iff hlater, or_and_right]

end

/-! ## One call -/

/-- An outcome is settled by the files that calls for some files expand: these succeed
if all of them can be read, and then list what they include and visit just that. -/
structure Settles {α : Type} (directory : SourceDirectory) (strict : Bool) (visited : VisitedSet)
    (files : List String) (call : Outcome α) (lists : α → String → Prop) : Prop where
  succeeds_iff : (∃ value, call.result = .ok value) ↔
    ∀ path, directory.Expanded strict visited files path →
      ∃ content, directory.read path = .ok content
  lists_iff : ∀ value, call.result = .ok value → ∀ path,
    lists value path ↔ directory.IncludedFrom strict visited files path
  visits_iff : ∀ value, call.result = .ok value → ∀ path,
    path ∈ call.visited ↔ path ∈ visited ∨ directory.IncludedFrom strict visited files path

section

variable {outcome : Outcome (List String)} {found : List String} {referrer : Referrer}
  {trail : List String}

theorem Walks.mem_found_iff_includedFrom
    (hwalk : Walks directory strict (.expand referrer file) trail visited outcome)
    (hok : outcome.result = .ok found) {path : String} :
    path ∈ found ↔ directory.IncludedFrom strict visited [file] path := by
  simp only [hwalk.mem_found_iff hok, reaches_expand_iff, Leads, IncludedFrom,
    expanded_singleton_iff, or_and_right, exists_or, exists_eq_left]

theorem Walks.mem_visited_iff_includedFrom
    (hwalk : Walks directory strict (.expand referrer file) trail visited outcome)
    (hok : outcome.result = .ok found) {path : String} :
    path ∈ outcome.visited ↔
      path ∈ visited ∨ directory.IncludedFrom strict visited [file] path := by
  rw [hwalk.mem_visited_iff hok, reaches_expand_iff, TransGen.tail'_iff]
  by_cases hpath : path ∈ visited
  · simp only [hpath, true_or]
  · simp only [IncludesOutside, IncludedFrom, Expanded, List.mem_singleton, exists_eq_left, hpath,
      not_false_eq_true, and_true]

/-- A walk that succeeds has read every file that it expands. -/
theorem Walks.readable_of_expanded
    (hwalk : Walks directory strict (.expand referrer file) trail visited outcome)
    (hok : outcome.result = .ok found) {path : String}
    (hexpanded : directory.Expanded strict visited [file] path) :
    ∃ content, directory.read path = .ok content := by
  have hread : path ∈ readsOf outcome.steps := by
    rcases expanded_singleton_iff.mp hexpanded with rfl | hchain
    · obtain ⟨entered, hreads, -⟩ := hwalk.reads
      rw [hreads]
      exact List.mem_append_left _ (List.mem_singleton.mpr rfl)
    · obtain ⟨_, -, -, hnew⟩ := TransGen.tail'_iff.mp hchain
      have hvisited := (hwalk.mem_visited_iff hok).mpr (Or.inr (reaches_expand_iff.mpr hchain))
      exact hwalk.mem_reads_of_mem_visited hvisited hnew
  refine (hwalk.readable hread).resolve_right ?_
  rintro ⟨error, herror, -⟩
  cases hok.symm.trans herror

/-- A walk that fails expands the file on which it fails, and this cannot be read. -/
theorem Walks.expanded_error_path {error : ResolveError}
    (hwalk : Walks directory strict (.expand referrer file) trail visited outcome)
    (herror : outcome.result = .error error) :
    directory.Expanded strict visited [file] error.path ∧
      ∀ content, directory.read error.path ≠ .ok content := by
  constructor
  · rw [expanded_singleton_iff]
    rcases hwalk.failed herror with hown | ⟨hentered, hnew, -⟩
    · exact Or.inl (Stage.expand.inj hown).2.symm
    · exact Or.inr (reaches_expand_iff.mp (hwalk.reached hentered hnew))
  · obtain ⟨fault, hfault, -⟩ := hwalk.eq_ofFault herror
    rintro content hcontent
    cases hfault.symm.trans hcontent

end

/-- A call that shares its visited files is settled by the files that it expands. -/
theorem settles_resolve (hshared : visited.isEmpty = false) :
    directory.Settles strict visited [file] (directory.resolve strict file visited)
      fun list path => path ∈ list := by
  have hseeded : visited.seeded file = visited := by
    rw [VisitedSet.seeded, hshared]
    rfl
  -- what is listed is what the walk finds, since no file is left out of a shared call
  have hwalks : ∀ list, (directory.resolve strict file visited).result = .ok list →
      ∃ outcome found, Walks directory strict (.expand .sourceList file) [] visited outcome ∧
        outcome.result = .ok found ∧
        outcome.visited = (directory.resolve strict file visited).visited ∧
        ∀ path, path ∈ list ↔ path ∈ found := by
    intro list hlist
    rw [resolve_eq, hseeded, hshared] at hlist ⊢
    obtain ⟨resolution, hresolution, rfl⟩ := map_eq_ok_iff.mp hlist
    obtain ⟨outcome, found, hwalk, hok, hvisited, -, -, hlisted⟩ := walkFrom_eq_ok hresolution
    exact ⟨outcome, found, hwalk, hok, hvisited, fun path => by simp [hlisted]⟩
  refine ⟨⟨?_, fun hreadable => ?_⟩, fun list hlist path => ?_, fun list hlist path => ?_⟩
  · rintro ⟨list, hlist⟩ path hexpanded
    obtain ⟨outcome, found, hwalk, hok, -⟩ := hwalks list hlist
    exact hwalk.readable_of_expanded hok hexpanded
  · obtain ⟨outcome, hends⟩ := endsIn_resolve directory strict file visited
    rw [hseeded] at hends
    cases hresult : (directory.resolve strict file visited).result with
    | ok list => exact ⟨list, rfl⟩
    | error error =>
        obtain ⟨hexpanded, hunreadable⟩ :=
          hends.walk.expanded_error_path ((hends.error error).mp hresult)
        obtain ⟨content, hcontent⟩ := hreadable error.path hexpanded
        exact absurd hcontent (hunreadable content)
  · obtain ⟨outcome, found, hwalk, hok, -, hlisted⟩ := hwalks list hlist
    rw [hlisted, hwalk.mem_found_iff_includedFrom hok]
  · obtain ⟨outcome, found, hwalk, hok, hvisited, -⟩ := hwalks list hlist
    rw [← hvisited, hwalk.mem_visited_iff_includedFrom hok]

/-! ## Calls in turn -/

/-- The calls for some files in turn, each with what was visited before it; the first
that fails ends them. -/
def resolveInTurn (directory : SourceDirectory) (strict : Bool) :
    List String → VisitedSet → Outcome (List Prerequisites)
  | [], visited => ⟨.ok [], visited, []⟩
  | file :: rest, visited =>
    let first := directory.resolve strict file visited
    match first.result with
    | .error error => ⟨.error error, first.visited, first.steps⟩
    | .ok list =>
      let later := directory.resolveInTurn strict rest first.visited
      ⟨later.result.map (list :: ·), later.visited, first.steps ++ later.steps⟩

theorem resolveInTurn_cons_of_error (rest : List String) {error : ResolveError}
    (hfirst : (directory.resolve strict file visited).result = .error error) :
    (directory.resolveInTurn strict (file :: rest) visited).result = .error error := by
  rw [resolveInTurn]
  simp only [hfirst]

theorem resolveInTurn_cons_of_ok (rest : List String) {list : Prerequisites}
    (hfirst : (directory.resolve strict file visited).result = .ok list) :
    let later := directory.resolveInTurn strict rest
      (directory.resolve strict file visited).visited
    (directory.resolveInTurn strict (file :: rest) visited).result =
        later.result.map (list :: ·) ∧
      (directory.resolveInTurn strict (file :: rest) visited).visited = later.visited := by
  rw [resolveInTurn]
  simp only [hfirst, and_self]

section

variable {rest : List String}

/-- Where the first call fails, one of the files that it expands cannot be read. -/
theorem settles_cons_of_error {error : ResolveError} (hshared : visited.isEmpty = false)
    (hresult : (directory.resolve strict file visited).result = .error error) :
    directory.Settles strict visited (file :: rest)
      (directory.resolveInTurn strict (file :: rest) visited)
      fun lists path => ∃ list ∈ lists, path ∈ list := by
  have hfails := resolveInTurn_cons_of_error rest hresult
  have hnone : ∀ lists,
      (directory.resolveInTurn strict (file :: rest) visited).result ≠ .ok lists := by
    rintro lists hlists
    cases hfails.symm.trans hlists
  refine ⟨⟨fun ⟨lists, hlists⟩ => absurd hlists (hnone lists), fun hreadable => ?_⟩,
    fun lists hlists => absurd hlists (hnone lists),
    fun lists hlists => absurd hlists (hnone lists)⟩
  obtain ⟨list, hlist⟩ := (settles_resolve hshared).succeeds_iff.mpr fun path hexpanded =>
    hreadable path (hexpanded.mono (List.cons_subset_cons file (List.nil_subset rest)))
  cases hresult.symm.trans hlist

/-- Where the first call succeeds, the others are settled by what it leaves to them. -/
theorem settles_cons_of_ok {list : Prerequisites} (hshared : visited.isEmpty = false)
    (hresult : (directory.resolve strict file visited).result = .ok list)
    (hrest : directory.Settles strict (directory.resolve strict file visited).visited rest
      (directory.resolveInTurn strict rest (directory.resolve strict file visited).visited)
      fun lists path => ∃ list ∈ lists, path ∈ list) :
    directory.Settles strict visited (file :: rest)
      (directory.resolveInTurn strict (file :: rest) visited)
      fun lists path => ∃ list ∈ lists, path ∈ list := by
  have hfirst : directory.Settles strict visited [file] _ _ := settles_resolve hshared
  have hlater := hfirst.visits_iff list hresult
  obtain ⟨hcall, hvisited⟩ := resolveInTurn_cons_of_ok rest hresult
  have hlists_iff : ∀ lists,
      (directory.resolveInTurn strict (file :: rest) visited).result = .ok lists ↔
        ∃ others, (directory.resolveInTurn strict rest
          (directory.resolve strict file visited).visited).result = .ok others ∧
            list :: others = lists := by
    intro lists
    rw [hcall, map_eq_ok_iff]
  refine ⟨⟨?_, fun hreadable => ?_⟩, fun lists hlists path => ?_, fun lists hlists path => ?_⟩
  · rintro ⟨lists, hlists⟩ path hexpanded
    obtain ⟨others, hothers, -⟩ := (hlists_iff lists).mp hlists
    rcases (expanded_cons_iff hlater).mp hexpanded with hearlier | hfollowing
    · exact hfirst.succeeds_iff.mp ⟨list, hresult⟩ path hearlier
    · exact hrest.succeeds_iff.mp ⟨others, hothers⟩ path hfollowing
  · obtain ⟨others, hothers⟩ := hrest.succeeds_iff.mpr fun path hfollowing =>
      hreadable path ((expanded_cons_iff hlater).mpr (Or.inr hfollowing))
    exact ⟨list :: others, (hlists_iff _).mpr ⟨others, hothers, rfl⟩⟩
  · obtain ⟨others, hothers, rfl⟩ := (hlists_iff lists).mp hlists
    rw [includedFrom_cons_iff rest hlater, ← hfirst.lists_iff list hresult,
      ← hrest.lists_iff others hothers]
    simp only [List.mem_cons, exists_eq_or_imp]
  · obtain ⟨others, hothers, -⟩ := (hlists_iff lists).mp hlists
    rw [hvisited, hrest.visits_iff others hothers, hlater,
      includedFrom_cons_iff rest hlater, or_assoc]

/-- Calls in turn are settled by the files that any of them expands. -/
theorem settles_resolveInTurn {files : List String} (hshared : visited.isEmpty = false) :
    directory.Settles strict visited files (directory.resolveInTurn strict files visited)
      fun lists path => ∃ list ∈ lists, path ∈ list := by
  induction files generalizing visited with
  | nil =>
      constructor
      · simp [resolveInTurn, Expanded]
      · rintro lists ⟨⟩ path
        simp [IncludedFrom, Expanded]
      · simp [resolveInTurn, IncludedFrom, Expanded]
  | cons file rest ih =>
      cases hresult : (directory.resolve strict file visited).result with
      | error error => exact settles_cons_of_error hshared hresult
      | ok list =>
          refine settles_cons_of_ok hshared hresult (ih ?_)
          refine VisitedSet.isEmpty_of_subset hshared fun path hpath => ?_
          exact ((settles_resolve hshared).visits_iff list hresult path).mpr (Or.inl hpath)

end

/-- **The order of calls that share their visited files does not matter.**  If calls
for some files in turn succeed, then so do they in any other order.  They list the same
paths between them and visit the same files, which are those visited before and those
listed. -/
theorem resolveInTurn_perm {files others : List String} {lists : List Prerequisites}
    (hshared : visited.isEmpty = false) (hperm : files ~ others)
    (h : (directory.resolveInTurn strict files visited).result = .ok lists) :
    ∃ lists', (directory.resolveInTurn strict others visited).result = .ok lists' ∧
      (∀ path, path ∈ (directory.resolveInTurn strict files visited).visited ↔
        path ∈ (directory.resolveInTurn strict others visited).visited) ∧
      (∀ path, (∃ list ∈ lists, path ∈ list) ↔ ∃ list ∈ lists', path ∈ list) ∧
      ∀ path, path ∈ (directory.resolveInTurn strict files visited).visited ↔
        path ∈ visited ∨ ∃ list ∈ lists, path ∈ list := by
  have hfirst : directory.Settles strict visited files _ _ := settles_resolveInTurn hshared
  have hsecond : directory.Settles strict visited others _ _ := settles_resolveInTurn hshared
  have hsame : ∀ path, directory.IncludedFrom strict visited files path ↔
      directory.IncludedFrom strict visited others path := fun path =>
    exists_congr fun includer => and_congr_left' (expanded_perm hperm)
  obtain ⟨lists', h'⟩ := hsecond.succeeds_iff.mpr fun path hexpanded =>
    hfirst.succeeds_iff.mp ⟨lists, h⟩ path ((expanded_perm hperm).mpr hexpanded)
  refine ⟨lists', h', fun path => ?_, fun path => ?_, fun path => ?_⟩
  · rw [hfirst.visits_iff lists h, hsecond.visits_iff lists' h', hsame]
  · rw [hfirst.lists_iff lists h, hsecond.lists_iff lists' h', hsame]
  · rw [hfirst.visits_iff lists h, hfirst.lists_iff lists h]

/-- The lists of the calls differ with their order. -/
theorem resolveInTurn_perm_knot :
    ((knot.sources []).resolveInTurn false ["a.c", "b.h"] (.rooted "x.h")).result =
      .ok [.ofList ["a.h", "a.c", "b.h"], .ofList ["a.c"]] ∧
    ((knot.sources []).resolveInTurn false ["b.h", "a.c"] (.rooted "x.h")).result =
      .ok [.ofList ["a.c", "a.h", "b.h"], .ofList ["a.h", "b.h"]] ∧
    (∀ path, path ∈ ((knot.sources []).resolveInTurn false ["a.c", "b.h"] (.rooted "x.h")).visited ↔
      path ∈ ((knot.sources []).resolveInTurn false ["b.h", "a.c"] (.rooted "x.h")).visited) ∧
    ∀ path, (∃ list ∈ [Prerequisites.ofList ["a.h", "a.c", "b.h"], .ofList ["a.c"]], path ∈ list) ↔
      ∃ list ∈ [Prerequisites.ofList ["a.c", "a.h", "b.h"], .ofList ["a.h", "b.h"]],
        path ∈ list := by
  have hfirst : ((knot.sources []).resolveInTurn false ["a.c", "b.h"] (.rooted "x.h")).result =
      .ok [.ofList ["a.h", "a.c", "b.h"], .ofList ["a.c"]] := rfl
  have hsecond : ((knot.sources []).resolveInTurn false ["b.h", "a.c"] (.rooted "x.h")).result =
      .ok [.ofList ["a.c", "a.h", "b.h"], .ofList ["a.h", "b.h"]] := rfl
  obtain ⟨lists, hlists, hvisited, hlisted, -⟩ :=
    resolveInTurn_perm (by decide) (List.Perm.swap "b.h" "a.c" []) hfirst
  obtain rfl := Except.ok.inj (hsecond.symm.trans hlists)
  exact ⟨hfirst, hsecond, hvisited, hlisted⟩

end SourceDirectory

end IncludeDeps
