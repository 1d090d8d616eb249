import IncludeDeps.Graph.Build
import IncludeDeps.Proofs.FirstOccurrence
import IncludeDeps.Proofs.Resolution.Cycles

/-!
# Building a graph under the two policies

A build goes through its sources and adds an entry for each that can be
resolved; the policy only says what a source that cannot be resolved leads to.
`extend_cons_of_mem`, `extend_cons_of_ok` and `extend_cons_of_error` are the
three things that one source can do to a build.  From them follow, by induction
over the sources, the graph that comes out when failures are skipped
(`extend_skip`), that the policy does not matter where nothing fails
(`extend_of_resolves`), and that otherwise the first failure ends a build which
does not skip (`extend_abort`).

Nothing but the graph is handed from one source to the next, and of the graph
only the sources that have an entry are looked at.  So an entry depends on its
own source alone, and in what order the sources come only decides the order of
the entries.
-/

namespace IncludeDeps

namespace SourceDirectory

/-- A source can be resolved on its own. -/
def Resolves (directory : SourceDirectory) (strict : Bool) (source : String) : Prop :=
  ∃ resolution, (directory.resolveRoot strict source).result = .ok resolution

/-- What a source that can be resolved on its own adds to a graph: itself, then
its prerequisites. -/
def entryOf? (directory : SourceDirectory) (strict : Bool) (source : String) :
    Option (String × Prerequisites) :=
  match (directory.resolveRoot strict source).result with
  | .error _ => none
  | .ok resolution => some (source, resolution.prerequisites.withLeading source)

end SourceDirectory

namespace Graph

open SourceDirectory (knot)

variable {directory : SourceDirectory} {options : BuildOptions} {source : String}
  {rest sources : List String} {graph : Graph}

/-! ## One source -/

theorem extend_cons_of_mem (hmem : source ∈ graph.sources) :
    extend directory options (source :: rest) graph = extend directory options rest graph := by
  have hcontains : graph.contains source = true := List.contains_iff_mem.mpr hmem
  rw [extend, if_pos hcontains]

theorem extend_cons_of_ok {resolution : Resolution} (hnew : source ∉ graph.sources)
    (hok : (directory.resolveRoot options.strict source).result = .ok resolution) :
    (extend directory options (source :: rest) graph).1 =
      (extend directory options rest
        (graph.insert source (resolution.prerequisites.withLeading source))).1 := by
  have hcontains : ¬ graph.contains source = true := mt List.contains_iff_mem.mp hnew
  rw [extend, if_neg hcontains]
  simp only [hok]

theorem extend_cons_of_error {error : ResolveError} (hnew : source ∉ graph.sources)
    (herror : (directory.resolveRoot options.strict source).result = .error error) :
    (extend directory options (source :: rest) graph).1 =
      if options.onFailure = .abort then .error error
      else (extend directory options rest (graph.skip source)).1 := by
  have hcontains : ¬ graph.contains source = true := mt List.contains_iff_mem.mp hnew
  rw [extend, if_neg hcontains]
  cases hpolicy : options.onFailure <;> simp [herror]

theorem sources_insert (prerequisites : Prerequisites) (hnew : source ∉ graph.sources) :
    (graph.insert source prerequisites).sources = graph.sources ++ [source] := by
  rw [sources, entries_insert prerequisites hnew, List.map_append]
  rfl

theorem skipped_insert (prerequisites : Prerequisites) :
    (graph.insert source prerequisites).skipped = graph.skipped := by
  unfold insert
  split <;> rfl

/-! ## All sources -/

section

variable {α : Type} {value : α} {image : String → Option α} {seen : List String}

/-- A source that was seen or has no image leaves no trace among the images of
the sources that were not seen. -/
theorem filterMap_unseen_cons_of_none (hdrop : source ∈ seen ∨ image source = none) :
    ((source :: rest).eraseDups.filter (· ∉ seen)).filterMap image =
      (rest.eraseDups.filter (· ∉ seen)).filterMap image := by
  have hsource : (if source ∉ seen then image source else none) = none := by
    rcases hdrop with hseen | hnone
    · exact if_neg (not_not_intro hseen)
    · rw [hnone, ite_self]
  rw [List.eraseDups_cons, eraseDups_filter]
  simp only [List.filterMap_filter, decide_eq_true_eq, List.filterMap_cons, hsource]
  refine List.filterMap_congr fun other _ => ?_
  by_cases hother : other = source
  · rw [hother, hsource, ite_self]
  · simp [hother]

theorem filterMap_unseen_cons_of_some (hnew : source ∉ seen) (hsome : image source = some value) :
    ((source :: rest).eraseDups.filter (· ∉ seen)).filterMap image =
      value :: (rest.eraseDups.filter (· ∉ seen ++ [source])).filterMap image := by
  rw [List.eraseDups_cons, eraseDups_filter, List.filter_cons_of_pos (by simpa using hnew),
    List.filterMap_cons_some hsome, List.filter_filter]
  congr 2
  refine List.filter_congr fun other _ => ?_
  by_cases hother : other = source <;> simp [hother]

end

/-- A build that skips failures adds an entry for each distinct source that has
none yet and can be resolved. -/
theorem extend_skip (sources : List String) (graph : Graph)
    (hpolicy : options.onFailure = .skip) :
    ∃ built, (extend directory options sources graph).1 = .ok built ∧
      built.entries = graph.entries ++ (sources.eraseDups.filter (· ∉ graph.sources)).filterMap
        (directory.entryOf? options.strict) := by
  induction sources generalizing graph with
  | nil => exact ⟨graph, rfl, (List.append_nil _).symm⟩
  | cons source rest ih =>
      by_cases hmem : source ∈ graph.sources
      · rw [extend_cons_of_mem hmem, filterMap_unseen_cons_of_none (Or.inl hmem)]
        exact ih graph
      cases hresult : (directory.resolveRoot options.strict source).result with
      | ok resolution =>
          have hentry : directory.entryOf? options.strict source =
              some (source, resolution.prerequisites.withLeading source) := by
            simp [SourceDirectory.entryOf?, hresult]
          rw [extend_cons_of_ok hmem hresult, filterMap_unseen_cons_of_some hmem hentry,
            ← sources_insert (resolution.prerequisites.withLeading source) hmem,
            ← List.singleton_append, ← List.append_assoc, ← entries_insert _ hmem]
          exact ih _
      | error error =>
          have hentry : directory.entryOf? options.strict source = none := by
            simp [SourceDirectory.entryOf?, hresult]
          -- where it is repeated it is tried again, and adds nothing then either
          rw [extend_cons_of_error hmem hresult, if_neg (by simp [hpolicy]),
            filterMap_unseen_cons_of_none (Or.inr hentry)]
          exact ih (graph.skip source)

/-- Where every source can be resolved, the policy does not matter and nothing
is skipped. -/
theorem extend_of_resolves (options others : BuildOptions) (graph : Graph)
    (hstrict : others.strict = options.strict)
    (hresolves : ∀ source ∈ sources, directory.Resolves options.strict source) :
    ∃ built, (extend directory options sources graph).1 = .ok built ∧
      (extend directory others sources graph).1 = .ok built ∧
      built.skipped = graph.skipped := by
  induction sources generalizing graph with
  | nil => exact ⟨graph, rfl, rfl, rfl⟩
  | cons source rest ih =>
      obtain ⟨⟨resolution, hok⟩, hrest⟩ := List.forall_mem_cons.mp hresolves
      by_cases hmem : source ∈ graph.sources
      · rw [extend_cons_of_mem hmem, extend_cons_of_mem hmem]
        exact ih graph hrest
      · rw [extend_cons_of_ok hmem hok, extend_cons_of_ok hmem (hstrict ▸ hok)]
        obtain ⟨built, hbuilt, hother, hskipped⟩ := ih _ hrest
        exact ⟨built, hbuilt, hother, hskipped.trans (skipped_insert _)⟩

/-- A build that does not skip failures ends with the error of the first source
that cannot be resolved. -/
theorem extend_abort {before : List String} (after : List String) {error : ResolveError}
    (hpolicy : options.onFailure = .abort)
    (hgraph : ∀ source ∈ graph.sources, directory.Resolves options.strict source)
    (hbefore : ∀ earlier ∈ before, directory.Resolves options.strict earlier)
    (herror : (directory.resolveRoot options.strict source).result = .error error) :
    (extend directory options (before ++ source :: after) graph).1 = .error error := by
  induction before generalizing graph with
  | nil =>
      have hnew : source ∉ graph.sources := fun hmem => by
        obtain ⟨resolution, hok⟩ := hgraph source hmem
        cases hok.symm.trans herror
      rw [List.nil_append, extend_cons_of_error hnew herror, if_pos hpolicy]
  | cons earlier rest ih =>
      obtain ⟨⟨resolution, hok⟩, hrest⟩ := List.forall_mem_cons.mp hbefore
      rw [List.cons_append]
      by_cases hmem : earlier ∈ graph.sources
      · rw [extend_cons_of_mem hmem]
        exact ih hgraph hrest
      · rw [extend_cons_of_ok hmem hok]
        refine ih (fun other hother => ?_) hrest
        rw [sources_insert _ hmem, List.mem_append, List.mem_singleton] at hother
        rcases hother with hother | rfl
        · exact hgraph other hother
        · exact ⟨resolution, hok⟩

/-! ## Builds -/

theorem resolves_of_mem_empty (strict : Bool) :
    ∀ source ∈ empty.sources, directory.Resolves strict source :=
  fun _ hsource => absurd hsource List.not_mem_nil

theorem exists_build_skip (directory : SourceDirectory) (options : BuildOptions)
    (sources : List String) :
    ∃ graph, (build directory { options with onFailure := .skip } sources).1 = .ok graph ∧
      graph.entries = sources.eraseDups.filterMap (directory.entryOf? options.strict) := by
  have hpolicy : ({ options with onFailure := .skip } : BuildOptions).onFailure = .skip := rfl
  obtain ⟨graph, hbuilt, hentries⟩ := extend_skip sources empty hpolicy
  refine ⟨graph, hbuilt, hentries.trans ?_⟩
  simp [empty, Graph.sources]

theorem build_abort_of_error {before : List String} (after : List String) {error : ResolveError}
    (hbefore : ∀ earlier ∈ before, directory.Resolves options.strict earlier)
    (herror : (directory.resolveRoot options.strict source).result = .error error) :
    (build directory { options with onFailure := .abort } (before ++ source :: after)).1 =
      .error error :=
  extend_abort after rfl (resolves_of_mem_empty options.strict) hbefore herror

/-- Where not all sources can be resolved, there is a first that cannot. -/
theorem exists_first_failure
    (hfails : ¬ ∀ source ∈ sources, directory.Resolves options.strict source) :
    ∃ before source after error, sources = before ++ source :: after ∧
      (∀ earlier ∈ before, directory.Resolves options.strict earlier) ∧
      (directory.resolveRoot options.strict source).result = .error error := by
  classical
  obtain ⟨source, hmem, hfails⟩ := not_forall₂.mp hfails
  have hsome : (sources.find? fun other =>
      decide (¬ directory.Resolves options.strict other)).isSome = true :=
    List.find?_isSome.mpr ⟨source, hmem, by simpa using hfails⟩
  obtain ⟨first, hfirst⟩ := Option.isSome_iff_exists.mp hsome
  obtain ⟨hfirstFails, before, after, rfl, hbefore⟩ := List.find?_eq_some_iff_append.mp hfirst
  have hfirstFails : ¬ directory.Resolves options.strict first := by simpa using hfirstFails
  cases hresult : (directory.resolveRoot options.strict first).result with
  | ok resolution => exact absurd ⟨resolution, hresult⟩ hfirstFails
  | error error =>
      exact ⟨before, first, after, error, rfl, fun earlier hearlier => by
        simpa using hbefore earlier hearlier, hresult⟩

/-- A build that does not skip failures succeeds only if nothing fails. -/
theorem resolves_of_build_abort
    (hbuilt : (build directory { options with onFailure := .abort } sources).1 = .ok graph) :
    ∀ source ∈ sources, directory.Resolves options.strict source := by
  by_contra hfails
  obtain ⟨before, first, after, error, rfl, hbefore, herror⟩ := exists_first_failure hfails
  cases hbuilt.symm.trans (build_abort_of_error after hbefore herror)

/-- Under either policy a build has the entries of the one that skips failures. -/
theorem entries_build {policy : FailurePolicy}
    (hbuilt : (build directory { options with onFailure := policy } sources).1 = .ok graph) :
    graph.entries = sources.eraseDups.filterMap (directory.entryOf? options.strict) := by
  obtain ⟨skipping, hskipping, hentries⟩ := exists_build_skip directory options sources
  cases policy with
  | skip =>
      obtain rfl := Except.ok.inj (hbuilt.symm.trans hskipping)
      exact hentries
  | abort =>
      obtain ⟨built, habort, hskip, -⟩ := extend_of_resolves { options with onFailure := .abort }
        { options with onFailure := .skip } empty rfl (resolves_of_build_abort hbuilt)
      obtain rfl := Except.ok.inj (hbuilt.symm.trans habort)
      obtain rfl := Except.ok.inj (hskip.symm.trans hskipping)
      exact hentries

theorem eraseDups_perm {others : List String} (hperm : sources.Perm others) :
    sources.eraseDups.Perm others.eraseDups := by
  refine (List.perm_ext_iff_of_nodup (nodup_eraseDups _) (nodup_eraseDups _)).mpr fun source => ?_
  rw [List.mem_eraseDups, List.mem_eraseDups, hperm.mem_iff]

theorem fst_eq_of_entryOf {strict : Bool} {entry : String × Prerequisites}
    (hentry : directory.entryOf? strict source = some entry) : entry.1 = source := by
  unfold SourceDirectory.entryOf? at hentry
  split at hentry
  · cases hentry
  · obtain rfl := Option.some.inj hentry
    rfl

theorem entries_of_build (hbuilt : (build directory options sources).1 = .ok graph) :
    graph.entries = sources.eraseDups.filterMap (directory.entryOf? options.strict) :=
  @entries_build directory options sources graph options.onFailure hbuilt

theorem mem_of_mem_sources (hbuilt : (build directory options sources).1 = .ok graph)
    (hsource : source ∈ graph.sources) : source ∈ sources := by
  rw [Graph.sources, entries_of_build hbuilt] at hsource
  obtain ⟨entry, hentry, rfl⟩ := List.mem_map.mp hsource
  obtain ⟨other, hother, hfound⟩ := List.mem_filterMap.mp hentry
  rw [fst_eq_of_entryOf hfound]
  exact List.mem_eraseDups.mp hother

/-- An entry is what its source can be resolved to on its own, after the source itself. -/
theorem exists_resolution_of_mem_entries {entry : String × Prerequisites}
    (hbuilt : (build directory options sources).1 = .ok graph) (hentry : entry ∈ graph.entries) :
    ∃ resolution, (directory.resolveRoot options.strict entry.1).result = .ok resolution ∧
      entry.2 = resolution.prerequisites.withLeading entry.1 := by
  rw [entries_of_build hbuilt] at hentry
  obtain ⟨source, -, hsource⟩ := List.mem_filterMap.mp hentry
  unfold SourceDirectory.entryOf? at hsource
  split at hsource
  · cases hsource
  · next resolution hresolution =>
    obtain rfl := Option.some.inj hsource
    exact ⟨resolution, hresolution, rfl⟩

/-! ## Main result -/

/-- **The two policies agree.**  Skipping failures, a build always succeeds and
has an entry for each distinct source that can be resolved, in the order of the
sources.  Otherwise it succeeds exactly if every source can be resolved, with
the same graph, and fails with the error of the first source that cannot.  So an
entry depends on no other source, and in another order the same sources get the
same entries in another order. -/
theorem build_policies (directory : SourceDirectory) (options : BuildOptions)
    (sources : List String) :
    (∃ graph, (build directory { options with onFailure := .skip } sources).1 = .ok graph ∧
      graph.entries = sources.eraseDups.filterMap (directory.entryOf? options.strict)) ∧
    ((∃ graph, (build directory { options with onFailure := .abort } sources).1 = .ok graph) ↔
      ∀ source ∈ sources, directory.Resolves options.strict source) ∧
    (∀ graph, (build directory { options with onFailure := .abort } sources).1 = .ok graph →
      (build directory { options with onFailure := .skip } sources).1 = .ok graph ∧
        graph.skipped = []) ∧
    (∀ before source after error, sources = before ++ source :: after →
      (∀ earlier ∈ before, directory.Resolves options.strict earlier) →
      (directory.resolveRoot options.strict source).result = .error error →
      (build directory { options with onFailure := .abort } sources).1 = .error error) ∧
    ∀ policy graph others, sources.Perm others →
      (build directory { options with onFailure := policy } sources).1 = .ok graph →
      (∀ entry, entry ∈ graph.entries ↔
        entry.1 ∈ sources ∧ directory.entryOf? options.strict entry.1 = some entry) ∧
      ∃ other, (build directory { options with onFailure := policy } others).1 = .ok other ∧
        graph.entries.Perm other.entries := by
  have hsame : ∀ list : List String,
      (∀ source ∈ list, directory.Resolves options.strict source) →
      ∃ graph, (build directory { options with onFailure := .abort } list).1 = .ok graph ∧
        (build directory { options with onFailure := .skip } list).1 = .ok graph ∧
        graph.skipped = [] :=
    fun list hresolves => extend_of_resolves { options with onFailure := .abort }
      { options with onFailure := .skip } empty rfl hresolves
  refine ⟨exists_build_skip directory options sources, ⟨?_, fun hresolves => ?_⟩,
    fun graph hbuilt => ?_, ?_, fun policy graph others hperm hbuilt => ⟨fun entry => ?_, ?_⟩⟩
  · exact fun ⟨graph, hbuilt⟩ => resolves_of_build_abort hbuilt
  · obtain ⟨graph, hbuilt, -⟩ := hsame sources hresolves
    exact ⟨graph, hbuilt⟩
  · obtain ⟨built, habort, hskip, hskipped⟩ := hsame sources (resolves_of_build_abort hbuilt)
    obtain rfl := Except.ok.inj (hbuilt.symm.trans habort)
    exact ⟨hskip, hskipped⟩
  · rintro before source after error rfl hbefore herror
    exact build_abort_of_error after hbefore herror
  · rw [entries_build hbuilt, List.mem_filterMap]
    constructor
    · rintro ⟨source, hmem, hentry⟩
      rw [fst_eq_of_entryOf hentry]
      exact ⟨List.mem_eraseDups.mp hmem, hentry⟩
    · exact fun ⟨hmem, hentry⟩ => ⟨entry.1, List.mem_eraseDups.mpr hmem, hentry⟩
  · have hother : ∃ other,
        (build directory { options with onFailure := policy } others).1 = .ok other := by
      cases policy with
      | skip =>
          obtain ⟨other, hskip, -⟩ := exists_build_skip directory options others
          exact ⟨other, hskip⟩
      | abort =>
          obtain ⟨other, habort, -⟩ := hsame others fun source hmem =>
            resolves_of_build_abort hbuilt source (hperm.mem_iff.mpr hmem)
          exact ⟨other, habort⟩
    obtain ⟨other, hother⟩ := hother
    refine ⟨other, hother, ?_⟩
    rw [entries_build hbuilt, entries_build hother]
    exact (eraseDups_perm hperm).filterMap _

/-- The source that does not exist ends the build or is left out of it. -/
theorem build_policies_knot :
    (build (knot.sources []) { onFailure := .abort } ["b.h", "gone.c", "a.c", "b.h"]).1 =
      .error (.missingFile "gone.c" .sourceList) ∧
    ∃ graph, (build (knot.sources []) { onFailure := .skip } ["b.h", "gone.c", "a.c", "b.h"]).1 =
        .ok graph ∧
      graph.entries =
        [("b.h", .ofList ["b.h", "a.c", "a.h"]), ("a.c", .ofList ["a.c", "a.h", "b.h"])] := by
  obtain ⟨⟨graph, hgraph, hentries⟩, -, -, habort, -⟩ :=
    build_policies (knot.sources []) {} ["b.h", "gone.c", "a.c", "b.h"]
  refine ⟨habort ["b.h"] "gone.c" ["a.c", "b.h"] _ rfl ?_ rfl, graph, hgraph, hentries.trans rfl⟩
  exact fun earlier hearlier => List.mem_singleton.mp hearlier ▸ ⟨_, rfl⟩

end Graph

end IncludeDeps
