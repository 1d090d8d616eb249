import IncludeDeps.Proofs.Graph.Policies

/-!
# Repeated sources

A source that has an entry is not resolved again, so repeating it changes
nothing.  A source that cannot be resolved gets no entry, and nothing else is
looked at when it comes again: it is tried once more, and skipped once more.

`skipped_build` says what a build skips: every source that cannot be resolved, each
as often as it is given.  So leaving out the repetitions before a build leaves the
entries as they are and leaves the repetitions out of what is skipped
(`exists_build_eraseDups`); and where a failure ends the build, the first failure is
the same (`build_eraseDups_of_error`).
-/

namespace IncludeDeps

/-- Whether a source cannot be resolved on its own. -/
def SourceDirectory.fails (directory : SourceDirectory) (strict : Bool) (source : String) : Bool :=
  (directory.entryOf? strict source).isNone

namespace Graph

open SourceDirectory (knot)

variable {directory : SourceDirectory} {options : BuildOptions} {source : String}
  {sources : List String} {graph built : Graph}

theorem fails_iff {strict : Bool} :
    directory.fails strict source = true ↔ ¬ directory.Resolves strict source := by
  unfold SourceDirectory.fails SourceDirectory.entryOf? SourceDirectory.Resolves
  cases (directory.resolveRoot strict source).result <;> simp

theorem eq_of_entries_of_skipped {first second : Graph} (hentries : first.entries = second.entries)
    (hskipped : first.skipped = second.skipped) : first = second := by
  cases first
  cases second
  cases hentries
  cases hskipped
  rfl

/-! ## What is skipped -/

theorem skipped_extend
    (hgraph : ∀ source ∈ graph.sources, directory.Resolves options.strict source)
    (hbuilt : (extend directory options sources graph).1 = .ok built) :
    built.skipped = graph.skipped ++ sources.filter (directory.fails options.strict) := by
  induction sources generalizing graph with
  | nil =>
      obtain rfl := Except.ok.inj hbuilt
      exact (List.append_nil _).symm
  | cons source rest ih =>
      by_cases hmem : source ∈ graph.sources
      · rw [extend_cons_of_mem hmem] at hbuilt
        rw [List.filter_cons_of_neg fun hfails => fails_iff.mp hfails (hgraph source hmem)]
        exact ih hgraph hbuilt
      cases hresult : (directory.resolveRoot options.strict source).result with
      | ok resolution =>
          have hresolves : directory.Resolves options.strict source := ⟨resolution, hresult⟩
          rw [extend_cons_of_ok hmem hresult] at hbuilt
          rw [List.filter_cons_of_neg fun hfails => fails_iff.mp hfails hresolves]
          refine (ih (fun other hother => ?_) hbuilt).trans (by rw [skipped_insert])
          rw [sources_insert _ hmem, List.mem_append, List.mem_singleton] at hother
          rcases hother with hother | rfl
          · exact hgraph other hother
          · exact hresolves
      | error error =>
          have hfails : ¬ directory.Resolves options.strict source := fun ⟨_, hok⟩ => by
            cases hok.symm.trans hresult
          rw [extend_cons_of_error hmem hresult] at hbuilt
          split at hbuilt
          · cases hbuilt
          · have hskip : ∀ other ∈ (graph.skip source).sources,
                directory.Resolves options.strict other := hgraph
            rw [List.filter_cons_of_pos (fails_iff.mpr hfails)]
            exact (ih hskip hbuilt).trans (List.append_assoc _ [source] _)

theorem skipped_build (hbuilt : (build directory options sources).1 = .ok graph) :
    graph.skipped = sources.filter (directory.fails options.strict) :=
  (skipped_extend (resolves_of_mem_empty options.strict) hbuilt).trans (List.nil_append _)

theorem count_skipped (hbuilt : (build directory options sources).1 = .ok graph)
    (source : String) : graph.skipped.count source =
      if directory.fails options.strict source then sources.count source else 0 := by
  rw [skipped_build hbuilt]
  split
  · next hfails => exact List.count_filter hfails
  · next hresolves =>
    exact List.count_eq_zero_of_not_mem fun hmem => hresolves (List.mem_filter.mp hmem).2

theorem resolves_of_build (hpolicy : options.onFailure = .abort)
    (hbuilt : (build directory options sources).1 = .ok graph) :
    ∀ source ∈ sources, directory.Resolves options.strict source := by
  have hoptions : { options with onFailure := .abort } = options := by rw [← hpolicy]
  exact @resolves_of_build_abort directory options sources graph (hoptions ▸ hbuilt)

theorem skipped_eq_nil (hpolicy : options.onFailure = .abort)
    (hbuilt : (build directory options sources).1 = .ok graph) : graph.skipped = [] := by
  rw [skipped_build hbuilt]
  exact List.filter_eq_nil_iff.mpr fun source hmem hfails =>
    fails_iff.mp hfails (resolves_of_build hpolicy hbuilt source hmem)

/-- No source is both skipped and in the graph. -/
theorem disjoint_skipped_sources (hbuilt : (build directory options sources).1 = .ok graph) :
    graph.skipped.Disjoint graph.sources := by
  intro source hskipped hsource
  rw [skipped_build hbuilt, List.mem_filter] at hskipped
  rw [Graph.sources, entries_of_build hbuilt] at hsource
  obtain ⟨entry, hentry, rfl⟩ := List.mem_map.mp hsource
  obtain ⟨other, -, hother⟩ := List.mem_filterMap.mp hentry
  have hnone := hskipped.2
  rw [fst_eq_of_entryOf hother, SourceDirectory.fails, hother] at hnone
  cases hnone

/-! ## Builds without repetitions -/

/-- A build that succeeds also succeeds without the repetitions of its sources, with
the same entries and the skipped sources once each. -/
theorem exists_build_eraseDups (hbuilt : (build directory options sources).1 = .ok graph) :
    ∃ once, (build directory options sources.eraseDups).1 = .ok once ∧
      once.entries = graph.entries ∧ once.skipped = graph.skipped.eraseDups := by
  have honce : ∃ once, (build directory options sources.eraseDups).1 = .ok once := by
    cases hpolicy : options.onFailure with
    | skip =>
        obtain ⟨once, honce, -⟩ := extend_skip sources.eraseDups empty hpolicy
        exact ⟨once, honce⟩
    | abort =>
        have hresolves : ∀ source ∈ sources.eraseDups, directory.Resolves options.strict source :=
          fun source hmem => resolves_of_build hpolicy hbuilt source (List.mem_eraseDups.mp hmem)
        obtain ⟨once, honce, -⟩ := extend_of_resolves options options empty rfl hresolves
        exact ⟨once, honce⟩
  obtain ⟨once, honce⟩ := honce
  refine ⟨once, honce, ?_, ?_⟩
  · rw [entries_of_build honce, entries_of_build hbuilt, eraseDups_eraseDups]
  · rw [skipped_build honce, skipped_build hbuilt, eraseDups_filter]

/-- A build that fails does so without the repetitions of its sources as well, with
the same error. -/
theorem build_eraseDups_of_error {error : ResolveError}
    (herror : (build directory options sources).1 = .error error) :
    (build directory options sources.eraseDups).1 = .error error := by
  cases hpolicy : options.onFailure with
  | skip =>
      obtain ⟨graph, hgraph, -⟩ := extend_skip sources empty hpolicy
      cases hgraph.symm.trans herror
  | abort =>
      have hfails : ¬ ∀ source ∈ sources, directory.Resolves options.strict source := by
        intro hresolves
        obtain ⟨graph, hgraph, -⟩ := extend_of_resolves options options empty rfl hresolves
        cases hgraph.symm.trans herror
      obtain ⟨before, source, after, cause, rfl, hbefore, hcause⟩ := exists_first_failure hfails
      have hempty : ∀ source ∈ empty.sources, directory.Resolves options.strict source :=
        resolves_of_mem_empty options.strict
      obtain rfl := Except.error.inj
        ((extend_abort after hpolicy hempty hbefore hcause).symm.trans herror)
      -- what cannot be resolved is not among the sources before it, so it stays
      have hnew : source ∉ before := fun hmem => by
        obtain ⟨resolution, hok⟩ := hbefore source hmem
        cases hok.symm.trans hcause
      rw [eraseDups_append_filter, List.eraseDups_cons,
        List.filter_cons_of_pos (by simpa using hnew)]
      exact extend_abort _ hpolicy hempty
        (fun earlier hearlier => hbefore earlier (List.mem_eraseDups.mp hearlier)) hcause

/-! ## Main result -/

/-- **When repeated sources make a difference.**  A build comes to the same without the
repetitions of its sources exactly if it does not skip failures or none of the sources
that cannot be resolved is repeated.  Even otherwise the entries are the same, and what
is skipped differs in repetitions only: a build skips the sources that cannot be
resolved, each as often as it is given, and none that is in the graph. -/
theorem build_eraseDups_iff (directory : SourceDirectory) (options : BuildOptions)
    (sources : List String) :
    ((build directory options sources.eraseDups).1 = (build directory options sources).1 ↔
      options.onFailure = .abort ∨ ∀ source, ¬ directory.Resolves options.strict source →
        sources.count source ≤ 1) ∧
    ∀ graph, (build directory options sources).1 = .ok graph →
      (∃ once, (build directory options sources.eraseDups).1 = .ok once ∧
        once.entries = graph.entries ∧ once.skipped = graph.skipped.eraseDups) ∧
      (∀ source, graph.skipped.count source =
        if directory.fails options.strict source then sources.count source else 0) ∧
      graph.skipped.Disjoint graph.sources := by
  refine ⟨⟨fun hsame => ?_, fun hcondition => ?_⟩, fun graph hbuilt =>
    ⟨exists_build_eraseDups hbuilt, count_skipped hbuilt, disjoint_skipped_sources hbuilt⟩⟩
  · rw [or_iff_not_imp_left]
    intro hskip source hfails
    have hpolicy : options.onFailure = .skip := by
      cases hpolicy : options.onFailure <;> simp_all
    obtain ⟨graph, hbuilt, -⟩ := extend_skip sources empty hpolicy
    have hbuilt : (build directory options sources).1 = .ok graph := hbuilt
    obtain ⟨once, honce, -, hskipped⟩ := exists_build_eraseDups hbuilt
    obtain rfl := Except.ok.inj ((honce.symm.trans hsame).trans hbuilt)
    have hnodup : once.skipped.Nodup := hskipped ▸ nodup_eraseDups _
    have hcount := List.nodup_iff_count_le_one.mp hnodup source
    rwa [count_skipped hbuilt, if_pos (fails_iff.mpr hfails)] at hcount
  · cases hbuilt : (build directory options sources).1 with
    | error error => exact build_eraseDups_of_error hbuilt
    | ok graph =>
        obtain ⟨once, honce, hentries, hskipped⟩ := exists_build_eraseDups hbuilt
        have hnodup : graph.skipped.Nodup := by
          rcases hcondition with hpolicy | honceEach
          · rw [skipped_eq_nil hpolicy hbuilt]
            exact List.nodup_nil
          · refine List.nodup_iff_count_le_one.mpr fun source => ?_
            rw [count_skipped hbuilt]
            split
            · next hfails => exact honceEach source (fails_iff.mp hfails)
            · exact Nat.zero_le 1
        rw [honce, eq_of_entries_of_skipped hentries (hskipped.trans (eraseDups_of_nodup hnodup))]

/-- A source that does not exist is skipped twice where it is given twice, although a
source that exists is in the graph once. -/
theorem build_repeated_knot :
    ∃ graph once,
      (build (knot.sources []) { onFailure := .skip } ["gone.c", "a.c", "gone.c", "a.c"]).1 =
        .ok graph ∧
      (build (knot.sources []) { onFailure := .skip }
        ["gone.c", "a.c", "gone.c", "a.c"].eraseDups).1 = .ok once ∧
      graph.sources = ["a.c"] ∧ once.sources = ["a.c"] ∧
      graph.skipped = ["gone.c", "gone.c"] ∧ once.skipped = ["gone.c"] :=
  ⟨_, _, rfl, rfl, rfl, rfl, rfl, rfl⟩

end Graph

end IncludeDeps
