import IncludeDeps.Proofs.FirstOccurrence
import IncludeDeps.Proofs.Resolution.Reads

/-!
# The order of the prerequisites

The walk drops repeated paths at every level, and moves the own headers of each
file to the front of what the file lists.  `Naive` is the walk that lists every
target as often as it is named: it follows the directives of a file, own headers
first, lists each target and right behind it what an unvisited target lists in
turn, and in the end moves the own headers to the front, repetitions and all.

`Walks.naive` says that dropping the repetitions once, at the very end, gives
the same list.  For a stage that follows directives the two lists only agree
once both have lost their repetitions, and this is enough for what stands around
it, because neither joining lists nor moving own headers can tell such lists
apart (`eraseDups_append_congr`, `eraseDups_promoteOwn`).
-/

namespace IncludeDeps.SourceDirectory

variable {directory : SourceDirectory} {strict : Bool}

/-- The walk without any removal of repetitions: what a stage lists, and the
files visited when it ends.  It comes to nothing where a file cannot be read. -/
inductive Naive (directory : SourceDirectory) (strict : Bool) :
    Stage → VisitedSet → List String → VisitedSet → Prop
  /-- The directives of a file are followed, and its own headers moved to the front. -/
  | expanded {referrer file visited content listed later}
      (hread : directory.read file = .ok content)
      (hinner : Naive directory strict
        (.follow file (promoteOwn file Directive.target (directory.kept strict content)))
        visited listed later) :
      Naive directory strict (.expand referrer file) visited (promoteOwn file id listed) later
  /-- No directive is left. -/
  | done {file visited} : Naive directory strict (.follow file []) visited [] visited
  /-- A target that was visited before is listed. -/
  | seen {file visited directive rest listed later} (hseen : directive.target ∈ visited)
      (hlater : Naive directory strict (.follow file rest) visited listed later) :
      Naive directory strict (.follow file (directive :: rest)) visited
        (directive.target :: listed) later
  /-- Any other target is visited and listed, and what it lists stands behind it. -/
  | entered {file visited directive rest below between listed later}
      (hnew : directive.target ∉ visited)
      (hinner : Naive directory strict (.expand (.directive file directive.line) directive.target)
        (visited.insert directive.target) below between)
      (hlater : Naive directory strict (.follow file rest) between listed later) :
      Naive directory strict (.follow file (directive :: rest)) visited
        (directive.target :: below ++ listed) later

section

variable {stage : Stage} {trail : List String} {visited later : VisitedSet}
  {outcome : Outcome (List String)} {found list : List String}

/-- From one state the naive walk comes to one list and one set. -/
theorem Naive.unique {other : List String} {otherLater : VisitedSet}
    (hfirst : Naive directory strict stage visited list later)
    (hsecond : Naive directory strict stage visited other otherLater) :
    list = other ∧ later = otherLater := by
  induction hfirst generalizing other otherLater with
  | expanded hread _ ih =>
      cases hsecond with
      | expanded hread' hinner' =>
          obtain rfl := Except.ok.inj (hread.symm.trans hread')
          obtain ⟨rfl, rfl⟩ := ih hinner'
          exact ⟨rfl, rfl⟩
  | done =>
      cases hsecond with
      | done => exact ⟨rfl, rfl⟩
  | seen hseen _ ih =>
      cases hsecond with
      | seen _ hlater' =>
          obtain ⟨rfl, rfl⟩ := ih hlater'
          exact ⟨rfl, rfl⟩
      | entered hnew' => exact absurd hseen hnew'
  | entered hnew _ _ ihinner ihlater =>
      cases hsecond with
      | seen hseen' => exact absurd hseen' hnew
      | entered _ hinner' hlater' =>
          obtain ⟨rfl, rfl⟩ := ihinner hinner'
          obtain ⟨rfl, rfl⟩ := ihlater hlater'
          exact ⟨rfl, rfl⟩

/-- A walk that succeeds lists what the naive walk lists, up to repetitions. -/
theorem Walks.naive (hwalk : Walks directory strict stage trail visited outcome)
    (hok : outcome.result = .ok found) :
    ∃ list, Naive directory strict stage visited list outcome.visited ∧
      found.eraseDups = list.eraseDups := by
  induction hwalk generalizing found with
  | unreadable _ => cases hok
  | @expanded _ _ file _ _ _ hread _ ih =>
      obtain ⟨inside, hinside, rfl⟩ := map_eq_ok_iff.mp hok
      obtain ⟨list, hnaive, hsame⟩ := ih hinside
      -- the walk drops repetitions before it moves the own headers, the naive one never does
      refine ⟨promoteOwn file id list, .expanded hread hnaive, ?_⟩
      rw [eraseDups_promoteOwn, eraseDups_promoteOwn, eraseDups_eraseDups, hsame]
  | done =>
      cases hok
      exact ⟨[], .done, rfl⟩
  | listed hseen _ ih =>
      obtain ⟨inside, hinside, rfl⟩ := map_eq_ok_iff.mp hok
      obtain ⟨list, hnaive, hsame⟩ := ih hinside
      exact ⟨_, .seen hseen hnaive, eraseDups_cons_congr hsame⟩
  | stopped _ _ _ _ => cases hok
  | entered hnew _ hfound _ ihinner ihlater =>
      obtain ⟨inside, hinside, rfl⟩ := map_eq_ok_iff.mp hok
      obtain ⟨below, hbelow, hsameBelow⟩ := ihinner hfound
      obtain ⟨list, hnaive, hsame⟩ := ihlater hinside
      exact ⟨_, .entered hnew hbelow hnaive,
        eraseDups_append_congr (eraseDups_cons_congr hsameBelow) hsame⟩

/-- An expansion that succeeds lists no path twice, and so exactly what the naive walk
lists once its repetitions are dropped. -/
theorem Walks.naive_expand {referrer : Referrer} {file : String}
    (hwalk : Walks directory strict (.expand referrer file) trail visited outcome)
    (hok : outcome.result = .ok found) :
    ∃ list, Naive directory strict (.expand referrer file) visited list outcome.visited ∧
      found = list.eraseDups := by
  obtain ⟨list, hnaive, hsame⟩ := hwalk.naive hok
  refine ⟨list, hnaive, hsame ▸ (eraseDups_of_nodup ?_).symm⟩
  cases hwalk with
  | unreadable _ => cases hok
  | expanded _ _ =>
      obtain ⟨inside, -, rfl⟩ := map_eq_ok_iff.mp hok
      exact ((promoteOwn_perm file id _).nodup_iff).mpr (nodup_eraseDups inside)

end

/-! ## Calls -/

section

variable {file : String} {visited : VisitedSet} {outcome : Outcome (List String)}
  {found : List String} {resolution : Resolution} {topLevel : Bool}

/-- A call lists what its walk found, in this order; only the file itself may be
left out. -/
theorem paths_of_walkFrom
    (hwalk : Walks directory strict (.expand .sourceList file) [] visited outcome)
    (hfound : outcome.result = .ok found)
    (h : (directory.walkFrom strict topLevel file visited).result = .ok resolution) :
    resolution.prerequisites.paths = found.filter fun path =>
      path ≠ file ∨ topLevel = false ∨
        ∃ cycle ∈ cyclesOf outcome.steps, cycle.isSelfIncludeOf file = true := by
  obtain ⟨list, -, hlist⟩ := hwalk.naive_expand hfound
  have hnodup : found.Nodup := hlist ▸ nodup_eraseDups list
  simp only [walkFrom, expand_eq hwalk le_rfl, Outcome.map, hfound, Except.map,
    Except.ok.injEq] at h
  rw [← h, Prerequisites.paths_ofList, eraseDups_of_nodup (hnodup.filter _)]
  refine List.filter_congr fun path _ => ?_
  rw [Bool.eq_iff_iff]
  cases topLevel <;> simp [or_comm]

/-- Where nothing but the file was visited before a call at the top level, the
file is left out unless it includes itself. -/
theorem paths_eq_filter_naive
    (h : (directory.walkFrom strict topLevel file visited).result = .ok resolution)
    (hroot : topLevel = true → visited = .rooted file) :
    ∃ list, Naive directory strict (.expand .sourceList file) visited list
        (directory.walkFrom strict topLevel file visited).visited ∧
      resolution.prerequisites.paths = list.eraseDups.filter fun path =>
        path ≠ file ∨ topLevel = false ∨ directory.Includes strict file file := by
  obtain ⟨outcome, found, hwalk, hok, hvisited, -⟩ := walkFrom_eq_ok h
  obtain ⟨list, hnaive, rfl⟩ := hwalk.naive_expand hok
  refine ⟨list, hvisited ▸ hnaive, (paths_of_walkFrom hwalk hok h).trans ?_⟩
  cases topLevel with
  | false => simp
  | true =>
      obtain rfl := hroot rfl
      have hself := exists_isSelfIncludeOf_iff hwalk hok
      simp only [hself]

end

/-! ## Main result -/

/-- **Repetitions may be dropped once, at the end.**  An expansion that succeeds
lists what the naive walk lists, each path where it occurs first, and visits the
same files.  A call returns this list; only a file resolved on its own is left
out, unless it includes itself.  And the naive walk leaves no choice. -/
theorem order_naive (directory : SourceDirectory) (strict : Bool) (file : String)
    (visited : VisitedSet) :
    (∀ trail referrer found,
      (directory.expand strict directory.depthBound trail referrer file visited).result =
        .ok found →
      ∃ list, Naive directory strict (.expand referrer file) visited list
          (directory.expand strict directory.depthBound trail referrer file visited).visited ∧
        found = list.eraseDups) ∧
    (∀ prerequisites, (directory.resolve strict file visited).result = .ok prerequisites →
      ∃ list, Naive directory strict (.expand .sourceList file) (visited.seeded file) list
          (directory.resolve strict file visited).visited ∧
        prerequisites.paths = list.eraseDups.filter fun path =>
          path ≠ file ∨ visited.isEmpty = false ∨ directory.Includes strict file file) ∧
    (∀ resolution, (directory.resolveRoot strict file).result = .ok resolution →
      ∃ list, Naive directory strict (.expand .sourceList file) (.rooted file) list
          (directory.resolveRoot strict file).visited ∧
        resolution.prerequisites.paths = list.eraseDups.filter fun path =>
          path ≠ file ∨ directory.Includes strict file file) ∧
    ∀ stage before list later other otherLater,
      Naive directory strict stage before list later →
      Naive directory strict stage before other otherLater → list = other ∧ later = otherLater := by
  refine ⟨fun trail referrer found hok => ?_, fun prerequisites h => ?_, fun resolution h => ?_,
    fun _ _ _ _ _ _ => Naive.unique⟩
  · exact (walks_depthBound trail referrer file visited).naive_expand hok
  · rw [resolve_eq] at h ⊢
    obtain ⟨resolution, hresolution, rfl⟩ := map_eq_ok_iff.mp h
    refine paths_eq_filter_naive hresolution fun hempty => ?_
    rw [VisitedSet.seeded, if_pos hempty]
  · obtain ⟨list, hnaive, hpaths⟩ := paths_eq_filter_naive h fun _ => rfl
    exact ⟨list, hnaive, by simpa using hpaths⟩

/-- The naive walk of `knot` lists `a.c` twice, since `b.h` names it twice, and
`b.h` both for `a.h` and for `a.c`. -/
theorem naive_knot :
    Naive (knot.sources []) false (.expand .sourceList "a.c") (.rooted "a.c")
      ["a.h", "a.c", "a.c", "b.h", "b.h"]
      (((VisitedSet.rooted "a.c").insert "a.h").insert "b.h") := by
  have hb : Naive (knot.sources []) false (.expand (.directive "a.h" 1) "b.h")
      (((VisitedSet.rooted "a.c").insert "a.h").insert "b.h") ["a.c", "a.c"]
      (((VisitedSet.rooted "a.c").insert "a.h").insert "b.h") :=
    @Naive.expanded _ _ _ _ _ _ ["a.c", "a.c"] _ rfl (.seen (by decide) (.seen (by decide) .done))
  have ha : Naive (knot.sources []) false (.expand (.directive "a.c" 2) "a.h")
      ((VisitedSet.rooted "a.c").insert "a.h") ["a.c", "a.c", "b.h"]
      (((VisitedSet.rooted "a.c").insert "a.h").insert "b.h") :=
    @Naive.expanded _ _ _ _ _ _ ["b.h", "a.c", "a.c"] _ rfl
      (@Naive.entered _ _ _ _ ⟨"b.h", .quoted, 1⟩ _ _ _ _ _ (by decide) hb .done)
  exact @Naive.expanded _ _ _ _ _ _ ["a.h", "a.c", "a.c", "b.h", "b.h"] _ rfl
    (@Naive.entered _ _ _ _ ⟨"a.h", .quoted, 2⟩ _ _ _ _ _ (by decide) ha
      (.seen (by decide) .done))

theorem order_naive_knot :
    ((knot.sources []).resolveRoot false "a.c").result = .ok knotResolution ∧
    knotResolution.prerequisites.paths =
      ["a.h", "a.c", "a.c", "b.h", "b.h"].eraseDups.filter fun path =>
        path ≠ "a.c" ∨ (knot.sources []).Includes false "a.c" "a.c" := by
  have horder := order_naive (knot.sources []) false "a.c" .empty
  obtain ⟨list, hnaive, hpaths⟩ := horder.2.2.1 _ resolveRoot_knot
  obtain ⟨rfl, -⟩ := horder.2.2.2 _ _ _ _ _ _ hnaive naive_knot
  exact ⟨resolveRoot_knot, hpaths⟩

end IncludeDeps.SourceDirectory
