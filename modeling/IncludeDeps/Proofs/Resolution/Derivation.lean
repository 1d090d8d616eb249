import IncludeDeps.Resolution.Basic
import Mathlib.Data.Finset.Card
import Mathlib.Data.Finset.Dedup

/-!
# The walk as a derivation

`expand` and `follow` call each other and count down a depth.  This file gives
the same walk by rules: `Walks stage trail visited outcome` says that the walk
comes to `outcome` when it starts `stage` with the files of `trail` being
expanded and those of `visited` visited.  The rules know no depth, and every
invariant of the walk is proved by one induction over them, with a case for
each thing that the walk can do.

`walks_expand` is the way from the program to the rules: a walk that may go
deeper than there are unvisited targets never reaches the bottom.  So
`depthBound` is always deep enough (`walks_depthBound`), and `walkFrom_eq_ok`
reads a successful resolution as a derivation.
-/

namespace IncludeDeps

/-- What a walk is about to do. -/
inductive Stage where
  /-- To expand a file that something asked for. -/
  | expand (referrer : Referrer) (file : String)
  /-- To follow some directives of a file that is being expanded. -/
  | follow (file : String) (directives : List Directive)

theorem map_eq_ok_iff {ε α β : Type} {change : α → β} {result : Except ε α} {value : β} :
    result.map change = .ok value ↔
      ∃ original, result = .ok original ∧ change original = value := by
  cases result <;> simp [Except.map]

theorem map_eq_error_iff {ε α β : Type} {change : α → β} {result : Except ε α} {error : ε} :
    result.map change = .error error ↔ result = .error error := by
  cases result <;> simp [Except.map]

namespace SourceDirectory

variable {directory : SourceDirectory} {strict : Bool}

/-- The walk by rules: what it comes to from a stage, with the files that are
being expanded and the files visited. -/
inductive Walks (directory : SourceDirectory) (strict : Bool) :
    Stage → List String → VisitedSet → Outcome (List String) → Prop
  /-- The file cannot be read. -/
  | unreadable {trail referrer file visited fault} (hread : directory.read file = .error fault) :
      Walks directory strict (.expand referrer file) trail visited
        ⟨.error (.ofFault file referrer fault), visited, [.read file]⟩
  /-- The file is read and its directives are followed. -/
  | expanded {trail referrer file visited content inner}
      (hread : directory.read file = .ok content)
      (hinner : Walks directory strict
        (.follow file (promoteOwn file Directive.target (directory.kept strict content)))
        (trail ++ [file]) visited inner) :
      Walks directory strict (.expand referrer file) trail visited
        ⟨inner.result.map fun found => promoteOwn file id found.eraseDups, inner.visited,
          .read file :: directory.droppedSteps strict content ++ inner.steps⟩
  /-- No directive is left. -/
  | done {trail file visited} :
      Walks directory strict (.follow file []) trail visited ⟨.ok [], visited, []⟩
  /-- The target was visited before, so it is only listed. -/
  | listed {trail file visited directive rest later} (hseen : directive.target ∈ visited)
      (hlater : Walks directory strict (.follow file rest) trail visited later) :
      Walks directory strict (.follow file (directive :: rest)) trail visited
        ⟨later.result.map (directive.target :: ·), later.visited,
          closingSteps trail file directive.target ++ later.steps⟩
  /-- The target is entered, and its expansion fails. -/
  | stopped {trail file visited directive rest inner error} (hnew : directive.target ∉ visited)
      (hinner : Walks directory strict (.expand (.directive file directive.line) directive.target)
        trail (visited.insert directive.target) inner)
      (herror : inner.result = .error error) :
      Walks directory strict (.follow file (directive :: rest)) trail visited
        ⟨.error error, inner.visited, .expanding file directive.target :: inner.steps⟩
  /-- The target is entered, and the walk goes on when it is expanded. -/
  | entered {trail file visited directive rest inner found later}
      (hnew : directive.target ∉ visited)
      (hinner : Walks directory strict (.expand (.directive file directive.line) directive.target)
        trail (visited.insert directive.target) inner)
      (hfound : inner.result = .ok found)
      (hlater : Walks directory strict (.follow file rest) trail inner.visited later) :
      Walks directory strict (.follow file (directive :: rest)) trail visited
        ⟨later.result.map (directive.target :: found ++ ·), later.visited,
          .expanding file directive.target :: inner.steps ++ later.steps⟩

/-- A walk never forgets a file that it visited. -/
theorem Walks.mem_visited {stage : Stage} {trail : List String} {visited : VisitedSet}
    {outcome : Outcome (List String)} (hwalk : Walks directory strict stage trail visited outcome)
    {path : String} (hpath : path ∈ visited) : path ∈ outcome.visited := by
  induction hwalk with
  | unreadable _ => exact hpath
  | expanded _ _ ih => exact ih hpath
  | done => exact hpath
  | listed _ _ ih => exact ih hpath
  | stopped _ _ _ ih => exact ih (VisitedSet.mem_insert_of_mem _ hpath)
  | entered _ _ _ _ ihinner ihlater =>
      exact ihlater (ihinner (VisitedSet.mem_insert_of_mem _ hpath))

section

variable {stage : Stage} {trail : List String} {visited : VisitedSet} {target : String}
  {inner : Outcome (List String)}

/-- So what was visited before a target was entered is still visited when the
target is expanded. -/
theorem Walks.mem_of_enter
    (hinner : Walks directory strict stage trail (visited.insert target) inner) :
    ∀ path ∈ visited, path ∈ inner.visited :=
  fun _ hpath => hinner.mem_visited (VisitedSet.mem_insert_of_mem target hpath)

theorem Walks.target_mem
    (hinner : Walks directory strict stage trail (visited.insert target) inner) :
    target ∈ inner.visited :=
  hinner.mem_visited (VisitedSet.mem_insert_self visited target)

end

/-! ## Depth -/

/-- The targets that were not visited yet. -/
def unvisited (directory : SourceDirectory) (visited : VisitedSet) : Finset String :=
  directory.targets.toFinset.filter (· ∉ visited)

theorem card_unvisited_lt_depthBound (visited : VisitedSet) :
    (directory.unvisited visited).card < directory.depthBound := by
  have hfilter := Finset.card_filter_le directory.targets.toFinset (· ∉ visited)
  have hdistinct := List.toFinset_card_le directory.targets
  unfold unvisited depthBound
  omega

theorem unvisited_subset {visited later : VisitedSet}
    (hsubset : ∀ path ∈ visited, path ∈ later) :
    directory.unvisited later ⊆ directory.unvisited visited := by
  intro target htarget
  obtain ⟨hmem, hnew⟩ := Finset.mem_filter.mp htarget
  exact Finset.mem_filter.mpr ⟨hmem, fun hseen => hnew (hsubset target hseen)⟩

/-- Visiting a target leaves fewer of them. -/
theorem card_unvisited_insert_lt {visited : VisitedSet} {target : String}
    (htarget : target ∈ directory.targets) (hnew : target ∉ visited) :
    (directory.unvisited (visited.insert target)).card < (directory.unvisited visited).card := by
  refine Finset.card_lt_card ⟨unvisited_subset fun _ => VisitedSet.mem_insert_of_mem target,
    fun hsubset => ?_⟩
  have hmem : target ∈ directory.unvisited visited :=
    Finset.mem_filter.mpr ⟨List.mem_toFinset.mpr htarget, hnew⟩
  exact (Finset.mem_filter.mp (hsubset hmem)).2 (VisitedSet.mem_insert_self visited target)

/-- Following directives keeps to the rules as long as the expansion of each
target does, when it starts with fewer unvisited targets than `bound`. -/
theorem walks_follow {descend : Directive → VisitedSet → Outcome (List String)}
    {trail : List String} {file : String} {bound : ℕ} {directives : List Directive}
    (htargets : ∀ directive ∈ directives, directive.target ∈ directory.targets)
    (hdescend : ∀ directive visited, (directory.unvisited visited).card < bound →
      Walks directory strict (.expand (.directive file directive.line) directive.target) trail
        visited (descend directive visited))
    {visited : VisitedSet} (hbound : (directory.unvisited visited).card ≤ bound) :
    Walks directory strict (.follow file directives) trail visited
      (follow descend trail file directives visited) := by
  induction directives generalizing visited with
  | nil => exact .done
  | cons directive rest ih =>
      have hrest : ∀ other ∈ rest, other.target ∈ directory.targets :=
        fun other hother => htargets other (List.mem_cons_of_mem _ hother)
      rw [follow]
      split
      · next hseen => exact .listed hseen (ih hrest hbound)
      · next hnew =>
        have hless := card_unvisited_insert_lt (htargets directive List.mem_cons_self) hnew
        have hinner := hdescend directive (visited.insert directive.target) (by omega)
        dsimp only
        split
        · next herror => exact .stopped hnew hinner herror
        · next hfound =>
          -- the expansion may visit more, which leaves less to visit for the rest
          refine .entered hnew hinner hfound (ih hrest (le_trans ?_ hbound))
          exact Finset.card_le_card (unvisited_subset hinner.mem_of_enter)

/-- An expansion keeps to the rules if it may go deeper than there are targets
left to visit. -/
theorem walks_expand {depth : ℕ} {trail : List String} {referrer : Referrer} {file : String}
    {visited : VisitedSet} (hdepth : (directory.unvisited visited).card < depth) :
    Walks directory strict (.expand referrer file) trail visited
      (directory.expand strict depth trail referrer file visited) := by
  induction depth generalizing trail referrer file visited with
  | zero => exact absurd hdepth (Nat.not_lt_zero _)
  | succ depth ih =>
      rw [expand]
      split
      · next hread => exact .unreadable hread
      · next content hread =>
        -- each target is visited before it is expanded, so for it the depth left suffices
        have hbound : (directory.unvisited visited).card ≤ depth := Nat.le_of_lt_succ hdepth
        refine .expanded hread (walks_follow ?_ ?_ hbound)
        · intro directive hdirective
          have hkept : directive ∈ directory.kept strict content := mem_promoteOwn.mp hdirective
          exact directory.mem_targets hread (List.mem_of_mem_filter hkept)
        · exact fun directive visited hless => ih hless

/-- `depthBound` is deep enough for every walk. -/
theorem walks_depthBound (trail : List String) (referrer : Referrer) (file : String)
    (visited : VisitedSet) :
    Walks directory strict (.expand referrer file) trail visited
      (directory.expand strict directory.depthBound trail referrer file visited) :=
  walks_expand (card_unvisited_lt_depthBound visited)

/-! ## One outcome -/

/-- The rules leave no choice: from one state a walk comes to one outcome. -/
theorem Walks.unique {stage : Stage} {trail : List String} {visited : VisitedSet}
    {first second : Outcome (List String)}
    (hfirst : Walks directory strict stage trail visited first)
    (hsecond : Walks directory strict stage trail visited second) : first = second := by
  induction hfirst generalizing second with
  | unreadable hread =>
      cases hsecond with
      | unreadable hread' =>
          obtain rfl := Except.error.inj (hread.symm.trans hread')
          rfl
      | expanded hread' _ => cases hread.symm.trans hread'
  | expanded hread _ ih =>
      cases hsecond with
      | unreadable hread' => cases hread.symm.trans hread'
      | expanded hread' hinner' =>
          obtain rfl := Except.ok.inj (hread.symm.trans hread')
          obtain rfl := ih hinner'
          rfl
  | done =>
      cases hsecond with
      | done => rfl
  | listed hseen _ ih =>
      cases hsecond with
      | listed _ hlater' => rw [ih hlater']
      | stopped hnew' => exact absurd hseen hnew'
      | entered hnew' => exact absurd hseen hnew'
  | stopped hnew _ herror ih =>
      cases hsecond with
      | listed hseen' => exact absurd hseen' hnew
      | stopped _ hinner' herror' =>
          obtain rfl := ih hinner'
          obtain rfl := Except.error.inj (herror.symm.trans herror')
          rfl
      | entered _ hinner' hfound' =>
          obtain rfl := ih hinner'
          cases herror.symm.trans hfound'
  | entered hnew _ hfound _ ihinner ihlater =>
      cases hsecond with
      | listed hseen' => exact absurd hseen' hnew
      | stopped _ hinner' herror' =>
          obtain rfl := ihinner hinner'
          cases hfound.symm.trans herror'
      | entered _ hinner' hfound' hlater' =>
          obtain rfl := ihinner hinner'
          obtain rfl := Except.ok.inj (hfound.symm.trans hfound')
          obtain rfl := ihlater hlater'
          rfl

/-- The walk by rules is what the program does at any depth that suffices. -/
theorem expand_eq {depth : ℕ} {trail : List String} {referrer : Referrer} {file : String}
    {visited : VisitedSet} {outcome : Outcome (List String)}
    (hwalk : Walks directory strict (.expand referrer file) trail visited outcome)
    (hdepth : directory.depthBound ≤ depth) :
    directory.expand strict depth trail referrer file visited = outcome :=
  (walks_expand ((card_unvisited_lt_depthBound visited).trans_le hdepth)).unique hwalk

/-! ## Successful resolutions -/

/-- A call that succeeds lists what its walk found, but for the file itself
where that is left out. -/
theorem walkFrom_eq_ok {topLevel : Bool} {file : String} {visited : VisitedSet}
    {resolution : Resolution}
    (h : (directory.walkFrom strict topLevel file visited).result = .ok resolution) :
    ∃ outcome found, Walks directory strict (.expand .sourceList file) [] visited outcome ∧
      outcome.result = .ok found ∧
      outcome.visited = (directory.walkFrom strict topLevel file visited).visited ∧
      outcome.steps = (directory.walkFrom strict topLevel file visited).steps ∧
      resolution.cycles = cyclesOf outcome.steps ∧
      ∀ path, path ∈ resolution.prerequisites ↔ path ∈ found ∧
        (path = file → topLevel = true → ∃ cycle ∈ resolution.cycles,
          cycle.isSelfIncludeOf file = true) := by
  have hwalk : Walks directory strict (.expand .sourceList file) [] visited _ :=
    walks_depthBound [] .sourceList file visited
  unfold walkFrom at h ⊢
  generalize directory.expand strict directory.depthBound [] .sourceList file visited = outcome
    at h hwalk ⊢
  cases hresult : outcome.result with
  | error error => simp [Outcome.map, hresult, Except.map] at h
  | ok found =>
      simp only [Outcome.map, hresult, Except.map, Except.ok.injEq] at h
      subst h
      refine ⟨outcome, found, hwalk, hresult, rfl, rfl, rfl, fun path => ?_⟩
      cases topLevel <;> by_cases hpath : path = file <;> simp [hpath]

end SourceDirectory

end IncludeDeps
