import IncludeDeps.Proofs.Resolution.Order

/-!
# Repeated includes

A file that names a target again, after it has named it before, adds nothing by this.  The
second time the target is visited, so it is only listed, and where the list of the file is
made free of repetitions it was listed before.  If the target is on the trail, the directive
closes a cycle; but then the target was on the trail the first time as well, since all files
of the trail are visited before a directive of the file is followed, and that cycle is
recorded already.

`Repeats` adds such directives to a list, and moving own headers to the front keeps it
(`Repeats.promoteOwn`).  `Walks.repeated` runs the walks of two directories in step, one of
which adds repetitions to the files of the other.  What the two come to is compared while
the directives of a file are still being followed, when the lists are not yet free of
repetitions: `SameResult` says that they will agree once they stand behind a list that
holds the targets named before.
-/

namespace IncludeDeps

/-! ## Directives added -/

/-- A list of directives to which repetitions are added: each of these names a target that
is named before it, by the list itself or by what is mentioned when it begins. -/
inductive Repeats : List String → List Directive → List Directive → Prop
  /-- No directive is left. -/
  | done {mentioned} : Repeats mentioned [] []
  /-- A directive of the list, whose target is mentioned from there on. -/
  | kept {mentioned directive rest revised}
      (hrest : Repeats (directive.target :: mentioned) rest revised) :
      Repeats mentioned (directive :: rest) (directive :: revised)
  /-- A directive that is added. -/
  | added {mentioned extra rest revised} (hagain : extra.target ∈ mentioned)
      (hrest : Repeats mentioned rest revised) :
      Repeats mentioned rest (extra :: revised)

namespace Repeats

variable {mentioned larger : List String} {directives revised : List Directive}

theorem refl (mentioned : List String) (directives : List Directive) :
    Repeats mentioned directives directives := by
  induction directives generalizing mentioned with
  | nil => exact .done
  | cons directive rest ih => exact .kept (ih _)

/-- A directive may be added at the end if its target is named anywhere. -/
theorem concat {extra : Directive}
    (hagain : extra.target ∈ directives.map Directive.target ++ mentioned) :
    Repeats mentioned directives (directives ++ [extra]) := by
  induction directives generalizing mentioned with
  | nil => exact .added hagain .done
  | cons directive rest ih =>
      refine .kept (ih ?_)
      rw [List.map_cons, List.cons_append] at hagain
      exact List.perm_middle.mem_iff.mpr hagain

/-- A choice of targets may be made before or after repetitions are added. -/
theorem filter (h : Repeats mentioned directives revised) (chosen : String → Bool)
    (hsubset : ∀ target ∈ mentioned, chosen target = true → target ∈ larger) :
    Repeats larger (directives.filter fun directive => chosen directive.target)
      (revised.filter fun directive => chosen directive.target) := by
  induction h generalizing larger with
  | done => exact .done
  | @kept mentioned directive _ _ _ ih =>
      cases hchosen : chosen directive.target with
      | true =>
          rw [List.filter_cons, List.filter_cons, if_pos hchosen, if_pos hchosen]
          refine .kept (ih fun target hmem hpass => ?_)
          obtain hsame | hmem := List.mem_cons.mp hmem
          · exact hsame ▸ List.mem_cons_self
          · exact List.mem_cons_of_mem _ (hsubset target hmem hpass)
      | false =>
          have hskip : ¬ chosen directive.target = true := by simp [hchosen]
          rw [List.filter_cons, List.filter_cons, if_neg hskip, if_neg hskip]
          refine ih fun target hmem hpass => ?_
          obtain hsame | hmem := List.mem_cons.mp hmem
          · exact absurd (hsame ▸ hpass) hskip
          · exact hsubset target hmem hpass
  | @added mentioned extra _ _ hagain _ ih =>
      cases hchosen : chosen extra.target with
      | true =>
          rw [List.filter_cons (x := extra), if_pos hchosen]
          exact .added (hsubset _ hagain hchosen) (ih hsubset)
      | false =>
          rw [List.filter_cons (x := extra), if_neg (by simp [hchosen])]
          exact ih hsubset

theorem append {more moreRevised : List Directive}
    (hfirst : Repeats mentioned directives revised) (hsecond : Repeats [] more moreRevised) :
    Repeats mentioned (directives ++ more) (revised ++ moreRevised) := by
  induction hfirst with
  | @done mentioned =>
      have hwider : Repeats mentioned (more.filter fun _ => true) (moreRevised.filter fun _ => true) :=
        hsecond.filter (fun _ => true) fun _ hmem => absurd hmem List.not_mem_nil
      simpa only [List.filter_true, List.nil_append] using hwider
  | kept _ ih => exact .kept ih
  | added hagain _ ih => exact .added hagain ih

/-- Repetitions stay repetitions when own headers are moved to the front. -/
theorem promoteOwn (h : Repeats [] directives revised) (file : String) :
    Repeats [] (promoteOwn file Directive.target directives)
      (promoteOwn file Directive.target revised) := by
  have hnone : ∀ chosen : String → Bool, ∀ target ∈ ([] : List String),
      chosen target = true → target ∈ ([] : List String) :=
    fun _ _ hmem => absurd hmem List.not_mem_nil
  exact (h.filter (Path.sharesStem file) (hnone _)).append
    (h.filter (fun target => !Path.sharesStem file target) (hnone _))

/-- Where nothing is left, only repetitions were added. -/
theorem of_nil (h : Repeats mentioned [] revised) : ∀ extra ∈ revised, extra.target ∈ mentioned := by
  generalize hnil : ([] : List Directive) = directives at h
  induction h with
  | done => exact fun _ hmem => absurd hmem List.not_mem_nil
  | kept => cases hnil
  | added hagain _ ih => exact List.forall_mem_cons.mpr ⟨hagain, ih hnil⟩

/-- In front of the first directive stand the repetitions added before it. -/
theorem of_cons {directive : Directive} {rest : List Directive}
    (h : Repeats mentioned (directive :: rest) revised) :
    ∃ extras after, revised = extras ++ directive :: after ∧
      (∀ extra ∈ extras, extra.target ∈ mentioned) ∧
      Repeats (directive.target :: mentioned) rest after := by
  generalize hcons : directive :: rest = directives at h
  induction h with
  | done => cases hcons
  | kept hrest =>
      obtain ⟨rfl, rfl⟩ := List.cons.inj hcons
      exact ⟨[], _, rfl, fun _ hmem => absurd hmem List.not_mem_nil, hrest⟩
  | added hagain _ ih =>
      obtain ⟨extras, after, hafter, hextras, hrest⟩ := ih hcons
      exact ⟨_ :: extras, after, by rw [hafter, List.cons_append],
        List.forall_mem_cons.mpr ⟨hagain, hextras⟩, hrest⟩

end Repeats

/-! ## What two walks have in common -/

/-- Two results are one error, or two lists that agree, up to repetitions, behind every list
that holds the targets mentioned. -/
inductive SameResult (mentioned : List String) :
    Except ResolveError (List String) → Except ResolveError (List String) → Prop
  /-- Both walks fail in the same way. -/
  | failed (error : ResolveError) : SameResult mentioned (.error error) (.error error)
  /-- Both walks find the same paths in the same order. -/
  | found {list revised : List String} (hsame : ∀ before, mentioned ⊆ before →
      (before ++ revised).eraseDups = (before ++ list).eraseDups) :
      SameResult mentioned (.ok list) (.ok revised)

/-- One path in front of both lists is mentioned for what follows. -/
theorem SameResult.cons {mentioned : List String} {path : String}
    {result revised : Except ResolveError (List String)}
    (h : SameResult (path :: mentioned) result revised) :
    SameResult mentioned (result.map (path :: ·)) (revised.map (path :: ·)) := by
  cases h with
  | failed error => exact .failed error
  | found hsame =>
      refine .found fun before hsubset => ?_
      have hbehind := hsame (before ++ [path]) (List.cons_subset.mpr
        ⟨by simp, fun _ hmem => List.mem_append_left _ (hsubset hmem)⟩)
      simpa only [List.append_assoc, List.singleton_append] using hbehind

/-- A path that is mentioned may stand in front of the second list. -/
theorem SameResult.added {mentioned : List String} {path : String}
    {result revised : Except ResolveError (List String)} (hagain : path ∈ mentioned)
    (h : SameResult mentioned result revised) :
    SameResult mentioned result (revised.map (path :: ·)) := by
  cases h with
  | failed error => exact .failed error
  | @found list revised hsame =>
      refine .found fun before hsubset => ?_
      have hlisted : (before ++ [path]).eraseDups = before.eraseDups := by
        rw [eraseDups_concat, if_pos (List.contains_iff_mem.mpr (hsubset hagain))]
      calc (before ++ path :: revised).eraseDups
        _ = ((before ++ [path]) ++ revised).eraseDups := by simp
        _ = (before ++ revised).eraseDups := eraseDups_append_congr hlisted rfl
        _ = (before ++ list).eraseDups := hsame before hsubset

/-- What was entered for a path may differ by repetitions. -/
theorem SameResult.entered {mentioned below belowRevised : List String} {path : String}
    {result revised : Except ResolveError (List String)}
    (hbelow : belowRevised.eraseDups = below.eraseDups)
    (h : SameResult (path :: mentioned) result revised) :
    SameResult mentioned (result.map (path :: below ++ ·))
      (revised.map (path :: belowRevised ++ ·)) := by
  cases h with
  | failed error => exact .failed error
  | @found list revised hsame =>
      refine .found fun before hsubset => ?_
      have hfront : (before ++ path :: belowRevised).eraseDups =
          (before ++ path :: below).eraseDups :=
        eraseDups_append_congr rfl (eraseDups_cons_congr hbelow)
      have hmentioned : path :: mentioned ⊆ before ++ path :: belowRevised :=
        List.cons_subset.mpr ⟨by simp, fun _ hmem => List.mem_append_left _ (hsubset hmem)⟩
      calc (before ++ (path :: belowRevised ++ revised)).eraseDups
        _ = ((before ++ path :: belowRevised) ++ revised).eraseDups := by
            rw [List.append_assoc]
        _ = ((before ++ path :: belowRevised) ++ list).eraseDups := hsame _ hmentioned
        _ = ((before ++ path :: below) ++ list).eraseDups := eraseDups_append_congr hfront rfl
        _ = (before ++ (path :: below ++ list)).eraseDups := by rw [List.append_assoc]

theorem SameResult.refl (mentioned : List String) (result : Except ResolveError (List String)) :
    SameResult mentioned result result := by
  cases result with
  | error error => exact .failed error
  | ok list => exact .found fun _ _ => rfl

theorem SameResult.eq_error {mentioned : List String} {error : ResolveError}
    {revised : Except ResolveError (List String)}
    (h : SameResult mentioned (.error error) revised) : revised = .error error := by
  cases h
  rfl

/-- Where nothing is mentioned, the lists agree up to repetitions. -/
theorem SameResult.exists_eq_ok {list : List String} {revised : Except ResolveError (List String)}
    (h : SameResult [] (.ok list) revised) :
    ∃ other, revised = .ok other ∧ other.eraseDups = list.eraseDups := by
  cases h with
  | found hsame => exact ⟨_, rfl, hsame [] (List.Subset.refl [])⟩

namespace SourceDirectory

/-- The cycle that a directive for a file on the trail closes. -/
def ringFrom (trail : List String) (target : String) : Cycle :=
  Cycle.ofRing (trail.dropWhile (· != target))

/-- What the outcomes of two walks have in common, the second of which meets repetitions of
the targets mentioned.  A cycle that only the second records belongs to one of these. -/
structure Tracks (mentioned trail : List String) (outcome revised : Outcome (List String)) :
    Prop where
  visited : revised.visited = outcome.visited
  result : SameResult mentioned outcome.result revised.result
  recorded : (cyclesOf outcome.steps).Sublist (cyclesOf revised.steps)
  known : ∀ cycle ∈ cyclesOf revised.steps, cycle ∈ cyclesOf outcome.steps ∨
    ∃ target ∈ mentioned, target ∈ trail ∧ cycle = ringFrom trail target

theorem Tracks.refl (mentioned trail : List String) (outcome : Outcome (List String)) :
    Tracks mentioned trail outcome outcome :=
  ⟨rfl, .refl _ _, List.Sublist.refl _, fun _ => Or.inl⟩

/-- Where nothing is mentioned, no other cycle is recorded. -/
theorem Tracks.mem_of_mem {trail : List String} {outcome revised : Outcome (List String)}
    (h : Tracks [] trail outcome revised) {cycle : Cycle} (hcycle : cycle ∈ cyclesOf revised.steps) :
    cycle ∈ cyclesOf outcome.steps :=
  (h.known cycle hcycle).resolve_right fun ⟨_, hnone, _⟩ => List.not_mem_nil hnone

section

variable {directory : SourceDirectory} {strict : Bool}

@[simp] theorem cyclesOf_expanded (file : String) (content : List UInt8) (steps : List Step) :
    cyclesOf (.read file :: directory.droppedSteps strict content ++ steps) = cyclesOf steps := by
  simp only [cyclesOf_eq_map_closings, closings_expanded]

@[simp] theorem cyclesOf_listed (trail : List String) (file target : String)
    (steps : List Step) :
    cyclesOf (closingSteps trail file target ++ steps) =
      (if target ∈ trail then [ringFrom trail target] else []) ++ cyclesOf steps := by
  rw [cyclesOf_eq_map_closings, closings_listed, List.map_append, ← cyclesOf_eq_map_closings]
  split <;> rfl

@[simp] theorem cyclesOf_stopped (file target : String) (steps : List Step) :
    cyclesOf (.expanding file target :: steps) = cyclesOf steps := rfl

@[simp] theorem cyclesOf_entered (file target : String) (inner later : List Step) :
    cyclesOf (.expanding file target :: inner ++ later) = cyclesOf inner ++ cyclesOf later :=
  List.filterMap_append ..

end

/-! ## Walks in step -/

/-- Every file reads alike in both directories, but that the second one may repeat
directives. -/
def Echoes (first second : SourceDirectory) (strict : Bool) : Prop :=
  ∀ file, (∃ fault, first.read file = .error fault ∧ second.read file = .error fault) ∨
    ∃ content revised, first.read file = .ok content ∧ second.read file = .ok revised ∧
      Repeats [] (first.kept strict content) (second.kept strict revised)

/-- The stages of two walks in step. -/
inductive Pairs : List String → Stage → Stage → Prop
  /-- Both expand a file. -/
  | expand (referrer : Referrer) (file : String) :
      Pairs [] (.expand referrer file) (.expand referrer file)
  /-- Both follow the directives of a file, and the second one repeats some of them. -/
  | follow {mentioned : List String} (file : String) {directives revised : List Directive}
      (hrepeats : Repeats mentioned directives revised) :
      Pairs mentioned (.follow file directives) (.follow file revised)

section

variable {first second : SourceDirectory} {strict : Bool} {trail mentioned : List String}
  {visited : VisitedSet} {file : String} {outcome : Outcome (List String)}

/-- Repetitions are passed over. -/
theorem exists_tracks_of_extras {extras rest : List Directive}
    (hextras : ∀ extra ∈ extras, extra.target ∈ mentioned)
    (hmentioned : ∀ target ∈ mentioned, target ∈ visited)
    (h : ∃ revised, Walks second strict (.follow file rest) trail visited revised ∧
      Tracks mentioned trail outcome revised) :
    ∃ revised, Walks second strict (.follow file (extras ++ rest)) trail visited revised ∧
      Tracks mentioned trail outcome revised := by
  induction extras with
  | nil => exact h
  | cons extra others ih =>
      obtain ⟨hextra, hothers⟩ := List.forall_mem_cons.mp hextras
      obtain ⟨revised, hwalk, htracks⟩ := ih hothers
      refine ⟨_, .listed (hmentioned _ hextra) hwalk, htracks.visited,
        htracks.result.added hextra, ?_, ?_⟩
      · rw [cyclesOf_listed]
        exact htracks.recorded.trans (List.sublist_append_right _ _)
      · rw [cyclesOf_listed]
        intro cycle hcycle
        obtain hring | hlater := List.mem_append.mp hcycle
        · split at hring
          · next hback =>
            exact Or.inr ⟨extra.target, hextra, hback, List.mem_singleton.mp hring⟩
          · cases hring
        · exact htracks.known cycle hlater

/-- A file is expanded: its list is made free of repetitions. -/
theorem Tracks.expanded {longer : List String} {inner revised : Outcome (List String)}
    {content other : List UInt8} (htracks : Tracks [] longer inner revised) :
    Tracks [] trail
      ⟨inner.result.map fun found => promoteOwn file id found.eraseDups, inner.visited,
        .read file :: first.droppedSteps strict content ++ inner.steps⟩
      ⟨revised.result.map fun found => promoteOwn file id found.eraseDups, revised.visited,
        .read file :: second.droppedSteps strict other ++ revised.steps⟩ where
  visited := htracks.visited
  result := by
    have hresult := htracks.result
    cases hinner : inner.result with
    | error error =>
        rw [hinner] at hresult
        rw [hresult.eq_error]
        exact .failed error
    | ok found =>
        rw [hinner] at hresult
        obtain ⟨list, hlist, hsame⟩ := hresult.exists_eq_ok
        rw [hlist]
        show SameResult [] (.ok (promoteOwn file id found.eraseDups))
          (.ok (promoteOwn file id list.eraseDups))
        rw [hsame]
        exact .refl [] _
  recorded := by
    rw [cyclesOf_expanded, cyclesOf_expanded]
    exact htracks.recorded
  known := by
    rw [cyclesOf_expanded, cyclesOf_expanded]
    exact fun _ hcycle => Or.inl (htracks.mem_of_mem hcycle)

/-- A directive for a file that was visited: the cycle that it may close is known from then
on. -/
theorem Tracks.listed {target : String} {later revised : Outcome (List String)}
    (htracks : Tracks (target :: mentioned) trail later revised) :
    Tracks mentioned trail
      ⟨later.result.map (target :: ·), later.visited,
        closingSteps trail file target ++ later.steps⟩
      ⟨revised.result.map (target :: ·), revised.visited,
        closingSteps trail file target ++ revised.steps⟩ where
  visited := htracks.visited
  result := htracks.result.cons
  recorded := by
    rw [cyclesOf_listed, cyclesOf_listed]
    exact htracks.recorded.append_left _
  known := by
    intro cycle hcycle
    rw [cyclesOf_listed, List.mem_append] at hcycle ⊢
    obtain hring | hlater := hcycle
    · exact Or.inl (Or.inl hring)
    obtain hlater | ⟨other, hother, hback, hring⟩ := htracks.known cycle hlater
    · exact Or.inl (Or.inr hlater)
    obtain hsame | hother := List.mem_cons.mp hother
    · rw [hsame] at hback hring
      exact Or.inl (Or.inl (by rw [if_pos hback, hring]; exact List.mem_singleton_self _))
    · exact Or.inr ⟨other, hother, hback, hring⟩

/-- A directive for a file that is entered: it is not on the trail, so no repetition of it
closes a cycle. -/
theorem Tracks.entered {target : String} {inner innerRevised later revised : Outcome (List String)}
    {below belowRevised : List String}
    (htracks : Tracks (target :: mentioned) trail later revised) (hout : target ∉ trail)
    (hinner : Tracks [] trail inner innerRevised)
    (hbelow : belowRevised.eraseDups = below.eraseDups) :
    Tracks mentioned trail
      ⟨later.result.map (target :: below ++ ·), later.visited,
        .expanding file target :: inner.steps ++ later.steps⟩
      ⟨revised.result.map (target :: belowRevised ++ ·), revised.visited,
        .expanding file target :: innerRevised.steps ++ revised.steps⟩ where
  visited := htracks.visited
  result := htracks.result.entered hbelow
  recorded := by
    rw [cyclesOf_entered, cyclesOf_entered]
    exact hinner.recorded.append htracks.recorded
  known := by
    intro cycle hcycle
    rw [cyclesOf_entered, List.mem_append] at hcycle ⊢
    obtain hearlier | hlater := hcycle
    · exact Or.inl (Or.inl (hinner.mem_of_mem hearlier))
    obtain hlater | ⟨other, hother, hback, hring⟩ := htracks.known cycle hlater
    · exact Or.inl (Or.inr hlater)
    obtain hsame | hother := List.mem_cons.mp hother
    · exact absurd (hsame ▸ hback) hout
    · exact Or.inr ⟨other, hother, hback, hring⟩

/-- A directive whose file cannot be expanded. -/
theorem Tracks.stopped {target : String} {inner revised : Outcome (List String)}
    {error : ResolveError} (htracks : Tracks [] trail inner revised) :
    Tracks mentioned trail ⟨.error error, inner.visited, .expanding file target :: inner.steps⟩
      ⟨.error error, revised.visited, .expanding file target :: revised.steps⟩ where
  visited := htracks.visited
  result := .failed error
  recorded := by
    rw [cyclesOf_stopped, cyclesOf_stopped]
    exact htracks.recorded
  known := by
    rw [cyclesOf_stopped, cyclesOf_stopped]
    exact fun _ hcycle => Or.inl (htracks.mem_of_mem hcycle)

/-- A walk of the first directory is matched by one of the second that visits the same files,
fails in the same way or finds the same paths, and records no other cycles. -/
theorem Walks.repeated {stage partner : Stage}
    (hwalk : Walks first strict stage trail visited outcome)
    (hechoes : first.Echoes second strict) (hpairs : Pairs mentioned stage partner)
    (hunder : first.Underway strict stage trail visited)
    (hmentioned : ∀ target ∈ mentioned, target ∈ visited) :
    ∃ revised, Walks second strict partner trail visited revised ∧
      Tracks mentioned trail outcome revised := by
  induction hwalk generalizing mentioned partner with
  | @unreadable _ _ file _ fault hread =>
      cases hpairs with
      | expand =>
          obtain ⟨fault', hfault, hsecond⟩ | ⟨_, _, hok, -⟩ := hechoes file
          · obtain rfl := Except.error.inj (hread.symm.trans hfault)
            exact ⟨_, .unreadable hsecond, .refl _ _ _⟩
          · cases hread.symm.trans hok
  | @expanded _ _ file _ content inner hread _ ih =>
      cases hpairs with
      | expand =>
          obtain ⟨_, hfault, -⟩ | ⟨content', revised, hok, hsecond, hrepeats⟩ := hechoes file
          · cases hread.symm.trans hfault
          obtain rfl := Except.ok.inj (hread.symm.trans hok)
          obtain ⟨innerRevised, hinner, htracks⟩ :=
            ih (.follow file (hrepeats.promoteOwn file)) (hunder.read hread) hmentioned
          exact ⟨_, .expanded hsecond hinner, htracks.expanded⟩
  | @done trail file visited =>
      cases hpairs with
      | @follow _ _ _ revised hrepeats =>
          have hdone : Walks second strict (.follow file []) trail visited ⟨.ok [], visited, []⟩ :=
            .done
          have hextras := exists_tracks_of_extras hrepeats.of_nil hmentioned
            ⟨_, hdone, .refl mentioned trail _⟩
          rwa [List.append_nil] at hextras
  | listed hvisited _ ih =>
      cases hpairs with
      | follow _ hrepeats =>
          obtain ⟨extras, after, rfl, hextras, hrest⟩ := hrepeats.of_cons
          obtain ⟨revised, hlater, htracks⟩ := ih (.follow _ hrest)
            (hunder.advance fun _ => id) (List.forall_mem_cons.mpr ⟨hvisited, hmentioned⟩)
          exact exists_tracks_of_extras hextras hmentioned
            ⟨_, .listed hvisited hlater, htracks.listed⟩
  | @stopped trail file visited directive _ inner error hnew _ herror ih =>
      cases hpairs with
      | follow _ hrepeats =>
          obtain ⟨extras, after, rfl, hextras, -⟩ := hrepeats.of_cons
          obtain ⟨innerRevised, hinner, htracks⟩ := ih
            (.expand (.directive file directive.line) directive.target) (hunder.enter hnew _)
            fun _ hmem => absurd hmem List.not_mem_nil
          have hfails := htracks.result
          rw [herror] at hfails
          exact exists_tracks_of_extras hextras hmentioned
            ⟨_, .stopped hnew hinner hfails.eq_error, htracks.stopped⟩
  | @entered trail file visited directive _ inner below _ hnew hwalks hbelow _ ihinner ihlater =>
      cases hpairs with
      | follow _ hrepeats =>
          obtain ⟨extras, after, rfl, hextras, hrest⟩ := hrepeats.of_cons
          obtain ⟨innerRevised, hinner, htracks⟩ := ihinner
            (.expand (.directive file directive.line) directive.target) (hunder.enter hnew _)
            fun _ hmem => absurd hmem List.not_mem_nil
          have hfinds := htracks.result
          rw [hbelow] at hfinds
          obtain ⟨list, hlist, hsame⟩ := hfinds.exists_eq_ok
          obtain ⟨revised, hlater, hlaterTracks⟩ := ihlater (.follow _ hrest)
            (hunder.advance hwalks.mem_of_enter)
            (List.forall_mem_cons.mpr ⟨hwalks.target_mem, fun target hmem =>
              hwalks.mem_of_enter target (hmentioned target hmem)⟩)
          rw [← htracks.visited] at hlater
          -- a file that is entered is new, and all files of the trail are visited
          have hout : directive.target ∉ trail := fun hback => hnew (hunder.seen _ hback)
          exact exists_tracks_of_extras hextras hmentioned
            ⟨_, .entered hnew hinner hlist hlater, hlaterTracks.entered hout htracks hsame⟩

/-! ## Resolutions -/

/-- A file resolved on its own comes to the same in a directory that repeats directives: only
cycles that are recorded anyway may be recorded more often. -/
theorem resolveRoot_of_echoes (hechoes : first.Echoes second strict) (root : String) :
    (∀ error, (first.resolveRoot strict root).result = .error error →
      (second.resolveRoot strict root).result = .error error) ∧
    ∀ resolution, (first.resolveRoot strict root).result = .ok resolution →
      ∃ cycles, (second.resolveRoot strict root).result = .ok ⟨resolution.prerequisites, cycles⟩ ∧
        resolution.cycles.Sublist cycles ∧ cycles ⊆ resolution.cycles := by
  have hfirst : Walks first strict (.expand .sourceList root) [] (.rooted root) _ :=
    walks_depthBound [] .sourceList root (.rooted root)
  generalize first.expand strict first.depthBound [] .sourceList root (.rooted root) = outcome
    at hfirst
  obtain ⟨revised, hsecond, htracks⟩ := hfirst.repeated hechoes (.expand .sourceList root)
    (.rooted root) fun _ hmem => absurd hmem List.not_mem_nil
  have hresult := htracks.result
  simp only [resolveRoot, walkFrom, expand_eq hfirst le_rfl, expand_eq hsecond le_rfl, Outcome.map]
  cases hok : outcome.result with
  | error error =>
      rw [hok] at hresult
      rw [hresult.eq_error]
      constructor
      · exact fun other hother => hother
      · intro resolution hresolution
        cases hresolution
  | ok found =>
      rw [hok] at hresult
      obtain ⟨list, hlist, hsame⟩ := hresult.exists_eq_ok
      -- an expansion lists no path twice, so both find the same list
      obtain rfl : list = found := by
        obtain ⟨naive, -, rfl⟩ := hfirst.naive_expand hok
        obtain ⟨other, -, rfl⟩ := hsecond.naive_expand hlist
        rwa [eraseDups_eraseDups, eraseDups_eraseDups] at hsame
      have hself : (cyclesOf revised.steps).any (·.isSelfIncludeOf root) =
          (cyclesOf outcome.steps).any (·.isSelfIncludeOf root) := by
        rw [Bool.eq_iff_iff, List.any_eq_true, List.any_eq_true]
        constructor
        · intro h
          obtain ⟨cycle, hcycle, hroot⟩ := h
          exact ⟨cycle, htracks.mem_of_mem hcycle, hroot⟩
        · intro h
          obtain ⟨cycle, hcycle, hroot⟩ := h
          exact ⟨cycle, htracks.recorded.subset hcycle, hroot⟩
      constructor
      · intro error herror
        cases herror
      · intro resolution hresolution
        obtain rfl := Except.ok.inj hresolution
        refine ⟨cyclesOf revised.steps, ?_, htracks.recorded, fun _ => htracks.mem_of_mem⟩
        rw [hlist, hself]
        rfl

end

end SourceDirectory

end IncludeDeps
