import IncludeDeps.Proofs.Resolution.Coverage
import IncludeDeps.Proofs.Ring

/-!
# The trail of a walk

The trail lists the files being expanded.  In a walk that starts with its file
visited the trail is at any time a chain of includes without repetition, and all
its files are visited: `Underway` is this invariant, and `Underway.read`,
`Underway.advance` and `Underway.enter` say that each thing the walk does keeps it.

It tells what is recorded when a directive leads back to the trail.  `closings`
picks these entries from the steps of a walk.  By `Walks.met` each is the cycle
of a ring, the end of the trail from the target on, and the ring consists of
files that were on the trail when the stage began and of files entered during
the stage.  Two entries for one cycle therefore belong to one file: what one
expansion enters is not yet on the trail of an earlier entry and no longer on
that of a later one.  `Walks.pairwise_closings` adds that this file names one
target twice.
-/

namespace IncludeDeps

/-- The cycles among the steps of a walk, each with the file whose directive
closed it. -/
def closings (steps : List Step) : List (String × Cycle) :=
  steps.filterMap fun
    | .closing file cycle => some (file, cycle)
    | _ => none

theorem cyclesOf_eq_map_closings (steps : List Step) :
    cyclesOf steps = (closings steps).map Prod.snd := by
  unfold cyclesOf closings
  rw [List.map_filterMap]
  congr 1
  funext step
  cases step <;> rfl

theorem snd_mem_cyclesOf {steps : List Step} {entry : String × Cycle}
    (hentry : entry ∈ closings steps) : entry.2 ∈ cyclesOf steps := by
  rw [cyclesOf_eq_map_closings]
  exact List.mem_map_of_mem hentry

theorem closings_append (first second : List Step) :
    closings (first ++ second) = closings first ++ closings second :=
  List.filterMap_append ..

/-- The file that a stage is about. -/
def Stage.file : Stage → String
  | .expand _ file => file
  | .follow file _ => file

/-- The files being expanded while the directives of a stage are followed. -/
def Stage.active : Stage → List String → List String
  | .expand _ file, trail => trail ++ [file]
  | .follow _ _, trail => trail

theorem promoteOwn_perm {α : Type} (file : String) (path : α → String) (items : List α) :
    (promoteOwn file path items).Perm items :=
  List.filter_append_perm _ items

namespace SourceDirectory

variable {directory : SourceDirectory} {strict : Bool}

@[simp] theorem closings_expanded (file : String) (content : List UInt8) (steps : List Step) :
    closings (.read file :: directory.droppedSteps strict content ++ steps) = closings steps := by
  rw [closings_append]
  simp [closings, droppedSteps]

@[simp] theorem closings_listed (trail : List String) (file target : String) (steps : List Step) :
    closings (closingSteps trail file target ++ steps) =
      (if target ∈ trail then [(file, Cycle.ofRing (trail.dropWhile (· != target)))] else []) ++
        closings steps := by
  rw [closings_append]
  unfold closingSteps
  split <;> rfl

@[simp] theorem closings_stopped (file target : String) (steps : List Step) :
    closings (.expanding file target :: steps) = closings steps := rfl

@[simp] theorem closings_entered (file target : String) (inner later : List Step) :
    closings (.expanding file target :: inner ++ later) = closings inner ++ closings later :=
  closings_append inner later

/-! ## The invariant of the trail -/

/-- A file has two directives that are followed and name one target. -/
def NamesTwice (directory : SourceDirectory) (strict : Bool) (file target : String) : Prop :=
  ∃ content, directory.read file = .ok content ∧
    2 ≤ ((directory.kept strict content).map Directive.target).count target

/-- A stage deals with a target twice. -/
def Doubles (directory : SourceDirectory) (strict : Bool) : Stage → String → Prop
  | .expand _ file, target => directory.NamesTwice strict file target
  | .follow _ directives, target => 2 ≤ (directives.map Directive.target).count target

/-- The files being expanded form a chain of visited files, each once, that
ends in the file of the stage; and what the stage deals with comes from that
file. -/
structure Underway (directory : SourceDirectory) (strict : Bool) (stage : Stage)
    (trail : List String) (visited : VisitedSet) : Prop where
  last : (stage.active trail).getLast? = some stage.file
  chain : (stage.active trail).IsChain (directory.Includes strict)
  nodup : (stage.active trail).Nodup
  seen : ∀ path ∈ stage.active trail, path ∈ visited
  leads : ∀ target, directory.Leads strict stage target →
    directory.Includes strict stage.file target
  doubles : ∀ target, directory.Doubles strict stage target →
    directory.NamesTwice strict stage.file target

section

variable {trail : List String} {visited : VisitedSet} {file : String} {directive : Directive}
  {rest : List Directive}

theorem Underway.initial (referrer : Referrer) (file : String) (hfile : file ∈ visited) :
    directory.Underway strict (.expand referrer file) [] visited where
  last := rfl
  chain := List.isChain_singleton _
  nodup := List.nodup_singleton _
  seen := fun path hpath => by
    rw [Stage.active, List.nil_append, List.mem_singleton] at hpath
    exact hpath ▸ hfile
  leads := fun _ => id
  doubles := fun _ => id

/-- A file on its own is visited when its expansion begins. -/
theorem Underway.rooted (root : String) :
    directory.Underway strict (.expand .sourceList root) [] (.rooted root) :=
  .initial .sourceList root (VisitedSet.mem_rooted.mpr rfl)

theorem Underway.read {referrer : Referrer} {content : List UInt8}
    (hunder : directory.Underway strict (.expand referrer file) trail visited)
    (hread : directory.read file = .ok content) :
    directory.Underway strict
      (.follow file (promoteOwn file Directive.target (directory.kept strict content)))
      (trail ++ [file]) visited where
  last := hunder.last
  chain := hunder.chain
  nodup := hunder.nodup
  seen := hunder.seen
  leads := fun target hleads => hunder.leads target ((leads_expand_iff hread).mpr hleads)
  doubles := fun target hdoubles => by
    refine ⟨content, hread, ?_⟩
    rwa [Doubles, ((promoteOwn_perm file Directive.target _).map _).count_eq] at hdoubles

theorem Underway.advance
    (hunder : directory.Underway strict (.follow file (directive :: rest)) trail visited)
    {later : VisitedSet} (hsubset : ∀ path ∈ visited, path ∈ later) :
    directory.Underway strict (.follow file rest) trail later where
  last := hunder.last
  chain := hunder.chain
  nodup := hunder.nodup
  seen := fun path hpath => hsubset path (hunder.seen path hpath)
  leads := fun target hleads => hunder.leads target (leads_cons_iff.mpr (Or.inr hleads))
  doubles := fun target hdoubles => hunder.doubles target (by
    rw [Doubles, List.map_cons]
    exact le_trans hdoubles List.count_le_count_cons)

theorem Underway.enter
    (hunder : directory.Underway strict (.follow file (directive :: rest)) trail visited)
    (hnew : directive.target ∉ visited) (referrer : Referrer) :
    directory.Underway strict (.expand referrer directive.target) trail
      (visited.insert directive.target) where
  last := List.getLast?_concat
  chain := by
    refine List.isChain_append.mpr ⟨hunder.chain, List.isChain_singleton _, ?_⟩
    intro last hlast target htarget
    obtain rfl : last = file := Option.some.inj (hlast.symm.trans hunder.last)
    obtain rfl : directive.target = target := Option.some.inj htarget
    exact hunder.leads _ (leads_cons_iff.mpr (Or.inl rfl))
  nodup := by
    -- files on the trail are visited, so a new target is not among them
    have hout : directive.target ∉ trail := fun hmem => hnew (hunder.seen _ hmem)
    simpa [Stage.active] using hunder.nodup.concat hout
  seen := fun path hpath => by
    rcases List.mem_append.mp hpath with hmem | hmem
    · exact VisitedSet.mem_insert_of_mem _ (hunder.seen path hmem)
    · rw [List.mem_singleton.mp hmem]
      exact VisitedSet.mem_insert_self _ _
  leads := fun _ => id
  doubles := fun _ => id

end

/-! ## What an entry records -/

/-- A directive of a file closes a ring: the ring leads from its target to the
file. -/
structure Closes (directory : SourceDirectory) (strict : Bool) (ring : List String)
    (file target : String) : Prop where
  head : ring.head? = some target
  last : ring.getLast? = some file
  chain : ring.IsChain (directory.Includes strict)
  nodup : ring.Nodup
  close : directory.Includes strict file target

theorem Closes.ne_nil {ring : List String} {file target : String}
    (hcloses : directory.Closes strict ring file target) : ring ≠ [] := by
  rintro rfl
  cases hcloses.head

theorem Closes.file_mem {ring : List String} {file target : String}
    (hcloses : directory.Closes strict ring file target) : file ∈ ring :=
  List.mem_of_getLast? hcloses.last

/-- A cycle determines the target of each directive that closes it. -/
theorem Closes.target_unique {ring other : List String} {file target second : String}
    (hfirst : directory.Closes strict ring file target)
    (hsecond : directory.Closes strict other file second)
    (hsame : Cycle.ofRing ring = Cycle.ofRing other) : target = second := by
  have hnext := Cycle.closing_infix_files_ofRing hfirst.head hfirst.last
  have hother := Cycle.closing_infix_files_ofRing hsecond.head hsecond.last
  rw [← hsame] at hother
  exact Cycle.successor_unique (Cycle.nodup_dropLast_files_ofRing hfirst.ne_nil hfirst.nodup)
    hnext hother

/-- A file that closes a cycle lies on every ring of that cycle. -/
theorem Closes.file_mem_of_eq {ring other : List String} {file target last second : String}
    (hfirst : directory.Closes strict ring file target)
    (hsecond : directory.Closes strict other last second)
    (hsame : Cycle.ofRing ring = Cycle.ofRing other) : file ∈ other := by
  rw [← Cycle.mem_files_ofRing hsecond.ne_nil, ← hsame, Cycle.mem_files_ofRing hfirst.ne_nil]
  exact hfirst.file_mem

theorem Underway.closes {trail : List String} {visited : VisitedSet} {file : String}
    {directive : Directive} {rest : List Directive}
    (hunder : directory.Underway strict (.follow file (directive :: rest)) trail visited)
    (hback : directive.target ∈ trail) :
    directory.Closes strict (trail.dropWhile (· != directive.target)) file directive.target := by
  obtain ⟨before, after, hsplit, -, hdrop⟩ := Cycle.dropWhile_ne_of_mem hback
  have hsuffix : directive.target :: after <:+ trail := ⟨before, hsplit.symm⟩
  rw [hdrop]
  refine ⟨rfl, ?_, hunder.chain.suffix hsuffix, hunder.nodup.sublist hsuffix.sublist,
    hunder.leads _ (leads_cons_iff.mpr (Or.inl rfl))⟩
  have hlast : trail.getLast? = some file := hunder.last
  rwa [hsplit, List.getLast?_append_of_ne_nil _ (List.cons_ne_nil _ _)] at hlast

/-- An entry met between two states of a walk: its ring consists of files being
expanded when the stage began and of files entered since, and its directive is
one of the stage or of a file entered since. -/
def Met (directory : SourceDirectory) (strict : Bool) (stage : Stage) (trail : List String)
    (visited later : VisitedSet) (entry : String × Cycle) : Prop :=
  ∃ ring target, directory.Closes strict ring entry.1 target ∧ entry.2 = Cycle.ofRing ring ∧
    (∀ name ∈ ring, name ∈ stage.active trail ∨ name ∈ later ∧ name ∉ visited) ∧
    (entry.1 = stage.file ∧ directory.Leads strict stage target ∨
      entry.1 ∈ later ∧ entry.1 ∉ visited)

section

variable {trail : List String} {visited inner later : VisitedSet} {file : String}
  {directive : Directive} {rest : List Directive} {entry : String × Cycle}

/-- The file of an entry met while a target is expanded was entered with the
target or after it. -/
theorem Met.file_entered {referrer : Referrer} (hnew : directive.target ∉ visited)
    (htarget : directive.target ∈ inner)
    (hmet : directory.Met strict (.expand referrer directive.target) trail
      (visited.insert directive.target) inner entry) : entry.1 ∈ inner ∧ entry.1 ∉ visited := by
  obtain ⟨_, _, _, _, _, ⟨hsame, -⟩ | ⟨hmem, hout⟩⟩ := hmet
  · rw [hsame]
    exact ⟨htarget, hnew⟩
  · exact ⟨hmem, fun hseen => hout (VisitedSet.mem_insert_of_mem _ hseen)⟩

/-- An entry met while a target is expanded is met while the directive that
names it is followed. -/
theorem Met.of_entered {referrer : Referrer} (hnew : directive.target ∉ visited)
    (htarget : directive.target ∈ inner) (hsubset : ∀ path ∈ inner, path ∈ later)
    (hmet : directory.Met strict (.expand referrer directive.target) trail
      (visited.insert directive.target) inner entry) :
    directory.Met strict (.follow file (directive :: rest)) trail visited later entry := by
  obtain ⟨hfile, hout⟩ := hmet.file_entered hnew htarget
  obtain ⟨ring, target, hcloses, hcycle, hring, -⟩ := hmet
  refine ⟨ring, target, hcloses, hcycle, fun name hname => ?_, Or.inr ⟨hsubset _ hfile, hout⟩⟩
  rcases hring name hname with hactive | ⟨hmem, hnewName⟩
  · rcases List.mem_append.mp hactive with htrail | hsame
    · exact Or.inl htrail
    · rw [List.mem_singleton.mp hsame]
      exact Or.inr ⟨hsubset _ htarget, hnew⟩
  · exact Or.inr ⟨hsubset name hmem, fun hseen => hnewName (VisitedSet.mem_insert_of_mem _ hseen)⟩

/-- An entry met while later directives are followed is met while all are. -/
theorem Met.of_rest (hsubset : ∀ path ∈ visited, path ∈ inner)
    (hmet : directory.Met strict (.follow file rest) trail inner later entry) :
    directory.Met strict (.follow file (directive :: rest)) trail visited later entry := by
  obtain ⟨ring, target, hcloses, hcycle, hring, hfile⟩ := hmet
  have hentered : ∀ name, name ∈ later ∧ name ∉ inner → name ∈ later ∧ name ∉ visited :=
    fun name ⟨hmem, hout⟩ => ⟨hmem, fun hseen => hout (hsubset name hseen)⟩
  exact ⟨ring, target, hcloses, hcycle, fun name hname => (hring name hname).imp_right (hentered _),
    hfile.imp (fun ⟨hsame, hleads⟩ => ⟨hsame, leads_cons_iff.mpr (Or.inr hleads)⟩) (hentered _)⟩

end

section

variable {stage : Stage} {trail : List String} {visited : VisitedSet}
  {outcome : Outcome (List String)}

theorem Walks.met (hwalk : Walks directory strict stage trail visited outcome)
    (hunder : directory.Underway strict stage trail visited) {entry : String × Cycle}
    (hentry : entry ∈ closings outcome.steps) :
    directory.Met strict stage trail visited outcome.visited entry := by
  induction hwalk with
  | unreadable _ => cases hentry
  | expanded hread _ ih =>
      rw [closings_expanded] at hentry
      obtain ⟨ring, target, hcloses, hcycle, hring, hfile⟩ := ih (hunder.read hread) hentry
      refine ⟨ring, target, hcloses, hcycle, hring, hfile.imp_left ?_⟩
      exact fun ⟨hsame, hleads⟩ => ⟨hsame, (leads_expand_iff hread).mpr hleads⟩
  | done => cases hentry
  | listed hseen _ ih =>
      rw [closings_listed, List.mem_append] at hentry
      rcases hentry with hentry | hentry
      · split at hentry
        · next hback =>
          rw [List.mem_singleton.mp hentry]
          exact ⟨_, _, hunder.closes hback, rfl,
            fun name hname => Or.inl ((List.dropWhile_suffix _).subset hname),
            Or.inl ⟨rfl, leads_cons_iff.mpr (Or.inl rfl)⟩⟩
        · cases hentry
      · exact (ih (hunder.advance fun _ => id) hentry).of_rest fun _ => id
  | stopped hnew hinner _ ih =>
      rw [closings_stopped] at hentry
      exact (ih (hunder.enter hnew _) hentry).of_entered hnew hinner.target_mem fun _ => id
  | entered hnew hinner _ hlater ihinner ihlater =>
      rw [closings_entered, List.mem_append] at hentry
      rcases hentry with hentry | hentry
      · exact (ihinner (hunder.enter hnew _) hentry).of_entered hnew hinner.target_mem
          fun _ => hlater.mem_visited
      · exact (ihlater (hunder.advance hinner.mem_of_enter) hentry).of_rest hinner.mem_of_enter

/-! ## Two entries for one cycle -/

/-- Two entries come from two directives of one file that name one target, the
file's successor on the cycle. -/
def SameOrigin (directory : SourceDirectory) (strict : Bool) (first second : String × Cycle) :
    Prop :=
  first.1 = second.1 ∧ ∃ target, [first.1, target] <:+: first.2.files ∧
    directory.NamesTwice strict first.1 target

/-- A directive closes a cycle that is recorded again for the directives after
it only if one of these names the same target. -/
theorem sameOrigin_of_met {file : String} {directive : Directive} {rest : List Directive}
    {later : VisitedSet} {second : String × Cycle}
    (hunder : directory.Underway strict (.follow file (directive :: rest)) trail visited)
    (hback : directive.target ∈ trail)
    (hmet : directory.Met strict (.follow file rest) trail visited later second)
    (hsame : Cycle.ofRing (trail.dropWhile (· != directive.target)) = second.2) :
    directory.SameOrigin strict
      (file, Cycle.ofRing (trail.dropWhile (· != directive.target))) second := by
  obtain ⟨ring, target, hcloses, hcycle, -, hfile⟩ := hmet
  have hfirst := hunder.closes hback
  rw [hcycle] at hsame
  rcases hfile with ⟨hfile, hleads⟩ | ⟨-, hnew⟩
  · have hfile : second.1 = file := hfile
    rw [hfile] at hcloses
    obtain rfl : directive.target = target := hfirst.target_unique hcloses hsame
    refine ⟨hfile.symm, directive.target,
      Cycle.closing_infix_files_ofRing hfirst.head hfirst.last, hunder.doubles _ ?_⟩
    obtain ⟨other, hother, htarget⟩ := hleads
    have hcount : 0 < (rest.map Directive.target).count directive.target :=
      List.count_pos_iff.mpr (List.mem_map.mpr ⟨other, hother, htarget⟩)
    rw [Doubles, List.map_cons, List.count_cons_self]
    omega
  · -- a file entered later is not on the trail, where the ring lies
    have hmem := hcloses.file_mem_of_eq hfirst hsame.symm
    exact absurd (hunder.seen _ ((List.dropWhile_suffix _).subset hmem)) hnew

/-- Two entries of a walk record the same cycle only if they come from two
directives of one file with one target. -/
theorem Walks.pairwise_closings (hwalk : Walks directory strict stage trail visited outcome)
    (hunder : directory.Underway strict stage trail visited) :
    (closings outcome.steps).Pairwise fun first second =>
      first.2 = second.2 → directory.SameOrigin strict first second := by
  induction hwalk with
  | unreadable _ => exact List.Pairwise.nil
  | expanded hread _ ih =>
      rw [closings_expanded]
      exact ih (hunder.read hread)
  | done => exact List.Pairwise.nil
  | listed _ hlater ih =>
      have hrest := hunder.advance fun _ => id
      rw [closings_listed]
      split
      · next hback =>
        refine List.pairwise_cons.mpr ⟨fun second hsecond hsame => ?_, ih hrest⟩
        exact sameOrigin_of_met hunder hback (hlater.met hrest hsecond) hsame
      · exact ih hrest
  | stopped hnew _ _ ih => exact ih (hunder.enter hnew _)
  | @entered _ file _ directive _ _ _ _ hnew hinner _ hlater ihinner ihlater =>
      have henter := hunder.enter hnew (.directive file directive.line)
      have hrest := hunder.advance hinner.mem_of_enter
      rw [closings_entered]
      refine List.pairwise_append.mpr ⟨ihinner henter, ihlater hrest, ?_⟩
      intro first hfirst second hsecond hsame
      -- the first file is entered before the second ring is met, but not on the trail any more
      obtain ⟨hearlier, hout⟩ :=
        (hinner.met henter hfirst).file_entered hnew hinner.target_mem
      obtain ⟨firstRing, _, hcloses, hcycle, -, -⟩ := hinner.met henter hfirst
      obtain ⟨ring, _, hsecondCloses, hsecondCycle, hring, -⟩ := hlater.met hrest hsecond
      rw [hcycle, hsecondCycle] at hsame
      rcases hring _ (hcloses.file_mem_of_eq hsecondCloses hsame) with hactive | ⟨-, hlate⟩
      · exact absurd (hunder.seen _ hactive) hout
      · exact absurd hearlier hlate

end

end SourceDirectory

end IncludeDeps
