import IncludeDeps.Event
import IncludeDeps.Proofs.Resolution.Order

/-!
# First discovered, first listed

A walk lists bottom-up: each expansion joins what its targets have listed, drops
repetitions and moves own headers to the front.  It enters files top-down, each when it
is named for the first time.  Where no two files have one stem, no header is an own header,
and both orders are one: what an expansion lists and was not visited before is what it has
entered, in this order (`Walks.preorder`).

`DepthFirst` is the order by itself, without a walk: files are listed before what they
name, in the order in which they name it, and a file that was seen before is passed over.
Its rules leave no choice (`DepthFirst.unique`), and a file is listed exactly if a way that
avoids what was seen before leads to it (`DepthFirst.mem_iff`).  Behind each file stands
what it brings in, and behind that come its later siblings (`DepthFirst.bracket`).
-/

namespace IncludeDeps

open Relation

/-! ## Depth-first order -/

/-- The order in which a search that has seen some files lists the files that it comes to
from those pending, each before its children and these before its later siblings. -/
inductive DepthFirst (children : String → List String) :
    List String → List String → List String → Prop
  /-- Nothing is pending. -/
  | done {seen} : DepthFirst children seen [] []
  /-- A file that was seen is passed over. -/
  | skip {seen path rest order} (hseen : path ∈ seen)
      (hrest : DepthFirst children seen rest order) :
      DepthFirst children seen (path :: rest) order
  /-- A file that is new is listed, then what it brings in, then the rest. -/
  | enter {seen path rest below after} (hnew : path ∉ seen)
      (hbelow : DepthFirst children (seen ++ [path]) (children path) below)
      (hrest : DepthFirst children (seen ++ path :: below) rest after) :
      DepthFirst children seen (path :: rest) (path :: (below ++ after))

namespace DepthFirst

variable {children : String → List String} {seen pending order other : List String}

theorem unique (hfirst : DepthFirst children seen pending order)
    (hsecond : DepthFirst children seen pending other) : order = other := by
  induction hfirst generalizing other with
  | done =>
      cases hsecond with
      | done => rfl
  | skip hseen _ ih =>
      cases hsecond with
      | skip _ hrest' => exact ih hrest'
      | enter hnew' => exact absurd hseen hnew'
  | enter hnew _ _ ihbelow ihrest =>
      cases hsecond with
      | skip hseen' => exact absurd hseen' hnew
      | enter _ hbelow' hrest' =>
          obtain rfl := ihbelow hbelow'
          obtain rfl := ihrest hrest'
          rfl

/-! ### What is listed -/

/-- A child that is not avoided. -/
def Outside (children : String → List String) (avoided : List String) (path child : String) :
    Prop :=
  child ∈ children path ∧ child ∉ avoided

theorem outside_anti (children : String → List String) {avoided larger : List String}
    (hsubset : avoided ⊆ larger) : Outside children larger ≤ Outside children avoided :=
  fun _ _ ⟨hchild, hout⟩ => ⟨hchild, fun hmem => hout (hsubset hmem)⟩

/-- Nothing is listed without a way to it. -/
theorem reached (horder : DepthFirst children seen pending order) {path : String}
    (hpath : path ∈ order) :
    ∃ first ∈ pending, first ∉ seen ∧ ReflTransGen (Outside children seen) first path := by
  induction horder with
  | done => cases hpath
  | skip _ _ ih =>
      obtain ⟨first, hfirst, hreach⟩ := ih hpath
      exact ⟨first, List.mem_cons_of_mem _ hfirst, hreach⟩
  | @enter seen entered rest below after hnew _ _ ihbelow ihrest =>
      obtain hsame | hlisted := List.mem_cons.mp hpath
      · exact ⟨entered, List.mem_cons_self, hnew, hsame ▸ .refl⟩
      obtain hmem | hmem := List.mem_append.mp hlisted
      · obtain ⟨first, hchild, hout, hchain⟩ := ihbelow hmem
        have hwider := outside_anti children (List.subset_append_left seen [entered])
        have hfirst : first ∉ seen := fun hseen => hout (List.mem_append_left _ hseen)
        exact ⟨entered, List.mem_cons_self, hnew,
          .head ⟨hchild, hfirst⟩ (ReflTransGen.mono hwider _ _ hchain)⟩
      · obtain ⟨first, hfirst, hout, hchain⟩ := ihrest hmem
        have hwider := outside_anti children (List.subset_append_left seen (entered :: below))
        exact ⟨first, List.mem_cons_of_mem _ hfirst,
          fun hseen => hout (List.mem_append_left _ hseen), ReflTransGen.mono hwider _ _ hchain⟩

/-- Nothing new is left out, neither among the files pending nor below a file that is
listed. -/
theorem closed (horder : DepthFirst children seen pending order) :
    (∀ path ∈ pending, path ∉ seen → path ∈ order) ∧
      ∀ path ∈ order, ∀ child ∈ children path, child ∉ seen → child ∈ order := by
  induction horder with
  | done => exact ⟨fun _ hmem _ => absurd hmem List.not_mem_nil, fun _ hmem => nomatch hmem⟩
  | skip hseen _ ih =>
      refine ⟨fun path hmem hnew => ?_, ih.2⟩
      obtain hsame | hrest := List.mem_cons.mp hmem
      · exact absurd (hsame ▸ hseen) hnew
      · exact ih.1 path hrest hnew
  | @enter seen entered rest below after _ _ _ ihbelow ihrest =>
      -- what is new is the file itself, below it, or new to the rest
      have hcases : ∀ path, path ∉ seen → (path ∉ seen ++ [entered] → path ∈ below) ∨
          (path ∉ seen ++ entered :: below → path ∈ after) →
          path ∈ entered :: (below ++ after) := by
        intro path hnew hlisted
        simp only [List.mem_append, List.mem_cons, List.not_mem_nil] at hlisted ⊢
        tauto
      constructor
      · intro path hmem hnew
        obtain hsame | hrest := List.mem_cons.mp hmem
        · exact hsame ▸ List.mem_cons_self
        · exact hcases path hnew (Or.inr (ihrest.1 path hrest))
      · intro path hmem child hchild hnew
        obtain hsame | hlisted := List.mem_cons.mp hmem
        · exact hcases child hnew (Or.inl (ihbelow.1 child (hsame ▸ hchild)))
        obtain hmem | hmem := List.mem_append.mp hlisted
        · exact hcases child hnew (Or.inl (ihbelow.2 path hmem child hchild))
        · exact hcases child hnew (Or.inr (ihrest.2 path hmem child hchild))

/-- What is listed is what a way from the files pending leads to that avoids the files seen
before. -/
theorem mem_iff (horder : DepthFirst children seen pending order) {path : String} :
    path ∈ order ↔
      ∃ first ∈ pending, first ∉ seen ∧ ReflTransGen (Outside children seen) first path := by
  refine ⟨horder.reached, fun h => ?_⟩
  obtain ⟨first, hfirst, hnew, hchain⟩ := h
  obtain ⟨hpending, hbelow⟩ := horder.closed
  induction hchain with
  | refl => exact hpending first hfirst hnew
  | tail _ hstep ih => exact hbelow _ ih _ hstep.1 hstep.2

/-- Of the children of a file these are the paths at the end of a way of one or more steps. -/
theorem mem_iff_transGen {file path : String}
    (horder : DepthFirst children seen (children file) order) :
    path ∈ order ↔ TransGen (Outside children seen) file path := by
  rw [horder.mem_iff, TransGen.head'_iff]
  simp only [Outside, and_assoc]

/-! ### Where it is listed -/

/-- Right behind each file stands what it brings in, as if it were searched with all that
comes before it seen. -/
theorem bracket (horder : DepthFirst children seen pending order) {before after : List String}
    {path : String} (hsplit : order = before ++ path :: after) :
    ∃ below later, after = below ++ later ∧
      DepthFirst children (seen ++ before ++ [path]) (children path) below := by
  induction horder generalizing before after with
  | done => simp at hsplit
  | skip _ _ ih => exact ih hsplit
  | @enter seen entered rest below later _ hbelow _ ihbelow ihrest =>
      cases before with
      | nil =>
          obtain ⟨rfl, rfl⟩ := List.cons.inj hsplit
          exact ⟨below, later, rfl, by simpa using hbelow⟩
      | cons first front =>
          obtain ⟨rfl, hfront⟩ := List.cons.inj hsplit
          obtain ⟨middle, hmiddle, hrest⟩ | ⟨middle, hmiddle, hrest⟩ :=
            List.append_eq_append_iff.mp hfront
          -- the file is listed behind all that the first one brings in
          · obtain ⟨inside, outside, houtside, hinside⟩ := ihrest hrest
            refine ⟨inside, outside, houtside, ?_⟩
            rw [hmiddle]
            simpa using hinside
          -- the file may be one of those that the first one brings in
          · cases middle with
            | nil =>
                have hbehind : later = [] ++ path :: after := hrest.symm
                obtain ⟨inside, outside, houtside, hinside⟩ := ihrest hbehind
                refine ⟨inside, outside, houtside, ?_⟩
                rw [List.append_nil] at hmiddle
                simpa [hmiddle] using hinside
            | cons next others =>
                obtain ⟨rfl, hafter⟩ := List.cons.inj hrest
                obtain ⟨inside, outside, houtside, hinside⟩ := ihbelow hmiddle
                refine ⟨inside, outside ++ later, ?_, by simpa using hinside⟩
                calc after
                  _ = others ++ later := hafter
                  _ = inside ++ (outside ++ later) := by rw [houtside, List.append_assoc]

end DepthFirst

/-! ## What a log tells of the files entered -/

/-- The files that a log says were entered for a directive, in order. -/
def expandings (events : List Event) : List String :=
  events.filterMap fun
    | .expanding _ target => some target
    | _ => none

theorem expandings_append (first second : List Step) :
    expandings (eventsOf (first ++ second)) =
      expandings (eventsOf first) ++ expandings (eventsOf second) := by
  simp only [expandings, eventsOf, List.filterMap_append]

namespace SourceDirectory

variable {directory : SourceDirectory} {strict : Bool}

@[simp] theorem expandings_expanded (file : String) (content : List UInt8) (steps : List Step) :
    expandings (eventsOf (.read file :: directory.droppedSteps strict content ++ steps)) =
      expandings (eventsOf steps) := by
  rw [expandings_append, List.append_left_eq_self]
  refine List.filterMap_eq_nil_iff.mpr fun event hevent => ?_
  obtain ⟨step, hstep, htold⟩ := List.mem_filterMap.mp hevent
  obtain rfl | hdropped := List.mem_cons.mp hstep
  · cases htold
  · obtain ⟨directive, -, rfl⟩ := List.mem_map.mp hdropped
    obtain rfl := Option.some.inj htold
    rfl

@[simp] theorem expandings_listed (trail : List String) (file target : String)
    (steps : List Step) :
    expandings (eventsOf (closingSteps trail file target ++ steps)) =
      expandings (eventsOf steps) := by
  rw [expandings_append]
  unfold closingSteps
  split <;> rfl

@[simp] theorem expandings_entered (file target : String) (inner later : List Step) :
    expandings (eventsOf (.expanding file target :: inner ++ later)) =
      target :: (expandings (eventsOf inner) ++ expandings (eventsOf later)) := by
  rw [List.cons_append, ← expandings_append]
  rfl

/-! ## Files without own headers -/

/-- The targets of the directives of a file that are followed, in their order in the file.
A file that cannot be read names nothing. -/
def named (directory : SourceDirectory) (strict : Bool) (file : String) : List String :=
  match directory.read file with
  | .ok content => (directory.kept strict content).map Directive.target
  | .error _ => []

theorem mem_named_iff {file target : String} :
    target ∈ directory.named strict file ↔ directory.Includes strict file target := by
  unfold named
  cases hread : directory.read file with
  | ok content => rw [includes_iff_kept hread, List.mem_map]
  | error fault =>
      refine iff_of_false List.not_mem_nil fun hincludes => ?_
      obtain ⟨content, hcontent, -⟩ := hincludes
      cases hread.symm.trans hcontent

/-- The targets that a stage is about to deal with, in the order of the directives. -/
def pending (directory : SourceDirectory) (strict : Bool) : Stage → List String
  | .expand _ file => directory.named strict file
  | .follow _ directives => directives.map Directive.target

/-- No two of the files that can be reached from a file have one stem. -/
def StemsApart (directory : SourceDirectory) (strict : Bool) (root : String) : Prop :=
  ∀ first second stem, ReflTransGen (directory.Includes strict) root first →
    ReflTransGen (directory.Includes strict) root second →
    Path.stem? first = some stem → Path.stem? second = some stem → first = second

section

variable {root : String}

/-- Then moving own headers to the front changes nothing. -/
theorem StemsApart.promoteOwn_eq (hapart : directory.StemsApart strict root) {file : String}
    (hfile : ReflTransGen (directory.Includes strict) root file) {α : Type} {path : α → String}
    {items : List α}
    (hitems : ∀ item ∈ items, ReflTransGen (directory.Includes strict) root (path item)) :
    promoteOwn file path items = items := by
  have hforeign : ∀ item ∈ items, Path.sharesStem file (path item) = false := by
    intro item hitem
    by_contra hshares
    obtain ⟨hdifferent, stem, hstem, hsame⟩ :=
      Path.sharesStem_iff.mp (Bool.eq_true_of_not_eq_false hshares)
    exact hdifferent (hapart _ _ stem (hitems item hitem) hfile hsame hstem)
  have hown : (items.filter fun item => Path.sharesStem file (path item)) = [] :=
    List.filter_eq_nil_iff.mpr fun item hitem => by simp [hforeign item hitem]
  have hothers : (items.filter fun item => !Path.sharesStem file (path item)) = items :=
    List.filter_eq_self.mpr fun item hitem => by simp [hforeign item hitem]
  rw [promoteOwn, hown, hothers, List.nil_append]

end

section

variable {stage : Stage} {trail : List String} {visited : VisitedSet}
  {outcome : Outcome (List String)} {found : List String} {root : String}

/-- The files visited at the end of a stage are those visited before and those listed. -/
theorem Walks.mem_visited_iff_found (hwalk : Walks directory strict stage trail visited outcome)
    (hok : outcome.result = .ok found) {path : String} :
    path ∈ outcome.visited ↔ path ∈ visited ∨ path ∈ found := by
  constructor
  · intro hpath
    by_cases hseen : path ∈ visited
    · exact Or.inl hseen
    obtain ⟨target, hleads, hout, hchain⟩ := hwalk.reached hpath hseen
    refine Or.inr ((hwalk.mem_found_iff hok).mpr ?_)
    cases hchain with
    | refl => exact Or.inl hleads
    | tail hbefore hstep => exact Or.inr ⟨_, ⟨target, hleads, hout, hbefore⟩, hstep.1⟩
  · intro h
    obtain hseen | hfound := h
    · exact hwalk.mem_visited hseen
    obtain ⟨hown, hentered⟩ := hwalk.closed hok
    obtain hleads | ⟨file, hfile, hnew, hincludes⟩ := (hwalk.mem_found_iff_entered hok).mp hfound
    · exact hown path hleads
    · exact hentered file hfile hnew path hincludes

/-- A stage on the way from a file lists nothing that cannot be reached from this file. -/
theorem Walks.reflTransGen_of_mem_found
    (hwalk : Walks directory strict stage trail visited outcome)
    (hok : outcome.result = .ok found) (hunder : directory.Underway strict stage trail visited)
    (hfile : ReflTransGen (directory.Includes strict) root stage.file) {path : String}
    (hpath : path ∈ found) : ReflTransGen (directory.Includes strict) root path := by
  have hleads : ∀ target, directory.Leads strict stage target →
      ReflTransGen (directory.Includes strict) root target :=
    fun target htarget => hfile.tail (hunder.leads target htarget)
  obtain hown | ⟨file, ⟨target, htarget, -, hchain⟩, hincludes⟩ :=
    (hwalk.mem_found_iff hok).mp hpath
  · exact hleads path hown
  · have hwider : ReflTransGen (directory.Includes strict) target file :=
      ReflTransGen.mono (fun _ _ hstep => hstep.1) _ _ hchain
    exact ((hleads target htarget).trans hwider).tail hincludes

/-- The paths of a list that were not visited, each where it occurs first. -/
def fresh (visited : VisitedSet) (list : List String) : List String :=
  list.eraseDups.filter fun path => path ∉ visited

theorem mem_fresh_iff {list : List String} {path : String} :
    path ∈ fresh visited list ↔ path ∈ list ∧ path ∉ visited := by
  rw [fresh, List.mem_filter, List.mem_eraseDups, decide_eq_true_eq]

theorem fresh_cons_of_mem {path : String} (hseen : path ∈ visited) (list : List String) :
    fresh visited (path :: list) = fresh visited list := by
  unfold fresh
  rw [← List.singleton_append, eraseDups_append_filter, List.filter_append, List.filter_filter]
  have hfirst : [path].eraseDups.filter (fun path => path ∉ visited) = [] := by simp [hseen]
  rw [hfirst, List.nil_append]
  refine List.filter_congr fun other _ => ?_
  by_cases hsame : other = path
  · simp [hsame, hseen]
  · simp [hsame]

/-- What was entered for a target, and what was entered for the rest when that was visited
as well, is all that is new. -/
theorem fresh_entered {path : String} {inner : VisitedSet} {below after : List String}
    (hnew : path ∉ visited)
    (hinner : ∀ other, other ∈ inner ↔ other ∈ visited.insert path ∨ other ∈ below) :
    fresh visited (path :: below ++ after) =
      path :: (fresh (visited.insert path) below ++ fresh inner after) := by
  have hbelow : (below.eraseDups.filter fun other => !other == path).filter
      (fun other => other ∉ visited) = fresh (visited.insert path) below := by
    rw [List.filter_filter]
    refine List.filter_congr fun other _ => ?_
    by_cases hsame : other = path <;> simp [hsame]
  have hafter : (after.eraseDups.filter fun other => !(path :: below).contains other).filter
      (fun other => other ∉ visited) = fresh inner after := by
    rw [List.filter_filter]
    refine List.filter_congr fun other _ => ?_
    rw [Bool.eq_iff_iff]
    simp only [Bool.and_eq_true, decide_eq_true_eq, Bool.not_eq_true', List.contains_eq_mem,
      decide_eq_false_iff_not, List.mem_cons, hinner, VisitedSet.mem_insert]
    tauto
  unfold fresh at hbelow hafter ⊢
  rw [eraseDups_append_filter, List.eraseDups_cons, eraseDups_filter, List.filter_append,
    List.filter_cons_of_pos (by simpa using hnew), hbelow, hafter, List.cons_append]

/-! ## The walk in depth-first order -/

/-- **A walk that ends well lists what it enters in the order in which it enters it.**  This
is the depth-first order of the files pending, with the files visited before seen. -/
theorem Walks.preorder (hwalk : Walks directory strict stage trail visited outcome)
    (hok : outcome.result = .ok found) (hapart : directory.StemsApart strict root)
    (hunder : directory.Underway strict stage trail visited)
    (hfile : ReflTransGen (directory.Includes strict) root stage.file) :
    fresh visited found = expandings (eventsOf outcome.steps) ∧
      ∀ seen : List String, (∀ path, path ∈ seen ↔ path ∈ visited) →
        DepthFirst (directory.named strict) seen (directory.pending strict stage)
          (expandings (eventsOf outcome.steps)) := by
  induction hwalk generalizing found with
  | unreadable _ => cases hok
  | @expanded _ _ file _ content _ hread hinner ih =>
      obtain ⟨inside, hinside, rfl⟩ := map_eq_ok_iff.mp hok
      have hrest := hunder.read hread
      obtain ⟨hlisted, hsearch⟩ := ih hinside hrest hfile
      -- no header is an own header, so neither the list nor the directives are rearranged
      have hlist : promoteOwn file id inside.eraseDups = inside.eraseDups :=
        hapart.promoteOwn_eq hfile fun path hpath =>
          hinner.reflTransGen_of_mem_found hinside hrest hfile (List.mem_eraseDups.mp hpath)
      have hdirectives : promoteOwn file Directive.target (directory.kept strict content) =
          directory.kept strict content :=
        hapart.promoteOwn_eq hfile fun directive hdirective => hfile.tail
          ((includes_iff_kept hread).mpr ⟨directive, hdirective, rfl⟩)
      rw [expandings_expanded]
      refine ⟨?_, fun seen hseen => ?_⟩
      · rw [← hlisted, hlist, fresh, fresh, eraseDups_eraseDups]
      · have hsame := hsearch seen hseen
        simp only [pending, hdirectives] at hsame
        simpa only [pending, named, hread] using hsame
  | done =>
      cases hok
      exact ⟨rfl, fun seen _ => .done⟩
  | listed hvisited _ ih =>
      obtain ⟨inside, hinside, rfl⟩ := map_eq_ok_iff.mp hok
      obtain ⟨hlisted, hsearch⟩ := ih hinside (hunder.advance fun _ => id) hfile
      rw [expandings_listed]
      refine ⟨(fresh_cons_of_mem hvisited inside).trans hlisted, fun seen hseen => ?_⟩
      exact .skip ((hseen _).mpr hvisited) (hsearch seen hseen)
  | stopped _ _ _ _ => cases hok
  | @entered _ file visited directive _ inner below later hnew hinner hbelow _ ihinner ihlater =>
      obtain ⟨inside, hinside, rfl⟩ := map_eq_ok_iff.mp hok
      have hincludes := hunder.leads directive.target (leads_cons_iff.mpr (Or.inl rfl))
      obtain ⟨hbelowListed, hbelowSearch⟩ := ihinner hbelow (hunder.enter hnew _)
        (hfile.tail hincludes)
      obtain ⟨hlisted, hsearch⟩ := ihlater hinside (hunder.advance hinner.mem_of_enter) hfile
      have hvisited : ∀ path, path ∈ inner.visited ↔
          path ∈ visited.insert directive.target ∨ path ∈ below :=
        fun path => hinner.mem_visited_iff_found hbelow
      rw [expandings_entered]
      refine ⟨?_, fun seen hseen => ?_⟩
      · rw [fresh_entered hnew hvisited, hbelowListed, hlisted]
      · have hentered : ∀ path, path ∈ seen ++ [directive.target] ↔
            path ∈ visited.insert directive.target := by
          intro path
          rw [List.mem_append, List.mem_singleton, hseen, VisitedSet.mem_insert, or_comm]
        refine .enter (mt (hseen _).mp hnew) (hbelowSearch _ hentered) (hsearch _ fun path => ?_)
        rw [← hbelowListed, List.mem_append, List.mem_cons, mem_fresh_iff, hvisited,
          VisitedSet.mem_insert, hseen]
        tauto

end

/-! ## Main result -/

/-- **Prerequisites come in depth-first order.**  Let a file be resolved on its own, and let no
two of the files that it reaches have one stem.  Its prerequisites, without the file itself,
are then the files that it reaches, each listed once and in the order in which the log tells
that they were entered.  This order is the one depth-first order with the directives of
each file taken in turn, and right behind each path stands what it brings in: the paths that
a way from it leads to without those listed up to there. -/
theorem prerequisites_preorder {root : String} {resolution : Resolution}
    (h : (directory.resolveRoot strict root).result = .ok resolution)
    (hapart : directory.StemsApart strict root) :
    let order := resolution.prerequisites.paths.filter fun path => path ≠ root
    let children := directory.named strict
    order = expandings (eventsOf (directory.resolveRoot strict root).steps) ∧
      order.Nodup ∧
      (∀ path, path ∈ order ↔ path ≠ root ∧ ReflTransGen (directory.Includes strict) root path) ∧
      DepthFirst children [root] (children root) order ∧
      (∀ other, DepthFirst children [root] (children root) other → other = order) ∧
      ∀ before path after, order = before ++ path :: after →
        ∃ below later, after = below ++ later ∧
          DepthFirst children (root :: before ++ [path]) (children path) below ∧
          ∀ brought, brought ∈ below ↔ TransGen (fun file target =>
            directory.Includes strict file target ∧ target ∉ root :: before ++ [path])
            path brought := by
  intro order children
  obtain ⟨outcome, found, hwalk, hok, -, hsteps, -⟩ := walkFrom_eq_ok h
  obtain ⟨hlisted, hsearch⟩ := hwalk.preorder hok hapart (.rooted root) .refl
  have hnodup : found.eraseDups = found := by
    obtain ⟨list, -, rfl⟩ := hwalk.naive_expand hok
    exact eraseDups_eraseDups list
  have horder : order = expandings (eventsOf (directory.resolveRoot strict root).steps) := by
    calc order
      _ = found.filter fun path => path ≠ root := by
          show List.filter _ resolution.prerequisites.paths = _
          rw [paths_of_walkFrom hwalk hok h, List.filter_filter]
          refine List.filter_congr fun path _ => ?_
          by_cases hroot : path = root <;> simp [hroot]
      _ = fresh (.rooted root) found := by
          rw [fresh, hnodup]
          simp only [VisitedSet.mem_rooted]
      _ = expandings (eventsOf outcome.steps) := hlisted
      _ = expandings (eventsOf (directory.resolveRoot strict root).steps) := by
          rw [hsteps]
          rfl
  have hfirst : DepthFirst children [root] (children root) order := by
    have hseen : ∀ path, path ∈ [root] ↔ path ∈ VisitedSet.rooted root := fun path => by simp
    have hroot := hsearch [root] hseen
    rw [hsteps] at hroot
    exact horder ▸ hroot
  refine ⟨horder, resolution.prerequisites.nodup.filter _, fun path => ?_, hfirst,
    fun other hother => hother.unique hfirst, fun before path after hsplit => ?_⟩
  · obtain ⟨hlists, -⟩ := mem_prerequisites_iff h
    rw [List.mem_filter, decide_eq_true_eq, and_comm]
    refine and_congr_right fun hpath => (hlists path hpath).trans ?_
    rw [reflTransGen_iff_eq_or_transGen, or_iff_right hpath]
  · obtain ⟨below, later, hafter, hbelow⟩ := hfirst.bracket hsplit
    refine ⟨below, later, hafter, hbelow, fun brought => ?_⟩
    have houtside : DepthFirst.Outside children (root :: before ++ [path]) = fun file target =>
        directory.Includes strict file target ∧ target ∉ root :: before ++ [path] := by
      funext file target
      exact propext (and_congr_left' mem_named_iff)
    rw [← houtside]
    exact hbelow.mem_iff_transGen

/-- A file whose first header brings in all others but one, among them one that leads back to
the file and one that the header names itself as well. -/
def braid : Tree :=
  .file (Text.bytes "main.c") (Text.bytes "#include \"a.h\"\n#include \"d.h\"\n") <|
    .file (Text.bytes "a.h") (Text.bytes "#include \"b.h\"\n#include \"c.h\"\n") <|
    .file (Text.bytes "b.h") (Text.bytes "#include \"c.h\"\n#include \"main.c\"\n") <|
    .file (Text.bytes "c.h") [] <| .file (Text.bytes "d.h") [] .empty

theorem stemsApart_braid : (braid.sources []).StemsApart false "main.c" := by
  have hclosed : ∀ file ∈ ["main.c", "a.h", "b.h", "c.h", "d.h"],
      ∀ target ∈ (braid.sources []).named false file,
        target ∈ ["main.c", "a.h", "b.h", "c.h", "d.h"] := by decide +kernel
  have hreached : ∀ path, ReflTransGen ((braid.sources []).Includes false) "main.c" path →
      path ∈ ["main.c", "a.h", "b.h", "c.h", "d.h"] := by
    intro path hpath
    induction hpath with
    | refl => decide
    | tail _ hstep ih => exact hclosed _ ih _ (mem_named_iff.mpr hstep)
  have hstems : ∀ first ∈ ["main.c", "a.h", "b.h", "c.h", "d.h"],
      ∀ second ∈ ["main.c", "a.h", "b.h", "c.h", "d.h"],
        Path.stem? first = Path.stem? second → first = second := by decide
  intro first second stem hfirst hsecond hstem hsame
  exact hstems first (hreached first hfirst) second (hreached second hsecond)
    (hstem.trans hsame.symm)

/-- What `a.h` brings in stands right behind it, each path once, and what the file itself
names next comes last. -/
theorem prerequisites_preorder_braid :
    ((braid.sources []).resolveRoot false "main.c").result =
      .ok ⟨.ofList ["a.h", "b.h", "c.h", "d.h"], [⟨["a.h", "b.h", "main.c", "a.h"]⟩]⟩ ∧
    expandings (eventsOf ((braid.sources []).resolveRoot false "main.c").steps) =
      ["a.h", "b.h", "c.h", "d.h"] ∧
    ∃ below later, ["b.h", "c.h", "d.h"] = below ++ later ∧
      DepthFirst ((braid.sources []).named false) ["main.c", "a.h"]
        ((braid.sources []).named false "a.h") below := by
  have hresult : ((braid.sources []).resolveRoot false "main.c").result =
      .ok ⟨.ofList ["a.h", "b.h", "c.h", "d.h"], [⟨["a.h", "b.h", "main.c", "a.h"]⟩]⟩ := rfl
  obtain ⟨horder, -, -, -, -, hbracket⟩ := prerequisites_preorder hresult stemsApart_braid
  obtain ⟨below, later, hafter, hbelow, -⟩ := hbracket [] "a.h" ["b.h", "c.h", "d.h"] rfl
  exact ⟨hresult, horder.symm, below, later, hafter, hbelow⟩

end SourceDirectory

end IncludeDeps
