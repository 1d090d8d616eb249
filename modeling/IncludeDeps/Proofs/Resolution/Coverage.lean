import IncludeDeps.Proofs.Resolution.Derivation
import Mathlib.Logic.Relation

/-!
# What a walk covers

`Includes file target` is the include graph: the text of `file` holds a
directive that is followed and names `target`.  A walk follows this graph, but
it does not enter a file twice: what was visited when it started cuts the graph.

For a stage that ends well, `Walks.mem_visited_iff` says which files are visited in
the end, those visited before and those that can be reached outside of them, and
`Walks.mem_found_iff` says which targets are listed: all that the stage or a file
entered during it includes.  No list of a single expansion is complete for its
file, since a target visited earlier is not entered again, so neither statement
can be read off one call.  `Walks.reached` is the half that nothing else
is visited, and `Walks.closed` the half that nothing is left out: at the end of
a stage every file entered during it has all its targets visited.

For a file on its own nothing but the file was visited before, and the include
graph is not cut: `Walks.mem_visited_iff_reflTransGen` and
`Walks.mem_found_iff_transGen` speak of the whole graph.
-/

namespace IncludeDeps.SourceDirectory

open Relation

variable {directory : SourceDirectory} {strict : Bool}

/-! ## The include graph -/

/-- A file that can be read includes the targets of its directives: the quoted
ones and those present in the directory, and every target in a strict reading. -/
def Includes (directory : SourceDirectory) (strict : Bool) (file target : String) : Prop :=
  ∃ content, directory.read file = .ok content ∧ ∃ directive ∈ directivesOf content,
    directive.target = target ∧
      (directive.form = .quoted ∨ directory.present target = true ∨ strict = true)

/-- The part of the include graph that does not lead into a set of files. -/
def IncludesOutside (directory : SourceDirectory) (strict : Bool) (avoided : VisitedSet)
    (file target : String) : Prop :=
  directory.Includes strict file target ∧ target ∉ avoided

theorem keeps_iff {directive : Directive} :
    directory.keeps strict directive = true ↔
      directive.form = .quoted ∨ directory.present directive.target = true ∨ strict = true := by
  simp only [keeps, Bool.or_eq_true, beq_iff_eq]
  tauto

theorem includes_iff_kept {file target : String} {content : List UInt8}
    (hread : directory.read file = .ok content) :
    directory.Includes strict file target ↔
      ∃ directive ∈ directory.kept strict content, directive.target = target := by
  unfold Includes
  constructor
  · rintro ⟨content', hread', directive, hmem, rfl, hkeeps⟩
    obtain rfl : content' = content := Except.ok.inj (hread'.symm.trans hread)
    exact ⟨directive, List.mem_filter.mpr ⟨hmem, keeps_iff.mpr hkeeps⟩, rfl⟩
  · rintro ⟨directive, hkept, rfl⟩
    obtain ⟨hmem, hkeeps⟩ := List.mem_filter.mp hkept
    exact ⟨content, hread, directive, hmem, rfl, keeps_iff.mp hkeeps⟩

instance (file target : String) : Decidable (directory.Includes strict file target) :=
  match hread : directory.read file with
  | .ok _ => decidable_of_iff' _ (includes_iff_kept hread)
  | .error _ => .isFalse fun ⟨_, hok, _⟩ => nomatch hread.symm.trans hok

/-- The targets that a stage deals with itself. -/
def Leads (directory : SourceDirectory) (strict : Bool) : Stage → String → Prop
  | .expand _ file, target => directory.Includes strict file target
  | .follow _ directives, target => ∃ directive ∈ directives, directive.target = target

theorem leads_expand_iff {referrer : Referrer} {file target : String} {content : List UInt8}
    (hread : directory.read file = .ok content) :
    directory.Leads strict (.expand referrer file) target ↔ directory.Leads strict
      (.follow file (promoteOwn file Directive.target (directory.kept strict content))) target := by
  simp only [Leads, mem_promoteOwn]
  exact includes_iff_kept hread

theorem leads_cons_iff {file target : String} {directive : Directive} {rest : List Directive} :
    directory.Leads strict (.follow file (directive :: rest)) target ↔
      target = directive.target ∨ directory.Leads strict (.follow file rest) target := by
  simp only [Leads, List.mem_cons, exists_eq_or_imp]
  exact or_congr_left eq_comm

/-- A path can be reached from a stage outside a set of files. -/
def Reaches (directory : SourceDirectory) (strict : Bool) (stage : Stage) (avoided : VisitedSet)
    (path : String) : Prop :=
  ∃ target, directory.Leads strict stage target ∧ target ∉ avoided ∧
    ReflTransGen (directory.IncludesOutside strict avoided) target path

/-- From a file, these are the paths at the end of a chain of one or more includes. -/
theorem reaches_expand_iff {referrer : Referrer} {file path : String} {avoided : VisitedSet} :
    directory.Reaches strict (.expand referrer file) avoided path ↔
      TransGen (directory.IncludesOutside strict avoided) file path := by
  simp only [TransGen.head'_iff, Reaches, Leads, IncludesOutside, and_assoc]

theorem includesOutside_anti {avoided larger : VisitedSet}
    (hsubset : ∀ path ∈ avoided, path ∈ larger) :
    directory.IncludesOutside strict larger ≤ directory.IncludesOutside strict avoided :=
  fun _ _ ⟨hincludes, hout⟩ => ⟨hincludes, fun hmem => hout (hsubset _ hmem)⟩

theorem Reaches.anti {stage : Stage} {avoided larger : VisitedSet} {path : String}
    (hreaches : directory.Reaches strict stage larger path)
    (hsubset : ∀ path ∈ avoided, path ∈ larger) :
    directory.Reaches strict stage avoided path := by
  obtain ⟨target, hleads, hout, hchain⟩ := hreaches
  exact ⟨target, hleads, fun hmem => hout (hsubset target hmem),
    ReflTransGen.mono (includesOutside_anti hsubset) _ _ hchain⟩

/-! ## Nothing else is visited -/

section

variable {stage : Stage} {trail : List String} {visited : VisitedSet}
  {outcome : Outcome (List String)} {found : List String}

/-- What the expansion of a target brings in is reached from the directive that
names it. -/
theorem reaches_of_entered {file path : String} {directive : Directive} {rest : List Directive}
    {referrer : Referrer} (hnew : directive.target ∉ visited) (hpath : path ∉ visited)
    (hinner : path ∉ visited.insert directive.target → directory.Reaches strict
      (.expand referrer directive.target) (visited.insert directive.target) path) :
    directory.Reaches strict (.follow file (directive :: rest)) visited path := by
  refine ⟨directive.target, leads_cons_iff.mpr (Or.inl rfl), hnew, ?_⟩
  by_cases hsame : path = directive.target
  · rw [hsame]
  · have hout : path ∉ visited.insert directive.target := by simp [hsame, hpath]
    have hchain := reaches_expand_iff.mp (hinner hout)
    have hwider : directory.IncludesOutside strict (visited.insert directive.target) ≤
        directory.IncludesOutside strict visited :=
      includesOutside_anti fun _ => VisitedSet.mem_insert_of_mem directive.target
    exact (TransGen.mono hwider _ _ hchain).to_reflTransGen

/-- A file visited during a stage can be reached from it outside the files
visited before, whether the walk succeeds or not. -/
theorem Walks.reached (hwalk : Walks directory strict stage trail visited outcome) {path : String}
    (hpath : path ∈ outcome.visited) (hnew : path ∉ visited) :
    directory.Reaches strict stage visited path := by
  induction hwalk with
  | unreadable _ => exact absurd hpath hnew
  | expanded hread _ ih =>
      obtain ⟨target, hleads, hrest⟩ := ih hpath hnew
      exact ⟨target, (leads_expand_iff hread).mpr hleads, hrest⟩
  | done => exact absurd hpath hnew
  | listed _ _ ih =>
      obtain ⟨target, hleads, hrest⟩ := ih hpath hnew
      exact ⟨target, leads_cons_iff.mpr (Or.inr hleads), hrest⟩
  | stopped hnewTarget _ _ ih => exact reaches_of_entered hnewTarget hnew (ih hpath)
  | @entered _ _ _ _ _ inner _ _ hnewTarget hinner _ _ ihinner ihlater =>
      by_cases hearlier : path ∈ inner.visited
      · exact reaches_of_entered hnewTarget hnew (ihinner hearlier)
      -- what is entered later lies outside of more files than are asked for
      · obtain ⟨target, hleads, hrest⟩ := (ihlater hpath hearlier).anti hinner.mem_of_enter
        exact ⟨target, leads_cons_iff.mpr (Or.inr hleads), hrest⟩

/-! ## Nothing is left out -/

/-- When a stage ends well, its own targets and those of every file entered
during it are visited. -/
theorem Walks.closed (hwalk : Walks directory strict stage trail visited outcome)
    (hok : outcome.result = .ok found) :
    (∀ target, directory.Leads strict stage target → target ∈ outcome.visited) ∧
      ∀ file ∈ outcome.visited, file ∉ visited → ∀ target,
        directory.Includes strict file target → target ∈ outcome.visited := by
  induction hwalk generalizing found with
  | unreadable _ => cases hok
  | expanded hread _ ih =>
      obtain ⟨inside, hinside, -⟩ := map_eq_ok_iff.mp hok
      obtain ⟨hown, hrest⟩ := ih hinside
      exact ⟨fun target hleads => hown target ((leads_expand_iff hread).mp hleads), hrest⟩
  | done => exact ⟨fun target ⟨_, hmem, _⟩ => absurd hmem List.not_mem_nil,
      fun file hfile hnew => absurd hfile hnew⟩
  | listed hseen hlater ih =>
      obtain ⟨inside, hinside, -⟩ := map_eq_ok_iff.mp hok
      obtain ⟨hown, hrest⟩ := ih hinside
      refine ⟨fun target hleads => ?_, hrest⟩
      rcases leads_cons_iff.mp hleads with rfl | hleads
      · exact hlater.mem_visited hseen
      · exact hown target hleads
  | stopped _ _ _ _ => cases hok
  | @entered _ _ _ directive _ inner _ _ hnew hinner hfound hlater ihinner ihlater =>
      obtain ⟨inside, hinside, -⟩ := map_eq_ok_iff.mp hok
      obtain ⟨hinnerOwn, hinnerRest⟩ := ihinner hfound
      obtain ⟨hlaterOwn, hlaterRest⟩ := ihlater hinside
      constructor
      · intro target hleads
        rcases leads_cons_iff.mp hleads with rfl | hleads
        · exact hlater.mem_visited hinner.target_mem
        · exact hlaterOwn target hleads
      · intro file hfile hout target hincludes
        -- the file is the target itself, or entered below it, or entered later
        by_cases hearlier : file ∈ inner.visited
        · refine hlater.mem_visited ?_
          by_cases hsame : file = directive.target
          · exact hinnerOwn target (hsame ▸ hincludes)
          · exact hinnerRest file hearlier (by simp [hsame, hout]) target hincludes
        · exact hlaterRest file hfile hearlier target hincludes

/-- When a stage ends well, the files visited are those visited before and those
that it can reach outside of them. -/
theorem Walks.mem_visited_iff (hwalk : Walks directory strict stage trail visited outcome)
    (hok : outcome.result = .ok found) {path : String} :
    path ∈ outcome.visited ↔ path ∈ visited ∨ directory.Reaches strict stage visited path := by
  obtain ⟨hown, hrest⟩ := hwalk.closed hok
  constructor
  · intro hpath
    by_cases hseen : path ∈ visited
    · exact Or.inl hseen
    · exact Or.inr (hwalk.reached hpath hseen)
  · rintro (hseen | ⟨target, hleads, hout, hchain⟩)
    · exact hwalk.mem_visited hseen
    · have key : path ∈ outcome.visited ∧ path ∉ visited := by
        induction hchain with
        | refl => exact ⟨hown target hleads, hout⟩
        | tail _ hstep ih => exact ⟨hrest _ ih.1 ih.2 _ hstep.1, hstep.2⟩
      exact key.1

/-! ## What is listed -/

/-- A stage that ends well lists its own targets and those of every file entered
during it. -/
theorem Walks.mem_found_iff_entered (hwalk : Walks directory strict stage trail visited outcome)
    (hok : outcome.result = .ok found) {target : String} :
    target ∈ found ↔ directory.Leads strict stage target ∨
      ∃ file, file ∈ outcome.visited ∧ file ∉ visited ∧ directory.Includes strict file target := by
  induction hwalk generalizing found with
  | unreadable _ => cases hok
  | expanded hread _ ih =>
      obtain ⟨inside, hinside, rfl⟩ := map_eq_ok_iff.mp hok
      rw [leads_expand_iff hread, mem_promoteOwn, List.mem_eraseDups]
      exact ih hinside
  | done =>
      cases hok
      simp +contextual [Leads]
  | listed _ _ ih =>
      obtain ⟨inside, hinside, rfl⟩ := map_eq_ok_iff.mp hok
      rw [List.mem_cons, leads_cons_iff, ih hinside, or_assoc]
  | stopped _ _ _ _ => cases hok
  | @entered _ _ visited directive _ inner _ later hnew hinner hfound hlater ihinner ihlater =>
      obtain ⟨inside, hinside, rfl⟩ := map_eq_ok_iff.mp hok
      rw [List.cons_append, List.mem_cons, List.mem_append, leads_cons_iff, ihinner hfound,
        ihlater hinside]
      -- the files entered are the target, those entered below it and those entered later
      have hentered : ∀ file, file ∈ later.visited ∧ file ∉ visited ↔
          file = directive.target ∨
            (file ∈ inner.visited ∧ file ∉ visited.insert directive.target) ∨
            (file ∈ later.visited ∧ file ∉ inner.visited) := by
        intro file
        have hkept : file ∈ inner.visited → file ∈ later.visited := hlater.mem_visited
        have hinnerKept : file ∈ visited.insert directive.target → file ∈ inner.visited :=
          hinner.mem_visited
        rw [VisitedSet.mem_insert] at hinnerKept ⊢
        by_cases hsame : file = directive.target
        · subst hsame
          tauto
        · tauto
      simp only [← and_assoc, hentered, or_and_right, exists_or, exists_eq_left, Leads,
        or_assoc, or_left_comm]

/-- A stage that ends well lists its own targets and those of every file that it
can reach outside the files visited before. -/
theorem Walks.mem_found_iff (hwalk : Walks directory strict stage trail visited outcome)
    (hok : outcome.result = .ok found) {target : String} :
    target ∈ found ↔ directory.Leads strict stage target ∨
      ∃ file, directory.Reaches strict stage visited file ∧
        directory.Includes strict file target := by
  have hentered : ∀ file, file ∈ outcome.visited ∧ file ∉ visited ↔
      directory.Reaches strict stage visited file := by
    intro file
    rw [hwalk.mem_visited_iff hok]
    refine ⟨fun ⟨hmem, hout⟩ => hmem.resolve_left hout, fun hreaches => ⟨Or.inr hreaches, ?_⟩⟩
    obtain ⟨first, -, hfirst, hchain⟩ := hreaches
    cases hchain with
    | refl => exact hfirst
    | tail _ hstep => exact hstep.2
  simp only [hwalk.mem_found_iff_entered hok, ← and_assoc, hentered]

/-! ## Walks that start at a file on its own -/

variable {root : String}

/-- The walk for a file on its own visits all that can be reached. -/
theorem Walks.mem_visited_iff_reflTransGen
    (hwalk : Walks directory strict (.expand .sourceList root) [] (.rooted root) outcome)
    (hok : outcome.result = .ok found) {path : String} :
    path ∈ outcome.visited ↔ ReflTransGen (directory.Includes strict) root path := by
  rw [hwalk.mem_visited_iff hok, reaches_expand_iff, VisitedSet.mem_rooted]
  constructor
  · rintro (rfl | hchain)
    · exact .refl
    · exact (TransGen.mono (fun _ _ hstep => hstep.1) _ _ hchain).to_reflTransGen
  · intro hchain
    induction hchain with
    | refl => exact Or.inl rfl
    | @tail file target _ hincludes ih =>
        by_cases hroot : target = root
        · exact Or.inl hroot
        have hstep : directory.IncludesOutside strict (.rooted root) file target :=
          ⟨hincludes, by simpa using hroot⟩
        rcases ih with rfl | hchain
        · exact Or.inr (.single hstep)
        · exact Or.inr (hchain.tail hstep)

/-- What the walk for a file on its own finds is all that can be reached. -/
theorem Walks.mem_found_iff_transGen
    (hwalk : Walks directory strict (.expand .sourceList root) [] (.rooted root) outcome)
    (hok : outcome.result = .ok found) {path : String} :
    path ∈ found ↔ TransGen (directory.Includes strict) root path := by
  rw [hwalk.mem_found_iff_entered hok, TransGen.tail'_iff]
  simp only [← hwalk.mem_visited_iff_reflTransGen hok, VisitedSet.mem_rooted, Leads]
  constructor
  · rintro (hincludes | ⟨file, hmem, -, hincludes⟩)
    · exact ⟨root, hwalk.mem_visited (VisitedSet.mem_rooted.mpr rfl), hincludes⟩
    · exact ⟨file, hmem, hincludes⟩
  · rintro ⟨file, hmem, hincludes⟩
    by_cases hroot : file = root
    · exact Or.inl (hroot ▸ hincludes)
    · exact Or.inr ⟨file, hmem, hroot, hincludes⟩

end

end IncludeDeps.SourceDirectory
