import IncludeDeps.Proofs.Resolution.Trail

/-!
# The recorded cycles

Two statements about a resolution that succeeds.  `cycles_sound` says that every
recorded cycle is one: a ring of reachable files, each of which includes the
next, that starts with its smallest file; and that two entries are equal only if
a file names a target twice.  `cycles_complete` says that every closed chain of
includes takes a step of a recorded cycle, so that nothing is recorded exactly
if the reachable files include each other without a cycle.

Soundness is read off the trail.  For completeness let `Unrecorded` be the
include graph without the steps of recorded cycles, read from target to file.
A file whose expansion is finished is accessible in it: each of its targets was
being expanded, and then the step is recorded, or was finished, and then is
accessible itself.  `Walks.acc_of_finished` carries this through the walk, with
the files on the trail left open.  In the end the trail is empty, so all
reachable files are accessible (`acc_of_reachable`), and no accessible file lies
on a closed chain.
-/

namespace IncludeDeps.SourceDirectory

open Relation

variable {directory : SourceDirectory} {strict : Bool}

/-! ## Accessible files -/

/-- A step from a file to a target is one of a list of cycles. -/
def IsStepOf (cycles : List Cycle) (file target : String) : Prop :=
  ∃ cycle ∈ cycles, [file, target] <:+: cycle.files

/-- The include graph without the steps of some cycles, from target to file. -/
def Unrecorded (directory : SourceDirectory) (strict : Bool) (cycles : List Cycle)
    (target file : String) : Prop :=
  directory.Includes strict file target ∧ ¬ IsStepOf cycles file target

theorem not_transGen_self_of_acc {α : Type} {r : α → α → Prop} {a : α} (h : Acc r a) :
    ¬ TransGen r a a := by
  have hacc := h.transGen
  clear h
  induction hacc with
  | intro a _ ih => exact fun hself => ih a hself hself

/-- A file is accessible when all its targets are, but for recorded steps. -/
theorem acc_of_leads {referrer : Referrer} {file : String} {cycles : List Cycle}
    (hleads : ∀ target, directory.Leads strict (.expand referrer file) target →
      IsStepOf cycles file target ∨ Acc (directory.Unrecorded strict cycles) target) :
    Acc (directory.Unrecorded strict cycles) file :=
  Acc.intro file fun target ⟨hincludes, hunrecorded⟩ =>
    (hleads target hincludes).resolve_left hunrecorded

/-- When a stage ends well, the files visited are accessible as far as they are
not being expanded, and so are its targets but for recorded steps. -/
theorem Walks.acc_of_finished {stage : Stage} {trail : List String} {visited : VisitedSet}
    {outcome : Outcome (List String)} {found : List String} {cycles : List Cycle}
    (hwalk : Walks directory strict stage trail visited outcome)
    (hunder : directory.Underway strict stage trail visited) (hok : outcome.result = .ok found)
    (hrecorded : ∀ entry ∈ closings outcome.steps, entry.2 ∈ cycles)
    (hfinished : ∀ path ∈ visited, path ∉ stage.active trail →
      Acc (directory.Unrecorded strict cycles) path) :
    (∀ path ∈ outcome.visited, path ∉ stage.active trail →
      Acc (directory.Unrecorded strict cycles) path) ∧
    ∀ target, directory.Leads strict stage target →
      IsStepOf cycles stage.file target ∨ Acc (directory.Unrecorded strict cycles) target := by
  induction hwalk generalizing found with
  | unreadable _ => cases hok
  | expanded hread _ ih =>
      obtain ⟨inside, hinside, -⟩ := map_eq_ok_iff.mp hok
      rw [closings_expanded] at hrecorded
      obtain ⟨hvisited, htargets⟩ := ih (hunder.read hread) hinside hrecorded hfinished
      exact ⟨hvisited, fun target hleads => htargets target ((leads_expand_iff hread).mp hleads)⟩
  | done => exact ⟨hfinished, fun target ⟨_, hmem, _⟩ => absurd hmem List.not_mem_nil⟩
  | @listed trail file visited directive _ _ hseen _ ih =>
      obtain ⟨inside, hinside, -⟩ := map_eq_ok_iff.mp hok
      rw [closings_listed, List.forall_mem_append] at hrecorded
      obtain ⟨hvisited, htargets⟩ :=
        ih (hunder.advance fun _ => id) hinside hrecorded.2 hfinished
      refine ⟨hvisited, fun target hleads => ?_⟩
      rcases leads_cons_iff.mp hleads with rfl | hleads
      -- a target that is still being expanded closes a cycle, any other is finished
      · by_cases hback : directive.target ∈ trail
        · have hcloses := hunder.closes hback
          refine Or.inl ⟨_, hrecorded.1 (file, _) ?_,
            Cycle.closing_infix_files_ofRing hcloses.head hcloses.last⟩
          rw [if_pos hback]
          exact List.mem_singleton_self _
        · exact Or.inr (hfinished _ hseen hback)
      · exact htargets target hleads
  | stopped _ _ _ _ => cases hok
  | @entered trail _ visited directive _ inner _ _ hnew hinner hfound _ ihinner ihlater =>
      obtain ⟨inside, hinside, -⟩ := map_eq_ok_iff.mp hok
      rw [closings_entered, List.forall_mem_append] at hrecorded
      -- the target joins the trail, so the files finished before stay the same
      obtain ⟨hinnerVisited, hinnerTargets⟩ := ihinner (hunder.enter hnew _) hfound hrecorded.1
        fun path hpath hout => by
          obtain ⟨htrail, hother⟩ := not_or.mp (mt List.mem_append.mpr hout)
          have hseen := (VisitedSet.mem_insert.mp hpath).resolve_left
            fun hsame => hother (List.mem_singleton.mpr hsame)
          exact hfinished path hseen htrail
      have htarget : Acc (directory.Unrecorded strict cycles) directive.target :=
        acc_of_leads hinnerTargets
      -- then the target leaves the trail, and is one of the finished files
      obtain ⟨hlaterVisited, hlaterTargets⟩ :=
        ihlater (hunder.advance hinner.mem_of_enter) hinside hrecorded.2 fun path hpath htrail => by
          by_cases hsame : path = directive.target
          · exact hsame ▸ htarget
          · refine hinnerVisited path hpath fun hactive => ?_
            exact (List.mem_append.mp hactive).elim htrail fun hmem =>
              hsame (List.mem_singleton.mp hmem)
      refine ⟨hlaterVisited, fun target hleads => ?_⟩
      rcases leads_cons_iff.mp hleads with rfl | hleads
      · exact Or.inr htarget
      · exact hlaterTargets target hleads

/-! ## Resolving a file on its own -/

/-- A cycle of reachable files, each of which includes the next: a ring without
repetition that starts with its smallest file, and that file again. -/
structure Canonical (directory : SourceDirectory) (strict : Bool) (root : String)
    (cycle : Cycle) : Prop where
  ring : ∃ first rest, cycle.files = first :: rest ++ [first] ∧ (first :: rest).Nodup ∧
    ∀ name ∈ first :: rest, Text.byteLe first name = true
  chain : cycle.files.IsChain (directory.Includes strict)
  reached : ∀ file ∈ cycle.files, ReflTransGen (directory.Includes strict) root file

section

variable {root : String} {resolution : Resolution} {outcome : Outcome (List String)}
  {found : List String}

/-- Every reachable file is accessible. -/
theorem acc_of_reachable
    (hwalk : Walks directory strict (.expand .sourceList root) [] (.rooted root) outcome)
    (hok : outcome.result = .ok found) {path : String}
    (hreached : ReflTransGen (directory.Includes strict) root path) :
    Acc (directory.Unrecorded strict (cyclesOf outcome.steps)) path := by
  obtain ⟨hvisited, htargets⟩ := hwalk.acc_of_finished (.rooted root) hok (fun _ => snd_mem_cyclesOf)
    fun path hpath hout => absurd (List.mem_singleton.mpr (VisitedSet.mem_rooted.mp hpath)) hout
  by_cases hroot : path = root
  · exact hroot ▸ acc_of_leads htargets
  · exact hvisited path ((hwalk.mem_visited_iff_reflTransGen hok).mpr hreached)
      (mt List.mem_singleton.mp hroot)

/-- What is recorded is a canonical cycle. -/
theorem canonical_of_mem_closings
    (hwalk : Walks directory strict (.expand .sourceList root) [] (.rooted root) outcome)
    (hok : outcome.result = .ok found) {entry : String × Cycle}
    (hentry : entry ∈ closings outcome.steps) : directory.Canonical strict root entry.2 := by
  obtain ⟨ring, target, hcloses, hcycle, hring, -⟩ := hwalk.met (.rooted root) hentry
  obtain ⟨before, first, after, hsplit, hfiles, hsmallest⟩ := Cycle.files_ofRing hcloses.ne_nil
  rw [hcycle]
  refine ⟨⟨first, after ++ before, by rw [hfiles]; simp, ?_, ?_⟩,
    Cycle.isChain_files_ofRing hcloses.chain hcloses.head hcloses.last hcloses.close, ?_⟩
  · have hnodup := hcloses.nodup
    rw [hsplit, List.perm_append_comm.nodup_iff] at hnodup
    exact hnodup
  · intro name hname
    refine hsmallest name ?_
    rw [hsplit]
    simp only [List.mem_cons, List.mem_append] at hname ⊢
    tauto
  · intro file hfile
    rw [Cycle.mem_files_ofRing hcloses.ne_nil] at hfile
    rcases hring file hfile with hactive | ⟨hvisited, -⟩
    · rw [List.mem_singleton.mp hactive]
    · exact (hwalk.mem_visited_iff_reflTransGen hok).mp hvisited

theorem canonical_of_mem_cyclesOf
    (hwalk : Walks directory strict (.expand .sourceList root) [] (.rooted root) outcome)
    (hok : outcome.result = .ok found) {cycle : Cycle} (hcycle : cycle ∈ cyclesOf outcome.steps) :
    directory.Canonical strict root cycle := by
  rw [cyclesOf_eq_map_closings] at hcycle
  obtain ⟨entry, hentry, rfl⟩ := List.mem_map.mp hcycle
  exact canonical_of_mem_closings hwalk hok hentry

end

/-! ## Closed chains -/

theorem transGen_of_isChain_cons {α : Type} {R : α → α → Prop} {first last : α} {rest : List α}
    (hchain : (first :: rest).IsChain R) (hrest : rest ≠ [])
    (hlast : (first :: rest).getLast? = some last) : TransGen R first last := by
  obtain ⟨second, more, rfl⟩ := List.exists_cons_of_ne_nil hrest
  obtain ⟨hstep, hmore⟩ := List.isChain_cons_cons.mp hchain
  rw [List.getLast?_cons_cons, List.getLast?_eq_some_getLast (List.cons_ne_nil _ _)] at hlast
  exact .head' hstep
    (List.relationReflTransGen_of_exists_isChain_cons more hmore (Option.some.inj hlast))

/-- A closed chain of includes through an accessible file takes a step of a
recorded cycle. -/
theorem exists_isStepOf_of_isChain {cycles : List Cycle} {first : String} {rest : List String}
    (hacc : Acc (directory.Unrecorded strict cycles) first)
    (hchain : (first :: rest).IsChain (directory.Includes strict)) (hrest : rest ≠ [])
    (hlast : (first :: rest).getLast? = some first) :
    ∃ file target, [file, target] <:+: first :: rest ∧ IsStepOf cycles file target := by
  by_contra hnone
  have hunrecorded : (first :: rest).IsChain fun file target =>
      directory.Unrecorded strict cycles target file := by
    rw [List.isChain_iff_forall_rel_of_append_cons_cons] at hchain ⊢
    intro file target before after hsplit
    refine ⟨hchain hsplit, fun hstep => hnone ⟨file, target, ⟨before, after, ?_⟩, hstep⟩⟩
    rw [hsplit, List.append_assoc, List.cons_append, List.cons_append, List.nil_append]
  exact not_transGen_self_of_acc hacc
    (transGen_swap.mp (transGen_of_isChain_cons hunrecorded hrest hlast))

/-- A canonical cycle leads from its first file back to it. -/
theorem Canonical.exists_transGen_self {root : String} {cycle : Cycle}
    (hcanonical : directory.Canonical strict root cycle) :
    ∃ file, ReflTransGen (directory.Includes strict) root file ∧
      TransGen (directory.Includes strict) file file := by
  obtain ⟨first, rest, hfiles, -, -⟩ := hcanonical.ring
  have hchain := hcanonical.chain
  rw [hfiles, List.cons_append] at hchain
  refine ⟨first, hcanonical.reached first (by simp [hfiles]), ?_⟩
  exact transGen_of_isChain_cons hchain (by simp) (by rw [← List.cons_append, List.getLast?_concat])

/-! ## Main results -/

/-- Three files that include one another: `a.c` reaches `b.h` directly and
through `a.h`, and `b.h` includes `a.c` twice. -/
def knot : Tree :=
  .file (Text.bytes "a.c") (Text.bytes "#include \"b.h\"\n#include \"a.h\"\n")
    (.file (Text.bytes "a.h") (Text.bytes "#include \"b.h\"\n")
      (.file (Text.bytes "b.h") (Text.bytes "#include \"a.c\"\n#include <a.c>\n") .empty))

/-- What the resolution of `a.c` comes to: its own header is entered first, so
the cycle is met through `a.h`, once for each directive of `b.h`. -/
def knotResolution : Resolution :=
  ⟨.ofList ["a.h", "b.h"], [⟨["a.c", "a.h", "b.h", "a.c"]⟩, ⟨["a.c", "a.h", "b.h", "a.c"]⟩]⟩

theorem resolveRoot_knot :
    ((knot.sources []).resolveRoot false "a.c").result = .ok knotResolution := rfl

variable {root : String} {resolution : Resolution}

/-- **No cyclic region goes unreported.**  Every closed chain of includes among
the reachable files takes a step of a recorded cycle; nothing is recorded
exactly if there is no such chain. -/
theorem cycles_complete (h : (directory.resolveRoot strict root).result = .ok resolution) :
    (∀ first rest, rest ≠ [] → (first :: rest).IsChain (directory.Includes strict) →
      (first :: rest).getLast? = some first →
      ReflTransGen (directory.Includes strict) root first →
      ∃ file target, [file, target] <:+: first :: rest ∧
        ∃ cycle ∈ resolution.cycles, [file, target] <:+: cycle.files) ∧
    (resolution.cycles = [] ↔ ∀ file, ReflTransGen (directory.Includes strict) root file →
      ¬ TransGen (directory.Includes strict) file file) := by
  obtain ⟨outcome, found, hwalk, hok, -, -, hcycles, -⟩ := walkFrom_eq_ok h
  have hacc : ∀ file, ReflTransGen (directory.Includes strict) root file →
      Acc (directory.Unrecorded strict resolution.cycles) file := by
    intro file hreached
    rw [hcycles]
    exact acc_of_reachable hwalk hok hreached
  refine ⟨fun first rest hrest hchain hlast hreached =>
    exists_isStepOf_of_isChain (hacc first hreached) hchain hrest hlast, ?_, fun hacyclic => ?_⟩
  · intro hnone file hreached hself
    refine not_transGen_self_of_acc (hacc file hreached)
      (TransGen.mono (fun _ _ hstep => ⟨hstep, ?_⟩) _ _ (transGen_swap.mpr hself))
    rintro ⟨cycle, hcycle, -⟩
    rw [hnone] at hcycle
    cases hcycle
  · rw [hcycles, List.eq_nil_iff_forall_not_mem]
    intro cycle hcycle
    obtain ⟨file, hreached, hself⟩ :=
      (canonical_of_mem_cyclesOf hwalk hok hcycle).exists_transGen_self
    exact hacyclic file hreached hself

/-- The short way round, which is not the recorded one, shares its last step. -/
theorem cycles_complete_knot :
    ((knot.sources []).resolveRoot false "a.c").result = .ok knotResolution ∧
    ["a.c", "b.h", "a.c"].IsChain ((knot.sources []).Includes false) ∧
    (∃ file target, [file, target] <:+: ["a.c", "b.h", "a.c"] ∧
      ∃ cycle ∈ knotResolution.cycles, [file, target] <:+: cycle.files) ∧
    (knotResolution.cycles = [] ↔
      ∀ file, ReflTransGen ((knot.sources []).Includes false) "a.c" file →
        ¬ TransGen ((knot.sources []).Includes false) file file) := by
  have hchain : ["a.c", "b.h", "a.c"].IsChain ((knot.sources []).Includes false) := by
    decide +kernel
  obtain ⟨hclosed, hnone⟩ := cycles_complete resolveRoot_knot
  exact ⟨resolveRoot_knot, hchain, hclosed "a.c" ["b.h", "a.c"] (by decide) hchain rfl .refl, hnone⟩

/-- **What is recorded is a cycle, in one form.**  Every recorded cycle is
canonical.  Each comes from a directive that closed it, and two entries are
equal only if they come from directives of one file that name one target; so
they are distinct where no file names a target twice. -/
theorem cycles_sound (h : (directory.resolveRoot strict root).result = .ok resolution) :
    (∀ cycle ∈ resolution.cycles, directory.Canonical strict root cycle) ∧
    resolution.cycles = (closings (directory.resolveRoot strict root).steps).map Prod.snd ∧
    ((closings (directory.resolveRoot strict root).steps).Pairwise fun first second =>
      first.2 = second.2 → directory.SameOrigin strict first second) ∧
    ((∀ file target, ReflTransGen (directory.Includes strict) root file →
      ¬ directory.NamesTwice strict file target) → resolution.cycles.Nodup) := by
  obtain ⟨outcome, found, hwalk, hok, -, hsteps, hcycles, -⟩ := walkFrom_eq_ok h
  have hunder : directory.Underway strict (.expand .sourceList root) [] (.rooted root) :=
    Underway.initial .sourceList root (VisitedSet.mem_rooted.mpr rfl)
  have hpairwise := hwalk.pairwise_closings hunder
  have hclosings : resolution.cycles = (closings outcome.steps).map Prod.snd := by
    rw [hcycles, cyclesOf_eq_map_closings]
  rw [resolveRoot, ← hsteps]
  refine ⟨fun cycle hcycle => ?_, hclosings, hpairwise, fun honce => ?_⟩
  · rw [hcycles] at hcycle
    exact canonical_of_mem_cyclesOf hwalk hok hcycle
  · rw [hclosings, List.Nodup, List.pairwise_map]
    refine hpairwise.imp_of_mem fun {first second} hfirst _ horigin hsame => ?_
    obtain ⟨-, target, hstep, htwice⟩ := horigin hsame
    have hreached := (canonical_of_mem_closings hwalk hok hfirst).reached first.1
      (hstep.subset List.mem_cons_self)
    exact honce first.1 target hreached htwice

/-- The cycle is recorded twice, and `b.h` names its first file twice. -/
theorem cycles_sound_knot :
    ((knot.sources []).resolveRoot false "a.c").result = .ok knotResolution ∧
    (∀ cycle ∈ knotResolution.cycles, (knot.sources []).Canonical false "a.c" cycle) ∧
    knotResolution.cycles =
      (closings ((knot.sources []).resolveRoot false "a.c").steps).map Prod.snd ∧
    ((closings ((knot.sources []).resolveRoot false "a.c").steps).Pairwise fun first second =>
      first.2 = second.2 → (knot.sources []).SameOrigin false first second) ∧
    ((∀ file target, ReflTransGen ((knot.sources []).Includes false) "a.c" file →
      ¬ (knot.sources []).NamesTwice false file target) → knotResolution.cycles.Nodup) :=
  ⟨resolveRoot_knot, cycles_sound resolveRoot_knot⟩

end IncludeDeps.SourceDirectory
