import IncludeDeps.Proofs.Resolution.Reads

/-!
# Two directories that agree

What a resolution comes to depends on the files that it lists and on nothing
else.  Two directories are alike on a file when it leads to the same targets in
both: this is all that a walk can see of the file, since it looks at a directive
for its target only, but for the line that an error would show.

`Walks.transfer` runs the two directories in step.  A walk that succeeds in one
directory, and reads only files on which the other is alike, is a walk of the
other directory too, with the same list, visited files and steps.  Every file
that a call for a file on its own reads is that file or listed in the end, which
gives the main result.

Directories that look the same to every path cannot be told apart even by a walk that
fails (`resolveRoot_of_looksLike`).
-/

namespace IncludeDeps

/-- Tests that agree on items with one image keep the same images. -/
theorem map_filter_congr {α β : Type} {image : α → β} {test test' : α → Bool}
    {list list' : List α} (himages : list.map image = list'.map image)
    (htest : ∀ item ∈ list, ∀ item' ∈ list', image item = image item' → test item = test' item') :
    (list.filter test).map image = (list'.filter test').map image := by
  induction list generalizing list' with
  | nil =>
      obtain rfl : list' = [] := List.map_eq_nil_iff.mp himages.symm
      rfl
  | cons item rest ih =>
      obtain ⟨item', rest', rfl, hitem, hrest⟩ := List.map_eq_cons_iff.mp himages.symm
      have hsame := htest item List.mem_cons_self item' List.mem_cons_self hitem.symm
      have htail := ih hrest.symm fun other hother other' hother' =>
        htest other (List.mem_cons_of_mem _ hother) other' (List.mem_cons_of_mem _ hother')
      rw [List.filter_cons, List.filter_cons, hsame]
      split
      · rw [List.map_cons, List.map_cons, hitem, htail]
      · exact htail

theorem map_promoteOwn {α β : Type} (file : String) (path : β → String) (image : α → β)
    (items : List α) :
    (promoteOwn file (fun item => path (image item)) items).map image =
      promoteOwn file path (items.map image) := by
  simp only [promoteOwn, List.map_append, List.filter_map]
  rfl

/-- Two stages deal with the same file and the same targets. -/
inductive Stage.Matches : Stage → Stage → Prop
  /-- They expand a file, whatever asked for it. -/
  | expand (referrer other : Referrer) (file : String) :
      Matches (.expand referrer file) (.expand other file)
  /-- They follow directives with the same targets. -/
  | follow (file : String) {directives others : List Directive}
      (htargets : directives.map Directive.target = others.map Directive.target) :
      Matches (.follow file directives) (.follow file others)

namespace SourceDirectory

open Relation

variable {first second : SourceDirectory} {strict strict' : Bool}

/-! ## Walks in step -/

/-- In both directories a file can be read and leads to the same targets, and
the same targets are dropped. -/
def Alike (first second : SourceDirectory) (strict strict' : Bool) (file : String) : Prop :=
  ∃ content revised, first.read file = .ok content ∧ second.read file = .ok revised ∧
    (first.kept strict content).map Directive.target =
      (second.kept strict' revised).map Directive.target ∧
    first.droppedSteps strict content = second.droppedSteps strict' revised

/-- A walk that succeeds is also one of a directory that is alike on every file
that it reads. -/
theorem Walks.transfer {stage : Stage} {trail : List String} {visited : VisitedSet}
    {outcome : Outcome (List String)} {found : List String} {partner : Stage}
    (hwalk : Walks first strict stage trail visited outcome) (hok : outcome.result = .ok found)
    (hmatches : stage.Matches partner)
    (halike : ∀ file ∈ readsOf outcome.steps, first.Alike second strict strict' file) :
    Walks second strict' partner trail visited outcome := by
  induction hwalk generalizing found partner with
  | unreadable _ => cases hok
  | @expanded _ _ file _ content inner hread _ ih =>
      obtain ⟨inside, hinside, -⟩ := map_eq_ok_iff.mp hok
      rw [readsOf_expanded, List.forall_mem_cons] at halike
      obtain ⟨⟨content', revised, hread', hrevised, htargets, hdropped⟩, hrest⟩ := halike
      obtain rfl : content' = content := Except.ok.inj (hread'.symm.trans hread)
      cases hmatches with
      | expand _ referrer _ =>
          rw [hdropped]
          refine .expanded hrevised (ih hinside (.follow file ?_) hrest)
          -- which directives are moved to the front depends on their targets only
          exact (map_promoteOwn file id Directive.target _).trans
            (htargets ▸ (map_promoteOwn file id Directive.target _).symm)
  | done =>
      cases hmatches with
      | follow _ htargets =>
          obtain rfl := List.map_eq_nil_iff.mp htargets.symm
          exact .done
  | listed hseen _ ih =>
      obtain ⟨inside, hinside, -⟩ := map_eq_ok_iff.mp hok
      rw [readsOf_listed] at halike
      cases hmatches with
      | follow _ htargets =>
          obtain ⟨directive', rest', rfl, htarget, hrest⟩ := List.map_eq_cons_iff.mp htargets.symm
          rw [← htarget] at hseen ⊢
          exact .listed hseen (ih hinside (.follow _ hrest.symm) halike)
  | stopped _ _ _ _ => cases hok
  | @entered _ file _ _ _ _ _ _ hnew _ hfound _ ihinner ihlater =>
      obtain ⟨inside, hinside, -⟩ := map_eq_ok_iff.mp hok
      rw [readsOf_entered, List.forall_mem_append] at halike
      cases hmatches with
      | follow _ htargets =>
          obtain ⟨directive', rest', rfl, htarget, hrest⟩ :=
            List.map_eq_cons_iff.mp htargets.symm
          -- the line of the directive may differ, but only an error would show it
          have hinner := ihinner hfound (.expand _ (.directive file directive'.line) _) halike.1
          have hlater := ihlater hinside (.follow _ hrest.symm) halike.2
          rw [← htarget] at hnew hinner ⊢
          exact .entered hnew hinner hfound hlater

/-- A call comes to the same in two directories where one walk leads from its file. -/
theorem walkFrom_congr {topLevel : Bool} {file : String} {visited : VisitedSet}
    {outcome : Outcome (List String)}
    (hfirst : Walks first strict (.expand .sourceList file) [] visited outcome)
    (hsecond : Walks second strict' (.expand .sourceList file) [] visited outcome) :
    second.walkFrom strict' topLevel file visited =
      first.walkFrom strict topLevel file visited := by
  rw [walkFrom, walkFrom, expand_eq hfirst le_rfl, expand_eq hsecond le_rfl]

/-! ## Directories that look the same -/

/-- Which directives are followed depends on which paths are present. -/
theorem keeps_congr (hpresent : first.present = second.present) (strict : Bool) :
    first.keeps strict = second.keeps strict := by
  unfold SourceDirectory.keeps
  rw [hpresent]

theorem kept_congr (hpresent : first.present = second.present) (strict : Bool) :
    first.kept strict = second.kept strict := by
  unfold SourceDirectory.kept
  rw [keeps_congr hpresent]

/-- Every path reads the same in both directories and is present in both or in neither. -/
structure LooksLike (first second : SourceDirectory) : Prop where
  read : first.read = second.read
  present : first.present = second.present

theorem LooksLike.kept (hlooks : first.LooksLike second) (strict : Bool) :
    first.kept strict = second.kept strict :=
  kept_congr hlooks.present strict

theorem LooksLike.droppedSteps (hlooks : first.LooksLike second) (strict : Bool) :
    first.droppedSteps strict = second.droppedSteps strict := by
  unfold SourceDirectory.droppedSteps
  rw [keeps_congr hlooks.present]

/-- A walk of one directory is a walk of any other that looks like it, also if it fails. -/
theorem Walks.of_looksLike {stage : Stage} {trail : List String} {visited : VisitedSet}
    {outcome : Outcome (List String)} (hwalk : Walks first strict stage trail visited outcome)
    (hlooks : first.LooksLike second) : Walks second strict stage trail visited outcome := by
  induction hwalk with
  | unreadable hread =>
      rw [hlooks.read] at hread
      exact .unreadable hread
  | expanded hread _ ih =>
      rw [hlooks.read] at hread
      rw [hlooks.kept] at ih
      rw [hlooks.droppedSteps]
      exact .expanded hread ih
  | done => exact .done
  | listed hseen _ ih => exact .listed hseen ih
  | stopped hnew _ herror ih => exact .stopped hnew ih herror
  | entered hnew _ hfound _ ihinner ihlater => exact .entered hnew ihinner hfound ihlater

theorem resolveRoot_of_looksLike (hlooks : first.LooksLike second) (strict : Bool) (root : String) :
    first.resolveRoot strict root = second.resolveRoot strict root := by
  have hwalk : Walks first strict (.expand .sourceList root) [] (.rooted root) _ :=
    walks_depthBound [] .sourceList root (.rooted root)
  exact (walkFrom_congr hwalk (hwalk.of_looksLike hlooks)).symm

/-! ## Files that agree -/

/-- A file can be read in both directories and holds the same directives but for
their lines, and a target in angle brackets is present in both or in neither. -/
def Agrees (first second : SourceDirectory) (file : String) : Prop :=
  ∃ content revised, first.read file = .ok content ∧ second.read file = .ok revised ∧
    (directivesOf content).map (fun directive => (directive.form, directive.target)) =
      (directivesOf revised).map (fun directive => (directive.form, directive.target)) ∧
    ∀ directive ∈ directivesOf content, directive.form = .angle →
      first.present directive.target = second.present directive.target

theorem Agrees.alike {file : String} (hagrees : first.Agrees second file) :
    first.Alike second strict strict file := by
  obtain ⟨content, revised, hread, hrevised, himages, hpresent⟩ := hagrees
  have hkeeps : ∀ directive ∈ directivesOf content, ∀ directive' ∈ directivesOf revised,
      (directive.form, directive.target) = (directive'.form, directive'.target) →
      first.keeps strict directive = second.keeps strict directive' := by
    intro directive hmem directive' _ himage
    obtain ⟨hform, htarget⟩ := Prod.mk.inj himage
    unfold keeps
    rw [← hform, ← htarget]
    cases hangle : directive.form with
    | quoted => simp
    | angle => rw [hpresent directive hmem hangle]
  refine ⟨content, revised, hread, hrevised, ?_, ?_⟩
  · have hkept := congrArg (List.map Prod.snd) (map_filter_congr himages hkeeps)
    rw [List.map_map, List.map_map] at hkept
    exact hkept
  · have hdropped := congrArg (List.map fun image => Step.systemHeader image.2)
      (map_filter_congr himages fun directive hmem directive' hmem' himage =>
        congrArg not (hkeeps directive hmem directive' hmem' himage))
    rw [List.map_map, List.map_map] at hdropped
    exact hdropped

/-! ## Main result -/

/-- **A resolution depends on the files that it lists.**  If it succeeds in one
directory, it comes to the same prerequisites and the same cycles in any other
that agrees on the file itself and on each file listed. -/
theorem resolveRoot_congr {root : String} {resolution : Resolution}
    (h : (first.resolveRoot strict root).result = .ok resolution)
    (hagrees : ∀ file, file = root ∨ file ∈ resolution.prerequisites → first.Agrees second file) :
    (second.resolveRoot strict root).result = .ok resolution := by
  obtain ⟨outcome, found, hwalk, hok, -, -, -, hlisted⟩ := walkFrom_eq_ok h
  have halike : ∀ file ∈ readsOf outcome.steps, first.Alike second strict strict file := by
    refine fun file hfile => (hagrees file ?_).alike
    -- a file that is read is entered, and on success what is entered is listed
    by_cases hroot : file = root
    · exact .inl hroot
    · have hvisited : file ∈ outcome.visited :=
        hwalk.mem_visited_of_mem_reads hfile fun hown => hroot (List.mem_singleton.mp hown)
      have hpath := (hwalk.mem_visited_iff_reflTransGen hok).mp hvisited
      have hfound : file ∈ found := (hwalk.mem_found_iff_transGen hok).mpr
        ((reflTransGen_iff_eq_or_transGen.mp hpath).resolve_left hroot)
      exact .inr ((hlisted file).mpr ⟨hfound, fun hsame => absurd hsame hroot⟩)
  have hsecond := hwalk.transfer hok (.expand .sourceList .sourceList root) halike
  rw [resolveRoot, walkFrom_congr hwalk hsecond]
  exact h

/-- The files of `knot` with other text around their directives, next to a file
that cannot be read. -/
def commentedKnot : Tree :=
  .file (Text.bytes "a.c") (Text.bytes "\n#include \"b.h\" // first\nint main;\n#include \"a.h\"\n")
    (.file (Text.bytes "a.h") (Text.bytes "#include \"b.h\"\nint a;\n")
      (.file (Text.bytes "b.h") (Text.bytes "// b\n#include \"a.c\"\n#include <a.c>\n")
        (.directory (Text.bytes "c.h") .empty .empty)))

theorem resolveRoot_congr_knot :
    ((knot.sources []).resolveRoot false "a.c").result = .ok knotResolution ∧
    (∀ file, file = "a.c" ∨ file ∈ knotResolution.prerequisites →
      (knot.sources []).Agrees (commentedKnot.sources []) file) ∧
    ((commentedKnot.sources []).resolveRoot false "a.c").result = .ok knotResolution := by
  have hagrees : ∀ file, file = "a.c" ∨ file ∈ knotResolution.prerequisites →
      (knot.sources []).Agrees (commentedKnot.sources []) file := by
    intro file hfile
    have hcases : file = "a.c" ∨ file = "a.h" ∨ file = "b.h" := by
      simpa [knotResolution] using hfile
    rcases hcases with rfl | rfl | rfl <;>
      exact ⟨_, _, rfl, rfl, by decide +kernel, by decide +kernel⟩
  exact ⟨resolveRoot_knot, hagrees, resolveRoot_congr resolveRoot_knot hagrees⟩

end SourceDirectory

end IncludeDeps
