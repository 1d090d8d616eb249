import IncludeDeps.Proofs.Directive.Locality
import IncludeDeps.Proofs.Resolution.Agreement
import IncludeDeps.Proofs.Resolution.Repeats
import IncludeDeps.Proofs.Text.Encoding

/-!
# A file that repeats an include

A line is added at the end of a file, with one of the directives that the file has and that
are followed.  What stood in the file before is read as before, since lines stand on their
own, so the directives of the file are the old ones and the repetition behind them
(`directivesOf_of_addsLine`).  Paths lead where they led before, since they see which files
and directories there are and not what the files hold (`Tree.SameShape`).  So the source
directory echoes what it was, and every resolution comes to the same
(`Tree.resolveRoot_addsLine`).
-/

namespace IncludeDeps

open Text

/-! ## A line added -/

/-- The bytes that may end a line. -/
def lineBreaks : List (List UInt8) :=
  [[0x0A], [0x0D, 0x0A]]

/-- One more line stands behind the last line of a file's bytes. -/
def AddsLine (content line revised : List UInt8) : Prop :=
  ∃ gap ending, revised = content ++ gap ++ (line ++ ending) ∧
    (gap ∈ lineBreaks ∨ gap = [] ∧ (content = [] ∨ content.getLast? = some 0x0A)) ∧
    (ending = [] ∨ ending ∈ lineBreaks)

theorem directivesOf_append_return (bytes : List UInt8) :
    directivesOf (bytes ++ [0x0D]) = directivesOf bytes := by
  induction bytes using lineInduction with
  | unfed bytes hfeed => exact directivesOf_concat_return hfeed
  | fed above below hfeed ih =>
      rw [List.append_assoc, List.cons_append, directivesOf_first hfeed, ih,
        directivesOf_first hfeed]

theorem directivesOf_append_break {lineBreak : List UInt8} (hbreak : lineBreak ∈ lineBreaks)
    (above below : List UInt8) :
    directivesOf (above ++ lineBreak ++ below) = directivesOf above ++
      (directivesOf below).map (Directive.lower (1 + above.count 0x0A)) := by
  obtain rfl | hreturn := List.mem_cons.mp hbreak
  · rw [List.append_assoc, List.singleton_append, directivesOf_append_feed]
  · obtain rfl := List.mem_singleton.mp hreturn
    have hsplit : above ++ [0x0D, 0x0A] ++ below = (above ++ [0x0D]) ++ 0x0A :: below := by simp
    rw [hsplit, directivesOf_append_feed, directivesOf_append_return]
    simp

theorem directivesOf_nil : directivesOf [] = [] := by decide

/-- What a line holds does not depend on how it ends. -/
theorem directivesOf_append_ending {ending : List UInt8}
    (hending : ending = [] ∨ ending ∈ lineBreaks) (line : List UInt8) :
    directivesOf (line ++ ending) = directivesOf line := by
  obtain rfl | hbreak := hending
  · rw [List.append_nil]
  · have hnothing := directivesOf_append_break hbreak line []
    rwa [directivesOf_nil, List.map_nil, List.append_nil, List.append_nil] at hnothing

/-- What stands on a line added at the end is read after all that stood there before. -/
theorem directivesOf_of_addsLine {content line revised : List UInt8}
    (hadds : AddsLine content line revised) :
    ∃ lines, directivesOf revised =
      directivesOf content ++ (directivesOf line).map (Directive.lower lines) := by
  obtain ⟨gap, ending, rfl, hgap, hending⟩ := hadds
  rw [← directivesOf_append_ending hending line]
  generalize line ++ ending = added
  obtain hbreak | ⟨rfl, rfl | hlast⟩ := hgap
  · exact ⟨_, directivesOf_append_break hbreak content added⟩
  · refine ⟨0, ?_⟩
    have hlower : (directivesOf added).map (Directive.lower 0) = directivesOf added :=
      List.map_id'' (fun _ => rfl) _
    rw [directivesOf_nil, hlower]
    rfl
  · obtain ⟨above, rfl⟩ := List.getLast?_eq_some_iff.mp hlast
    have hfeed : [0x0A] ∈ lineBreaks := List.mem_cons_self
    refine ⟨1 + above.count 0x0A, ?_⟩
    rw [List.append_nil, directivesOf_append_break hfeed,
      directivesOf_append_ending (Or.inr hfeed)]

/-- A line without line feeds holds the directive that it spells. -/
theorem directivesOf_of_spells {line : List UInt8} {form : Form} {target : String}
    (hfeed : 0x0A ∉ line) (hspells : Directive.Spells (decode line) form target.toList) :
    directivesOf line = [⟨target, form, 1⟩] := by
  rw [directivesOf_unfed hfeed, Directive.ofLines, Directive.ofLine?_eq_some_iff.mpr hspells]
  simp [Directive.ofLines]

/-! ## A file replaced by another -/

namespace Tree

variable {tree later : Tree} {here file location : Location} {content revised : List UInt8}

/-- Both trees have the same files and the same directories, whatever the files hold. -/
structure SameShape (tree later : Tree) : Prop where
  none_iff : ∀ location, tree.get? location = none ↔ later.get? location = none
  directory_iff : ∀ location,
    tree.get? location = some .directory ↔ later.get? location = some .directory

theorem SameShape.isSome_eq (hshape : tree.SameShape later) (location : Location) :
    (tree.get? location).isSome = (later.get? location).isSome := by
  rw [Bool.eq_iff_iff, Option.isSome_iff_ne_none, Option.isSome_iff_ne_none]
  exact not_congr (hshape.none_iff location)

/-- A step of a path does not see what files hold. -/
theorem SameShape.enter (hshape : tree.SameShape later) : tree.enter = later.enter := by
  funext reach here piece
  have hnone := hshape.none_iff here
  have hdirectory := hshape.directory_iff here
  unfold Tree.enter
  rw [hshape.isSome_eq]
  cases htree : tree.get? here with
  | none => rw [hnone.mp htree]
  | some entry =>
      cases entry with
      | directory => rw [hdirectory.mp htree]
      | file held =>
          -- the same location is a file in the other tree as well
          cases hlater : later.get? here with
          | none => cases htree.symm.trans (hnone.mpr hlater)
          | some other =>
              cases other with
              | directory => cases htree.symm.trans (hdirectory.mpr hlater)
              | file revised => rfl

theorem SameShape.locate (hshape : tree.SameShape later) : tree.locate = later.locate := by
  funext reach path
  unfold Tree.locate Tree.walk
  rw [hshape.enter]

theorem get?_put_file (hfile : tree.get? file = some (.file content)) (other : Location) :
    (tree.put file (.file revised)).get? other =
      if other = file then some (.file revised) else tree.get? other := by
  obtain rfl | ⟨above, name, rfl⟩ := List.eq_nil_or_concat file
  · cases (get?_top tree).symm.trans hfile
  · rw [List.concat_eq_append] at hfile ⊢
    have habove : tree.get? above = some .directory :=
      get?_eq_directory_of_append (List.cons_ne_nil name [])
        (Option.isSome_iff_exists.mpr ⟨_, hfile⟩)
    exact get?_put (.file revised) habove (by simp [hfile]) other

theorem sameShape_put (hfile : tree.get? file = some (.file content)) :
    tree.SameShape (tree.put file (.file revised)) where
  none_iff location := by
    rw [get?_put_file hfile]
    split
    · next hsame => simp [hsame, hfile]
    · rfl
  directory_iff location := by
    rw [get?_put_file hfile]
    split
    · next hsame => simp [hsame, hfile]
    · rfl

/-- A path reads as before, or leads to the file. -/
theorem read_put (hfile : tree.get? file = some (.file content)) (revised : List UInt8)
    (reach : Reach) (path : String) :
    (tree.put file (.file revised)).read reach path = tree.read reach path ∨
      tree.read reach path = .ok content ∧
        (tree.put file (.file revised)).read reach path = .ok revised := by
  have hshape : tree.SameShape (tree.put file (.file revised)) := sameShape_put hfile
  unfold Tree.read
  rw [← hshape.locate]
  cases tree.locate reach path with
  | error fault => exact Or.inl rfl
  | ok location =>
      simp only [bind, Except.bind]
      by_cases hsame : location = file
      · rw [get?_put_file hfile, if_pos hsame, hsame, hfile]
        exact Or.inr ⟨rfl, rfl⟩
      · rw [get?_put_file hfile, if_neg hsame]
        exact Or.inl rfl

/-- A line that is added to a file makes the directory of sources echo what it was, if it
repeats a directive of the file that is followed. -/
theorem echoes_of_addsLine {strict : Bool} {line : List UInt8} {directive : Directive}
    (hfile : tree.get? file = some (.file content))
    (hkept : directive ∈ (tree.sources here).kept strict content) (hfeed : 0x0A ∉ line)
    (hspells : Directive.Spells (decode line) directive.form directive.target.toList)
    (hadds : AddsLine content line revised) :
    (tree.sources here).Echoes ((tree.put file (.file revised)).sources here) strict := by
  have hshape : tree.SameShape (tree.put file (.file revised)) := sameShape_put hfile
  have hpresent : ((tree.put file (.file revised)).sources here).present =
      (tree.sources here).present := by
    funext path
    exact congrArg (fun locate => (locate (.confined here) path).toOption.isSome)
      hshape.locate.symm
  have hsecond := SourceDirectory.kept_congr hpresent strict
  intro path
  obtain hsame | ⟨hcontent, hrevised⟩ := read_put hfile revised (.confined here) path
  · cases hread : (tree.sources here).read path with
    | error fault => exact Or.inl ⟨fault, rfl, hsame.trans hread⟩
    | ok held =>
        refine Or.inr ⟨held, held, rfl, hsame.trans hread, ?_⟩
        rw [hsecond]
        exact .refl [] _
  · refine Or.inr ⟨content, revised, hcontent, hrevised, ?_⟩
    obtain ⟨lines, hdirectives⟩ := directivesOf_of_addsLine hadds
    rw [directivesOf_of_spells hfeed hspells, List.map_singleton] at hdirectives
    -- the repetition is followed where the directive is, since its line does not matter
    have hfollowed : (tree.sources here).keeps strict
        (Directive.lower lines ⟨directive.target, directive.form, 1⟩) = true :=
      (List.mem_filter.mp hkept).2
    have hrepeated : (tree.sources here).kept strict revised =
        (tree.sources here).kept strict content ++
          [Directive.lower lines ⟨directive.target, directive.form, 1⟩] := by
      rw [SourceDirectory.kept, hdirectives, List.filter_append, List.filter_singleton,
        hfollowed]
      rfl
    rw [hsecond, hrepeated]
    have hnamed : directive.target ∈ ((tree.sources here).kept strict content).map
        Directive.target := List.mem_map_of_mem hkept
    exact .concat (List.mem_append_left [] hnamed)

/-! ## Main result -/

/-- **Repeating an include is harmless.**  Let a line be added at the end of a file that repeats
a directive of it which is followed.  A file resolved on its own then fails with the same
error as before, or has the same prerequisites in the same order, and no cycle is recorded
that was not recorded before, nor is any lost. -/
theorem resolveRoot_addsLine {strict : Bool} {line : List UInt8} {directive : Directive}
    (hfile : tree.get? file = some (.file content))
    (hkept : directive ∈ (tree.sources here).kept strict content) (hfeed : 0x0A ∉ line)
    (hspells : Directive.Spells (decode line) directive.form directive.target.toList)
    (hadds : AddsLine content line revised) (root : String) :
    let before := (tree.sources here).resolveRoot strict root
    let after := ((tree.put file (.file revised)).sources here).resolveRoot strict root
    (∀ error, after.result = .error error ↔ before.result = .error error) ∧
      ∀ resolution, before.result = .ok resolution →
        ∃ cycles, after.result = .ok ⟨resolution.prerequisites, cycles⟩ ∧
          resolution.cycles.Sublist cycles ∧ cycles ⊆ resolution.cycles := by
  intro before after
  obtain ⟨hfails, hsucceeds⟩ := SourceDirectory.resolveRoot_of_echoes
    (echoes_of_addsLine hfile hkept hfeed hspells hadds) root
  refine ⟨fun error => ⟨fun herror => ?_, hfails error⟩, hsucceeds⟩
  cases hbefore : before.result with
  | error other => rw [← herror, ← hfails other hbefore]
  | ok resolution =>
      obtain ⟨cycles, hafter, -⟩ := hsucceeds resolution hbefore
      cases herror.symm.trans hafter

/-- What `b.h` holds in `knot`: two directives that lead back to `a.c`. -/
def returns : List UInt8 :=
  bytes "#include \"a.c\"\n#include <a.c>\n"

/-- The same with the second directive once more. -/
def moreReturns : List UInt8 :=
  bytes "#include \"a.c\"\n#include <a.c>\n#include <a.c>"

/-- The header closes the cycle for each of its directives, and once more for the third. -/
theorem resolveRoot_addsLine_knot :
    SourceDirectory.knot.get? [bytes "b.h"] = some (.file returns) ∧
    ⟨"a.c", .angle, 2⟩ ∈ (SourceDirectory.knot.sources []).kept false returns ∧
    AddsLine returns (bytes "#include <a.c>") moreReturns ∧
    ∃ cycles, (((SourceDirectory.knot.put [bytes "b.h"] (.file moreReturns)).sources
        []).resolveRoot false "a.c").result =
          .ok ⟨SourceDirectory.knotResolution.prerequisites, cycles⟩ ∧
      SourceDirectory.knotResolution.cycles.Sublist cycles ∧
      cycles ⊆ SourceDirectory.knotResolution.cycles := by
  have hfile : SourceDirectory.knot.get? [bytes "b.h"] = some (.file returns) := by decide
  have hkept : ⟨"a.c", .angle, 2⟩ ∈ (SourceDirectory.knot.sources []).kept false returns := by
    decide +kernel
  have hspells : Directive.Spells (decode (bytes "#include <a.c>")) .angle "a.c".toList := by
    rw [decode_bytes, ← Directive.ofLine?_eq_some_iff]
    decide
  have hadds : AddsLine returns (bytes "#include <a.c>") moreReturns :=
    ⟨[], [], by decide, Or.inr ⟨rfl, Or.inr (by decide)⟩, Or.inl rfl⟩
  obtain ⟨-, hsucceeds⟩ := resolveRoot_addsLine hfile hkept (by decide) hspells hadds "a.c"
  exact ⟨hfile, hkept, hadds, hsucceeds _ SourceDirectory.resolveRoot_knot⟩

end Tree

end IncludeDeps
