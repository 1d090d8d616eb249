import IncludeDeps.Graph.Dot
import IncludeDeps.Proofs.Graph.Policies
import IncludeDeps.Proofs.Text.Quoted

/-!
# A DOT text determines its arrows

A DOT text is a row of statements, one for each source and one for each arrow.
Names may hold whatever a statement is made of, quotes, arrows and line ends
included, but they are quoted, and what is quoted shows where it ends.  So a
statement shows where it ends (`Statement.text_selfDelimiting`), and the text
determines its statements.

A source comes before its arrows, so the statements determine which arrows lead
from which source (`statements_inj`).  A source is never at the end of an arrow of
its own; whether it is listed among its prerequisites, and where, does not show.  In
a graph that was built every source comes first in its list, so there is nothing
that does not show.
-/

namespace IncludeDeps

open Text
open SourceDirectory (knot)

namespace Graph

/-- A statement of a DOT text. -/
inductive Statement where
  /-- A source. -/
  | node (source : String)
  /-- An arrow from a source. -/
  | arrow (source target : String)

namespace Statement

/-- A statement as a line. -/
def text : Statement → String
  | node source => "  " ++ quoted source ++ ";\n"
  | arrow source target => "  " ++ quoted source ++ " -> " ++ quoted target ++ ";\n"

/-- Whether a statement is an arrow. -/
def isArrow : Statement → Bool
  | node _ => false
  | arrow _ _ => true

theorem text_selfDelimiting : SelfDelimiting fun statement => (text statement).toList := by
  intro first second rest more hsame
  cases first with
  | node source =>
      cases second with
      | node source' =>
          simp only [text, String.toList_append, List.append_assoc] at hsame
          obtain ⟨rfl, htail⟩ := quoted_selfDelimiting (List.append_cancel_left hsame)
          exact ⟨rfl, List.append_cancel_left htail⟩
      | arrow source' target' =>
          simp only [text, String.toList_append, List.append_assoc] at hsame
          obtain ⟨-, htail⟩ := quoted_selfDelimiting (List.append_cancel_left hsame)
          exact absurd (congrArg List.head? htail) (by simp)
  | arrow source target =>
      cases second with
      | node source' =>
          simp only [text, String.toList_append, List.append_assoc] at hsame
          obtain ⟨-, htail⟩ := quoted_selfDelimiting (List.append_cancel_left hsame)
          exact absurd (congrArg List.head? htail) (by simp)
      | arrow source' target' =>
          simp only [text, String.toList_append, List.append_assoc] at hsame
          obtain ⟨rfl, htail⟩ := quoted_selfDelimiting (List.append_cancel_left hsame)
          obtain ⟨rfl, hend⟩ := quoted_selfDelimiting (List.append_cancel_left htail)
          exact ⟨rfl, List.append_cancel_left hend⟩

end Statement

/-! ## Statements and texts -/

/-- The arrows from each source: to its prerequisites in order, but not to itself. -/
def arrows (graph : Graph) : List (String × List String) :=
  graph.entries.map fun entry => (entry.1, entry.2.paths.filter (· != entry.1))

/-- The statements for a source and its arrows. -/
def statements (entry : String × List String) : List Statement :=
  .node entry.1 :: entry.2.map (.arrow entry.1)

theorem dotLines_eq (entry : String × Prerequisites) :
    dotLines entry =
      (statements (entry.1, entry.2.paths.filter (· != entry.1))).map Statement.text := by
  simp only [dotLines, statements, List.map_cons, List.map_map]
  rfl

theorem toList_dot (graph : Graph) :
    graph.dot.toList = "digraph mkdeps \x7b\n".toList ++
      ((graph.arrows.flatMap statements).flatMap (fun statement => statement.text.toList) ++
        '\x7d' :: ['\n']) := by
  have hlines : graph.entries.flatMap dotLines =
      (graph.arrows.flatMap statements).map Statement.text := by
    rw [arrows, List.flatMap_map, List.map_flatMap, funext dotLines_eq]
  have hend : "\x7d\n".toList = '\x7d' :: ['\n'] := rfl
  unfold dot
  simp only [hlines, String.toList_append, String.toList_join, List.flatMap_map,
    List.append_assoc, hend]

/-- What follows the arrows of a source is another source. -/
theorem takeWhile_isArrow (source : String) (targets : List String)
    (rest : List (String × List String)) :
    (targets.map (Statement.arrow source) ++ rest.flatMap statements).takeWhile
      Statement.isArrow = targets.map (Statement.arrow source) := by
  have hrest : (rest.flatMap statements).takeWhile Statement.isArrow = [] := by
    cases rest <;> rfl
  have harrows : ∀ statement ∈ targets.map (Statement.arrow source),
      statement.isArrow = true := by
    intro statement hstatement
    obtain ⟨target, -, rfl⟩ := List.mem_map.mp hstatement
    rfl
  rw [List.takeWhile_append_of_pos harrows, hrest, List.append_nil]

theorem statements_inj {first second : List (String × List String)}
    (hsame : first.flatMap statements = second.flatMap statements) : first = second := by
  induction first generalizing second with
  | nil =>
      cases second with
      | nil => rfl
      | cons entry second => cases hsame
  | cons entry first ih =>
      cases second with
      | nil => cases hsame
      | cons other second =>
          obtain ⟨source, targets⟩ := entry
          obtain ⟨source', targets'⟩ := other
          simp only [List.flatMap_cons, statements, List.cons_append, List.cons.injEq,
            Statement.node.injEq] at hsame
          obtain ⟨rfl, harrows⟩ := hsame
          have htargets := congrArg (List.takeWhile Statement.isArrow) harrows
          rw [takeWhile_isArrow, takeWhile_isArrow] at htargets
          have hinjective : Function.Injective (Statement.arrow source) :=
            fun _ _ h => (Statement.arrow.inj h).2
          obtain rfl := List.map_injective_iff.mpr hinjective htargets
          rw [ih (List.append_cancel_left harrows)]

theorem dot_inj {first second : Graph} (hsame : first.dot = second.dot) :
    first.arrows = second.arrows := by
  have htexts := congrArg String.toList hsame
  rw [toList_dot, toList_dot] at htexts
  have hmark : ∀ (statement : Statement) (rest more : List Char),
      statement.text.toList ++ rest ≠ '\x7d' :: more := by
    intro statement rest more hline
    have hhead := congrArg List.head? hline
    cases statement <;> simp [Statement.text] at hhead
  obtain ⟨hstatements, -⟩ := Statement.text_selfDelimiting.flatMap_inj hmark
    (List.append_cancel_left htexts)
  exact statements_inj hstatements

/-! ## Graphs that were built -/

/-- The graph was built for some sources of a directory. -/
def IsBuilt (graph : Graph) : Prop :=
  ∃ directory options sources, (build directory options sources).1 = .ok graph

theorem IsBuilt.paths_eq {graph : Graph} (hbuilt : graph.IsBuilt) {entry : String × Prerequisites}
    (hentry : entry ∈ graph.entries) :
    entry.2.paths = entry.1 :: entry.2.paths.filter (· != entry.1) := by
  obtain ⟨directory, options, sources, hbuilt⟩ := hbuilt
  obtain ⟨resolution, -, hlist⟩ := exists_resolution_of_mem_entries hbuilt hentry
  rw [hlist, Prerequisites.paths_withLeading]
  simp [bne]

theorem IsBuilt.entries_eq {first second : Graph} (hfirst : first.IsBuilt)
    (hsecond : second.IsBuilt) (harrows : first.arrows = second.arrows) :
    first.entries = second.entries := by
  have hrestored : ∀ graph : Graph, graph.IsBuilt → graph.entries.map
      (fun entry => (entry.1, entry.2.paths)) =
        graph.arrows.map fun entry => (entry.1, entry.1 :: entry.2) := by
    intro graph hbuilt
    rw [arrows, List.map_map]
    refine List.map_congr_left fun entry hentry => ?_
    exact congrArg (Prod.mk entry.1) (hbuilt.paths_eq hentry)
  have hinjective : Function.Injective fun entry : String × Prerequisites =>
      (entry.1, entry.2.paths) := by
    intro entry other hsame
    exact Prod.ext (Prod.mk.inj hsame).1 (Prerequisites.paths_inj.mp (Prod.mk.inj hsame).2)
  refine List.map_injective_iff.mpr hinjective ?_
  rw [hrestored first hfirst, hrestored second hsecond, harrows]

/-! ## Main result -/

/-- **A DOT text determines its arrows.**  Whatever the names in two graphs are, the graphs
have the same DOT text exactly if they have the same sources in the same order, each with
the same prerequisites in the same order, leaving the source itself aside.  For graphs that
were built this means that they have the same entries. -/
theorem dot_eq_iff (first second : Graph) :
    (first.dot = second.dot ↔ first.arrows = second.arrows) ∧
      (first.IsBuilt → second.IsBuilt →
        (first.dot = second.dot ↔ first.entries = second.entries)) := by
  have hiff : first.dot = second.dot ↔ first.arrows = second.arrows := by
    refine ⟨dot_inj, fun harrows => String.toList_inj.mp ?_⟩
    rw [toList_dot, toList_dot, harrows]
  refine ⟨hiff, fun hfirst hsecond => hiff.trans ⟨hfirst.entries_eq hsecond, fun hentries => ?_⟩⟩
  rw [arrows, arrows, hentries]

/-- One source whose name is written like two, without prerequisites. -/
def posing : Graph where
  entries := [("a\";\n  \"b", .ofList [])]
  skipped := []
  nodup := List.nodup_singleton _

/-- The two sources. -/
def posedFor : Graph where
  entries := [("a", .ofList ["a"]), ("b", .ofList [])]
  skipped := []
  nodup := by decide

/-- The name that is written like two shows as one.  Graphs that were built of the same
sources in another order have another text. -/
theorem dot_eq_iff_posing :
    posing.dot ≠ posedFor.dot ∧
    ∃ first second : Graph, first.IsBuilt ∧ second.IsBuilt ∧
      first.sources = ["b.h", "a.c"] ∧ second.sources = ["a.c", "b.h"] ∧
      first.dot ≠ second.dot := by
  obtain ⟨first, hfirst, hfirstSources⟩ : ∃ graph,
      (build (knot.sources []) {} ["b.h", "a.c"]).1 = .ok graph ∧
        graph.sources = ["b.h", "a.c"] := ⟨_, rfl, rfl⟩
  obtain ⟨second, hsecond, hsecondSources⟩ : ∃ graph,
      (build (knot.sources []) {} ["a.c", "b.h"]).1 = .ok graph ∧
        graph.sources = ["a.c", "b.h"] := ⟨_, rfl, rfl⟩
  have hfirst : first.IsBuilt := ⟨_, _, _, hfirst⟩
  have hsecond : second.IsBuilt := ⟨_, _, _, hsecond⟩
  refine ⟨fun hsame => ?_, first, second, hfirst, hsecond, hfirstSources, hsecondSources,
    fun hsame => ?_⟩
  · exact absurd ((dot_eq_iff posing posedFor).1.mp hsame) (by decide +kernel)
  · have hentries := ((dot_eq_iff first second).2 hfirst hsecond).mp hsame
    have hsources : first.sources = second.sources := congrArg (List.map Prod.fst) hentries
    rw [hfirstSources, hsecondSources] at hsources
    exact absurd hsources (by decide)

end Graph

end IncludeDeps
