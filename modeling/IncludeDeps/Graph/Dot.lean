import IncludeDeps.Graph.Basic
import IncludeDeps.Text.Quoted

/-!
# Graphs as DOT

A graph is written as a DOT digraph: each source is a node, and an arrow leads
from it to each of its prerequisites except to itself.
-/

namespace IncludeDeps.Graph

/-- The lines for a source: its node and its arrows. -/
def dotLines (entry : String × Prerequisites) : List String :=
  let source := Text.quoted entry.1
  ("  " ++ source ++ ";\n") ::
    (entry.2.paths.filter (· != entry.1)).map fun path =>
      "  " ++ source ++ " -> " ++ Text.quoted path ++ ";\n"

/-- The graph as a DOT text. -/
def dot (graph : Graph) : String :=
  "digraph mkdeps \x7b\n" ++ String.join (graph.entries.flatMap dotLines) ++ "\x7d\n"

end IncludeDeps.Graph
