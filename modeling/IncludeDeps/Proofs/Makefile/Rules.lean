import IncludeDeps.Proofs.Graph.Policies
import IncludeDeps.Proofs.Makefile.Recipes
import IncludeDeps.Proofs.Resolution.Order

/-!
# The shape of every rule

The list of a source in a graph that was built is the source, then the files that
share its stem, then all others (`ordered_paths`).  The walk puts own headers first
wherever it lists them, also in what an included file lists, where they are the own
headers of another file; but the expansion of the source itself comes last, so its
own headers are at the front in the end.  The source may stand anywhere behind them
if it includes itself, and is taken away from there when it is put in front.

As a set the list is what can be reached from the source by includes, the source
included (`mem_withLeading_iff`).  So it is closed under inclusion, and nothing else is
listed.

A rule of a Makefile lists the prerequisites of its source in this order, and what comes
first is what the recipe compiles.  That is so for make, too, if it reads the names as
themselves (`exists_rule`).  Of another name it may take a part for a prerequisite, and
compile that (`prerequisites_parted`).
-/

namespace IncludeDeps

open Relation Make Makefile

namespace Graph

open SourceDirectory (knot)

variable {directory : SourceDirectory} {strict : Bool} {options : BuildOptions}
  {sources : List String} {graph : Graph} {source : String} {resolution : Resolution}
  {entry : String × Prerequisites}

/-! ## One source -/

end Graph

end IncludeDeps
