import IncludeDeps.Event
import IncludeDeps.Graph.Basic
import IncludeDeps.Resolution.Basic

/-!
# Building a graph

Each source is resolved on its own.  Its entry is the source followed by its
prerequisites.  A source that has an entry is not resolved again.
-/

namespace IncludeDeps

/-- What to do with a source that cannot be resolved. -/
inductive FailurePolicy where
  /-- Stop with its error. -/
  | abort
  /-- Leave it out and go on. -/
  | skip
  deriving DecidableEq, Repr

/-- How a graph is built. -/
structure BuildOptions where
  /-- Whether absent targets in angle brackets are errors. -/
  strict : Bool := false
  /-- What to do with a source that cannot be resolved. -/
  onFailure : FailurePolicy := .abort
  /-- Whether to warn of include cycles. -/
  warnCycles : Bool := false
  deriving DecidableEq, Repr

namespace Graph

/-- The events that follow the walk of a source that was resolved. -/
def resolvedEvents (options : BuildOptions) (source : String) (resolution : Resolution) :
    List Event :=
  (if options.warnCycles then resolution.cycles.map (Event.sourceCycle source) else []) ++
    [.resolved source resolution.prerequisites.size]

/-- Adds the entries of the sources to a graph, one source after the other. -/
def extend (directory : SourceDirectory) (options : BuildOptions) :
    List String → Graph → Except ResolveError Graph × List Event
  | [], graph => (.ok graph, [])
  | source :: rest, graph =>
    if graph.contains source then extend directory options rest graph
    else
      let outcome := directory.resolveRoot options.strict source
      let walked := eventsOf outcome.steps
      match outcome.result, options.onFailure with
      | .error error, .abort => (.error error, walked)
      | .error error, .skip =>
        let (result, later) := extend directory options rest (graph.skip source)
        (result, walked ++ .skippedSource source error :: later)
      | .ok resolution, _ =>
        let entry := resolution.prerequisites.withLeading source
        let (result, later) := extend directory options rest (graph.insert source entry)
        (result, walked ++ resolvedEvents options source resolution ++ later)

/-- The graph of the sources, or the error of the first source that cannot be
resolved if such sources are not to be skipped; and what there is to tell. -/
def build (directory : SourceDirectory) (options : BuildOptions) (sources : List String) :
    Except ResolveError Graph × List Event :=
  extend directory options sources empty

end Graph

end IncludeDeps
