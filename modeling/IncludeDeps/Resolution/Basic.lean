import IncludeDeps.Resolution.Walk

/-!
# Resolving a file

`resolveRoot` resolves a file on its own.  `resolve` shares a set of visited
files with its caller: an empty set makes it a call on its own as well,
otherwise targets in the set are listed but not expanded.

A file that is resolved on its own is left out of its prerequisites unless it
includes itself directly.
-/

namespace IncludeDeps

/-- The prerequisites of a file and the cycles met on the way to them. -/
structure Resolution where
  /-- What the file depends on. -/
  prerequisites : Prerequisites
  /-- The cycles, in the order in which they were met. -/
  cycles : List Cycle

/-- The cycles among the steps of a walk. -/
def cyclesOf (steps : List Step) : List Cycle :=
  steps.filterMap fun
    | .closing _ cycle => some cycle
    | _ => none

namespace SourceDirectory

/-- Expands a file and lists what it found.  The file itself is only listed if
the call is not at the top level or the file includes itself directly. -/
def walkFrom (directory : SourceDirectory) (strict topLevel : Bool) (file : String)
    (visited : VisitedSet) : Outcome Resolution :=
  let outcome := directory.expand strict directory.depthBound [] .sourceList file visited
  let cycles := cyclesOf outcome.steps
  let keepRoot := !topLevel || cycles.any (·.isSelfIncludeOf file)
  outcome.map fun found =>
    ⟨.ofList (found.filter fun path => keepRoot || path != file), cycles⟩

/-- Resolves a file, sharing a set of visited files with the caller. -/
def resolve (directory : SourceDirectory) (strict : Bool) (file : String) (visited : VisitedSet) :
    Outcome Prerequisites :=
  let seeded := if visited.isEmpty then visited.insert file else visited
  (directory.walkFrom strict visited.isEmpty file seeded).map Resolution.prerequisites

/-- Resolves a file on its own. -/
def resolveRoot (directory : SourceDirectory) (strict : Bool) (file : String) :
    Outcome Resolution :=
  directory.walkFrom strict true file (.rooted file)

end SourceDirectory

end IncludeDeps
