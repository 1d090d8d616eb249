import IncludeDeps.Cycle
import IncludeDeps.Prerequisites
import IncludeDeps.Resolution.Error
import IncludeDeps.SourceDirectory
import IncludeDeps.VisitedSet

/-!
# The include walk

Expanding a file reads it and follows its directives in turn.  A target that
was not visited before is visited and expanded on the spot, and what it brings
in is listed right after it; a target that was visited before is only listed.
A target that is still being expanded closes a cycle.

Directives that name a header of the file itself, one that shares its stem,
are followed first, and such headers come first in what the file lists.

Visiting bounds the walk: along any chain of expansions every file after the
first is a target visited for the first time.  So the number of targets bounds
the depth, and `depthBound` is never exhausted.
-/

namespace IncludeDeps

/-- What happens during a walk, as far as it can be told afterwards. -/
inductive Step where
  /-- A file was read, or its reading failed. -/
  | read (file : String)
  /-- A directive was dropped because its target belongs to the system. -/
  | systemHeader (target : String)
  /-- A file's directive led to a target visited for the first time. -/
  | expanding (file target : String)
  /-- A file's directive closed a cycle. -/
  | closing (file : String) (cycle : Cycle)
  deriving DecidableEq

/-- The result of a walk, the files visited when it ended and what happened
on the way.  The latter two are there whether the walk succeeded or not. -/
structure Outcome (α : Type) where
  /-- What the walk found, or why it failed. -/
  result : Except ResolveError α
  /-- The files visited. -/
  visited : VisitedSet
  /-- What happened, in order. -/
  steps : List Step

/-- The outcome with its result changed by a function. -/
def Outcome.map {α β : Type} (change : α → β) (outcome : Outcome α) : Outcome β :=
  ⟨outcome.result.map change, outcome.visited, outcome.steps⟩

/-- The items whose path shares the stem of a file, followed by the others. -/
def promoteOwn {α : Type} (file : String) (path : α → String) (items : List α) : List α :=
  (items.filter fun item => Path.sharesStem file (path item)) ++
    (items.filter fun item => !Path.sharesStem file (path item))

@[simp] theorem mem_promoteOwn {α : Type} {file : String} {path : α → String} {items : List α}
    {item : α} : item ∈ promoteOwn file path items ↔ item ∈ items := by
  simp only [promoteOwn, List.mem_append, List.mem_filter, Bool.not_eq_true']
  cases Path.sharesStem file (path item) <;> simp

namespace SourceDirectory

/-- Whether a directive is followed.  One with angle brackets is dropped when
its target is absent, unless the reading is strict. -/
def keeps (directory : SourceDirectory) (strict : Bool) (directive : Directive) : Bool :=
  strict || directive.form == .quoted || directory.present directive.target

/-- The directives of a file's bytes that are followed, in their order in the
file. -/
def kept (directory : SourceDirectory) (strict : Bool) (content : List UInt8) : List Directive :=
  (directivesOf content).filter (directory.keeps strict)

/-- The steps for the directives of a file's bytes that are dropped. -/
def droppedSteps (directory : SourceDirectory) (strict : Bool) (content : List UInt8) : List Step :=
  ((directivesOf content).filter fun directive => !directory.keeps strict directive).map
    fun directive => .systemHeader directive.target

/-- The step for a target visited before: it closes a cycle if it is among the
files being expanded. -/
def closingSteps (trail : List String) (file target : String) : List Step :=
  if target ∈ trail then [.closing file (Cycle.ofRing (trail.dropWhile (· != target)))] else []

/-- Follows the directives of a file in turn.  `descend` expands the target of
a directive, which has just been added to the visited files. -/
def follow (descend : Directive → VisitedSet → Outcome (List String)) (trail : List String)
    (file : String) : List Directive → VisitedSet → Outcome (List String)
  | [], visited => ⟨.ok [], visited, []⟩
  | directive :: rest, visited =>
    let target := directive.target
    if target ∈ visited then
      let later := follow descend trail file rest visited
      ⟨later.result.map (target :: ·), later.visited,
        closingSteps trail file target ++ later.steps⟩
    else
      let inner := descend directive (visited.insert target)
      match inner.result with
      | .error error => ⟨.error error, inner.visited, .expanding file target :: inner.steps⟩
      | .ok found =>
        let later := follow descend trail file rest inner.visited
        ⟨later.result.map (target :: found ++ ·), later.visited,
          .expanding file target :: inner.steps ++ later.steps⟩

/-- Expands a file.  The trail lists the files being expanded, from the first
to the one that asked for this file; the first argument bounds how many
expansions may stand inside one another, and beyond it nothing is listed. -/
def expand (directory : SourceDirectory) (strict : Bool) :
    Nat → List String → Referrer → String → VisitedSet → Outcome (List String)
  | 0, _, _, _, visited => ⟨.ok [], visited, []⟩
  | depth + 1, trail, referrer, file, visited =>
    match directory.read file with
    | .error fault => ⟨.error (.ofFault file referrer fault), visited, [.read file]⟩
    | .ok content =>
      let trail := trail ++ [file]
      let descend := fun (directive : Directive) =>
        directory.expand strict depth trail (.directive file directive.line) directive.target
      let directives := promoteOwn file Directive.target (directory.kept strict content)
      let inner := follow descend trail file directives visited
      ⟨inner.result.map fun found => promoteOwn file id found.eraseDups, inner.visited,
        .read file :: directory.droppedSteps strict content ++ inner.steps⟩

/-- How deep expansions can stand inside one another. -/
def depthBound (directory : SourceDirectory) : Nat :=
  directory.targets.length + 1

end SourceDirectory

end IncludeDeps
