import IncludeDeps.Resolution.Walk
import IncludeDeps.Text.Quoted

/-!
# Log events

What the program tells while it works.  An event has a level, the part of the
program it comes from, a message and named fields; `Event.lines` is what a log
says of it.
-/

namespace IncludeDeps

/-- How much an event matters. -/
inductive Level where
  | error
  | warning
  | info
  | debug
  deriving DecidableEq, Repr

namespace Level

/-- The rank of a level, from the gravest on. -/
def rank : Level → Nat
  | error => 0
  | warning => 1
  | info => 2
  | debug => 3

/-- The word for a level. -/
def text : Level → String
  | error => "ERROR"
  | warning => "WARN"
  | info => "INFO"
  | debug => "DEBUG"

end Level

/-- The value of a field of an event. -/
inductive Field where
  /-- A text that a line shows as it is. -/
  | shown (text : String)
  /-- A text that a line shows in quotes. -/
  | quoted (text : String)
  /-- A number. -/
  | count (number : Nat)
  deriving DecidableEq

/-- The form of a field's value in a line. -/
def Field.text : Field → String
  | shown text => text
  | quoted text => Text.quoted text
  | count number => toString number

/-- Something that is worth telling. -/
inductive Event where
  | openedDirectory (directory : String)
  | skippedUnreadableName
  | skippedDirectory (name : String)
  | noSources
  | discovered (count : Nat)
  | systemHeader (target : String)
  | expanding (file target : String)
  | closedCycle (file : String) (cycle : Cycle)
  | sourceCycle (source : String) (cycle : Cycle)
  | skippedSource (source : String) (error : ResolveError)
  | resolved (source : String) (count : Nat)
  | wroteBoilerplate (path : String)
  | wroteMakefile (path : String)
  | failed (text : String)
  deriving DecidableEq

namespace Event

/-- How much the event matters. -/
def level : Event → Level
  | failed _ => .error
  | noSources | sourceCycle _ _ | skippedSource _ _ => .warning
  | discovered _ | wroteBoilerplate _ | wroteMakefile _ => .info
  | openedDirectory _ | skippedUnreadableName | skippedDirectory _ | systemHeader _
  | expanding _ _ | closedCycle _ _ | resolved _ _ => .debug

/-- The part of the program that the event comes from. -/
def origin : Event → String
  | openedDirectory _ | noSources | discovered _ => "mkdeps::runner"
  | skippedUnreadableName | skippedDirectory _ => "mkdeps::scan"
  | systemHeader _ | expanding _ _ | closedCycle _ _ => "mkdeps::resolver"
  | sourceCycle _ _ | skippedSource _ _ | resolved _ _ => "mkdeps::graph"
  | wroteBoilerplate _ => "mkdeps::scaffold"
  | wroteMakefile _ => "mkdeps::runner::output"
  | failed _ => "mkdeps"

/-- What the event tells. -/
def message : Event → String
  | openedDirectory _ => "opened source directory"
  | skippedUnreadableName => "skipping entry with non-UTF-8 name"
  | skippedDirectory _ => "skipping non-file entry"
  | noSources => "no source files found"
  | discovered _ => "discovered sources"
  | systemHeader _ => "skipping system header"
  | expanding _ _ => "expanding include"
  | closedCycle _ _ | sourceCycle _ _ => "include cycle"
  | skippedSource _ _ => "skipping source"
  | resolved _ _ => "resolved"
  | wroteBoilerplate _ => "wrote boilerplate"
  | wroteMakefile _ => "wrote Makefile"
  | failed _ => "mkdeps failed"

/-- What the event is about, by name. -/
def fields : Event → List (String × Field)
  | openedDirectory directory => [("dir", .shown directory)]
  | skippedUnreadableName | noSources => []
  | skippedDirectory name => [("name", .quoted name)]
  | discovered count => [("count", .count count)]
  | systemHeader target => [("target", .shown target)]
  | expanding file target => [("file", .quoted file), ("target", .shown target)]
  | closedCycle file cycle => [("file", .quoted file), ("cycle", .shown cycle.text)]
  | sourceCycle source cycle => [("source", .quoted source), ("cycle", .shown cycle.text)]
  | skippedSource source error => [("source", .quoted source), ("error", .shown error.message)]
  | resolved source count => [("source", .quoted source), ("count", .count count)]
  | wroteBoilerplate path => [("path", .quoted path)]
  | wroteMakefile path => [("path", .shown path)]
  | failed text => [("error", .shown text)]

/-- Whether a log of the given level tells the event. -/
def isTold (threshold : Level) (event : Event) : Bool :=
  event.level.rank ≤ threshold.rank

/-- The text of the event in a log. -/
def text (event : Event) : String :=
  event.level.text ++ " " ++ event.origin ++ ": " ++ event.message ++
    String.join (event.fields.map fun (name, field) => " " ++ name ++ "=" ++ field.text)

/-- The lines of the event in a log: one, and one more for each line feed in
a text that is shown as it is.  A carriage return before it stays. -/
def lines (event : Event) : List String :=
  (event.text.toList.splitOn '\n').map String.ofList

end Event

/-- The event that tells a step of a walk, if one does. -/
def Step.event? : Step → Option Event
  | read _ => none
  | systemHeader target => some (.systemHeader target)
  | expanding file target => some (.expanding file target)
  | closing file cycle => some (.closedCycle file cycle)

/-- The events that tell the steps of a walk. -/
def eventsOf (steps : List Step) : List Event :=
  steps.filterMap Step.event?

end IncludeDeps
