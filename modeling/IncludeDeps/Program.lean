import IncludeDeps.Run

/-!
# The program

What the program does with a command line: the text on standard output, the
lines of its log, the exit status and the tree it leaves behind.  How help and
the refusal of a command line are worded is not part of it.
-/

namespace IncludeDeps.Program

/-- The name and the version of the program. -/
def version : String := "mkdeps 0.1.0\n"

/-- What the program came to. -/
structure Finish where
  /-- The exit status. -/
  exit : Nat
  /-- What goes to standard output. -/
  stdout : String
  /-- The lines of the log. -/
  log : List String
  /-- The tree afterwards. -/
  tree : Tree

/-- What becomes of a command line that was read: an error is told last and
makes the exit status one. -/
def finish (settings : Settings) (report : Report) : Finish :=
  let failure := report.error.toList.map fun error => Event.failed error.text
  let told := (report.events ++ failure).filter (Event.isTold settings.logLevel)
  { exit := if report.error.isSome then 1 else 0
    stdout := report.stdout
    log := told.flatMap Event.lines
    tree := report.tree }

/-- Carries out the words of a command line.  One that is refused, or that asks
for help or the version, changes nothing. -/
def execute (words : List CommandLine.Word) (storage : Storage) (tree : Tree)
    (workingDirectory : Location) : Except CommandLine.UsageError Finish := do
  let settings := (← Settings.parse words).withDefaultCommand
  return finish settings (settings.run storage tree workingDirectory)

end IncludeDeps.Program
