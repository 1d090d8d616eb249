import IncludeDeps.CommandLine.Settings
import IncludeDeps.Discovery
import IncludeDeps.Graph.Dot
import IncludeDeps.Graph.Json
import IncludeDeps.Scaffold.Writing

/-!
# Carrying out a command

`Settings.run` carries out what a command line asks for on a tree.  Its report
holds the tree afterwards, what goes to standard output, the error if there
was one, and what there is to tell.  Whether the bytes of an output can be
stored is not for the tree to say, but for the `Storage` behind it.

A Makefile is written or printed only when it is complete, so a failure before
that changes nothing.
-/

namespace IncludeDeps

/-- Why a command failed. -/
inductive RunError where
  /-- A path of the command line is no valid text. -/
  | invalidText (path : CommandLine.Word)
  /-- The output path leads to no name. -/
  | outputMissingName (path : String)
  /-- The source directory could not be opened. -/
  | opening (error : OpenError)
  /-- A source could not be resolved. -/
  | resolving (error : ResolveError)
  /-- The boilerplate of a module could not be written. -/
  | scaffolding (module : String) (error : ScaffoldError)
  /-- The directory of the output could not be made. -/
  | makingParent (parent : String) (cause : Fault)
  /-- No temporary file could be made in the directory of the output. -/
  | makingTemporary (parent : String) (cause : Fault)
  /-- The output could not be written to the temporary file. -/
  | writing (path : String) (cause : Fault)
  /-- The output could not be put in place. -/
  | replacing (path : String) (cause : Fault)
  deriving DecidableEq, Repr

namespace RunError

/-- The error of replacing the file at a path by way of its directory. -/
def ofReplaceError (parent path : String) : Tree.ReplaceError → RunError
  | .making cause => makingTemporary parent cause
  | .writing cause => writing path cause
  | .moving cause => replacing path cause

/-- The wording of the error: what was being done, what went wrong there and
the fault behind it. -/
def parts : RunError → List String
  | invalidText path => ["path `" ++ Text.ofBytes path ++ "` is not valid UTF-8"]
  | outputMissingName path => ["output path `" ++ path ++ "` has no file name"]
  | opening error => [error.message, error.cause.text]
  | resolving error =>
    "resolving includes" :: error.message :: error.cause?.toList.map Fault.text
  | scaffolding module error =>
    ("scaffolding module `" ++ module ++ "`") :: error.message ::
      error.cause?.toList.map Fault.text
  | makingParent parent cause => ["failed to create parent directory " ++ parent, cause.text]
  | makingTemporary parent cause =>
    ["failed to create temporary file in " ++ parent, cause.text]
  | writing path cause => ["failed to write " ++ path, cause.text]
  | replacing path cause => ["failed to replace " ++ path, cause.text]

/-- The wording of the error on one line. -/
def text (error : RunError) : String :=
  ": ".intercalate error.parts

end RunError

/-- What a command came to. -/
structure Report where
  /-- The tree afterwards. -/
  tree : Tree
  /-- What goes to standard output. -/
  stdout : String := ""
  /-- Why the command failed, if it did. -/
  error : Option RunError := none
  /-- What there is to tell. -/
  events : List Event := []

/-- The report with events before its own. -/
def Report.after (events : List Event) (report : Report) : Report :=
  { report with events := events ++ report.events }

/-- The path of the directory that an output file lies in. -/
def outputParent (path : String) : String :=
  ((Path.parent? path).filter (!·.isEmpty)).getD "."

/-- Puts a text at a path, and makes the directories above it. -/
def writeOutput (storage : Storage) (tree : Tree) (workingDirectory : Location)
    (path text : String) : Report :=
  let parent := outputParent path
  match tree.createDirectories (.ordinary workingDirectory) parent with
  | (.error cause, made) => { tree := made, error := some (.makingParent parent cause) }
  | (.ok directory, made) =>
    match made.replaceFile storage (.ordinary workingDirectory) directory
        (Path.fromTop workingDirectory (Path.names parent)) path (Text.bytes text) with
    | (.error error, left) => { tree := left, error := some (.ofReplaceError parent path error) }
    | (.ok (), written) => { tree := written, events := [.wroteMakefile path] }

/-- The path of an output file: a relative one is meant from the source
directory. -/
def outputPath (sourceDirectory file : String) : String :=
  if !Path.isAbsolute file && sourceDirectory != "." then Path.join sourceDirectory file else file

/-- Makes boilerplate for modules in turn, up to the first that fails, and
reports each file. -/
def runScaffold (options : ScaffoldOptions) (tree : Tree) (root : Location) : List String → Report
  | [] => { tree }
  | module :: rest =>
    let writing := Scaffold.writeModule options tree root module
    match writing.result with
    | .error error =>
      { tree := writing.tree, error := some (.scaffolding module error), events := writing.events }
    | .ok (source, header) =>
      let later := runScaffold options writing.tree root rest
      { later.after writing.events with
        stdout := source.text ++ "\n" ++ header.text ++ "\n" ++ later.stdout }

namespace Settings

/-- How the settings ask for a graph to be built. -/
def buildOptions (settings : Settings) : BuildOptions :=
  ⟨settings.strictSystemIncludes, settings.onMissing, settings.warnCycles⟩

/-- The extensions of sources. -/
def wantedExtensions (settings : Settings) : List String :=
  if settings.extensions.isEmpty then defaultExtensions else settings.extensions

/-- The graph of the sources of a directory, and what there is to tell. -/
def buildGraph (settings : Settings) (tree : Tree) (root : Location) :
    Except ResolveError Graph × List Event :=
  let (sources, scanned) := tree.discover root settings.wantedExtensions
  let (result, built) := Graph.build (tree.sources root) settings.buildOptions sources
  (result, scanned ++ (if sources.isEmpty then [.noSources] else []) ++
    .discovered sources.length :: built)

/-- Writes or prints the Makefile of a graph. -/
def deliverMakefile (storage : Storage) (arguments : MakefileArguments) (graph : Graph)
    (tree : Tree) (workingDirectory : Location) (sourceDirectory : String) : Report :=
  let text := graph.makefile arguments.settings
  match Text.ofBytes? arguments.file with
  | none => { tree, error := some (.invalidText arguments.file) }
  | some file =>
    if file = "-" then { tree, stdout := text }
    else if (Path.fileName? file).isNone then { tree, error := some (.outputMissingName file) }
    else writeOutput storage tree workingDirectory (outputPath sourceDirectory file) text

/-- Carries out a command in an open source directory. -/
def runIn (settings : Settings) (storage : Storage) (tree : Tree) (workingDirectory : Location)
    (sourceDirectory : String) (root : Location) : Report :=
  match settings.commandOrDefault with
  | .scaffold arguments => runScaffold arguments.options tree root arguments.modules
  | .graph format =>
    match settings.buildGraph tree root with
    | (.error error, events) => { tree, error := some (.resolving error), events }
    | (.ok graph, events) =>
      let text := match format with
        | .json => graph.json ++ "\n"
        | .dot => graph.dot
      { tree, stdout := text, events }
  | .makefile arguments =>
    match settings.buildGraph tree root with
    | (.error error, events) => { tree, error := some (.resolving error), events }
    | (.ok graph, events) =>
      (deliverMakefile storage arguments graph tree workingDirectory sourceDirectory).after events

/-- Carries out what a command line asks for. -/
def run (settings : Settings) (storage : Storage) (tree : Tree) (workingDirectory : Location) :
    Report :=
  let directory := settings.directory.getD [0x2E]
  match Text.ofBytes? directory with
  | none => { tree, error := some (.invalidText directory) }
  | some path =>
    match tree.openSources workingDirectory path with
    | .error error => { tree, error := some (.opening error) }
    | .ok root =>
      (settings.runIn storage tree workingDirectory path root).after [.openedDirectory path]

/-- The level down to which events are told. -/
def logLevel (settings : Settings) : Level :=
  if settings.verbose then .debug else .warning

end Settings

end IncludeDeps
