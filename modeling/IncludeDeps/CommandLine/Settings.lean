import IncludeDeps.CommandLine.Grammar
import IncludeDeps.Graph.Build
import IncludeDeps.Makefile
import IncludeDeps.Scaffold.Basic

/-!
# Settings

What a command line asks for.  `Settings.parse` reads the words after the
program's name; a command line without a subcommand asks for a Makefile on
standard output.
-/

namespace IncludeDeps

open CommandLine

/-- The output formats of a graph. -/
inductive GraphFormat where
  /-- An object that maps each source to its prerequisites. -/
  | json
  /-- A digraph. -/
  | dot
  deriving DecidableEq, Repr

/-- What the command `makefile` is given. -/
structure MakefileArguments where
  /-- Where the Makefile goes; a dash stands for standard output. -/
  file : Word
  /-- What comes before the name of an object. -/
  objectPrefix : String
  /-- What comes before the name of the program. -/
  outputPrefix : String
  /-- Whether objects are named without their prefix. -/
  noObjectPrefix : Bool
  deriving DecidableEq, Repr

namespace MakefileArguments

/-- The values that the command takes where its words give none. -/
def declared : MakefileArguments where
  file := [0x2D]
  objectPrefix := "../obj/$(TARGET)/"
  outputPrefix := "../bin/"
  noObjectPrefix := false

/-- What is meant by a command line that names no command. -/
def implied : MakefileArguments where
  file := [0x2D]
  objectPrefix := "../obj/$(TARGET)/"
  outputPrefix := "../bin/"
  noObjectPrefix := false

/-- Naming the command without any words is naming no command. -/
theorem declared_eq_implied : declared = implied := rfl

/-- The settings of the Makefile. -/
def settings (arguments : MakefileArguments) : MakefileSettings :=
  ⟨arguments.objectPrefix, arguments.outputPrefix, !arguments.noObjectPrefix⟩

end MakefileArguments

/-- What the command `scaffold` is given. -/
structure ScaffoldArguments where
  /-- What the boilerplate holds. -/
  options : ScaffoldOptions := {}
  /-- The paths of the modules without extension. -/
  modules : List String := []
  deriving DecidableEq, Repr

/-- What is to be done. -/
inductive Command where
  /-- Write a Makefile. -/
  | makefile (arguments : MakefileArguments)
  /-- Print the graph. -/
  | graph (format : GraphFormat)
  /-- Make boilerplate. -/
  | scaffold (arguments : ScaffoldArguments)
  deriving DecidableEq, Repr

/-- What a command line asks for. -/
structure Settings where
  /-- The source directory, if it is not the working directory. -/
  directory : Option Word := none
  /-- Whether to tell more. -/
  verbose : Bool := false
  /-- The extensions of sources; none stands for the default ones. -/
  extensions : List String := []
  /-- What to do with a source that cannot be resolved. -/
  onMissing : FailurePolicy := .abort
  /-- Whether absent targets in angle brackets are errors. -/
  strictSystemIncludes : Bool := false
  /-- Whether to warn of include cycles. -/
  warnCycles : Bool := false
  /-- What is to be done, if the command line says so. -/
  command : Option Command := none
  deriving DecidableEq, Repr

namespace Settings

/-! ## Values -/

/-- A value that is a path: it may be any bytes but none. -/
def pathValue {σ : Type} (set : Word → σ → σ) (word : Word) (settings : σ) :
    Except UsageError σ :=
  if word.isEmpty then .error .invalidValue else .ok (set word settings)

/-- A value that is text. -/
def textValue {σ : Type} (set : String → σ → σ) (word : Word) (settings : σ) :
    Except UsageError σ :=
  match Text.ofBytes? word with
  | none => .error .invalidUtf8
  | some text => .ok (set text settings)

/-- A value that is one of some words. -/
def choiceValue {σ α : Type} (choices : List (String × α)) (set : α → σ → σ) (word : Word)
    (settings : σ) : Except UsageError σ :=
  match choices.find? fun choice => Grammar.spelled choice.1 == word with
  | none => .error .invalidValue
  | some (_, choice) => .ok (set choice settings)

/-! ## The commands -/

/-- The switch that asks for help. -/
def helpSwitch {σ : Type} : Switch σ :=
  { name := "help", letter := 'h', effect := .help }

/-- The command `makefile`. -/
def makefileGrammar : Grammar MakefileArguments where
  switches := [
    { name := "object-prefix"
      effect := .value (textValue fun text arguments => { arguments with objectPrefix := text }) },
    { name := "output-prefix"
      effect := .value (textValue fun text arguments => { arguments with outputPrefix := text }) },
    { name := "no-object-prefix"
      effect := .flag fun arguments => { arguments with noObjectPrefix := true } },
    helpSwitch]
  operand := some ⟨false, pathValue fun file arguments => { arguments with file }⟩

/-- The command `graph`. -/
def graphGrammar : Grammar GraphFormat where
  switches := [
    { name := "format"
      effect := .value (choiceValue [("json", .json), ("dot", .dot)] fun format _ => format) },
    helpSwitch]

/-- The arguments with other boilerplate options. -/
def ScaffoldArguments.change (change : ScaffoldOptions → ScaffoldOptions)
    (arguments : ScaffoldArguments) : ScaffoldArguments :=
  { arguments with options := change arguments.options }

/-- The command `scaffold`. -/
def scaffoldGrammar : Grammar ScaffoldArguments where
  switches := [
    { name := "guard-prefix"
      effect := .value (textValue fun text =>
        ScaffoldArguments.change fun options => { options with guardPrefix := some text }) },
    { name := "config-header"
      effect := .value (textValue fun text =>
        ScaffoldArguments.change fun options => { options with configHeader := some text }) },
    { name := "inline-macro"
      effect := .value (textValue fun text =>
        ScaffoldArguments.change fun options => { options with inlineMacro := some text }) },
    { name := "inline-end"
      effect := .value (textValue fun text =>
        ScaffoldArguments.change fun options => { options with inlineEnd := some text }) },
    helpSwitch]
  operand := some ⟨true, textValue fun module arguments =>
    { arguments with modules := arguments.modules ++ [module] }⟩

/-- The program itself. -/
def topGrammar : Grammar Settings where
  switches := [
    { name := "directory", letter := 'C'
      effect := .value (pathValue fun path settings => { settings with directory := some path }) },
    { name := "verbose", letter := 'v'
      effect := .flag fun settings => { settings with verbose := true } },
    { name := "extension", repeatable := true
      effect := .value (textValue fun text settings =>
        { settings with extensions := settings.extensions ++ [text] }) },
    { name := "on-missing"
      effect := .value (choiceValue [("abort", .abort), ("skip", .skip)] fun policy settings =>
        { settings with onMissing := policy }) },
    { name := "strict-system-includes"
      effect := .flag fun settings => { settings with strictSystemIncludes := true } },
    { name := "warn-cycles"
      effect := .flag fun settings => { settings with warnCycles := true } },
    helpSwitch,
    { name := "version", letter := 'V', effect := .version }]
  subcommands := ["makefile", "graph", "scaffold", "help"]

/-- The arguments of `scaffold`, if there are modules and no inline end without
an inline macro. -/
def requireModules (arguments : ScaffoldArguments) : Except UsageError ScaffoldArguments :=
  if arguments.modules.isEmpty ||
      (arguments.options.inlineEnd.isSome && arguments.options.inlineMacro.isNone) then
    .error .missingRequiredArgument
  else .ok arguments

/-- The command that a subcommand and the words after it ask for. -/
def parseCommand (subcommand : String) (words : List Word) : Except UsageError Command :=
  match subcommand with
  | "makefile" => .makefile <$> makefileGrammar.read .declared words
  | "graph" => .graph <$> graphGrammar.read .json words
  | "scaffold" => .scaffold <$> (scaffoldGrammar.read {} words >>= requireModules)
  | _ => .error .invalidSubcommand

/-- What the words of a command line ask for, without the default command.  A
subcommand is read to its end before a last value takes effect that stands
before it. -/
def parse (words : List Word) : Except UsageError Settings := do
  let (reading, subcommand) ← topGrammar.readWords words { settings := {} }
  match subcommand with
  | none => return (← reading.settle).settings
  | some (name, rest) =>
    let command ← parseCommand name rest
    return { (← reading.settle).settings with command := some command }

/-- The command to carry out: a Makefile on standard output unless the command
line asks for another. -/
def commandOrDefault (settings : Settings) : Command :=
  settings.command.getD (.makefile .implied)

/-- The settings with the default command filled in. -/
def withDefaultCommand (settings : Settings) : Settings :=
  { settings with command := some settings.commandOrDefault }

end Settings

end IncludeDeps
