import IncludeDeps.Text.Decoding

/-!
# Reading command lines

A grammar says which switches, operands and subcommands a command knows, and
what each of them changes in the command's settings.

The words are read from left to right.  A switch that takes a value may have
it attached (`--name=value`, `-nvalue`) or take the next word that does not
start with a dash.  An attached value takes effect at once.  A value in a word
of its own, like the operands, takes effect when the next switch is met, when
other operands begin, or at the end; so an unknown word further on is reported
before a bad value is.

A word `--` ends the switches: all that follows are operands.
-/

namespace IncludeDeps.CommandLine

/-- One word of a command line. -/
abbrev Word := List UInt8

/-- Why a command line is not carried out. -/
inductive UsageError where
  /-- A switch or an operand that the command does not know. -/
  | unknownArgument
  /-- A value that the switch or operand does not mark, or none at all. -/
  | invalidValue
  /-- A word in the place of a subcommand that names none. -/
  | invalidSubcommand
  /-- A switch given twice that may be given once. -/
  | argumentConflict
  /-- Something that must be given is missing. -/
  | missingRequiredArgument
  /-- A value attached to a switch that takes none. -/
  | tooManyValues
  /-- A value that should be text and is not. -/
  | invalidUtf8
  /-- Help was asked for. -/
  | displayHelp
  /-- The version was asked for. -/
  | displayVersion
  deriving DecidableEq, Repr

/-- The exit status that answers the command line. -/
def UsageError.exitCode : UsageError → Nat
  | displayHelp | displayVersion => 0
  | _ => 2

/-- What a switch does to the settings of its command. -/
inductive Effect (σ : Type) where
  /-- The switch alone changes them. -/
  | flag (set : σ → σ)
  /-- The switch takes a value. -/
  | value (set : Word → σ → Except UsageError σ)
  /-- The switch asks for help. -/
  | help
  /-- The switch asks for the version. -/
  | version

/-- A switch of a command. -/
structure Switch (σ : Type) where
  /-- The name after two dashes. -/
  name : String
  /-- The letter after one dash, which is an ASCII character. -/
  letter : Option Char := none
  /-- Whether it may be given more than once. -/
  repeatable : Bool := false
  /-- What it does. -/
  effect : Effect σ

/-- The words of a command that belong to no switch. -/
structure Operand (σ : Type) where
  /-- Whether there may be more than one. -/
  many : Bool
  /-- What one of them does. -/
  set : Word → σ → Except UsageError σ

/-- What a command knows. -/
structure Grammar (σ : Type) where
  /-- Its switches. -/
  switches : List (Switch σ)
  /-- Its operands, if it takes any. -/
  operand : Option (Operand σ) := none
  /-- The names of its subcommands. -/
  subcommands : List String := []

/-- What has been read and has not taken effect. -/
inductive Pending (σ : Type) where
  /-- A switch and its value, which may still be to come. -/
  | switch (switch : Switch σ) (value : Option Word)
  /-- Operands. -/
  | operands (operand : Operand σ) (words : List Word)

/-- How far a command line has been read. -/
structure Reading (σ : Type) where
  /-- The settings so far. -/
  settings : σ
  /-- The names of the switches that have taken effect. -/
  given : List String := []
  /-- What has not taken effect yet. -/
  pending : Option (Pending σ) := none
  /-- Whether the switches have ended. -/
  trailing : Bool := false
  /-- Whether no further operand is admitted. -/
  full : Bool := false

namespace Reading

variable {σ : Type}

/-- Whether a switch waits for its value. -/
def isWaiting (reading : Reading σ) : Bool :=
  match reading.pending with
  | some (.switch _ none) => true
  | _ => false

/-- Takes note of a switch that takes effect.  Only a repeatable switch may do
so twice. -/
def mark (reading : Reading σ) (switch : Switch σ) : Except UsageError (Reading σ) :=
  if !switch.repeatable && reading.given.contains switch.name then .error .argumentConflict
  else .ok { reading with given := switch.name :: reading.given }

/-- Lets a switch take effect that has the value given, if it takes one. -/
def apply (reading : Reading σ) (switch : Switch σ) (value : Option Word) :
    Except UsageError (Reading σ) :=
  match switch.effect, value with
  | .help, _ => .error .displayHelp
  | .version, _ => .error .displayVersion
  | .flag set, _ => do
    let reading ← reading.mark switch
    return { reading with settings := set reading.settings }
  | .value _, none => .error .invalidValue
  | .value set, some word => do
    let reading ← reading.mark switch
    return { reading with settings := ← set word reading.settings }

/-- Lets what is pending take effect. -/
def settle (reading : Reading σ) : Except UsageError (Reading σ) :=
  match reading.pending with
  | none => .ok reading
  | some (.switch switch value) => ({ reading with pending := none }).apply switch value
  | some (.operands operand words) => do
    let settings ← words.foldlM (fun settings word => operand.set word settings) reading.settings
    return { reading with settings, pending := none }

/-- Lets a switch take effect, after what is pending. -/
def react (reading : Reading σ) (switch : Switch σ) (value : Option Word) :
    Except UsageError (Reading σ) := do
  (← reading.settle).apply switch value

/-- Waits for the value of a switch. -/
def await (reading : Reading σ) (switch : Switch σ) : Except UsageError (Reading σ) := do
  return { ← reading.settle with pending := some (.switch switch none) }

/-- Takes a word that is no switch: the value that is waited for. -/
def supply (reading : Reading σ) (word : Word) : Reading σ :=
  match reading.pending with
  | some (.switch switch none) => { reading with pending := some (.switch switch (some word)) }
  | _ => reading

/-- Takes an operand. -/
def addOperand (reading : Reading σ) (operand : Operand σ) (word : Word) :
    Except UsageError (Reading σ) :=
  match reading.pending, operand.many with
  | some (.operands _ words), true =>
    .ok { reading with pending := some (.operands operand (words ++ [word])) }
  | _, many => do
    return { ← reading.settle with pending := some (.operands operand [word]), full := !many }

end Reading

namespace Grammar

variable {σ : Type}

/-- The bytes of a name. -/
def spelled (name : String) : Word := Text.bytes name

/-- The subcommand that a word names. -/
def subcommand? (grammar : Grammar σ) (word : Word) : Option String :=
  grammar.subcommands.find? fun name => spelled name == word

/-- The switch of a name. -/
def named? (grammar : Grammar σ) (name : Word) : Option (Switch σ) :=
  grammar.switches.find? fun switch => spelled switch.name == name

/-- The switch of a letter. -/
def lettered? (grammar : Grammar σ) (byte : UInt8) : Option (Switch σ) :=
  grammar.switches.find? fun switch => switch.letter.any fun letter => letter.toNat == byte.toNat

/-- Reads a switch by its name: what follows two dashes. -/
def readName (grammar : Grammar σ) (word : Word) (reading : Reading σ) :
    Except UsageError (Reading σ) :=
  let name := word.takeWhile (· != 0x3D)
  let attached := if name.length < word.length then some (word.drop (name.length + 1)) else none
  match grammar.named? name with
  | none => .error .unknownArgument
  | some switch =>
    match switch.effect, attached with
    | .value _, some value => reading.react switch (some value)
    | .value _, none => reading.await switch
    | _, some _ => .error .tooManyValues
    | _, none => reading.react switch none

/-- Reads switches by their letters: what follows one dash.  The first that
takes a value takes the rest of the word, without an equals sign before it. -/
def readLetters (grammar : Grammar σ) : Word → Reading σ → Except UsageError (Reading σ)
  | [], reading => .ok reading
  | byte :: rest, reading =>
    match grammar.lettered? byte with
    | none => .error .unknownArgument
    | some switch =>
      match switch.effect with
      | .value _ =>
        if rest.isEmpty then reading.await switch
        else reading.react switch (some (if rest.head? = some 0x3D then rest.tail else rest))
      | _ => do grammar.readLetters rest (← reading.react switch none)

/-- Reads a word that belongs to no switch. -/
def readOperand (grammar : Grammar σ) (word : Word) (reading : Reading σ) :
    Except UsageError (Reading σ) :=
  match grammar.operand, reading.full with
  | some operand, false => reading.addOperand operand word
  | _, _ =>
    if grammar.subcommands.isEmpty then .error .unknownArgument
    else if reading.trailing && (grammar.subcommand? word).isSome then .error .unknownArgument
    else .error .invalidSubcommand

/-- Reads one word that is no subcommand. -/
def readWord (grammar : Grammar σ) (reading : Reading σ) (word : Word) :
    Except UsageError (Reading σ) :=
  if reading.trailing then grammar.readOperand word reading
  else
    match word with
    | [0x2D, 0x2D] => .ok { reading with trailing := true }
    | 0x2D :: 0x2D :: name => grammar.readName name reading
    | 0x2D :: byte :: rest => grammar.readLetters (byte :: rest) reading
    | _ =>
      if reading.isWaiting then .ok (reading.supply word) else grammar.readOperand word reading

/-- The answer to a request for help on the words given: the first must name a
subcommand, and subcommands have none of their own. -/
def helpOn (grammar : Grammar σ) : List Word → UsageError
  | [] => .displayHelp
  | [word] => if (grammar.subcommand? word).isSome then .displayHelp else .invalidSubcommand
  | _ => .invalidSubcommand

/-- Reads words up to the end or to a subcommand, and gives that with the
words after it.  The subcommand `help` is answered at once. -/
def readWords (grammar : Grammar σ) : List Word → Reading σ →
    Except UsageError (Reading σ × Option (String × List Word))
  | [], reading => .ok (reading, none)
  | word :: rest, reading =>
    let expected := !reading.trailing && !reading.isWaiting
    match if expected then grammar.subcommand? word else none with
    | some "help" => .error (grammar.helpOn rest)
    | some name => .ok (reading, some (name, rest))
    | none => do grammar.readWords rest (← grammar.readWord reading word)

/-- The settings that the words of a command without subcommands give. -/
def read (grammar : Grammar σ) (settings : σ) (words : List Word) : Except UsageError σ := do
  let (reading, _) ← grammar.readWords words { settings }
  return (← reading.settle).settings

end Grammar

end IncludeDeps.CommandLine
