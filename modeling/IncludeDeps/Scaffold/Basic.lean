import IncludeDeps.Path

/-!
# Boilerplate for a module

A module gets a source and a header with an include guard.  Guards are named
after the last piece of the module's path and, if one is given, a tag of the
project.  An option that is empty counts as absent.
-/

namespace IncludeDeps

/-- What boilerplate may hold besides the guards. -/
structure ScaffoldOptions where
  /-- A tag that comes first in the names of guards. -/
  guardPrefix : Option String := none
  /-- A header that every new header includes. -/
  configHeader : Option String := none
  /-- A macro that is empty in the module's own source and says inline
  elsewhere. -/
  inlineMacro : Option String := none
  /-- A header that ends every new header that defines such a macro. -/
  inlineEnd : Option String := none
  deriving DecidableEq, Repr

/-- A path that names no module. -/
structure InvalidModule where
  /-- The path given for the module. -/
  module : String
  deriving DecidableEq, Repr

namespace InvalidModule

/-- The wording of the error. -/
def message (error : InvalidModule) : String :=
  "invalid module name `" ++ error.module ++ "`"

/-- The code that names the kind of the error. -/
def code : String := "mkdeps::scaffold::invalid_module"

/-- The advice that goes with the error. -/
def help : String := "pass a module path without extension, such as `list` or `sys/thread`"

end InvalidModule

namespace Scaffold

/-- Whether a character may stand in a guard, in capitals. -/
def isGuardCharacter (c : Char) : Bool :=
  c.isAlphanum

/-- The guard characters of a text in capitals, with one underscore for each
run of other characters.  The flag tells whether such a run has just been
written. -/
def guardFrom (inGap : Bool) : List Char → List Char
  | [] => []
  | c :: rest =>
    if isGuardCharacter c then c.toUpper :: guardFrom false rest
    else if inGap then guardFrom true rest
    else '_' :: guardFrom true rest

/-- The part of a guard that comes from a name. -/
def guardName (name : String) : String :=
  String.ofList (guardFrom false name.toList)

/-- The guard of a module without its ending. -/
def guard (options : ScaffoldOptions) (name : String) : String :=
  match (options.guardPrefix.map guardName).filter (!·.isEmpty) with
  | none => "__" ++ guardName name
  | some tag => "__" ++ tag ++ "__" ++ guardName name

/-- The guard that a module's source defines. -/
def sourceGuard (options : ScaffoldOptions) (name : String) : String :=
  guard options name ++ "_C__"

/-- The guard around a module's header. -/
def headerGuard (options : ScaffoldOptions) (name : String) : String :=
  guard options name ++ "_H__"

/-- An option that is there and not empty. -/
def given (option : Option String) : Option String :=
  option.filter (!·.isEmpty)

/-- The lines that let the code be used from a language with mangled names. -/
def linkage : List String :=
  ["#ifdef __cplusplus", "extern \"C\" \x7b", "#endif /* __cplusplus */", "", "", "",
    "#ifdef __cplusplus", "\x7d", "#endif /* __cplusplus */"]

/-- The lines that include the configuration. -/
def configLines (options : ScaffoldOptions) : List String :=
  match given options.configHeader with
  | none => []
  | some header => ["", "/* Includes */", "#include <" ++ header ++ ">"]

/-- The lines that define the inline macro. -/
def inlineLines (options : ScaffoldOptions) (sourceGuard : String) : List String :=
  match given options.inlineMacro with
  | none => []
  | some name =>
    ["", "/* Inline boilerplate */", "#ifdef " ++ sourceGuard, "#define " ++ name, "#else",
      "#define " ++ name ++ " inline", "#endif /* " ++ sourceGuard ++ " */",
      "/* End inline boilerplate */"]

/-- The lines that include the header which undefines the inline macro. -/
def inlineEndLines (options : ScaffoldOptions) : List String :=
  match given options.inlineMacro, given options.inlineEnd with
  | some name, some header => ["", "/* Undefine " ++ name ++ " */", "#include <" ++ header ++ ">"]
  | _, _ => []

/-- The lines of a module's source. -/
def sourceLines (options : ScaffoldOptions) (module name : String) : List String :=
  ["#define " ++ sourceGuard options name, "", "#include \"" ++ module ++ ".h\"", ""] ++ linkage

/-- The lines of a module's header. -/
def headerLines (options : ScaffoldOptions) (name : String) : List String :=
  let guard := headerGuard options name
  ["#ifndef " ++ guard, "#define " ++ guard ++ " 1"] ++ configLines options ++
    inlineLines options (sourceGuard options name) ++ "" :: linkage ++ inlineEndLines options ++
    ["", "#endif /* end " ++ guard ++ " include guard */"]

/-- A text of lines, each with a line feed after it. -/
def textOf (lines : List String) : String :=
  String.join (lines.map (· ++ "\n"))

/-- The texts of a module's source and header. -/
structure Pair where
  /-- The text of the source. -/
  source : String
  /-- The text of the header. -/
  header : String
  deriving DecidableEq, Repr

/-- The boilerplate of a module.  Its path must lead to a name. -/
def render (options : ScaffoldOptions) (module : String) : Except InvalidModule Pair :=
  match Path.fileName? module with
  | none => .error ⟨module⟩
  | some name =>
    .ok ⟨textOf (sourceLines options module name), textOf (headerLines options name)⟩

end Scaffold

end IncludeDeps
