import IncludeDeps.Event
import IncludeDeps.Scaffold.Basic
import IncludeDeps.Tree.Change

/-!
# Writing boilerplate

The files of a module are made inside the source directory, with the
directories above them.  What stands already is left as it is and reported as
skipped.
-/

namespace IncludeDeps

/-- What became of one file of a module. -/
inductive FileOutcome where
  /-- The file was made. -/
  | written (path : String)
  /-- Something stood there already. -/
  | skipped (path : String)
  deriving DecidableEq, Repr

/-- The report on one file of a module. -/
def FileOutcome.text : FileOutcome → String
  | written path => "Writing '" ++ path ++ "'"
  | skipped path => "'" ++ path ++ "' already exists - skipping"

/-- Why the boilerplate of a module could not be written. -/
inductive ScaffoldError where
  /-- The path names no module. -/
  | invalidModule (error : InvalidModule)
  /-- A file or directory could not be made. -/
  | unwritable (path : String) (cause : Fault)
  deriving DecidableEq, Repr

namespace ScaffoldError

/-- The wording of the error without its cause. -/
def message : ScaffoldError → String
  | invalidModule error => error.message
  | unwritable path _ => "failed to write `" ++ path ++ "`"

/-- The code that names the kind of the error. -/
def code : ScaffoldError → String
  | invalidModule _ => InvalidModule.code
  | unwritable _ _ => "mkdeps::scaffold::write"

/-- The advice that goes with the error. -/
def help? : ScaffoldError → Option String
  | invalidModule _ => some InvalidModule.help
  | unwritable _ _ => none

/-- The fault behind the error, where it has one. -/
def cause? : ScaffoldError → Option Fault
  | invalidModule _ => none
  | unwritable _ cause => some cause

end ScaffoldError

namespace Scaffold

/-- What writing came to, the tree it left behind and what there is to tell. -/
structure Writing (α : Type) where
  /-- What was done, or why it failed. -/
  result : Except ScaffoldError α
  /-- The tree afterwards. -/
  tree : Tree
  /-- What there is to tell. -/
  events : List Event

/-- Makes a file unless something stands there. -/
def writeNew (tree : Tree) (root : Location) (path text : String) : Writing FileOutcome :=
  match tree.createFile (.confined root) path (Text.bytes text) with
  | .ok made => ⟨.ok (.written path), made, [.wroteBoilerplate path]⟩
  | .error .alreadyExists => ⟨.ok (.skipped path), tree, []⟩
  | .error cause => ⟨.error (.unwritable path cause), tree, []⟩

/-- Makes the directory that a module lies in. -/
def makeParent (tree : Tree) (root : Location) (module : String) :
    Except ScaffoldError Unit × Tree :=
  match (Path.parent? module).filter (!·.isEmpty) with
  | none => (.ok (), tree)
  | some parent =>
    match tree.createDirectories (.confined root) parent with
    | (.ok _, made) => (.ok (), made)
    | (.error cause, made) => (.error (.unwritable parent cause), made)

/-- Makes the source and the header of a module. -/
def writeModule (options : ScaffoldOptions) (tree : Tree) (root : Location) (module : String) :
    Writing (FileOutcome × FileOutcome) :=
  match render options module with
  | .error error => ⟨.error (.invalidModule error), tree, []⟩
  | .ok pair =>
    match makeParent tree root module with
    | (.error error, made) => ⟨.error error, made, []⟩
    | (.ok (), made) =>
      let source := writeNew made root (module ++ ".c") pair.source
      match source.result with
      | .error error => ⟨.error error, source.tree, source.events⟩
      | .ok first =>
        let header := writeNew source.tree root (module ++ ".h") pair.header
        ⟨header.result.map fun second => (first, second), header.tree,
          source.events ++ header.events⟩

end Scaffold

end IncludeDeps
