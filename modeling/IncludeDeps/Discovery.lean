import IncludeDeps.Event

/-!
# Finding the sources of a directory

The sources of a directory are the files right inside it whose extension is
wanted, in byte order.  A name that is no valid text is never a source.
-/

namespace IncludeDeps

/-- The extensions of sources when none are given. -/
def defaultExtensions : List String := ["c", "cc", "cpp", "cxx"]

/-- An extension without one dot at its beginning. -/
def dropDot (extension : String) : String :=
  match extension.toList with
  | '.' :: rest => String.ofList rest
  | _ => extension

/-- Whether the extension of a name is one of those wanted, which may be given
with or without a dot. -/
def hasSourceExtension (wanted : List String) (name : String) : Bool :=
  match Path.extension? name with
  | none => false
  | some extension => wanted.any fun candidate => dropDot candidate == extension

/-- What an entry of a directory adds to the sources, and what there is to
tell of it. -/
def examine (wanted : List String) (child : Name × Entry) : Option String × List Event :=
  match Text.ofBytes? child.1 with
  | none => (none, [.skippedUnreadableName])
  | some name =>
    if hasSourceExtension wanted name then
      match child.2 with
      | .file _ => (some name, [])
      | .directory => (none, [.skippedDirectory name])
    else (none, [])

/-- The sources among the entries of a directory, and what there is to tell. -/
def discoverAmong (wanted : List String) (children : List (Name × Entry)) :
    List String × List Event :=
  ((children.filterMap fun child => (examine wanted child).1).mergeSort Text.byteLe,
    children.flatMap fun child => (examine wanted child).2)

/-- Why a source directory could not be opened. -/
structure OpenError where
  /-- The path given. -/
  path : String
  /-- The fault behind the error. -/
  cause : Fault
  deriving DecidableEq, Repr

namespace OpenError

/-- The wording of the error without its cause. -/
def message (error : OpenError) : String :=
  "failed to open source directory `" ++ error.path ++ "`"

/-- The code that names the kind of the error. -/
def code : String := "mkdeps::scan::open_dir"

end OpenError

/-- The location of a source directory. -/
def Tree.openSources (tree : Tree) (workingDirectory : Location) (path : String) :
    Except OpenError Location :=
  (tree.openDirectory workingDirectory path).mapError (OpenError.mk path)

/-- The sources of a directory of a tree, and what there is to tell. -/
def Tree.discover (tree : Tree) (directory : Location) (wanted : List String) :
    List String × List Event :=
  discoverAmong wanted (tree.children directory)

end IncludeDeps
