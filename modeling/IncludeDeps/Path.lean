/-!
# Paths as text

A path is a text whose pieces stand between slashes.  Empty pieces and pieces
`.` say nothing, except at the beginning: an empty first piece makes the path
absolute, and a first piece `.` counts as a piece of its own.  Paths are never
normalised: two spellings of one file are two paths.

The name of a file divides at its last dot into stem and extension.  A dot at
the beginning of a name divides nothing.
-/

namespace IncludeDeps.Path

/-- The pieces between the slashes. -/
def pieces (path : String) : List (List Char) :=
  path.toList.splitOn '/'

/-- Whether a piece says nothing about where a path leads. -/
def isIdle (piece : List Char) : Bool :=
  piece.isEmpty || piece == ['.']

/-- The pieces without the idle ones at the end. -/
def trimIdle (pieces : List (List Char)) : List (List Char) :=
  (pieces.reverse.dropWhile isIdle).reverse

/-- The name of the file that a path leads to: its last piece that is not
idle.  There is none if that piece goes up, or if every piece is idle. -/
def fileName? (path : String) : Option String :=
  match (trimIdle (pieces path)).getLast? with
  | none => none
  | some name => if name = ['.', '.'] then none else some (String.ofList name)

/-- A name divided at its last dot, if it has a dot after its first
character. -/
def splitExtension? (name : List Char) : Option (List Char × List Char) :=
  let extension := (name.reverse.takeWhile (· ≠ '.')).reverse
  let stem := name.take (name.length - extension.length - 1)
  if extension.length < name.length ∧ stem ≠ [] then some (stem, extension) else none

/-- The name of a file without its extension. -/
def stem? (path : String) : Option String :=
  (fileName? path).map fun name =>
    match splitExtension? name.toList with
    | none => name
    | some (stem, _) => String.ofList stem

/-- The extension of a file's name, without the dot. -/
def extension? (path : String) : Option String :=
  (fileName? path).bind fun name =>
    (splitExtension? name.toList).map fun (_, extension) => String.ofList extension

/-- Whether a path starts at the top of the file system. -/
def isAbsolute (path : String) : Bool :=
  path.toList.head? == some '/'

/-- The path without its last piece, spelled as it was: only the slashes and
idle pieces before the piece that is left out go with it.  The top of the file
system and the empty path have no parent. -/
def parent? (path : String) : Option String :=
  match pieces path with
  | [] => none
  | first :: rest =>
    let named := trimIdle rest
    if named.isEmpty then
      if first.isEmpty then none else some ""
    else
      let above := trimIdle named.dropLast
      if first.isEmpty && above.isEmpty then some "/"
      else some (String.ofList (List.intercalate ['/'] (first :: above)))

/-- The path that leads to `path` from the directory `base`. -/
def join (base path : String) : String :=
  if isAbsolute path then path
  else if base.isEmpty || base.toList.getLast? == some '/' then base ++ path
  else base ++ "/" ++ path

/-- Whether a file is another file's own header or source: they are two files
and share the stem of their names. -/
def sharesStem (file candidate : String) : Bool :=
  candidate != file && (stem? file).isSome && stem? candidate == stem? file

theorem sharesStem_iff {file candidate : String} :
    sharesStem file candidate = true ↔ candidate ≠ file ∧
      ∃ stem, stem? file = some stem ∧ stem? candidate = some stem := by
  unfold sharesStem
  cases stem? file <;> simp

end IncludeDeps.Path
