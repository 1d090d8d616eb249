import IncludeDeps.Tree.Lookup

/-!
# Changing a tree

New files and directories are only made where nothing stands yet; moving a
file into the place of another is the one change that may overwrite.  An
operation that fails halfway keeps the directories it has made, so the
operations that may do so return a tree beside their result.
-/

namespace IncludeDeps

namespace Tree

/-- The location of a new entry in a directory: entering the piece must fail
for no other reason than that nothing is there. -/
def vacancy (tree : Tree) (reach : Reach) (here : Location) (piece : Name) :
    Except Fault Location :=
  match tree.enter reach here piece with
  | .ok _ => .error .alreadyExists
  | .error .notFound =>
    if tree.get? here = some .directory then .ok (here ++ [piece]) else .error .notFound
  | .error fault => .error fault

/-- The tree with a new file at a path. -/
def createFile (tree : Tree) (reach : Reach) (path : String) (content : List UInt8) :
    Except Fault Tree := do
  let names := Path.names path
  Path.admit names
  let here ← tree.walk reach names.dropLast
  let location ← tree.vacancy reach here (names.getLast?.getD [])
  return tree.put location (.file content)

/-- The pieces of a path without those at its end that stay put.  The first
piece is always kept. -/
def dropIdleEnd : List Name → List Name
  | [] => []
  | first :: rest => first :: (rest.reverse.dropWhile staysPut).reverse

/-- The location of the directory that the pieces of a path lead to, however
many idle ones come last.  Where nothing stands, they led to a root that was
removed. -/
def walkToDirectory (tree : Tree) (reach : Reach) (pieces : List Name) : Except Fault Location := do
  let location ← tree.walk reach (dropIdleEnd pieces)
  match tree.get? location with
  | some (.file _) => .error .notADirectory
  | none | some .directory => .ok location

/-- The location of a new directory called `name` in a directory. -/
def directoryVacancy (tree : Tree) (reach : Reach) (here : Location) (name : Name) :
    Except Fault Location :=
  if name.contains 0 then .error .invalidPath else tree.vacancy reach here name

/-- What the last step comes to when the directory at the pieces is made: where
nothing stands a directory is put, and one that stands there already is as good
as a new one. -/
def settleDirectory (tree : Tree) (reach : Reach) (pieces : List Name) :
    Except Fault Location → Except Fault Location × Tree
  | .ok vacant => (.ok vacant, tree.put vacant .directory)
  | .error fault => ((tree.walkToDirectory reach pieces).mapError fun _ => fault, tree)

/-- Makes the directory at the pieces, which are given from the last to the
first, and tells its location.  Where the directory above is missing, that is
made first. -/
def createDirectoriesUpward (tree : Tree) (reach : Reach) :
    List Name → Except Fault Location × Tree
  | [] => (reach.start false, tree)
  | last :: above =>
    let pieces := (last :: above).reverse
    match tree.walkToDirectory reach above.reverse >>= (tree.directoryVacancy reach · last) with
    | .error .notFound =>
      match tree.createDirectoriesUpward reach above with
      | (.error fault, made) => (.error fault, made)
      | (.ok here, made) => made.settleDirectory reach pieces (made.directoryVacancy reach here last)
    | first => tree.settleDirectory reach pieces first

/-- Makes the directory that a path leads to and those above it, as far as
they are missing.  An ordinary path that holds a null byte or is too long is
refused as a whole; with a confined path, the last piece of what is to be made
does not count. -/
def createDirectories (tree : Tree) (reach : Reach) (path : String) :
    Except Fault Location × Tree :=
  let names := Path.names path
  match reach with
  | .ordinary _ =>
    if names.any (·.contains 0) then (.error .nullByte, tree)
    else if Path.isTooLong names then (.error .nameTooLong, tree)
    else tree.createDirectoriesUpward reach names.reverse
  | .confined _ => tree.createDirectoriesUpward reach names.reverse

/-- Where a file that is moved to a path comes to stand.  A slash at the end of
the path asks for a directory, and a file cannot stand in for one. -/
def destination (tree : Tree) (reach : Reach) (path : String) : Except Fault Location := do
  let names := Path.names path
  let named := (names.reverse.dropWhile (·.isEmpty)).reverse
  Path.admit names
  let here ← tree.walk reach named.dropLast
  let last := named.getLast?.getD []
  match tree.get? here with
  | none => .error .notFound
  | some (.file _) => .error .notADirectory
  | some .directory =>
    if staysPut last || goesUp last then .error .busy
    else if longestName < last.length then .error .nameTooLong
    else if named.length < names.length then .error .notADirectory
    else if tree.get? (here ++ [last]) = some .directory then .error .isADirectory
    else return here ++ [last]

/-- The tree with the file at a location moved to a path, in place of a file that
stood there. -/
def moveFile (tree : Tree) (reach : Reach) (source : Location) (path : String) :
    Except Fault Tree := do
  let location ← tree.destination reach path
  match tree.get? source with
  | some (.file content) => return (tree.prune source).put location (.file content)
  | _ => .error .notFound

/-! ## Replacing a file -/

/-- The number of bytes in the name of a temporary file. -/
def temporaryLength : Nat := 10

/-- The name of a temporary file: `.tmp` and an ending that was drawn for it. -/
def temporaryName (ending : Vector UInt8 6) : Name :=
  [0x2E, 0x74, 0x6D, 0x70] ++ ending.toList

theorem length_temporaryName (ending : Vector UInt8 6) :
    (temporaryName ending).length = temporaryLength := by
  simp [temporaryName, temporaryLength]

end Tree

/-- What replacing a file asks of the storage behind a tree.  It may be refused for
a reason that the tree does not show. -/
structure Storage where
  /-- Draws the ending of the name of a new file in a directory with some names in use. -/
  draw : List Name → Except Fault (Vector UInt8 6)
  /-- A new file has a name that is not in use. -/
  fresh : ∀ {used ending}, draw used = .ok ending → Tree.temporaryName ending ∉ used
  /-- Takes the bytes of a file. -/
  store : List UInt8 → Except Fault Unit

namespace Storage

/-- The ending that a number spells with its last six digits. -/
def spelledEnding (number : Nat) : Vector UInt8 6 :=
  Vector.ofFn fun place => (0x30 + number / Nat.pow 10 (5 - place.val) % 10).toUInt8

/-- A storage that takes every file, and tries one ending after another. -/
def ample : Storage where
  draw used :=
    match ((List.range (used.length + 1)).map spelledEnding).find?
        (Tree.temporaryName · ∉ used) with
    | none => .error .alreadyExists
    | some ending => .ok ending
  fresh := by
    intro used ending drawn
    split at drawn
    · cases drawn
    · next found =>
      obtain rfl := Except.ok.inj drawn
      simpa using List.find?_some found
  store _ := .ok ()

instance : Inhabited Storage := ⟨ample⟩

end Storage

namespace Tree

/-- At what point a file could not be replaced. -/
inductive ReplaceError where
  /-- The temporary file could not be made. -/
  | making (cause : Fault)
  /-- Its bytes could not be written. -/
  | writing (cause : Fault)
  /-- It could not be moved. -/
  | moving (cause : Fault)
  deriving DecidableEq, Repr

/-- Whether the name of a temporary file behind these pieces makes a path too long. -/
def lacksRoom (above : List Name) : Bool :=
  longestPath < (List.intercalate [0x2F] above).length + 1 + temporaryLength

/-- The location of a new temporary file in a directory.  It is made by an absolute
path, of which `above` are the pieces in front of its name, and that may be too long
although the path that led to the directory was not. -/
def temporaryFile (tree : Tree) (storage : Storage) (directory : Location) (above : List Name) :
    Except Fault Location :=
  if lacksRoom above then .error .nameTooLong
  else do
    let ending ← storage.draw ((tree.children directory).map Prod.fst)
    return directory ++ [temporaryName ending]

/-- Puts a file at a path, in place of a file that stood there.  It is written
under a temporary name in a directory and then moved as a whole; if it cannot be
written or moved, the temporary file is removed again. -/
def replaceFile (tree : Tree) (storage : Storage) (reach : Reach) (directory : Location)
    (above : List Name) (path : String) (content : List UInt8) :
    Except ReplaceError Unit × Tree :=
  match tree.temporaryFile storage directory above with
  | .error cause => (.error (.making cause), tree)
  | .ok temporary =>
    match storage.store content with
    | .error cause => (.error (.writing cause), (tree.put temporary (.file [])).prune temporary)
    | .ok () =>
      let written := tree.put temporary (.file content)
      match written.moveFile reach temporary path with
      | .error cause => (.error (.moving cause), written.prune temporary)
      | .ok moved => (.ok (), moved)

end Tree

end IncludeDeps
