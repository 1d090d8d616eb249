import IncludeDeps.Fault
import IncludeDeps.Path
import IncludeDeps.Text.ByteOrder
import IncludeDeps.Tree.Basic

/-!
# Following paths

A path is followed piece by piece from left to right.  Each piece needs a
directory to stand in: idle pieces stay, `..` goes up, and any other piece
must name something there.  A path that holds a null byte or is too long is
not followed at all.

An ordinary path starts at the working directory, or at the top of the tree if
it is absolute; going up from the top stays there.  A confined path starts at
its root and may not leave it: it is refused if it is absolute, or where it
goes up from the root.  The root is held open, so it is a directory even when
it was removed, but then nothing is in it.
-/

namespace IncludeDeps

/-- How far a path may lead. -/
inductive Reach where
  /-- Anywhere in the tree. -/
  | ordinary (workingDirectory : Location)
  /-- To the root and below it. -/
  | confined (root : Location)
  deriving DecidableEq, Repr

/-- Where a path starts. -/
def Reach.start (reach : Reach) (absolute : Bool) : Except Fault Location :=
  match reach, absolute with
  | ordinary _, true => .ok []
  | ordinary workingDirectory, false => .ok workingDirectory
  | confined _, true => .error .outsideRoot
  | confined root, false => .ok root

/-- The directory above, if it is within reach. -/
def Reach.above (reach : Reach) (here : Location) : Except Fault Location :=
  if reach = .confined here then .error .outsideRoot else .ok here.dropLast

/-- The number of bytes that a name may have. -/
def longestName : Nat := 255

/-- The number of bytes that a path may have. -/
def longestPath : Nat := 4095

/-- The bytes of the pieces of a path. -/
def Path.names (path : String) : List Name :=
  (Path.pieces path).map fun piece => Text.bytes (String.ofList piece)

/-- The pieces of the absolute path that leads to where an ordinary path leads from
a working directory. -/
def Path.fromTop (workingDirectory : Location) (pieces : List Name) : List Name :=
  if pieces.head? = some [] then pieces else [] :: (workingDirectory ++ pieces)

/-- Whether a path with these pieces is longer than a path may be. -/
def Path.isTooLong (pieces : List Name) : Bool :=
  longestPath < (List.intercalate [0x2F] pieces).length

/-- Refuses the pieces of a path that cannot be followed whatever the tree
holds. -/
def Path.admit (pieces : List Name) : Except Fault Unit :=
  if pieces.any (·.contains 0) then .error .invalidPath
  else if Path.isTooLong pieces then .error .nameTooLong
  else .ok ()

namespace Tree

/-- Whether a piece of a path stays where it stands. -/
def staysPut (piece : Name) : Bool :=
  piece.isEmpty || piece == [0x2E]

/-- Whether a piece of a path goes up. -/
def goesUp (piece : Name) : Bool :=
  piece == [0x2E, 0x2E]

/-- Where one piece of a path leads from a location.  The one location where
nothing stands and that can still be stood in is a root that was removed. -/
def enter (tree : Tree) (reach : Reach) (here : Location) (piece : Name) : Except Fault Location :=
  match tree.get? here with
  | none =>
    if reach ≠ .confined here then .error .notFound
    else if staysPut piece then .ok here
    else if goesUp piece then reach.above here
    else .error .notFound
  | some (.file _) => .error .notADirectory
  | some .directory =>
    if staysPut piece then .ok here
    else if goesUp piece then reach.above here
    else if longestName < piece.length then .error .nameTooLong
    else if (tree.get? (here ++ [piece])).isSome then .ok (here ++ [piece])
    else .error .notFound

/-- Where the pieces of a path lead.  An empty first piece makes the path
absolute. -/
def walk (tree : Tree) (reach : Reach) (pieces : List Name) : Except Fault Location := do
  Path.admit pieces
  pieces.foldlM (tree.enter reach) (← reach.start (pieces.head? == some []))

/-- Where a path leads. -/
def locate (tree : Tree) (reach : Reach) (path : String) : Except Fault Location :=
  if path.isEmpty then .error .notFound else tree.walk reach (Path.names path)

/-- The bytes of the file that a path leads to.  Where nothing stands, it led
to a root that was removed. -/
def read (tree : Tree) (reach : Reach) (path : String) : Except Fault (List UInt8) := do
  match tree.get? (← tree.locate reach path) with
  | none | some .directory => .error .isADirectory
  | some (.file content) => .ok content

/-- The location of the directory that an ordinary path leads to.  A path with
a null byte is refused as a whole. -/
def openDirectory (tree : Tree) (workingDirectory : Location) (path : String) :
    Except Fault Location :=
  if (Path.names path).any (·.contains 0) then .error .nullByte
  else do
    let location ← tree.locate (.ordinary workingDirectory) path
    match tree.get? location with
    | none => .error .notFound
    | some (.file _) => .error .notADirectory
    | some .directory => .ok location

/-- What a path leads to is there when it is read. -/
theorem read_ne_notFound {tree : Tree} {reach : Reach} {path : String} {location : Location}
    (located : tree.locate reach path = .ok location) : tree.read reach path ≠ .error .notFound := by
  unfold read
  simp only [located, bind, Except.bind]
  split <;> simp

theorem mem_contents_of_read {tree : Tree} {reach : Reach} {path : String} {content : List UInt8}
    (found : tree.read reach path = .ok content) : content ∈ tree.contents := by
  unfold read at found
  cases located : tree.locate reach path with
  | error fault => simp [located, bind, Except.bind] at found
  | ok location =>
    simp only [located, bind, Except.bind] at found
    split at found
    · simp at found
    · simp at found
    · next content' stands =>
      simp only [Except.ok.injEq] at found
      exact found ▸ mem_contents_of_get? stands

end Tree

end IncludeDeps
