import IncludeDeps.Tree.Basic

/-!
# Listing a tree

A location is written as a path from the top of the tree, and a path that
needs no tree to be followed is read as a location: idle pieces stay where
they stand and `..` drops the piece before it.
-/

namespace IncludeDeps

namespace Location

/-- The path from the top of the tree. -/
def path (location : Location) : List UInt8 :=
  List.intercalate [0x2F] location

/-- The location that a further piece of a path spells. -/
def extend (location : Location) (piece : Name) : Location :=
  if piece = [] ∨ piece = [0x2E] then location
  else if piece = [0x2E, 0x2E] then location.dropLast
  else location ++ [piece]

/-- The location that a path spells. -/
def ofPath (path : List UInt8) : Location :=
  (path.splitOn 0x2F).foldl extend []

end Location

/-- The paths of a tree in byte order, each with the bytes of its file; a
directory has none. -/
def Tree.listing (tree : Tree) : List (List UInt8 × Option (List UInt8)) :=
  let lines := tree.entries.map fun (location, entry) =>
    (Location.path location, match entry with
      | .file content => some content
      | .directory => none)
  lines.mergeSort fun first second => decide (first.1 ≤ second.1)

end IncludeDeps
