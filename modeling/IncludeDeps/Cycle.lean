import IncludeDeps.Text.ByteOrder

/-!
# Include cycles

A cycle is a chain of includes that leads back to its first file.  It is
written with its smallest file first, so that it does not depend on where it
was entered.
-/

namespace IncludeDeps

/-- A chain of includes whose first file is repeated at its end. -/
structure Cycle where
  /-- The files along the cycle. -/
  files : List String
  deriving DecidableEq

namespace Cycle

/-- The name that comes first in byte order, which of equal ones is the
left. -/
def lesser (left right : String) : String :=
  if Text.byteLt right left then right else left

/-- The smallest name of a list in byte order. -/
def smallest? : List String → Option String
  | [] => none
  | first :: rest => some (rest.foldl lesser first)

/-- The list turned so that it starts with the first occurrence of a name. -/
def turnTo (name : String) (ring : List String) : List String :=
  ring.dropWhile (· != name) ++ ring.takeWhile (· != name)

/-- The cycle through the files of a ring, each of which includes the next and
the last of which includes the first. -/
def ofRing (ring : List String) : Cycle :=
  match smallest? ring with
  | none => ⟨[]⟩
  | some first => ⟨turnTo first ring ++ [first]⟩

/-- The files joined by arrows. -/
def text (cycle : Cycle) : String :=
  " -> ".intercalate cycle.files

/-- Whether the cycle is a file that includes itself. -/
def isSelfIncludeOf (cycle : Cycle) (file : String) : Bool :=
  cycle.files == [file, file]

end Cycle

end IncludeDeps
