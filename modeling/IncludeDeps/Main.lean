import IncludeDeps.Program
import IncludeDeps.Tree.Listing

/-!
# Running the program

The outermost layer: it loads what the command line may touch into a tree,
lets the program work on that tree, and carries the changes over to the file
system.  Nothing is decided here.
-/

namespace IncludeDeps.Main

/-- A location as a path of the file system. -/
def pathOf (location : Location) : String :=
  "/" ++ Text.ofBytes (Location.path location)

/-- Everything below a directory, except what symbolic links lead to. -/
partial def load (location : Location) : IO (List (Location × Entry)) := do
  let directory ← IO.FS.realPath (pathOf location)
  let mut found := []
  for child in ← directory.readDir do
    let here := location ++ [Text.bytes child.fileName]
    match (← child.path.symlinkMetadata).type with
    | .dir => found := found ++ (here, .directory) :: (← load here)
    | .file =>
      let content ← IO.FS.readBinFile child.path
      found := found ++ [(here, .file content.data.toList)]
    | _ => pure ()
  return found

/-- The tree with an entry at a location; what a directory holds already is
kept. -/
def add (tree : Tree) (location : Location) : Entry → Tree
  | .directory => tree.withDirectory location
  | .file content => tree.put location (.file content)

/-- What stands at a location of the file system, if anything does. -/
def inspect (location : Location) : IO (Option Entry) := do
  try
    let there ← IO.FS.realPath (pathOf location)
    if ← there.isDir then return some .directory
    if ← there.pathExists then return some (.file (← IO.FS.readBinFile there).data.toList)
    return none
  catch _ => return none

/-- The tree with what stands at a location and above it. -/
def loadWay (tree : Tree) (location : Location) : IO Tree := do
  let mut tree := tree
  for depth in [0:location.length] do
    let above := location.take (depth + 1)
    if let some entry ← inspect above then
      tree := add tree above entry
  return tree

/-- The part of the file system that the settings may touch: the source
directory and the way to the output. -/
def snapshot (settings : Settings) (workingDirectory : Location) : IO Tree := do
  let absolute (path : String) : Location :=
    let base := if Path.isAbsolute path then "" else pathOf workingDirectory ++ "/"
    Location.ofPath (Text.bytes (base ++ path))
  let source := Text.ofBytes (settings.directory.getD [0x2E])
  let mut tree ← loadWay Tree.empty workingDirectory
  tree ← loadWay tree (absolute source)
  if tree.get? (absolute source) = some .directory then
    for (location, entry) in ← load (absolute source) do
      tree := add tree location entry
  if let .makefile arguments := settings.commandOrDefault then
    tree ← loadWay tree (absolute (outputPath source (Text.ofBytes arguments.file)))
  return tree

/-- Carries the changes from one tree to another over to the file system. -/
def carryOver (before after : Tree) : IO Unit := do
  for (location, entry) in after.entries do
    if before.get? location != some entry then
      match entry with
      | .directory => IO.FS.createDirAll (pathOf location)
      | .file content => IO.FS.writeBinFile (pathOf location) ⟨content.toArray⟩

/-- Carries out a command line. -/
def execute (words : List CommandLine.Word) : IO UInt32 := do
  let directory ← IO.FS.realPath "."
  let workingDirectory := Location.ofPath (Text.bytes directory.toString)
  match Settings.parse words with
  | .error error =>
    if error = .displayVersion then
      IO.print Program.version
    return error.exitCode.toUInt32
  | .ok settings =>
    let settings := settings.withDefaultCommand
    let tree ← snapshot settings workingDirectory
    let finish := Program.finish settings (settings.run .ample tree workingDirectory)
    carryOver tree finish.tree
    IO.print finish.stdout
    for line in finish.log do
      IO.eprintln line
    return finish.exit.toUInt32

end IncludeDeps.Main

/-- The entry point of the program. -/
def main (arguments : List String) : IO UInt32 :=
  IncludeDeps.Main.execute (arguments.map IncludeDeps.Text.bytes)
