import IncludeDeps.Directive
import IncludeDeps.Text.Decoding
import IncludeDeps.Tree.Lookup

/-!
# What a resolution sees of a source directory

A resolution reads files by their paths and asks which paths are present.
Only finitely many targets occur in what can be read; they are listed, and the
list bounds every resolution.  `Tree.sources` is the view of a directory of a
tree.
-/

namespace IncludeDeps

/-- The directives of a file's bytes, whatever their encoding. -/
def directivesOf (content : List UInt8) : List Directive :=
  Directive.extract (Text.decode content)

/-- A directory as a resolution sees it. -/
structure SourceDirectory where
  /-- The bytes of the file at a path. -/
  read : String → Except Fault (List UInt8)
  /-- Whether a path leads to a file or a directory. -/
  present : String → Bool
  /-- Every target that a readable file names. -/
  targets : List String
  /-- The list of targets is complete. -/
  mem_targets : ∀ {path content directive}, read path = .ok content →
    directive ∈ directivesOf content → directive.target ∈ targets

/-- The view of the directory of a tree at a location: paths are confined to
it. -/
def Tree.sources (tree : Tree) (root : Location) : SourceDirectory where
  read path := tree.read (.confined root) path
  present path := (tree.locate (.confined root) path).toOption.isSome
  targets := tree.contents.flatMap fun content => (directivesOf content).map Directive.target
  mem_targets found directive := List.mem_flatMap.mpr
    ⟨_, Tree.mem_contents_of_read found, List.mem_map_of_mem directive⟩

end IncludeDeps
