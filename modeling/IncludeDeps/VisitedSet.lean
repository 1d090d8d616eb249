/-!
# Visited files

The set of the files that a resolution has entered.
-/

namespace IncludeDeps

/-- A finite set of paths. -/
structure VisitedSet where
  /-- The members in no particular order. -/
  paths : List String
  /-- Each member is held once. -/
  nodup : paths.Nodup

namespace VisitedSet

instance : Membership String VisitedSet := ⟨fun visited path => path ∈ visited.paths⟩

instance (path : String) (visited : VisitedSet) : Decidable (path ∈ visited) :=
  inferInstanceAs (Decidable (path ∈ visited.paths))

/-- The set without members. -/
def empty : VisitedSet := ⟨[], List.nodup_nil⟩

instance : Inhabited VisitedSet := ⟨empty⟩

/-- The set with one more member, if it is not one already. -/
def insert (visited : VisitedSet) (path : String) : VisitedSet :=
  if absent : path ∈ visited then visited
  else ⟨path :: visited.paths, List.nodup_cons.mpr ⟨absent, visited.nodup⟩⟩

/-- The set whose one member is a file. -/
def rooted (file : String) : VisitedSet :=
  empty.insert file

/-- The set of the paths of a list. -/
def ofList (paths : List String) : VisitedSet :=
  paths.foldl insert empty

/-- The number of members. -/
def size (visited : VisitedSet) : Nat :=
  visited.paths.length

/-- Whether there is no member. -/
def isEmpty (visited : VisitedSet) : Bool :=
  visited.paths.isEmpty

@[simp] theorem not_mem_empty (path : String) : path ∉ empty :=
  List.not_mem_nil

@[simp] theorem mem_insert {visited : VisitedSet} {path other : String} :
    other ∈ visited.insert path ↔ other = path ∨ other ∈ visited := by
  unfold insert
  split
  · next present =>
    exact ⟨Or.inr, fun either => either.elim (fun same => same ▸ present) id⟩
  · exact List.mem_cons

theorem mem_insert_self (visited : VisitedSet) (path : String) : path ∈ visited.insert path :=
  mem_insert.mpr (Or.inl rfl)

theorem mem_insert_of_mem {visited : VisitedSet} (path : String) {other : String}
    (present : other ∈ visited) : other ∈ visited.insert path :=
  mem_insert.mpr (Or.inr present)

@[simp] theorem mem_rooted {file path : String} : path ∈ rooted file ↔ path = file := by
  simp [rooted]

end VisitedSet

end IncludeDeps
