/-!
# Prerequisites

The files that another file depends on, in order and each once.  Collecting
keeps the first occurrence of a path.
-/

namespace IncludeDeps

theorem nodup_eraseDups {α : Type} [BEq α] [LawfulBEq α] :
    ∀ list : List α, list.eraseDups.Nodup
  | [] => by simp
  | first :: rest => by
    rw [List.eraseDups_cons, List.nodup_cons]
    exact ⟨by simp [List.mem_eraseDups], nodup_eraseDups _⟩
  termination_by list => list.length
  decreasing_by exact Nat.lt_succ_of_le (List.length_filter_le _ _)

/-- An ordered list of paths without repetition. -/
structure Prerequisites where
  /-- The paths in order. -/
  paths : List String
  /-- No path is listed twice. -/
  nodup : paths.Nodup
  deriving DecidableEq

namespace Prerequisites

instance : Membership String Prerequisites := ⟨fun prerequisites path => path ∈ prerequisites.paths⟩

/-- The distinct paths of a list, each where it occurs first. -/
def ofList (paths : List String) : Prerequisites :=
  ⟨paths.eraseDups, nodup_eraseDups paths⟩

instance : Inhabited Prerequisites := ⟨ofList []⟩

/-- The number of paths. -/
def size (prerequisites : Prerequisites) : Nat :=
  prerequisites.paths.length

/-- Whether there is no path. -/
def isEmpty (prerequisites : Prerequisites) : Bool :=
  prerequisites.paths.isEmpty

/-- Whether a path is listed. -/
def contains (prerequisites : Prerequisites) (path : String) : Bool :=
  prerequisites.paths.contains path

/-- The list that starts with a path, which is dropped where it stood. -/
def withLeading (prerequisites : Prerequisites) (path : String) : Prerequisites :=
  ofList (path :: prerequisites.paths)

@[simp] theorem paths_ofList (paths : List String) : (ofList paths).paths = paths.eraseDups :=
  rfl

@[simp] theorem mem_ofList {paths : List String} {path : String} :
    path ∈ ofList paths ↔ path ∈ paths :=
  List.mem_eraseDups

theorem paths_inj {first second : Prerequisites} : first.paths = second.paths ↔ first = second := by
  cases first
  cases second
  simp

theorem contains_iff_mem {prerequisites : Prerequisites} {path : String} :
    prerequisites.contains path = true ↔ path ∈ prerequisites :=
  List.contains_iff_mem

end Prerequisites

end IncludeDeps
