import IncludeDeps.Prerequisites

/-!
# Dependency graphs

A graph lists for each source what its object depends on.  Sources keep the
order in which they were added.
-/

namespace IncludeDeps

/-- The prerequisites of each source. -/
structure Graph where
  /-- The sources with their prerequisites, in the order of insertion. -/
  entries : List (String × Prerequisites)
  /-- The sources left out because they could not be resolved. -/
  skipped : List String
  /-- No source has two entries. -/
  nodup : (entries.map Prod.fst).Nodup

namespace Graph

/-- The graph without sources. -/
def empty : Graph := ⟨[], [], List.nodup_nil⟩

instance : Inhabited Graph := ⟨empty⟩

/-- The sources in the order of insertion. -/
def sources (graph : Graph) : List String :=
  graph.entries.map Prod.fst

/-- Whether a source has an entry. -/
def contains (graph : Graph) (source : String) : Bool :=
  graph.sources.contains source

/-- The prerequisites recorded for a source. -/
def get? (graph : Graph) (source : String) : Option Prerequisites :=
  graph.entries.lookup source

/-- The number of sources. -/
def size (graph : Graph) : Nat :=
  graph.entries.length

/-- Whether there is no source. -/
def isEmpty (graph : Graph) : Bool :=
  graph.entries.isEmpty

/-- The graph with one more entry; an entry that is there already stays. -/
def insert (graph : Graph) (source : String) (prerequisites : Prerequisites) : Graph :=
  if present : source ∈ graph.entries.map Prod.fst then graph
  else
    { graph with
      entries := graph.entries ++ [(source, prerequisites)]
      nodup := by
        rw [List.map_append, List.nodup_append]
        refine ⟨graph.nodup, by simp, ?_⟩
        simp only [List.map_cons, List.map_nil, List.mem_singleton]
        rintro name listed _ rfl same
        exact present (same ▸ listed) }

theorem entries_insert {graph : Graph} {source : String} (prerequisites : Prerequisites)
    (absent : source ∉ graph.sources) :
    (graph.insert source prerequisites).entries = graph.entries ++ [(source, prerequisites)] := by
  unfold insert
  split
  · next present => exact absurd present absent
  · rfl

/-- The graph with one more source left out. -/
def skip (graph : Graph) (source : String) : Graph :=
  { graph with skipped := graph.skipped ++ [source] }

end Graph

end IncludeDeps
