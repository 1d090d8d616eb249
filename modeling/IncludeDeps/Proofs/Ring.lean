import IncludeDeps.Cycle
import Mathlib.Data.List.Chain
import Mathlib.Data.List.Infix

/-!
# From a ring to its cycle

`Cycle.ofRing` turns a ring so that its smallest file comes first and repeats
that file at the end.  `files_ofRing` states this in one equation: the ring is
cut in front of its smallest file, the two parts change places, and the file is
added at the end.  Everything else is read off the cut: the cycle has the files
of the ring (`mem_files_ofRing`), its steps are those of the ring and the step
that closes it (`isChain_files_ofRing`, `closing_infix_files_ofRing`), and a
ring without repetition gives each file but one successor
(`successor_unique`).
-/

namespace IncludeDeps

/-! ## Byte order -/

namespace Text

theorem byteLe_refl (name : String) : byteLe name name = true :=
  decide_eq_true (List.le_refl _)

theorem byteLe_trans {first second third : String} (hfirst : byteLe first second = true)
    (hsecond : byteLe second third = true) : byteLe first third = true :=
  decide_eq_true (List.le_trans (of_decide_eq_true hfirst) (of_decide_eq_true hsecond))

theorem byteLe_of_byteLt {first second : String} (h : byteLt first second = true) :
    byteLe first second = true :=
  decide_eq_true (List.le_of_lt (of_decide_eq_true h))

theorem byteLe_of_not_byteLt {first second : String} (h : ¬ byteLt second first = true) :
    byteLe first second = true :=
  decide_eq_true (List.not_lt.mp fun hlt => h (decide_eq_true hlt))

theorem byteLe_antisymm {first second : String} (hfirst : byteLe first second = true)
    (hsecond : byteLe second first = true) : first = second :=
  bytes_inj.mp (List.le_antisymm (of_decide_eq_true hfirst) (of_decide_eq_true hsecond))

theorem byteLe_total (first second : String) : (byteLe first second || byteLe second first) = true := by
  rw [Bool.or_eq_true]
  obtain h | h := List.le_total (bytes first) (bytes second)
  · exact Or.inl (decide_eq_true h)
  · exact Or.inr (decide_eq_true h)

theorem byteLt_of_ne {first second : String} (hle : byteLe first second = true)
    (hne : first ≠ second) : byteLt first second = true := by
  by_contra hlt
  exact hne (byteLe_antisymm hle (byteLe_of_not_byteLt hlt))

end Text

namespace Cycle

open Text

/-- A fold of `lesser` returns a name that comes before its start and before
all the names of the list. -/
theorem foldl_lesser (names : List String) (best : String) :
    names.foldl lesser best ∈ best :: names ∧
      ∀ name ∈ best :: names, byteLe (names.foldl lesser best) name = true := by
  induction names generalizing best with
  | nil => simp [byteLe_refl]
  | cons next names ih =>
      obtain ⟨hmem, hall⟩ := ih (lesser best next)
      have hbest : byteLe (lesser best next) best = true ∧
          byteLe (lesser best next) next = true := by
        unfold lesser
        split
        · next hlt => exact ⟨byteLe_of_byteLt hlt, byteLe_refl next⟩
        · next hnot => exact ⟨byteLe_refl best, byteLe_of_not_byteLt hnot⟩
      have hcases : lesser best next = best ∨ lesser best next = next := by
        unfold lesser
        split <;> simp
      rw [List.foldl_cons]
      rw [List.forall_mem_cons] at hall
      refine ⟨?_, List.forall_mem_cons.mpr ⟨byteLe_trans hall.1 hbest.1,
        List.forall_mem_cons.mpr ⟨byteLe_trans hall.1 hbest.2, hall.2⟩⟩⟩
      rcases List.mem_cons.mp hmem with hmem | hmem
      · rw [hmem]
        rcases hcases with h | h <;> simp [h]
      · exact List.mem_cons_of_mem _ (List.mem_cons_of_mem _ hmem)

/-! ## Cutting a list at a name -/

/-- A list is cut in front of the first occurrence of a name. -/
theorem dropWhile_ne_of_mem {name : String} {list : List String} (hmem : name ∈ list) :
    ∃ before after, list = before ++ name :: after ∧
      list.takeWhile (· != name) = before ∧ list.dropWhile (· != name) = name :: after := by
  induction list with
  | nil => exact absurd hmem List.not_mem_nil
  | cons head tail ih =>
      by_cases hhead : head = name
      · exact ⟨[], tail, by simp [hhead]⟩
      · obtain ⟨before, after, hsplit, htake, hdrop⟩ :=
          ih ((List.mem_cons.mp hmem).resolve_left fun hsame => hhead hsame.symm)
        refine ⟨head :: before, after, by rw [hsplit, List.cons_append], ?_, ?_⟩
        · simp [hhead, htake]
        · simp [hhead, hdrop]

/-- The cycle of a ring: the part that starts with the smallest file, the part
before it, and that file again. -/
theorem files_ofRing {ring : List String} (hring : ring ≠ []) :
    ∃ before first after, ring = before ++ first :: after ∧
      (ofRing ring).files = (first :: after) ++ (before ++ [first]) ∧
      ∀ name ∈ ring, byteLe first name = true := by
  obtain ⟨head, tail, rfl⟩ := List.exists_cons_of_ne_nil hring
  obtain ⟨hmem, hall⟩ := foldl_lesser tail head
  obtain ⟨before, after, hsplit, htake, hdrop⟩ := dropWhile_ne_of_mem hmem
  refine ⟨before, _, after, hsplit, ?_, hall⟩
  simp only [ofRing, smallest?, turnTo, htake, hdrop, List.append_assoc]

theorem mem_files_ofRing {ring : List String} {name : String} (hring : ring ≠ []) :
    name ∈ (ofRing ring).files ↔ name ∈ ring := by
  obtain ⟨before, first, after, rfl, hfiles, -⟩ := files_ofRing hring
  simp only [hfiles, List.mem_append, List.mem_cons, List.not_mem_nil, or_false]
  tauto

/-! ## The steps along a cycle -/

section

variable {ring : List String} {head last : String}

/-- A relation that leads along a ring and from its last file to its first
leads along the cycle. -/
theorem isChain_files_ofRing {R : String → String → Prop} (hchain : ring.IsChain R)
    (hhead : ring.head? = some head) (hlast : ring.getLast? = some last) (hclose : R last head) :
    (ofRing ring).files.IsChain R := by
  have hring : ring ≠ [] := by
    rintro rfl
    simp at hhead
  obtain ⟨before, first, after, rfl, hfiles, -⟩ := files_ofRing hring
  rw [hfiles, List.isChain_append]
  refine ⟨hchain.suffix (List.suffix_append _ _), hchain.prefix ⟨after, by simp⟩, ?_⟩
  -- where the two parts meet stands the step that closes the ring
  intro x hx y hy
  rw [List.getLast?_append_of_ne_nil _ (List.cons_ne_nil _ _)] at hlast
  obtain rfl : x = last := Option.some.inj (hx.symm.trans hlast)
  have hfront : (before ++ [first]).head? = some head := by
    cases before <;> simpa using hhead
  obtain rfl : y = head := Option.some.inj (hy.symm.trans hfront)
  exact hclose

/-- The step that closes the ring is one of the cycle's. -/
theorem closing_infix_files_ofRing (hhead : ring.head? = some head)
    (hlast : ring.getLast? = some last) : [last, head] <:+: (ofRing ring).files := by
  have hring : ring ≠ [] := by
    rintro rfl
    simp at hhead
  obtain ⟨before, first, after, rfl, hfiles, -⟩ := files_ofRing hring
  rw [List.getLast?_append_of_ne_nil _ (List.cons_ne_nil _ _)] at hlast
  obtain ⟨start, hstart⟩ := List.getLast?_eq_some_iff.mp hlast
  have hfront : (before ++ [first]).head? = some head := by
    cases before <;> simpa using hhead
  obtain ⟨rest, hrest⟩ := List.head?_eq_some_iff.mp hfront
  exact ⟨start, rest, by rw [hfiles, hstart, hrest]; simp⟩

theorem nodup_dropLast_files_ofRing (hring : ring ≠ []) (hnodup : ring.Nodup) :
    (ofRing ring).files.dropLast.Nodup := by
  obtain ⟨before, first, after, rfl, hfiles, -⟩ := files_ofRing hring
  rw [hfiles, ← List.append_assoc, List.dropLast_concat]
  exact (List.perm_append_comm.nodup_iff).mp hnodup

end

theorem mem_dropLast_of_infix {files : List String} {file next : String}
    (h : [file, next] <:+: files) : file ∈ files.dropLast := by
  obtain ⟨before, after, rfl⟩ := h
  rw [List.append_assoc, List.dropLast_append_of_ne_nil (by simp)]
  simp

/-- In a list whose names are distinct up to the last, a name has one
successor. -/
theorem successor_unique {files : List String} {file next other : String}
    (hnodup : files.dropLast.Nodup) (hnext : [file, next] <:+: files)
    (hother : [file, other] <:+: files) : next = other := by
  induction files with
  | nil => simp at hnext
  | cons head tail ih =>
      -- what has a successor further on does not stand at the head
      have htail : ∀ {successor}, [file, successor] <:+: tail →
          head ∉ tail.dropLast ∧ tail.dropLast.Nodup ∧ file ∈ tail.dropLast := by
        intro successor hinfix
        have hmem := mem_dropLast_of_infix hinfix
        have hne : tail ≠ [] := List.ne_nil_of_mem (List.mem_of_mem_dropLast hmem)
        rw [List.dropLast_cons_of_ne_nil hne, List.nodup_cons] at hnodup
        exact ⟨hnodup.1, hnodup.2, hmem⟩
      rcases List.infix_cons_iff.mp hnext with hnext | hnext <;>
        rcases List.infix_cons_iff.mp hother with hother | hother
      · obtain ⟨rest, rfl⟩ := (List.cons_prefix_cons.mp hnext).2
        exact (List.cons_prefix_cons.mp (List.cons_prefix_cons.mp hother).2).1.symm
      · obtain ⟨hhead, -, hmem⟩ := htail hother
        exact absurd ((List.cons_prefix_cons.mp hnext).1 ▸ hmem) hhead
      · obtain ⟨hhead, -, hmem⟩ := htail hnext
        exact absurd ((List.cons_prefix_cons.mp hother).1 ▸ hmem) hhead
      · exact ih (htail hnext).2.1 hnext hother

end Cycle

end IncludeDeps
