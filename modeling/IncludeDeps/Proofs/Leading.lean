import IncludeDeps.Proofs.FirstOccurrence
import Mathlib.Data.List.Nodup

/-!
# Putting paths in front

A list of prerequisites is collected once and may be given leading paths later, one after
the other.  Each is put in front and dropped where it stood.  It comes to the same to write
all the leading paths in front of the list, the last one first, and to collect then
(`foldl_withLeading_ofList`): collecting may wait to the end.

What collecting keeps is said without it by `KeepsFirst`: every item once, in the order of
first occurrence.  There is only one such list (`keepsFirst_iff`).

Moving the own headers of a file to the front keeps the order among them and among the
others (`filter_promoteOwn`), so a second time there is nothing left to move.
-/

namespace IncludeDeps

/-! ## First occurrences -/

section

variable {α : Type} [DecidableEq α] {list kept : List α}

/-- Every item of a list once, in the order in which they first occur in it. -/
structure KeepsFirst (list kept : List α) : Prop where
  mem : ∀ item, item ∈ kept ↔ item ∈ list
  order : kept.Pairwise fun first second => list.idxOf first < list.idxOf second

theorem pairwise_idxOf_eraseDups (list : List α) :
    list.eraseDups.Pairwise fun first second => list.idxOf first < list.idxOf second := by
  induction list with
  | nil => exact .nil
  | cons head rest ih =>
      rw [List.eraseDups_cons, eraseDups_filter]
      have hplace : ∀ item ∈ rest.eraseDups.filter (fun item => !item == head),
          (head :: rest).idxOf item = rest.idxOf item + 1 := by
        intro item hitem
        have hother : item ≠ head := by simpa using (List.mem_filter.mp hitem).2
        exact List.idxOf_cons_ne _ hother.symm
      apply List.Pairwise.cons
      · intro item hitem
        rw [hplace item hitem, List.idxOf_cons_self]
        omega
      · apply (ih.filter _).imp_of_mem
        intro first second hfirst hsecond hlt
        rw [hplace first hfirst, hplace second hsecond]
        omega

theorem KeepsFirst.nodup (hkeeps : KeepsFirst list kept) : kept.Nodup := by
  apply hkeeps.order.imp
  rintro first _ hlt rfl
  exact absurd hlt (Nat.lt_irrefl _)

/-- Dropping repetitions keeps first occurrences, and nothing else does. -/
theorem keepsFirst_iff : KeepsFirst list kept ↔ kept = list.eraseDups := by
  constructor
  · intro hkeeps
    have hperm : kept.Perm list.eraseDups := by
      apply (List.perm_ext_iff_of_nodup hkeeps.nodup (nodup_eraseDups list)).mpr
      intro item
      rw [hkeeps.mem, List.mem_eraseDups]
    apply List.Perm.eq_of_pairwise _ hkeeps.order (pairwise_idxOf_eraseDups list) hperm
    intro first second _ _ hlt hgt
    exact absurd hlt (Nat.lt_asymm hgt)
  · rintro rfl
    exact ⟨fun _ => List.mem_eraseDups, pairwise_idxOf_eraseDups list⟩

end

/-! ## Leading paths -/

namespace Prerequisites

theorem withLeading_ofList (list : List String) (path : String) :
    (ofList list).withLeading path = ofList (path :: list) :=
  paths_inj.mp (eraseDups_cons_congr (eraseDups_eraseDups list))

/-- Leading paths may be written down first and collected in the end. -/
theorem foldl_withLeading_ofList (leading list : List String) :
    leading.foldl withLeading (ofList list) = ofList (leading.reverse ++ list) := by
  induction leading generalizing list with
  | nil => rfl
  | cons path rest ih =>
      calc (path :: rest).foldl withLeading (ofList list)
          = rest.foldl withLeading (ofList (path :: list)) := by
            rw [List.foldl_cons, withLeading_ofList]
        _ = ofList (rest.reverse ++ path :: list) := ih _
        _ = ofList ((path :: rest).reverse ++ list) := by
            rw [List.reverse_cons, List.append_assoc, List.singleton_append]

end Prerequisites

/-- The paths that are no leading ones stay as they were. -/
theorem filter_notMem_eraseDups_append (leading list : List String) :
    ((leading.reverse ++ list).eraseDups.filter fun path => path ∉ leading) =
      list.eraseDups.filter fun path => path ∉ leading := by
  have hnone : (leading.reverse.filter fun path => path ∉ leading) = [] := by
    simp [List.filter_eq_nil_iff]
  rw [← eraseDups_filter, List.filter_append, hnone, List.nil_append, eraseDups_filter]

/-! ## Own headers -/

section

variable {α : Type} (file : String) (path : α → String) (items : List α)

/-- Neither the own headers nor the other items change their order. -/
theorem filter_promoteOwn (own : Bool) :
    ((promoteOwn file path items).filter fun item => Path.sharesStem file (path item) == own) =
      items.filter fun item => Path.sharesStem file (path item) == own := by
  cases own <;> simp [promoteOwn, List.filter_filter]

theorem promoteOwn_promoteOwn :
    promoteOwn file path (promoteOwn file path items) = promoteOwn file path items := by
  have hown := filter_promoteOwn file path items true
  have hrest := filter_promoteOwn file path items false
  simp only [beq_true, beq_false] at hown hrest
  rw [promoteOwn, hown, hrest, promoteOwn]

/-- No own header stands behind an item that is none. -/
theorem pairwise_promoteOwn :
    (promoteOwn file path items).Pairwise fun first second =>
      Path.sharesStem file (path second) = true → Path.sharesStem file (path first) = true := by
  apply List.pairwise_append.mpr
  refine ⟨?_, ?_, ?_⟩
  · apply List.pairwise_of_forall_mem_list
    intro first hfirst second _ _
    exact (List.mem_filter.mp hfirst).2
  · apply List.pairwise_of_forall_mem_list
    intro first _ second hsecond hown
    have hother := (List.mem_filter.mp hsecond).2
    rw [hown] at hother
    cases hother
  · intro first hfirst second _ _
    exact (List.mem_filter.mp hfirst).2

end

/-! ## Main result -/

/-- **Lists are collected once, whenever that is.**  Collecting a list and then putting paths
in front, one after the other, keeps the first occurrences of those paths, the last one first,
and the list behind them: never is a path listed twice, none gets lost, and the others keep
their order.  Moving own headers to the front keeps the order on both sides, may be done
before or after repetitions are dropped, and need not be done twice. -/
theorem Prerequisites.keepsFirst_foldl_withLeading (list leading : List String) :
    (leading.foldl withLeading (ofList list)).paths = (leading.reverse ++ list).eraseDups ∧
    KeepsFirst (leading.reverse ++ list) (leading.foldl withLeading (ofList list)).paths ∧
    (∀ count, ((leading.take count).foldl withLeading (ofList list)).paths.Nodup) ∧
    (∀ path, path ∈ leading.foldl withLeading (ofList list) ↔ path ∈ leading ∨ path ∈ list) ∧
    ((leading.foldl withLeading (ofList list)).paths.filter fun path => path ∉ leading) =
      (ofList list).paths.filter (fun path => path ∉ leading) ∧
    ∀ (α : Type) [DecidableEq α] (file : String) (path : α → String) (items : List α),
      (promoteOwn file path items).eraseDups = promoteOwn file path items.eraseDups ∧
      promoteOwn file path (promoteOwn file path items) = promoteOwn file path items ∧
      ((promoteOwn file path items).Pairwise fun first second =>
        Path.sharesStem file (path second) = true → Path.sharesStem file (path first) = true) ∧
      ∀ own, ((promoteOwn file path items).filter
          fun item => Path.sharesStem file (path item) == own) =
        items.filter fun item => Path.sharesStem file (path item) == own := by
  rw [foldl_withLeading_ofList]
  refine ⟨rfl, keepsFirst_iff.mpr rfl, fun count => Prerequisites.nodup _, ?_,
    filter_notMem_eraseDups_append leading list, ?_⟩
  · intro path
    rw [mem_ofList, List.mem_append, List.mem_reverse]
  · intro α _ file path items
    exact ⟨eraseDups_promoteOwn file path items, promoteOwn_promoteOwn file path items,
      pairwise_promoteOwn file path items, filter_promoteOwn file path items⟩

example : ((Prerequisites.ofList ["b", "a", "b", "c", "a"]).withLeading "c").paths =
    ["c", "b", "a"] := by
  decide

end IncludeDeps
