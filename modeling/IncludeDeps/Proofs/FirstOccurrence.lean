import IncludeDeps.Resolution.Walk
import Mathlib.Data.List.Induction

/-!
# Keeping first occurrences

`List.eraseDups` keeps the first occurrence of each item.  This file says how
that goes together with the other things that are done to a list of paths.
Choosing items by a test may come before or after (`eraseDups_filter`).  Of two
lists in a row the second only adds what the first does not hold
(`eraseDups_append_filter`); so what a part of a list repeats may be dropped
early or late (`eraseDups_append_congr`), and moving the own headers of a file
to the front may come before or after (`eraseDups_promoteOwn`).
-/

namespace IncludeDeps

section

variable {α : Type} [BEq α] [LawfulBEq α]

theorem eraseDups_of_nodup {list : List α} (hnodup : list.Nodup) : list.eraseDups = list := by
  induction list with
  | nil => rfl
  | cons first rest ih =>
      obtain ⟨hfirst, hrest⟩ := List.nodup_cons.mp hnodup
      have hdrop : (rest.filter fun item => !item == first) = rest := by
        refine List.filter_eq_self.mpr fun item hitem => ?_
        have hother : item ≠ first := fun hsame => hfirst (hsame ▸ hitem)
        simp [hother]
      rw [List.eraseDups_cons, hdrop, ih hrest]

theorem eraseDups_eraseDups (list : List α) : list.eraseDups.eraseDups = list.eraseDups :=
  eraseDups_of_nodup (nodup_eraseDups list)

theorem eraseDups_concat (list : List α) (item : α) :
    (list ++ [item]).eraseDups =
      if list.contains item then list.eraseDups else list.eraseDups ++ [item] := by
  rw [List.eraseDups_append, List.removeAll]
  split <;> simp_all [List.eraseDups_cons]

theorem eraseDups_filter (test : α → Bool) (list : List α) :
    (list.filter test).eraseDups = list.eraseDups.filter test := by
  induction list using List.reverseRecOn with
  | nil => rfl
  | append_singleton rest last ih =>
      rw [List.filter_append, eraseDups_concat]
      cases hlast : test last with
      | false =>
          have hdrop : [last].filter test = [] := by simp [hlast]
          rw [hdrop, List.append_nil, ih]
          split <;> simp [hlast]
      | true =>
          have hkeep : [last].filter test = [last] := by simp [hlast]
          rw [hkeep, eraseDups_concat, ih]
          by_cases hmem : last ∈ rest <;> simp [hmem, hlast]

theorem eraseDups_append_filter (first second : List α) :
    (first ++ second).eraseDups =
      first.eraseDups ++ second.eraseDups.filter fun item => !first.contains item := by
  rw [List.eraseDups_append, List.removeAll, eraseDups_filter]

theorem eraseDups_append_congr {first first' second second' : List α}
    (hfirst : first.eraseDups = first'.eraseDups) (hsecond : second.eraseDups = second'.eraseDups) :
    (first ++ second).eraseDups = (first' ++ second').eraseDups := by
  have hcontains : ∀ item, first.contains item = first'.contains item := by
    intro item
    rw [Bool.eq_iff_iff, List.contains_iff_mem, List.contains_iff_mem, ← List.mem_eraseDups, hfirst,
      List.mem_eraseDups]
  simp only [eraseDups_append_filter, hfirst, hsecond, hcontains]

theorem eraseDups_cons_congr {item : α} {rest rest' : List α}
    (hrest : rest.eraseDups = rest'.eraseDups) :
    (item :: rest).eraseDups = (item :: rest').eraseDups := by
  rw [← List.singleton_append, ← List.singleton_append (l := rest')]
  exact eraseDups_append_congr rfl hrest

end

/-- The leading path comes first, and the others keep their order behind it. -/
theorem Prerequisites.paths_withLeading (prerequisites : Prerequisites) (path : String) :
    (prerequisites.withLeading path).paths =
      path :: prerequisites.paths.filter fun other => !other == path := by
  rw [withLeading, paths_ofList, List.eraseDups_cons,
    eraseDups_of_nodup (prerequisites.nodup.filter _)]

theorem eraseDups_promoteOwn {α : Type} [BEq α] [LawfulBEq α] (file : String) (path : α → String)
    (list : List α) : (promoteOwn file path list).eraseDups = promoteOwn file path list.eraseDups := by
  -- no item is in both parts
  have hapart : ∀ item ∈ list.eraseDups.filter fun item => !Path.sharesStem file (path item),
      (!(list.filter fun item => Path.sharesStem file (path item)).contains item) = true := by
    intro item hitem
    have hother := (List.mem_filter.mp hitem).2
    simp_all
  rw [promoteOwn, eraseDups_append_filter, eraseDups_filter, eraseDups_filter, promoteOwn,
    List.filter_eq_self.mpr hapart]

end IncludeDeps
