import IncludeDeps.Proofs.Ring
import IncludeDeps.Resolution.Walk
import Mathlib.Data.List.Rotate

/-!
# Where a ring is entered does not matter

A walk can enter a ring of includes at each of its files.  What it has then met is a
rotation of the ring, and two rings come to the same cycle exactly if they are rotations
of one another (`ofRing_eq_ofRing_iff`).  The reason is that distinct files have but one
smallest among them: all the rotations are cut in front of the same file, and a rotation
of distinct files is known from its first one (`eq_of_isRotated_of_head?`).

What closes a ring is a chain, the files of the ring and the first of them once more.
`ofChain` is the way to make a cycle of such a chain in place: turn what stands before
the end by as many places as the smallest file is away from the front, then put the file
that came to the front at the end.  `ofChain_chainOf` says that this is the cycle of the
ring.
-/

namespace IncludeDeps.Cycle

open Text

/-- The chain that goes around a ring: its files, and the first of them again. -/
def chainOf (ring : List String) : List String :=
  ring ++ ring.head?.toList

/-- How far from the front the smallest name stands for the first time. -/
def smallestPlace (names : List String) : ℕ :=
  (smallest? names).elim 0 names.idxOf

/-- The cycle of a chain that ends with the file it begins with.  A chain of two files is
one that includes itself, and has nothing to turn. -/
def ofChain (chain : List String) : Cycle :=
  if 2 < chain.length then
    ⟨chainOf (chain.dropLast.rotate (smallestPlace chain.dropLast))⟩
  else ⟨chain⟩

variable {ring turned : List String}

/-! ## Rotations -/

/-- Among the rotations of distinct items there is one for each item at the front. -/
theorem eq_of_isRotated_of_head? {α : Type} {first second : List α} (hnodup : first.Nodup)
    (hrotated : first ~r second) (hhead : first.head? = second.head?) : first = second := by
  obtain ⟨count, hcount, rfl⟩ := List.isRotated_iff_mod.mp hrotated
  rcases hcount.lt_or_eq with hlt | rfl
  · rw [List.head?_rotate hlt, List.head?_eq_getElem?] at hhead
    have hpositive : 0 < first.length := by omega
    have hnone : count = 0 :=
      ((List.getElem?_inj hpositive hnodup).mp hhead).symm
    rw [hnone, List.rotate_zero]
  · rw [List.rotate_length]

/-- The files of a cycle are a rotation of its ring, with the smallest file in front, and
that file again. -/
theorem exists_files_ofRing (hring : ring ≠ []) :
    ∃ first rest, (ofRing ring).files = first :: rest ++ [first] ∧ (first :: rest) ~r ring ∧
      ∀ name ∈ ring, byteLe first name = true := by
  obtain ⟨before, first, after, rfl, hfiles, hsmallest⟩ := files_ofRing hring
  refine ⟨first, after ++ before, by simp [hfiles], ?_, hsmallest⟩
  show (first :: after ++ before) ~r (before ++ first :: after)
  exact List.isRotated_append

/-- **A cycle stands for its ring up to rotation.** -/
theorem ofRing_eq_ofRing_iff (hring : ring ≠ []) (hnodup : ring.Nodup) :
    ofRing turned = ofRing ring ↔ turned ~r ring := by
  obtain ⟨first, rest, hfiles, hrotated, hsmallest⟩ := exists_files_ofRing hring
  constructor
  · intro hsame
    have hturned : turned ≠ [] := by
      rintro rfl
      rw [← hsame] at hfiles
      cases hfiles
    obtain ⟨other, more, hother, hback, -⟩ := exists_files_ofRing hturned
    rw [hsame, hfiles] at hother
    rw [← (List.append_inj' hother rfl).1] at hback
    exact hback.symm.trans hrotated
  · intro hturned
    have hne : turned ≠ [] := by
      rintro rfl
      exact hring (List.isRotated_nil_iff'.mp hturned).symm
    obtain ⟨other, more, hother, hback, hleast⟩ := exists_files_ofRing hne
    have hmem : first ∈ ring := hrotated.mem_iff.mp List.mem_cons_self
    have hmemOther : other ∈ turned := hback.mem_iff.mp List.mem_cons_self
    have hfirst : other = first := by
      apply byteLe_antisymm
      · exact hleast first (hturned.mem_iff.mpr hmem)
      · exact hsmallest other (hturned.mem_iff.mp hmemOther)
    have hrest : other :: more = first :: rest := by
      apply eq_of_isRotated_of_head?
      · exact (hback.trans hturned).nodup_iff.mpr hnodup
      · exact (hback.trans hturned).trans hrotated.symm
      · rw [hfirst, List.head?_cons, List.head?_cons]
    calc ofRing turned
        = ⟨other :: more ++ [other]⟩ := congrArg Cycle.mk hother
      _ = ⟨first :: rest ++ [first]⟩ := by rw [hrest, hfirst]
      _ = ofRing ring := (congrArg Cycle.mk hfiles).symm

/-! ## Turning a chain in place -/

theorem rotate_idxOf {name : String} {names : List String} (hmem : name ∈ names) :
    names.rotate (names.idxOf name) = turnTo name names := by
  have hplace : names.findIdx (fun other => !(other != name)) = names.idxOf name := by
    simp only [bne, Bool.not_not]
    rfl
  rw [List.rotate_eq_drop_append_take (List.idxOf_lt_length_of_mem hmem).le, turnTo,
    List.takeWhile_eq_take_findIdx_not, List.dropWhile_eq_drop_findIdx_not, hplace]

theorem head?_turnTo {name : String} {names : List String} (hmem : name ∈ names) :
    (turnTo name names).head? = some name := by
  obtain ⟨before, after, -, -, hdrop⟩ := dropWhile_ne_of_mem hmem
  rw [turnTo, hdrop, List.cons_append, List.head?_cons]

/-- A chain that closes a ring comes to the cycle of the ring. -/
theorem ofChain_chainOf (ring : List String) : ofChain (chainOf ring) = ofRing ring := by
  cases ring with
  | nil => rfl
  | cons head tail =>
      cases tail with
      | nil => simp [ofChain, chainOf, ofRing, smallest?, turnTo]
      | cons second rest =>
          have hlong : 2 < (chainOf (head :: second :: rest)).length := by
            simp [chainOf]
          have hring : (chainOf (head :: second :: rest)).dropLast = head :: second :: rest :=
            List.dropLast_concat
          have hmem := (foldl_lesser (second :: rest) head).1
          rw [ofChain, if_pos hlong, hring, smallestPlace, smallest?, Option.elim_some,
            rotate_idxOf hmem, chainOf, head?_turnTo hmem, ofRing, smallest?]
          rfl

/-! ## Meeting a ring -/

/-- A walk that meets a ring records its cycle, whatever it went through before. -/
theorem closingSteps_append {before : List String} {file target : String}
    (hbefore : target ∉ before) (hhead : ring.head? = some target) :
    SourceDirectory.closingSteps (before ++ ring) file target = [.closing file (ofRing ring)] := by
  obtain ⟨rest, rfl⟩ := List.head?_eq_some_iff.mp hhead
  have hmem : target ∈ before ++ target :: rest :=
    List.mem_append_right before List.mem_cons_self
  have hpassed : ∀ name ∈ before, (name != target) = true := by
    intro name hname
    exact bne_iff_ne.mpr (ne_of_mem_of_not_mem hname hbefore)
  rw [SourceDirectory.closingSteps, if_pos hmem, List.dropWhile_append_of_pos hpassed,
    List.dropWhile_cons_of_neg (by simp)]

/-! ## Main result -/

/-- **A cycle does not depend on where its ring was entered.**  There is one chain, a
rotation of the ring with the smallest file in front and that file again, that every
rotation of the ring comes to, whether it is turned in place or cut; and this is what a
walk records that meets the ring at any of its files. -/
theorem cycle_of_rotations (ring : List String) (hring : ring ≠ []) (hnodup : ring.Nodup) :
    ∃ first rest, (first :: rest) ~r ring ∧ (∀ name ∈ rest, byteLt first name = true) ∧
      ∀ turned, turned ~r ring →
        ofChain (chainOf turned) = ⟨first :: rest ++ [first]⟩ ∧
        ofRing turned = ⟨first :: rest ++ [first]⟩ ∧
        ∀ before file target, target ∉ before → turned.head? = some target →
          SourceDirectory.closingSteps (before ++ turned) file target =
            [.closing file ⟨first :: rest ++ [first]⟩] := by
  obtain ⟨first, rest, hfiles, hrotated, hsmallest⟩ := exists_files_ofRing hring
  refine ⟨first, rest, hrotated, ?_, ?_⟩
  · intro name hname
    have hother : first ≠ name := by
      rintro rfl
      exact (List.nodup_cons.mp (hrotated.nodup_iff.mpr hnodup)).1 hname
    apply byteLt_of_ne _ hother
    exact hsmallest name (hrotated.mem_iff.mp (List.mem_cons_of_mem first hname))
  · intro turned hturned
    have hcycle : ofRing turned = ⟨first :: rest ++ [first]⟩ :=
      ((ofRing_eq_ofRing_iff hring hnodup).mpr hturned).trans (congrArg Cycle.mk hfiles)
    refine ⟨(ofChain_chainOf turned).trans hcycle, hcycle, ?_⟩
    intro before file target hbefore hhead
    rw [closingSteps_append hbefore hhead, hcycle]

/-- Capitals come before small letters, and `é` behind both. -/
theorem cycle_of_rotations_accented :
    ["a.h", "é.h", "B.h"].Nodup ∧ ["é.h", "B.h", "a.h"] ~r ["a.h", "é.h", "B.h"] ∧
      ofChain ["a.h", "é.h", "B.h", "a.h"] = ⟨["B.h", "a.h", "é.h", "B.h"]⟩ ∧
      ofChain ["é.h", "B.h", "a.h", "é.h"] = ⟨["B.h", "a.h", "é.h", "B.h"]⟩ ∧
      SourceDirectory.closingSteps ["main.c", "é.h", "B.h", "a.h"] "a.h" "é.h" =
        [.closing "a.h" ⟨["B.h", "a.h", "é.h", "B.h"]⟩] := by
  have hnodup : ["a.h", "é.h", "B.h"].Nodup := by decide
  have hturned : ["é.h", "B.h", "a.h"] ~r ["a.h", "é.h", "B.h"] := by decide
  obtain ⟨first, rest, -, -, hall⟩ :=
    cycle_of_rotations ["a.h", "é.h", "B.h"] (List.cons_ne_nil _ _) hnodup
  obtain ⟨hchain, -, -⟩ := hall _ (.refl _)
  obtain ⟨hother, -, hsteps⟩ := hall _ hturned
  have hcycle : ofChain ["a.h", "é.h", "B.h", "a.h"] = ⟨["B.h", "a.h", "é.h", "B.h"]⟩ := by
    decide
  have hclosed := hchain.symm.trans hcycle
  rw [hclosed] at hother hsteps
  exact ⟨hnodup, hturned, hcycle, hother, hsteps ["main.c"] "a.h" "é.h" (by decide) rfl⟩

end IncludeDeps.Cycle
