import IncludeDeps.Proofs.Tree.Growth

/-!
# Replacing a file

`Tree.replaceFile` writes a new file under a temporary name and then moves it to
its path.  The temporary name is not in use (`exists_name_of_temporaryFile`), so
removing the temporary file gives back what stood before (`get?_prune_put`), whether
it is removed because it was moved or because it could not be written or moved.  What
is seen of the tree afterwards is therefore either the file in place at the path and
nothing else, or no change at all (`replaceFile_ok`, `replaceFile_error`).
-/

namespace IncludeDeps.Tree

variable {tree : Tree} {reach : Reach} {directory here location : Location} {name : Name}
  {path : String} {content : List UInt8} {above : List Name} {storage : Storage}

/-! ## Unused names -/

theorem get?_append_of_below? {inside : Tree} (hbelow : tree.below? location = some inside)
    (more : Location) : tree.get? (location ++ more) = inside.get? more := by
  induction location generalizing tree with
  | nil =>
      obtain rfl := Option.some.inj hbelow
      rfl
  | cons first rest ih =>
      rw [below?] at hbelow
      split at hbelow
      · next held hitem =>
        rw [List.cons_append, get?, hitem]
        exact ih hbelow
      · cases hbelow

theorem exists_below? (hdirectory : tree.get? location = some .directory) :
    ∃ inside, tree.below? location = some inside := by
  induction location generalizing tree with
  | nil => exact ⟨tree, rfl⟩
  | cons first rest ih =>
      rw [get?] at hdirectory
      rw [below?]
      split at hdirectory
      · cases hdirectory
      · split at hdirectory <;> cases hdirectory
      · next hitem =>
        rw [hitem]
        exact ih hdirectory

theorem notMem_of_notMem_filter {children : List (Name × Entry)} {other : Name} (hne : name ≠ other)
    (hunlisted : name ∉ (children.filter (·.1 ≠ other)).map Prod.fst) :
    name ∉ children.map Prod.fst := by
  intro hlisted
  obtain ⟨child, hchild, rfl⟩ := List.mem_map.mp hlisted
  exact hunlisted (List.mem_map.mpr ⟨child, List.mem_filter.mpr ⟨hchild, by simpa using hne⟩, rfl⟩)

theorem item?_eq_none (hunlisted : name ∉ tree.items.map Prod.fst) : tree.item? name = none := by
  induction tree with
  | empty => rfl
  | file other held rest ih =>
      obtain ⟨hother, hrest⟩ := not_or.mp (mt List.mem_cons.mpr hunlisted)
      rw [item?, if_neg (Ne.symm hother)]
      exact ih (notMem_of_notMem_filter hother hrest)
  | directory other inside rest _ ih =>
      obtain ⟨hother, hrest⟩ := not_or.mp (mt List.mem_cons.mpr hunlisted)
      rw [item?, if_neg (Ne.symm hother)]
      exact ih (notMem_of_notMem_filter hother hrest)

theorem get?_eq_none_of_unlisted (hdirectory : tree.get? directory = some .directory)
    (hunlisted : name ∉ (tree.children directory).map Prod.fst) :
    tree.get? (directory ++ [name]) = none := by
  obtain ⟨inside, hbelow⟩ := exists_below? hdirectory
  simp only [children, hbelow] at hunlisted
  rw [get?_append_of_below? hbelow, get?, item?_eq_none hunlisted]

/-! ## Temporary files -/

/-- A temporary file is made under a name that is not in use. -/
theorem exists_name_of_temporaryFile
    (htemporary : tree.temporaryFile storage directory above = .ok location) :
    ∃ name, location = directory ++ [name] ∧
      (tree.get? directory = some .directory → tree.get? (directory ++ [name]) = none) := by
  unfold temporaryFile at htemporary
  split at htemporary
  · cases htemporary
  · obtain ⟨ending, hdrawn, hmade⟩ := bind_eq_ok_iff.mp htemporary
    exact ⟨temporaryName ending, (Except.ok.inj hmade).symm,
      fun hdirectory => get?_eq_none_of_unlisted hdirectory (storage.fresh hdrawn)⟩

/-- Whichever name is drawn, the path of the temporary file is too long or not. -/
theorem lacksRoom_eq (habove : above ≠ []) (ending : Vector UInt8 6) :
    lacksRoom above = Path.isTooLong (above ++ [temporaryName ending]) := by
  rw [lacksRoom, Path.isTooLong, Path.intercalate_concat _ _ habove, List.length_append,
    List.length_append, List.length_singleton, length_temporaryName]

theorem get?_eq_none_of_isPrefix {other : Location} (hnone : tree.get? location = none)
    (hbelow : location <+: other) : tree.get? other = none := by
  obtain ⟨more, rfl⟩ := hbelow
  by_cases hmore : more = []
  · rwa [hmore, List.append_nil]
  · by_contra hsome
    have hdirectory := get?_eq_directory_of_append hmore (Option.isSome_iff_ne_none.mpr hsome)
    cases hnone.symm.trans hdirectory

/-- Removing what was put where nothing stood gives back what stood before. -/
theorem get?_prune_put (entry : Entry) (hdirectory : tree.get? directory = some .directory)
    (hnone : tree.get? (directory ++ [name]) = none) (other : Location) :
    ((tree.put (directory ++ [name]) entry).prune (directory ++ [name])).get? other =
      tree.get? other := by
  rw [get?_prune _ (by simp)]
  split
  · next hbelow => rw [get?_eq_none_of_isPrefix hnone hbelow]
  · next houtside =>
    rw [get?_put_vacant entry hdirectory hnone, if_neg]
    rintro rfl
    exact houtside List.prefix_rfl

/-- Of the path of the directory it only matters whether it leaves room. -/
theorem replaceFile_congr {other : List Name} (hroom : lacksRoom above = lacksRoom other) :
    tree.replaceFile storage reach directory above path content =
      tree.replaceFile storage reach directory other path content := by
  unfold replaceFile temporaryFile
  rw [hroom]

/-! ## Destinations -/

/-- A check that was passed. -/
theorem of_ite_error {α : Type} {check : Prop} [Decidable check] {fault : Fault}
    {rest : Except Fault α} {result : α}
    (h : (if check then .error fault else rest) = Except.ok result) :
    ¬ check ∧ rest = .ok result := by
  split at h
  · cases h
  · next hpassed => exact ⟨hpassed, h⟩

theorem place_of_destination (hstands : reach.Stands tree)
    (hdestination : tree.destination reach path = .ok location) :
    ∃ here name, tree.Place reach path here name ∧
      tree.get? (here ++ [name]) ≠ some .directory ∧ location = here ++ [name] := by
  unfold destination at hdestination
  dsimp only at hdestination
  generalize hnamed : ((Path.names path).reverse.dropWhile (·.isEmpty)).reverse = named
    at hdestination
  have hbeginning : named <+: Path.names path := by
    rw [← hnamed, ← List.reverse_suffix, List.reverse_reverse]
    exact List.dropWhile_suffix _
  obtain ⟨_, hadmitted, hdestination⟩ := bind_eq_ok_iff.mp hdestination
  obtain ⟨here, hwalk, hdestination⟩ := bind_eq_ok_iff.mp hdestination
  cases hhere : tree.get? here with
  | none => simp [hhere] at hdestination
  | some entry =>
      cases entry with
      | file held => simp [hhere] at hdestination
      | directory =>
          simp only [hhere] at hdestination
          obtain ⟨hmoves, hdestination⟩ := of_ite_error hdestination
          obtain ⟨hshort, hdestination⟩ := of_ite_error hdestination
          obtain ⟨hwhole, hdestination⟩ := of_ite_error hdestination
          obtain ⟨hvacant, hdestination⟩ := of_ite_error hdestination
          -- without an empty piece at its end, the path is what is named
          obtain rfl := hbeginning.eq_of_length_le (Nat.le_of_not_lt hwhole)
          rw [Bool.or_eq_true, not_or, Bool.not_eq_true, Bool.not_eq_true] at hmoves
          obtain ⟨hlast, hdescends⟩ := hmoves
          refine ⟨here, _, ⟨hadmitted, ?_, ((walk_eq_ok_iff hstands).mp hwalk).2, hhere, hlast,
            hdescends, Nat.le_of_not_lt hshort⟩, hvacant, (Except.ok.inj hdestination).symm⟩
          rw [List.getLast?_eq_some_getLast (Path.names_ne_nil path), Option.getD_some]

/-! ## Replacements -/

/-- Whatever fails, the temporary file is gone. -/
theorem replaceFile_error {error : ReplaceError} {left : Tree}
    (hdirectory : tree.get? directory = some .directory)
    (hreplace : tree.replaceFile storage reach directory above path content = (.error error, left))
    (other : Location) : left.get? other = tree.get? other := by
  unfold replaceFile at hreplace
  dsimp only at hreplace
  split at hreplace
  · obtain ⟨-, rfl⟩ := Prod.ext_iff.mp hreplace
    rfl
  · next temporary htemporary =>
    obtain ⟨name, rfl, hunused⟩ := exists_name_of_temporaryFile htemporary
    have hunused := hunused hdirectory
    split at hreplace
    · obtain ⟨-, rfl⟩ := Prod.ext_iff.mp hreplace
      exact get?_prune_put _ hdirectory hunused other
    · split at hreplace
      · obtain ⟨-, rfl⟩ := Prod.ext_iff.mp hreplace
        exact get?_prune_put _ hdirectory hunused other
      · cases (Prod.ext_iff.mp hreplace).1

/-- Moving a new file comes to putting its bytes where it is moved to. -/
theorem moveFile_put {moved : Tree} (hstands : reach.Stands tree)
    (hdirectory : tree.get? directory = some .directory)
    (hunused : tree.get? (directory ++ [name]) = none)
    (hmoved : (tree.put (directory ++ [name]) (.file content)).moveFile reach
      (directory ++ [name]) path = .ok moved) :
    ∃ here last, tree.Place reach path here last ∧
      tree.get? (here ++ [last]) ≠ some .directory ∧
      ∀ other, moved.get? other =
        if other = here ++ [last] then some (.file content) else tree.get? other := by
  have hview := get?_put_vacant (.file content) hdirectory hunused
  have hgrows := grows_put (.file content) hdirectory hunused
  have hremoved := get?_prune_put (.file content) hdirectory hunused
  generalize directory ++ [name] = temporary at hview hgrows hremoved hmoved
  -- a temporary file makes no directory, so paths lead to the same places with it
  have hkeeps : ∀ location, (tree.put temporary (.file content)).get? location = some .directory →
      tree.get? location = some .directory := by
    intro location hlocation
    rw [hview] at hlocation
    split at hlocation
    · cases hlocation
    · exact hlocation
  have hstaged : (tree.put temporary (.file content)).get? temporary = some (.file content) := by
    rw [hview, if_pos rfl]
  unfold moveFile at hmoved
  obtain ⟨location, hdestination, hmoved⟩ := bind_eq_ok_iff.mp hmoved
  simp only [hstaged] at hmoved
  obtain rfl := Except.ok.inj hmoved
  obtain ⟨here, last, hplace, hvacant, rfl⟩ :=
    place_of_destination (hgrows.stands hstands) hdestination
  have hbefore := hplace.mono hkeeps
  have hfree : tree.get? (here ++ [last]) ≠ some .directory :=
    fun hdirectory => hvacant (hgrows _ .directory hdirectory)
  refine ⟨here, last, hbefore, hfree, fun other => ?_⟩
  rw [get?_put _ (by rw [hremoved, hbefore.directory]) (by rwa [hremoved]), hremoved]

theorem replaceFile_ok {written : Tree} (hstands : reach.Stands tree)
    (hdirectory : tree.get? directory = some .directory)
    (hreplace : tree.replaceFile storage reach directory above path content = (.ok (), written)) :
    ∃ here last, tree.Place reach path here last ∧
      tree.get? (here ++ [last]) ≠ some .directory ∧
      ∀ other, written.get? other =
        if other = here ++ [last] then some (.file content) else tree.get? other := by
  unfold replaceFile at hreplace
  dsimp only at hreplace
  split at hreplace
  · cases (Prod.ext_iff.mp hreplace).1
  · next temporary htemporary =>
    obtain ⟨name, rfl, hunused⟩ := exists_name_of_temporaryFile htemporary
    split at hreplace
    · cases (Prod.ext_iff.mp hreplace).1
    · split at hreplace
      · cases (Prod.ext_iff.mp hreplace).1
      · next moved hmoved =>
        obtain rfl := (Prod.ext_iff.mp hreplace).2
        exact moveFile_put hstands hdirectory (hunused hdirectory) hmoved

end IncludeDeps.Tree
