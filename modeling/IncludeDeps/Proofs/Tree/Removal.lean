import IncludeDeps.Proofs.Tree.Growth

/-!
# A directory that was removed

Paths can still be confined to a directory that is no longer there, since it was
opened before.  Idle pieces stay in it and no piece leads anywhere else
(`eq_of_walk_gone`), and no entry can be made or found in it.  So a file that was
made, or was in the way of one, tells that the directory stands
(`stands_of_createFile`), and the attempt to make directories leaves the tree as it
was (`createDirectories_gone`).
-/

namespace IncludeDeps.Tree

variable {tree made : Tree} {root there : Location} {piece name : Name} {pieces : List Name}

theorem eq_of_start_confined {absolute : Bool}
    (hstart : Reach.start (.confined root) absolute = .ok there) : there = root := by
  cases absolute with
  | true => cases hstart
  | false => exact (Except.ok.inj hstart).symm

theorem eq_of_enter_gone (hgone : tree.get? root ≠ some .directory)
    (hentered : tree.enter (.confined root) root piece = .ok there) : there = root := by
  unfold enter Reach.above at hentered
  split at hentered
  · split at hentered
    · cases hentered
    · split at hentered
      · exact (Except.ok.inj hentered).symm
      · split at hentered
        · simp at hentered
        · cases hentered
  · cases hentered
  · next hdirectory => exact absurd hdirectory hgone

theorem eq_of_walk_gone (hgone : tree.get? root ≠ some .directory)
    (hwalk : tree.walk (.confined root) pieces = .ok there) : there = root := by
  have hfold : ∀ pieces : List Name,
      pieces.foldlM (tree.enter (.confined root)) root = .ok there → there = root := by
    intro pieces
    induction pieces with
    | nil => exact fun h => (Except.ok.inj h).symm
    | cons piece rest ih =>
        intro h
        obtain ⟨middle, hentered, hrest⟩ := bind_eq_ok_iff.mp h
        obtain rfl := eq_of_enter_gone hgone hentered
        exact ih hrest
  obtain ⟨_, -, h⟩ := bind_eq_ok_iff.mp hwalk
  obtain ⟨start, hstart, h⟩ := bind_eq_ok_iff.mp h
  obtain rfl := eq_of_start_confined hstart
  exact hfold pieces h

theorem eq_of_walkToDirectory_gone (hgone : tree.get? root ≠ some .directory)
    (hwalk : tree.walkToDirectory (.confined root) pieces = .ok there) : there = root := by
  obtain ⟨location, hend, h⟩ := bind_eq_ok_iff.mp hwalk
  split at h
  · cases h
  · exact Except.ok.inj h ▸ eq_of_walk_gone hgone hend
  · exact Except.ok.inj h ▸ eq_of_walk_gone hgone hend

theorem directoryVacancy_ne_ok (hgone : tree.get? root ≠ some .directory) :
    tree.directoryVacancy (.confined root) root name ≠ .ok there := by
  intro hvacant
  unfold directoryVacancy at hvacant
  split at hvacant
  · cases hvacant
  · exact hgone (vacancy_eq_ok_iff.mp hvacant).1

/-- Where nothing is vacant, the last step of making a directory makes nothing. -/
theorem settleDirectory_gone (hgone : tree.get? root ≠ some .directory)
    {outcome : Except Fault Location} (houtcome : ∀ vacant, outcome ≠ .ok vacant) :
    (tree.settleDirectory (.confined root) pieces outcome).2 = tree ∧
      ∀ there, (tree.settleDirectory (.confined root) pieces outcome).1 = .ok there →
        there = root := by
  cases outcome with
  | ok vacant => exact absurd rfl (houtcome vacant)
  | error fault =>
      refine ⟨rfl, fun there hthere => ?_⟩
      cases hfound : tree.walkToDirectory (.confined root) pieces with
      | error _ => simp [settleDirectory, hfound, Except.mapError] at hthere
      | ok found =>
          simp only [settleDirectory, hfound, Except.mapError, Except.ok.injEq] at hthere
          exact hthere ▸ eq_of_walkToDirectory_gone hgone hfound

theorem createDirectoriesUpward_gone (hgone : tree.get? root ≠ some .directory)
    (upward : List Name) :
    (tree.createDirectoriesUpward (.confined root) upward).2 = tree ∧
      ∀ there, (tree.createDirectoriesUpward (.confined root) upward).1 = .ok there →
        there = root := by
  induction upward with
  | nil => exact ⟨rfl, fun there hthere => (Except.ok.inj hthere).symm⟩
  | cons last above ih =>
      unfold createDirectoriesUpward
      dsimp only
      split
      · obtain ⟨hsame, hroot⟩ := ih
        split
        · next hresult =>
          rw [hresult] at hsame
          exact ⟨hsame, fun there hthere => by cases hthere⟩
        · next here made hresult =>
          rw [hresult] at hsame hroot
          obtain rfl : made = tree := hsame
          obtain rfl := hroot here rfl
          exact settleDirectory_gone hgone fun vacant => directoryVacancy_ne_ok hgone
      · refine settleDirectory_gone hgone fun vacant hvacant => ?_
        obtain ⟨here, hfound, hvacant⟩ := bind_eq_ok_iff.mp hvacant
        obtain rfl := eq_of_walkToDirectory_gone hgone hfound
        exact directoryVacancy_ne_ok hgone hvacant

theorem createDirectories_gone (hgone : tree.get? root ≠ some .directory) (path : String) :
    (tree.createDirectories (.confined root) path).2 = tree :=
  (createDirectoriesUpward_gone hgone _).1

/-- Nothing stands in the directory either. -/
theorem vacancy_ne_alreadyExists_gone (hgone : tree.get? root ≠ some .directory)
    (hmoves : staysPut name = false) (hdescends : goesUp name = false) :
    tree.vacancy (.confined root) root name ≠ .error .alreadyExists := by
  intro hvacant
  unfold vacancy at hvacant
  split at hvacant
  · next hentered =>
    unfold enter at hentered
    split at hentered
    · simp [hmoves, hdescends] at hentered
    · cases hentered
    · next hdirectory => exact hgone hdirectory
  · split at hvacant <;> cases hvacant
  · next hentered => exact enter_ne_alreadyExists (Except.error.inj hvacant ▸ hentered)

theorem stands_of_createFile {path : String} {content : List UInt8}
    (hlast : (Path.names path).getLast? = some name) (hmoves : staysPut name = false)
    (hdescends : goesUp name = false)
    (hcreate : (∃ made, tree.createFile (.confined root) path content = .ok made) ∨
      tree.createFile (.confined root) path content = .error .alreadyExists) :
    Reach.Stands (.confined root) tree := by
  rintro _ ⟨⟩
  by_contra hgone
  have hname : (Path.names path).getLast?.getD [] = name := by rw [hlast, Option.getD_some]
  rcases hcreate with ⟨made, hmade⟩ | hexists
  · obtain ⟨_, -, h⟩ := bind_eq_ok_iff.mp hmade
    obtain ⟨here, hwalk, h⟩ := bind_eq_ok_iff.mp h
    obtain ⟨vacant, hvacant, -⟩ := bind_eq_ok_iff.mp h
    obtain rfl := eq_of_walk_gone hgone hwalk
    exact hgone (vacancy_eq_ok_iff.mp hvacant).1
  · rcases bind_eq_error_iff.mp hexists with hrefused | ⟨_, -, h⟩
    · exact Path.admit_ne_alreadyExists _ hrefused
    rcases bind_eq_error_iff.mp h with hwalk | ⟨here, hwalk, h⟩
    · exact walk_ne_alreadyExists hwalk
    obtain rfl := eq_of_walk_gone hgone hwalk
    rcases bind_eq_error_iff.mp h with hvacant | ⟨_, -, h⟩
    · exact vacancy_ne_alreadyExists_gone hgone hmoves hdescends (hname ▸ hvacant)
    · cases h

end IncludeDeps.Tree
