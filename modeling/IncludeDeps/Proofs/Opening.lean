import IncludeDeps.Proofs.Tree.Growth
import IncludeDeps.Run

/-!
# Opening the source directory

Every command first opens the source directory.  If that fails, nothing has
happened (`run_of_not_opens`); otherwise the command is carried out in a directory
that stands in the tree (`run_of_opens`), and it stands at the same location in
every later tree (`Opens.mono`).
-/

namespace IncludeDeps.Settings

variable {settings : Settings} {storage : Storage} {tree later : Tree}
  {workingDirectory root : Location} {path : String}

/-- The settings have a source directory, spelled `path`, at a location. -/
def Opens (settings : Settings) (tree : Tree) (workingDirectory : Location) (path : String)
    (root : Location) : Prop :=
  Text.ofBytes? (settings.directory.getD [0x2E]) = some path ∧
    tree.openSources workingDirectory path = .ok root

theorem openDirectory_eq_ok_iff :
    tree.openDirectory workingDirectory path = .ok root ↔
      (Path.names path).any (·.contains 0) = false ∧
        tree.locate (.ordinary workingDirectory) path = .ok root ∧
        tree.get? root = some .directory := by
  unfold Tree.openDirectory
  by_cases hnull : (Path.names path).any (·.contains 0) = true
  · simp only [hnull, if_true, reduceCtorEq, false_and]
  · rw [if_neg hnull, Bool.not_eq_true] at *
    simp only [hnull, true_and]
    rw [bind_eq_ok_iff]
    constructor
    · rintro ⟨location, hlocate, h⟩
      split at h
      · cases h
      · cases h
      · next hdirectory =>
        obtain rfl := Except.ok.inj h
        exact ⟨hlocate, hdirectory⟩
    · rintro ⟨hlocate, hdirectory⟩
      refine ⟨root, hlocate, ?_⟩
      simp only [hdirectory]

theorem openSources_eq_ok_iff :
    tree.openSources workingDirectory path = .ok root ↔
      tree.openDirectory workingDirectory path = .ok root := by
  unfold Tree.openSources
  cases tree.openDirectory workingDirectory path <;> simp [Except.mapError]

theorem Opens.directory (hopens : settings.Opens tree workingDirectory path root) :
    tree.get? root = some .directory :=
  (openDirectory_eq_ok_iff.mp (openSources_eq_ok_iff.mp hopens.2)).2.2

theorem Opens.stands (hopens : settings.Opens tree workingDirectory path root) :
    Reach.Stands (.confined root) tree := by
  rintro other ⟨⟩
  exact hopens.directory

theorem Opens.mono (hopens : settings.Opens tree workingDirectory path root)
    (hgrows : tree.Grows later) : settings.Opens later workingDirectory path root := by
  obtain ⟨hspelled, hopened⟩ := hopens
  refine ⟨hspelled, ?_⟩
  rw [openSources_eq_ok_iff, openDirectory_eq_ok_iff] at hopened ⊢
  obtain ⟨hnull, hlocate, hdirectory⟩ := hopened
  refine ⟨hnull, hgrows.locate ?_ hlocate, hgrows root .directory hdirectory⟩
  rintro root ⟨⟩

theorem run_of_opens (hopens : settings.Opens tree workingDirectory path root) :
    settings.run storage tree workingDirectory =
      (settings.runIn storage tree workingDirectory path root).after [.openedDirectory path] := by
  obtain ⟨hspelled, hopened⟩ := hopens
  simp only [run, hspelled, hopened]

theorem run_of_not_opens (storage : Storage)
    (hclosed : ∀ path root, ¬ settings.Opens tree workingDirectory path root) :
    ∃ error, ((∃ word, error = .invalidText word) ∨ ∃ cause, error = .opening cause) ∧
      settings.run storage tree workingDirectory = { tree, error := some error } := by
  unfold run
  dsimp only
  split
  · exact ⟨_, Or.inl ⟨_, rfl⟩, rfl⟩
  · next path hspelled =>
    split
    · exact ⟨_, Or.inr ⟨_, rfl⟩, rfl⟩
    · next root hopened => exact absurd ⟨hspelled, hopened⟩ (hclosed path root)

end IncludeDeps.Settings
