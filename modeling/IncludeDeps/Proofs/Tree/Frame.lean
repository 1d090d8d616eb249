import IncludeDeps.Proofs.Tree.Graft

/-!
# Working below a directory

Paths that do not leave the directory that they start in see nothing of the tree but
what that directory holds.  So every operation along such a path comes to the same,
whether the directory stands somewhere in a tree or its contents are a tree of their
own: with `tree.graft root inside` for the former and `inside` for the latter, what is
found is found at the same place below `root`, what fails fails with the same fault,
and what is changed is changed in the contents alone.

A path keeps to its directory (`Stays`) if it is confined to it, whatever its pieces
are.  An ordinary path does so if it is relative and never goes up.  Each operation
has one equation here, and the equation of an operation follows from those of what it
calls.
-/

namespace IncludeDeps

/-- Pieces do not leave the directory that they start in, where a path reaches this
far from it. -/
inductive Stays : (Location → Reach) → List Name → Prop
  /-- The path is confined to the directory. -/
  | confined (pieces : List Name) : Stays .confined pieces
  /-- The path is relative, and no piece goes up. -/
  | ordinary {pieces : List Name} (hrelative : pieces.head? ≠ some [])
      (hdown : ∀ piece ∈ pieces, Tree.goesUp piece = false) : Stays .ordinary pieces

variable {reach : Location → Reach} {pieces part : List Name}

theorem Stays.of_isPrefix (hstays : Stays reach pieces) (hpart : part <+: pieces) :
    Stays reach part := by
  cases hstays with
  | confined _ => exact .confined part
  | ordinary hrelative hdown =>
      exact .ordinary (Path.relative_of_isPrefix hrelative hpart) fun piece hpiece =>
        hdown piece (hpart.subset hpiece)

theorem Stays.stands (hstays : Stays reach pieces) (inside : Tree) :
    (reach []).Stands inside := by
  cases hstays with
  | confined _ =>
      rintro _ ⟨⟩
      exact Tree.get?_top inside
  | ordinary _ _ => rintro _ ⟨⟩

/-! ## Steps that may fail -/

theorem map_bind {ε α β γ : Type} (first : Except ε α) (next : α → Except ε β) (change : β → γ) :
    (first >>= next).map change = first >>= fun value => (next value).map change := by
  cases first <;> rfl

theorem bind_map {ε α β γ : Type} (first : Except ε α) (change : α → β) (next : β → Except ε γ) :
    first.map change >>= next = first >>= fun value => next (change value) := by
  cases first <;> rfl

namespace Tree

variable (tree : Tree) (root : Location) (inside : Tree) {here : Location} {piece : Name}

/-! ## Following pieces -/

theorem above_confined (root here : Location) :
    Reach.above (.confined root) (root ++ here) =
      (Reach.above (.confined []) here).map (root ++ ·) := by
  unfold Reach.above
  cases here with
  | nil => simp [Except.map]
  | cons first rest =>
      simp [Except.map, List.dropLast_append_of_ne_nil]

theorem enter_graft (hstays : Stays reach pieces) (hpiece : piece ∈ pieces) :
    (tree.graft root inside).enter (reach root) (root ++ here) piece =
      (inside.enter (reach []) here piece).map (root ++ ·) := by
  unfold enter
  rw [get?_graft, List.append_assoc, get?_graft]
  cases hstays with
  | confined _ =>
      rw [above_confined]
      -- standing in the root itself is what a confined path may do where nothing stands
      have hroot : Reach.confined root = .confined (root ++ here) ↔
          Reach.confined [] = .confined here := by
        simp [eq_comm]
      simp only [ne_eq, hroot]
      repeat' split
      all_goals rfl
  | ordinary _ hdown =>
      simp only [hdown piece hpiece, ne_eq, reduceCtorEq, not_false_eq_true, if_true,
        Bool.false_eq_true, if_false]
      repeat' split
      all_goals rfl

theorem foldlM_enter_graft (hstays : Stays reach pieces) (hpart : part ⊆ pieces) :
    part.foldlM ((tree.graft root inside).enter (reach root)) (root ++ here) =
      (part.foldlM (inside.enter (reach [])) here).map (root ++ ·) := by
  induction part generalizing here with
  | nil => rfl
  | cons first rest ih =>
      obtain ⟨hfirst, hrest⟩ := List.cons_subset.mp hpart
      rw [List.foldlM_cons, List.foldlM_cons, enter_graft tree root inside hstays hfirst, bind_map,
        map_bind]
      exact congrArg _ (funext fun middle => ih hrest)

theorem start_eq_map (hstays : Stays reach pieces) :
    (reach root).start (pieces.head? == some []) =
      ((reach []).start (pieces.head? == some [])).map (root ++ ·) := by
  cases hstays with
  | confined _ => cases pieces.head? == some [] <;> simp [Reach.start, Except.map]
  | ordinary hrelative _ =>
      rw [beq_false_of_ne hrelative]
      simp [Reach.start, Except.map]

theorem walk_graft (hstays : Stays reach pieces) :
    (tree.graft root inside).walk (reach root) pieces =
      (inside.walk (reach []) pieces).map (root ++ ·) := by
  have hfold : ∀ start,
      pieces.foldlM ((tree.graft root inside).enter (reach root)) (root ++ start) =
        (pieces.foldlM (inside.enter (reach [])) start).map (root ++ ·) :=
    fun start => foldlM_enter_graft tree root inside hstays (List.Subset.refl pieces)
  simp only [walk, start_eq_map root hstays, bind_map, map_bind, hfold]

theorem locate_graft {path : String} (hstays : Stays reach (Path.names path)) :
    (tree.graft root inside).locate (reach root) path =
      (inside.locate (reach []) path).map (root ++ ·) := by
  unfold locate
  split
  · rfl
  · exact walk_graft tree root inside hstays

theorem read_graft {path : String} (hstays : Stays reach (Path.names path)) :
    (tree.graft root inside).read (reach root) path = inside.read (reach []) path := by
  simp only [read, locate_graft tree root inside hstays, bind_map, get?_graft]

theorem walkToDirectory_graft (hstays : Stays reach pieces) :
    (tree.graft root inside).walkToDirectory (reach root) pieces =
      (inside.walkToDirectory (reach []) pieces).map (root ++ ·) := by
  simp only [walkToDirectory, walk_graft tree root inside
    (hstays.of_isPrefix (dropIdleEnd_isPrefix pieces)), bind_map, map_bind, get?_graft]
  refine congrArg _ (funext fun location => ?_)
  split <;> rfl

/-! ## Vacant names -/

theorem vacancy_graft (hstays : Stays reach pieces) (hpiece : piece ∈ pieces) :
    (tree.graft root inside).vacancy (reach root) (root ++ here) piece =
      (inside.vacancy (reach []) here piece).map (root ++ ·) := by
  unfold vacancy
  rw [enter_graft tree root inside hstays hpiece, get?_graft]
  cases inside.enter (reach []) here piece with
  | ok there => rfl
  | error fault =>
      cases fault with
      | notFound =>
          simp only [Except.map]
          split <;> simp
      | _ => rfl

theorem directoryVacancy_graft (hstays : Stays reach pieces) (hpiece : piece ∈ pieces) :
    (tree.graft root inside).directoryVacancy (reach root) (root ++ here) piece =
      (inside.directoryVacancy (reach []) here piece).map (root ++ ·) := by
  unfold directoryVacancy
  split
  · rfl
  · exact vacancy_graft tree root inside hstays hpiece

theorem ne_nil_of_directoryVacancy {reach : Reach} {there : Location}
    (hvacant : inside.directoryVacancy reach here piece = .ok there) : there ≠ [] := by
  unfold directoryVacancy at hvacant
  split at hvacant
  · cases hvacant
  · obtain ⟨-, -, -, rfl⟩ := vacancy_eq_ok_iff.mp hvacant
    simp

/-! ## New files -/

theorem last_mem_names (path : String) : (Path.names path).getLast?.getD [] ∈ Path.names path := by
  rw [List.getLast?_eq_some_getLast (Path.names_ne_nil path)]
  exact List.getLast_mem _

theorem createFile_graft {path : String} (hstays : Stays reach (Path.names path))
    (content : List UInt8) :
    (tree.graft root inside).createFile (reach root) path content =
      (inside.createFile (reach []) path content).map (tree.graft root) := by
  have hdirectory := hstays.of_isPrefix (List.dropLast_prefix (Path.names path))
  simp only [createFile, walk_graft tree root inside hdirectory, bind_map, map_bind,
    vacancy_graft tree root inside hstays (last_mem_names path)]
  refine congrArg _ (funext fun _ => congrArg _ (funext fun here => ?_))
  cases hvacant : inside.vacancy (reach []) here ((Path.names path).getLast?.getD []) with
  | error fault => rfl
  | ok there =>
      -- what is vacant lies below the directory, so the file goes into its contents
      obtain ⟨-, -, -, rfl⟩ := vacancy_eq_ok_iff.mp hvacant
      exact congrArg Except.ok (put_graft tree root inside _ (by simp))

/-! ## New directories -/

/-- What making a directory comes to, seen from the tree around. -/
def outward (result : Except Fault Location × Tree) : Except Fault Location × Tree :=
  (result.1.map (root ++ ·), tree.graft root result.2)

theorem settleDirectory_graft (hstays : Stays reach pieces) (outcome : Except Fault Location)
    (houtcome : ∀ vacant, outcome = .ok vacant → vacant ≠ []) :
    (tree.graft root inside).settleDirectory (reach root) pieces (outcome.map (root ++ ·)) =
      tree.outward root (inside.settleDirectory (reach []) pieces outcome) := by
  cases outcome with
  | ok vacant =>
      exact congrArg (Prod.mk _) (put_graft tree root inside .directory (houtcome vacant rfl))
  | error fault =>
      simp only [settleDirectory, outward, Except.map,
        walkToDirectory_graft tree root inside hstays]
      cases inside.walkToDirectory (reach []) pieces <;> rfl

theorem createDirectoriesUpward_graft (upward : List Name) (hstays : Stays reach upward.reverse) :
    (tree.graft root inside).createDirectoriesUpward (reach root) upward =
      tree.outward root (inside.createDirectoriesUpward (reach []) upward) := by
  induction upward with
  | nil => exact congrArg (Prod.mk · _) (start_eq_map root hstays)
  | cons last above ih =>
      have hlast : last ∈ (last :: above).reverse := by simp
      have habove : Stays reach above.reverse := by
        refine hstays.of_isPrefix ?_
        rw [List.reverse_cons]
        exact List.prefix_append _ _
      have hvacancy : (tree.graft root inside).walkToDirectory (reach root) above.reverse >>=
          ((tree.graft root inside).directoryVacancy (reach root) · last) =
          (inside.walkToDirectory (reach []) above.reverse >>=
            (inside.directoryVacancy (reach []) · last)).map (root ++ ·) := by
        rw [walkToDirectory_graft tree root inside habove, bind_map, map_bind]
        exact congrArg _ (funext fun here => directoryVacancy_graft tree root inside hstays hlast)
      unfold createDirectoriesUpward
      dsimp only
      rw [hvacancy]
      cases hfirst : inside.walkToDirectory (reach []) above.reverse >>=
          (inside.directoryVacancy (reach []) · last) with
      | ok vacant =>
          refine settleDirectory_graft tree root inside hstays (.ok vacant) ?_
          rintro _ ⟨⟩
          obtain ⟨here, -, hvacant⟩ := bind_eq_ok_iff.mp hfirst
          exact ne_nil_of_directoryVacancy inside hvacant
      | error fault =>
          cases fault with
          | notFound =>
              -- the directory above is made first, which changes the contents only
              dsimp only [Except.map]
              rw [ih habove]
              cases hmade : inside.createDirectoriesUpward (reach []) above with
              | mk result made =>
                  cases result with
                  | error fault => rfl
                  | ok here =>
                      dsimp only [outward, Except.map]
                      rw [directoryVacancy_graft tree root made hstays hlast]
                      exact settleDirectory_graft tree root made hstays _ fun vacant hvacant =>
                        ne_nil_of_directoryVacancy made hvacant
          | _ => exact settleDirectory_graft tree root inside hstays (.error _) (by rintro _ ⟨⟩)

theorem createDirectories_graft {path : String} (hstays : Stays reach (Path.names path)) :
    (tree.graft root inside).createDirectories (reach root) path =
      tree.outward root (inside.createDirectories (reach []) path) := by
  have hupward := createDirectoriesUpward_graft tree root inside (Path.names path).reverse
    (by rwa [List.reverse_reverse])
  cases hstays with
  | confined _ => exact hupward
  | ordinary _ _ =>
      unfold createDirectories
      dsimp only
      split
      · rfl
      · split
        · rfl
        · exact hupward

/-! ## Files that are replaced -/

theorem temporaryFile_graft (storage : Storage) (directory : Location) (above : List Name) :
    (tree.graft root inside).temporaryFile storage (root ++ directory) above =
      (inside.temporaryFile storage directory above).map (root ++ ·) := by
  unfold temporaryFile
  rw [children_graft]
  split
  · rfl
  · rw [map_bind]
    refine congrArg _ (funext fun ending => ?_)
    exact congrArg Except.ok (List.append_assoc root directory _)

theorem destination_graft {path : String} (hstays : Stays reach (Path.names path)) :
    (tree.graft root inside).destination (reach root) path =
      (inside.destination (reach []) path).map (root ++ ·) := by
  have hnamed : ((Path.names path).reverse.dropWhile (·.isEmpty)).reverse <+: Path.names path := by
    rw [← List.reverse_suffix, List.reverse_reverse]
    exact List.dropWhile_suffix _
  have hdirectory := hstays.of_isPrefix ((List.dropLast_prefix _).trans hnamed)
  simp only [destination, walk_graft tree root inside hdirectory, bind_map, map_bind, get?_graft,
    List.append_assoc]
  refine congrArg _ (funext fun _ => congrArg _ (funext fun here => ?_))
  repeat' split
  all_goals rfl

theorem moveFile_graft {path : String} {source : Location}
    (hstays : Stays reach (Path.names path)) (hsource : source ≠ []) :
    (tree.graft root inside).moveFile (reach root) (root ++ source) path =
      (inside.moveFile (reach []) source path).map (tree.graft root) := by
  simp only [moveFile, destination_graft tree root inside hstays, bind_map, map_bind, get?_graft,
    prune_graft tree root inside hsource]
  cases hdestination : inside.destination (reach []) path with
  | error fault => rfl
  | ok location =>
      obtain ⟨_, _, -, -, rfl⟩ := place_of_destination (hstays.stands inside) hdestination
      dsimp only [bind, Except.bind]
      split
      · exact congrArg Except.ok (put_graft tree root _ _ (by simp))
      · rfl

theorem replaceFile_graft {path : String} (hstays : Stays reach (Path.names path))
    (storage : Storage) (directory : Location) (above : List Name) (content : List UInt8) :
    let result := inside.replaceFile storage (reach []) directory above path content
    (tree.graft root inside).replaceFile storage (reach root) (root ++ directory) above path
      content = (result.1, tree.graft root result.2) := by
  intro result
  simp only [result, replaceFile, temporaryFile_graft]
  cases htemporary : inside.temporaryFile storage directory above with
  | error cause => rfl
  | ok temporary =>
      obtain ⟨name, hname, -⟩ := exists_name_of_temporaryFile htemporary
      have hne : temporary ≠ [] := by simp [hname]
      simp only [Except.map, put_graft tree root inside _ hne, prune_graft tree root _ hne,
        moveFile_graft tree root _ hstays hne]
      cases storage.store content with
      | error cause => rfl
      | ok _ =>
          dsimp only
          cases (inside.put temporary (.file content)).moveFile (reach []) temporary path <;> rfl

end Tree

end IncludeDeps
