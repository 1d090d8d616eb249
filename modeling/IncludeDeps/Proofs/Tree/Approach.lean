import IncludeDeps.Proofs.Tree.Replacement

/-!
# Paths by way of a directory

A relative path may lead to a directory and go on from there.  With `Approach` for
the pieces that lead to the directory, what an operation comes to along these and
further pieces is what it comes to along the further pieces alone when the directory
is the working directory: the locations are the same, and so are the faults.

There is one way to tell the two paths apart, by their lengths.  What is too long is
refused, so it has to be said of the longer path that it is not too long unless the
shorter one is.  Where idle pieces at the end are taken off, those of the directory's
own path may go with them, which makes no difference, since they stay in the directory
(`dropIdleEnd_append`).
-/

namespace IncludeDeps

/-! ## Admission -/

namespace Path

variable {above pieces : List Name}

theorem intercalate_isSuffix {α : Type*} (separator : List α) (above pieces : List (List α)) :
    List.intercalate separator pieces <:+ List.intercalate separator (above ++ pieces) := by
  by_cases hpieces : pieces = []
  · rw [hpieces, List.intercalate_nil]
    exact List.nil_suffix
  · induction above with
    | nil => exact List.suffix_rfl
    | cons first rest ih =>
        rw [List.cons_append, List.intercalate_cons_of_ne_nil
          (List.append_ne_nil_of_right_ne_nil rest hpieces)]
        exact ih.trans (List.suffix_append _ _)

/-- A path that is taken further in front is no shorter. -/
theorem admit_of_append (hadmitted : Path.admit (above ++ pieces) = .ok ()) :
    Path.admit pieces = .ok () := by
  rw [admit_eq_ok_iff] at hadmitted ⊢
  obtain ⟨hnull, hlength⟩ := hadmitted
  exact ⟨fun piece hpiece => hnull piece (List.mem_append_right above hpiece),
    (intercalate_isSuffix _ above pieces).length_le.trans hlength⟩

theorem any_null_append (habove : Path.admit above = .ok ()) :
    (above ++ pieces).any (·.contains 0) = pieces.any (·.contains 0) := by
  have hnull : above.any (·.contains 0) = false := by
    simpa using (admit_eq_ok_iff.mp habove).1
  rw [List.any_append, hnull, Bool.false_or]

theorem isTooLong_append (hlong : isTooLong (above ++ pieces) = true → isTooLong pieces = true) :
    isTooLong (above ++ pieces) = isTooLong pieces := by
  refine Bool.eq_iff_iff.mpr ⟨hlong, fun hshorter => ?_⟩
  rw [isTooLong, decide_eq_true_iff] at hshorter ⊢
  exact hshorter.trans_le (intercalate_isSuffix _ above pieces).length_le

theorem admit_append (habove : Path.admit above = .ok ())
    (hlong : isTooLong (above ++ pieces) = true → isTooLong pieces = true) :
    Path.admit (above ++ pieces) = Path.admit pieces := by
  unfold Path.admit
  rw [any_null_append habove, isTooLong_append hlong]

end Path

namespace Tree

variable {tree later : Tree} {workingDirectory root here : Location} {piece : Name}
  {above pieces : List Name} {path longer : String}

/-! ## Ordinary reach -/

/-- Where an ordinary path stands, it is no longer seen where it started. -/
theorem enter_ordinary (tree : Tree) (first second here : Location) (piece : Name) :
    tree.enter (.ordinary first) here piece = tree.enter (.ordinary second) here piece := by
  simp [enter, Reach.above]

theorem directoryVacancy_ordinary (tree : Tree) (first second here : Location) (name : Name) :
    tree.directoryVacancy (.ordinary first) here name =
      tree.directoryVacancy (.ordinary second) here name := by
  rw [directoryVacancy, directoryVacancy, vacancy, vacancy, enter_ordinary tree first second]

/-! ## Pieces that lead to a directory -/

/-- Relative pieces lead from the working directory to a directory. -/
structure Approach (tree : Tree) (workingDirectory : Location) (above : List Name)
    (root : Location) : Prop where
  relative : above.head? ≠ some []
  admitted : Path.admit above = .ok ()
  follows : tree.Follows (.ordinary workingDirectory) workingDirectory above root
  directory : tree.get? root = some .directory

theorem Approach.grow (happroach : tree.Approach workingDirectory above root)
    (hgrows : tree.Grows later) : later.Approach workingDirectory above root where
  relative := happroach.relative
  admitted := happroach.admitted
  follows := happroach.follows.mono (fun location => hgrows location .directory)
    (by simp [hgrows root .directory happroach.directory])
  directory := hgrows root .directory happroach.directory

/-- Idle pieces at the end are not needed to get to the directory. -/
theorem Approach.of_idle_end {idle : List Name}
    (happroach : tree.Approach workingDirectory (above ++ idle) root)
    (hidle : ∀ piece ∈ idle, staysPut piece = true) :
    tree.Approach workingDirectory above root where
  relative := Path.relative_of_isPrefix happroach.relative (List.prefix_append above idle)
  admitted := Path.admit_of_isPrefix happroach.admitted (List.prefix_append above idle)
  follows := by
    obtain ⟨middle, hfirst, hlast⟩ := Follows.append_iff.mp happroach.follows
    rwa [hlast.eq_of_idle hidle]
  directory := happroach.directory

theorem start_of_relative (hrelative : pieces.head? ≠ some []) :
    Reach.start (.ordinary here) (pieces.head? == some []) = .ok here := by
  rw [beq_false_of_ne hrelative]
  rfl

theorem Approach.append_relative (happroach : tree.Approach workingDirectory above root)
    (hrelative : pieces.head? ≠ some []) : (above ++ pieces).head? ≠ some [] := by
  have habove := happroach.relative
  cases above with
  | nil => exact hrelative
  | cons first rest => exact habove

theorem Approach.foldlM_enter (happroach : tree.Approach workingDirectory above root) :
    (above ++ pieces).foldlM (tree.enter (.ordinary workingDirectory)) workingDirectory =
      pieces.foldlM (tree.enter (.ordinary root)) root := by
  have habove := (foldlM_enter_eq_ok_iff (ordinary_stands tree workingDirectory)).mpr
    happroach.follows
  have henter : tree.enter (.ordinary workingDirectory) = tree.enter (.ordinary root) :=
    funext fun here => funext fun piece => enter_ordinary tree workingDirectory root here piece
  rw [List.foldlM_append, habove, henter]
  rfl

theorem Approach.walk (happroach : tree.Approach workingDirectory above root)
    (hrelative : pieces.head? ≠ some [])
    (hadmission : Path.admit (above ++ pieces) = Path.admit pieces) :
    tree.walk (.ordinary workingDirectory) (above ++ pieces) =
      tree.walk (.ordinary root) pieces := by
  rw [Tree.walk, Tree.walk, hadmission, start_of_relative hrelative,
    start_of_relative (happroach.append_relative hrelative)]
  exact congrArg _ (funext fun _ => happroach.foldlM_enter)

/-! ## Making directories -/

/-- Idle pieces are taken off the end of the further pieces, unless nothing is left
of these. -/
theorem dropIdleEnd_append (above pieces : List Name) :
    dropIdleEnd (above ++ pieces) = above ++ dropIdleEnd pieces ∨
      ∀ piece ∈ pieces, staysPut piece = true := by
  refine or_iff_not_imp_right.mpr fun hbusy => ?_
  have hleft : pieces.rdropWhile staysPut ≠ [] := mt List.rdropWhile_eq_nil_iff.mp hbusy
  have hpieces : dropIdleEnd pieces = pieces.rdropWhile staysPut := by
    cases pieces with
    | nil => exact absurd rfl hleft
    | cons first rest =>
        have hfirst := Path.rdropWhile_append staysPut [first] rest
        rw [List.singleton_append] at hfirst
        rw [hfirst] at hleft ⊢
        rw [dropIdleEnd]
        split
        · next hrest =>
          rw [if_pos hrest, List.rdropWhile_singleton] at hleft
          have hmoves : ¬ staysPut first = true := fun hidle => hleft (if_pos hidle)
          rw [List.rdropWhile_singleton, if_neg hmoves]
          exact congrArg (first :: ·) hrest
        · rfl
  cases above with
  | nil => rfl
  | cons first rest =>
      have hrest : (rest ++ pieces).rdropWhile staysPut = rest ++ pieces.rdropWhile staysPut := by
        rw [Path.rdropWhile_append, if_neg hleft]
      rw [hpieces]
      exact congrArg (first :: ·) hrest

theorem Approach.walkToDirectory (happroach : tree.Approach workingDirectory above root)
    (hrelative : pieces.head? ≠ some []) (hadmitted : Path.admit (above ++ pieces) = .ok ()) :
    tree.walkToDirectory (.ordinary workingDirectory) (above ++ pieces) =
      tree.walkToDirectory (.ordinary root) pieces := by
  have hlater := Path.admit_of_append hadmitted
  have hidleEnd := dropIdleEnd_isPrefix pieces
  rcases dropIdleEnd_append above pieces with happend | hidle
  · have hhead : (dropIdleEnd pieces).head? ≠ some [] := by cases pieces <;> exact hrelative
    have hadmission :
        Path.admit (above ++ dropIdleEnd pieces) = Path.admit (dropIdleEnd pieces) := by
      rw [Path.admit_of_isPrefix hlater hidleEnd, Path.admit_of_isPrefix hadmitted
        ((List.prefix_append_right_inj above).mpr hidleEnd)]
    rw [Tree.walkToDirectory, Tree.walkToDirectory, happend, happroach.walk hhead hadmission]
  · -- idle pieces stay in the directory, whether they are taken off or not
    have hstay : tree.Follows (.ordinary root) root pieces root :=
      .of_idle happroach.directory hidle
    have hstaying : tree.Follows (.ordinary workingDirectory) root pieces root :=
      .of_idle happroach.directory hidle
    rw [(walkToDirectory_eq_ok_iff (ordinary_stands tree root) happroach.directory).mpr
        ⟨Path.admit_of_isPrefix hlater hidleEnd, root, start_of_relative hrelative, hstay⟩,
      (walkToDirectory_eq_ok_iff (ordinary_stands tree workingDirectory) happroach.directory).mpr
        ⟨Path.admit_of_isPrefix hadmitted (dropIdleEnd_isPrefix _), workingDirectory,
          start_of_relative (happroach.append_relative hrelative),
          Follows.append_iff.mpr ⟨root, happroach.follows, hstaying⟩⟩]

theorem Approach.leads (happroach : tree.Approach workingDirectory above root) :
    tree.Leads (.ordinary workingDirectory) above root :=
  ⟨workingDirectory, start_of_relative happroach.relative, happroach.follows⟩

theorem Approach.createDirectoriesUpward (happroach : tree.Approach workingDirectory above root)
    (upward : List Name) (hrelative : upward.reverse.head? ≠ some [])
    (hadmitted : Path.admit (above ++ upward.reverse) = .ok ()) :
    tree.createDirectoriesUpward (.ordinary workingDirectory) (upward ++ above.reverse) =
      tree.createDirectoriesUpward (.ordinary root) upward := by
  induction upward with
  | nil =>
      have hstart : tree.createDirectoriesUpward (.ordinary root) [] = (.ok root, tree) := rfl
      rw [List.nil_append, hstart]
      by_cases habove : above = []
      · subst habove
        cases happroach.follows with
        | done => rfl
      · exact createDirectoriesUpward_of_leads (ordinary_stands tree workingDirectory) habove
          happroach.relative happroach.admitted happroach.leads happroach.directory
  | cons last rest ih =>
      have hbeginning : rest.reverse <+: (last :: rest).reverse := by
        rw [List.reverse_cons]
        exact List.prefix_append _ _
      have hrest := Path.relative_of_isPrefix hrelative hbeginning
      have hadmittedRest := Path.admit_of_isPrefix hadmitted
        ((List.prefix_append_right_inj above).mpr hbeginning)
      have hpieces :
          (last :: (rest ++ above.reverse)).reverse = above ++ (last :: rest).reverse := by
        simp
      have hsettle : ∀ made, tree.Grows made → ∀ outcome,
          made.settleDirectory (.ordinary workingDirectory) (above ++ (last :: rest).reverse)
            outcome = made.settleDirectory (.ordinary root) (last :: rest).reverse outcome := by
        intro made hgrows outcome
        cases outcome with
        | ok vacant => rfl
        | error fault =>
            rw [settleDirectory, settleDirectory,
              (happroach.grow hgrows).walkToDirectory hrelative hadmitted]
      rw [List.cons_append]
      unfold Tree.createDirectoriesUpward
      dsimp only
      rw [hpieces, List.reverse_append, List.reverse_reverse,
        happroach.walkToDirectory hrest hadmittedRest, ih hrest hadmittedRest]
      simp only [directoryVacancy_ordinary _ workingDirectory root]
      split
      · have hgrows := (createDirectoriesUpward_spec (ordinary_stands tree root) rest).1.grows
        split
        · rfl
        · next hresult =>
          rw [hresult] at hgrows
          exact hsettle _ hgrows _
      · exact hsettle tree (.refl tree) _

theorem Approach.createDirectories (happroach : tree.Approach workingDirectory above root)
    (hnames : Path.names longer = above ++ Path.names path)
    (hrelative : (Path.names path).head? ≠ some [])
    (hlong : Path.isTooLong (Path.names longer) = true → Path.isTooLong (Path.names path) = true) :
    tree.createDirectories (.ordinary workingDirectory) longer =
      tree.createDirectories (.ordinary root) path := by
  rw [hnames] at hlong
  have hadmission := Path.admit_append happroach.admitted hlong
  unfold Tree.createDirectories
  dsimp only
  rw [hnames, Path.any_null_append happroach.admitted, Path.isTooLong_append hlong]
  split
  · rfl
  · next hnull =>
    split
    · rfl
    · next hshort =>
      have hadmitted : Path.admit (Path.names path) = .ok () := by
        unfold Path.admit
        rw [if_neg hnull, if_neg hshort]
      rw [List.reverse_append]
      refine happroach.createDirectoriesUpward _ ?_ ?_
      · rwa [List.reverse_reverse]
      · rwa [List.reverse_reverse, hadmission]

/-- The directory itself is there already. -/
theorem Approach.createDirectories_eq
    (happroach : tree.Approach workingDirectory (Path.names path) root) :
    tree.createDirectories (.ordinary workingDirectory) path = (.ok root, tree) := by
  have hadmitted := happroach.admitted
  unfold Path.admit at hadmitted
  unfold Tree.createDirectories
  dsimp only
  split at hadmitted
  · cases hadmitted
  · next hnull =>
    split at hadmitted
    · cases hadmitted
    · next hshort =>
      rw [if_neg hnull, if_neg hshort]
      exact createDirectoriesUpward_of_leads (ordinary_stands tree workingDirectory)
        (Path.names_ne_nil path) happroach.relative happroach.admitted happroach.leads
        happroach.directory

/-! ## Replacing a file -/

theorem Approach.destination (happroach : tree.Approach workingDirectory above root)
    (hnames : Path.names longer = above ++ Path.names path)
    (hrelative : (Path.names path).head? ≠ some [])
    (hlong : Path.isTooLong (Path.names longer) = true → Path.isTooLong (Path.names path) = true) :
    tree.destination (.ordinary workingDirectory) longer =
      tree.destination (.ordinary root) path := by
  rw [hnames] at hlong
  have hadmission := Path.admit_append happroach.admitted hlong
  obtain ⟨named, hnamed⟩ : ∃ named, (Path.names path).rdropWhile (·.isEmpty) = named := ⟨_, rfl⟩
  have hbeginning : named <+: Path.names path := hnamed ▸ List.rdropWhile_prefix _ _
  -- the first piece of the shorter path is not empty, so it is among what is named
  have hleft : named ≠ [] := by
    intro hnone
    have hempty := List.rdropWhile_eq_nil_iff.mp (hnamed.trans hnone)
    cases hpieces : Path.names path with
    | nil => exact Path.names_ne_nil path hpieces
    | cons first rest =>
        have hfirst : first = [] := by simpa using hempty first (by rw [hpieces]; simp)
        exact hrelative (by rw [hpieces, hfirst]; rfl)
  have hlonger : (above ++ Path.names path).rdropWhile (·.isEmpty) = above ++ named := by
    rw [Path.rdropWhile_append, hnamed, if_neg hleft]
  unfold List.rdropWhile at hnamed hlonger
  unfold Tree.destination
  dsimp only
  rw [hnames, hlonger, hnamed, hadmission, List.dropLast_append_of_ne_nil hleft,
    List.getLast?_append_of_ne_nil _ hleft, List.length_append, List.length_append]
  simp only [Nat.add_lt_add_iff_left]
  cases hadmitted : Path.admit (Path.names path) with
  | error fault => rfl
  | ok _ =>
      have hdirectory := (List.dropLast_prefix named).trans hbeginning
      have hsame : Path.admit (above ++ named.dropLast) = Path.admit named.dropLast := by
        rw [Path.admit_of_isPrefix hadmitted hdirectory, Path.admit_of_isPrefix
          (hadmission.trans hadmitted) ((List.prefix_append_right_inj above).mpr hdirectory)]
      rw [happroach.walk (Path.relative_of_isPrefix hrelative hdirectory) hsame]

theorem Approach.replaceFile (happroach : tree.Approach workingDirectory above root)
    (hnames : Path.names longer = above ++ Path.names path)
    (hrelative : (Path.names path).head? ≠ some [])
    (hlong : Path.isTooLong (Path.names longer) = true → Path.isTooLong (Path.names path) = true)
    (hhere : tree.get? here = some .directory) (storage : Storage) (top : List Name)
    (content : List UInt8) :
    tree.replaceFile storage (.ordinary workingDirectory) here top longer content =
      tree.replaceFile storage (.ordinary root) here top path content := by
  rw [Tree.replaceFile, Tree.replaceFile]
  cases htemporary : tree.temporaryFile storage here top with
  | error cause => rfl
  | ok temporary =>
      obtain ⟨name, rfl, hunused⟩ := exists_name_of_temporaryFile htemporary
      have hgrows := grows_put (.file content) hhere (hunused hhere)
      dsimp only
      rw [moveFile, moveFile, (happroach.grow hgrows).destination hnames hrelative hlong]

end Tree

end IncludeDeps
