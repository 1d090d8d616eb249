import IncludeDeps.Proofs.Opening
import IncludeDeps.Proofs.Tree.Approach

/-!
# The path of the output

An output file with a relative path is meant from the source directory, so the path that
is written to is joined from two.  It leads by way of the source directory
(`exists_approach`).  So does the path of the directory that the file lies in, unless
the file lies right in the source directory: then idle pieces at the end of the source
directory's path may be missing from it (`Path.pieces_outputParent_append`).

Hence making the directories on the joined path comes to the same as working in the
source directory and making those on the way to the file
(`createDirectories_outputParent`).  What is left to tell the two apart are the lengths
of the paths, and that of the temporary file beside the output is the longest of them
(`lacksRoom_outputParent`).  Where one of them is too long nothing is written
(`writeOutput_of_isTooLong`, `writeOutput_of_lacksRoom`).
-/

namespace IncludeDeps

open IncludeDeps.Tree

variable {tree : Tree} {workingDirectory root : Location} {source file : String}

/-! ## The directory of the output -/

namespace Path

theorem pieces_outputParent {path : String} {first : List Char} {rest : List (List Char)}
    (hpieces : pieces path = first :: rest) (hfirst : first ≠ []) :
    pieces (outputParent path) = if trimIdle rest = [] then [['.']]
      else first :: trimIdle (trimIdle rest).dropLast := by
  have hparent : parent? path = some (if trimIdle rest = [] then "" else
      String.ofList (List.intercalate ['/'] (first :: trimIdle (trimIdle rest).dropLast))) := by
    unfold parent?
    rw [hpieces]
    simp only [List.isEmpty_iff, hfirst, if_false, Bool.and_eq_true, false_and]
    split <;> rfl
  rw [outputParent, hparent]
  split
  · decide
  · have hbeginning : first :: trimIdle (trimIdle rest).dropLast <+: pieces path := by
      rw [hpieces, List.prefix_cons_inj]
      exact (trimIdle_isPrefix _).trans ((List.dropLast_prefix _).trans (trimIdle_isPrefix rest))
    have hspell := pieces_spell (List.cons_ne_nil first (trimIdle (trimIdle rest).dropLast))
      fun piece hpiece => slash_notMem_of_mem_splitOn (hbeginning.subset hpiece)
    have hne : (String.ofList (List.intercalate ['/']
        (first :: trimIdle (trimIdle rest).dropLast))).isEmpty = false := by
      rw [String.isEmpty_eq_false_iff]
      intro hempty
      rw [hempty] at hspell
      exact hfirst (List.cons.inj hspell).1.symm
    rw [Option.filter_some, hne]
    exact hspell

/-- The directory of an output is spelled by the pieces before the name, without the idle
ones at their end. -/
theorem pieces_outputParent_eq {path : String} (hrelative : (pieces path).head? ≠ some [])
    (hname : trimIdle (pieces path) ≠ []) :
    pieces (outputParent path) = if trimIdle (trimIdle (pieces path)).dropLast = [] then [['.']]
      else trimIdle (trimIdle (pieces path)).dropLast := by
  cases hpieces : pieces path with
  | nil => exact absurd hpieces (List.splitOn_ne_nil '/' _)
  | cons first rest =>
      rw [hpieces] at hrelative hname
      have hfirst : first ≠ [] := fun hempty => hrelative (by rw [hempty]; rfl)
      rw [pieces_outputParent hpieces hfirst, trimIdle_cons hname]
      by_cases hrest : trimIdle rest = []
      · rw [if_pos hrest, hrest]
        rfl
      · rw [if_neg hrest, List.dropLast_cons_of_ne_nil hrest]
        by_cases hidle : trimIdle (first :: (trimIdle rest).dropLast) = []
        · obtain ⟨hdot, hnone⟩ := eq_dot_of_trimIdle hfirst hidle
          rw [if_pos hidle, hdot, hnone]
        · rw [if_neg hidle, trimIdle_cons hidle]

/-- The directory of an output by way of another directory is reached by way of it too.
If the output lies right in that directory, idle pieces of its path may be taken off. -/
theorem pieces_outputParent_append {path longer : String} {above : List (List Char)}
    (hlonger : pieces longer = above ++ pieces path) (habove : above.head? ≠ some [])
    (hrelative : (pieces path).head? ≠ some []) (hname : trimIdle (pieces path) ≠ []) :
    pieces (outputParent longer) = above ++ pieces (outputParent path) ∨
      pieces (outputParent path) = [['.']] ∧ ∃ idle,
        above = pieces (outputParent longer) ++ idle ∧ ∀ piece ∈ idle, isIdle piece = true := by
  cases above with
  | nil =>
      rw [List.nil_append] at hlonger ⊢
      rw [pieces_outputParent_eq hrelative hname, ← hlonger]
      exact Or.inl (pieces_outputParent_eq (hlonger ▸ hrelative) (hlonger ▸ hname))
  | cons start onward =>
      have hstart : start ≠ [] := fun hempty => habove (by rw [hempty]; rfl)
      have htrim : trimIdle (pieces longer) = start :: onward ++ trimIdle (pieces path) := by
        rw [hlonger, trimIdle_append, if_neg hname]
      have hnamed : trimIdle (pieces longer) ≠ [] := by
        rw [htrim]
        exact List.append_ne_nil_of_right_ne_nil _ hname
      have hfirst : (pieces longer).head? ≠ some [] := by
        rw [hlonger]
        exact habove
      have houter := pieces_outputParent_eq hfirst hnamed
      rw [htrim, List.dropLast_append_of_ne_nil hname, trimIdle_append] at houter
      rw [pieces_outputParent_eq hrelative hname]
      by_cases hflat : trimIdle (trimIdle (pieces path)).dropLast = []
      · rw [if_pos hflat] at houter ⊢
        refine Or.inr ⟨rfl, ?_⟩
        by_cases hidle : trimIdle (start :: onward) = []
        · obtain ⟨rfl, hnone⟩ := eq_dot_of_trimIdle hstart hidle
          rw [if_pos hidle] at houter
          exact ⟨onward, by rw [houter]; rfl,
            fun piece => List.rdropWhile_eq_nil_iff.mp hnone piece⟩
        · rw [if_neg hidle] at houter
          exact ⟨_, by rw [houter]; exact (List.rdropWhile_append_rtakeWhile).symm,
            fun piece => List.mem_rtakeWhile_imp⟩
      · rw [if_neg hflat, if_neg (List.append_ne_nil_of_right_ne_nil _ hflat)] at houter
        rw [if_neg hflat]
        exact Or.inl houter

end Path

/-- The directory of an output is the one to start from, the top of the file system, or
on the way to the output. -/
theorem Path.names_outputParent (path : String) :
    names (outputParent path) = [[0x2E]] ∨
      names (outputParent path) = [[], []] ∧ (names path).head? = some [] ∨
      names (outputParent path) <+: (names path).dropLast := by
  unfold outputParent
  cases hfilter : (parent? path).filter (!·.isEmpty) with
  | none => exact Or.inl rfl
  | some parent =>
      obtain ⟨hparent, hne⟩ := Option.filter_eq_some_iff.mp hfilter
      rcases names_of_parent? hparent (by simpa using hne) with ⟨rfl, below, -, habsolute⟩ |
        hbeginning
      · exact Or.inr (Or.inl ⟨rfl, by rw [habsolute]; rfl⟩)
      · exact Or.inr (Or.inr hbeginning)

theorem Path.names_outputParent_of_relative {path : String}
    (hrelative : (names path).head? ≠ some []) :
    names (outputParent path) = [[0x2E]] ∨
      names (outputParent path) <+: (names path).dropLast :=
  (names_outputParent path).imp_right fun h => h.resolve_left fun htop => hrelative htop.2

theorem Path.names_outputParent_relative {path : String}
    (hrelative : (names path).head? ≠ some []) :
    (names (outputParent path)).head? ≠ some [] := by
  rcases names_outputParent_of_relative hrelative with hdot | hbeginning
  · rw [hdot]
    decide
  · exact relative_of_isPrefix hrelative (hbeginning.trans (List.dropLast_prefix _))

theorem Path.trimIdle_pieces_ne_nil {path : String} (hname : (fileName? path).isSome = true) :
    trimIdle (pieces path) ≠ [] := by
  intro hidle
  rw [fileName?, hidle] at hname
  cases hname

/-! ## By way of the source directory -/

theorem Path.pieces_relative {path : String} (hrelative : isAbsolute path = false)
    (hne : path ≠ "") : (pieces path).head? ≠ some [] := by
  intro hhead
  cases hpieces : pieces path with
  | nil => exact List.splitOn_ne_nil '/' _ hpieces
  | cons first rest =>
      rw [hpieces] at hhead
      obtain rfl : first = [] := Option.some.inj hhead
      have hspelled := intercalate_pieces path
      rw [hpieces] at hspelled
      cases rest with
      | nil => exact hne (String.toList_inj.mp hspelled.symm)
      | cons second others =>
          rw [List.intercalate_cons_cons] at hspelled
          rw [isAbsolute, ← hspelled] at hrelative
          cases hrelative

/-- A path with a file name is not empty. -/
theorem Path.pieces_relative_of_fileName? {path : String} (hrelative : isAbsolute path = false)
    (hname : (fileName? path).isSome = true) : (pieces path).head? ≠ some [] := by
  refine pieces_relative hrelative ?_
  rintro rfl
  cases hname

theorem Path.names_relative {path : String} (hrelative : (pieces path).head? ≠ some []) :
    (names path).head? ≠ some [] := by
  intro hhead
  rw [names, List.head?_map] at hhead
  obtain ⟨first, hfirst, hbytes⟩ := Option.map_eq_some_iff.mp hhead
  have hempty : Text.bytes (String.ofList first) = Text.bytes (String.ofList []) := hbytes
  rw [Text.bytes_inj, String.ofList_inj] at hempty
  exact hrelative (hempty ▸ hfirst)

/-- The path of the output leads to the source directory and goes on from there. -/
theorem exists_approach (hopened : tree.openSources workingDirectory source = .ok root)
    (hsource : Path.isAbsolute source = false) (hfile : Path.isAbsolute file = false) :
    ∃ above, Path.pieces (outputPath source file) = above ++ Path.pieces file ∧
      above.head? ≠ some [] ∧ tree.Approach workingDirectory
        (above.map fun piece => Text.bytes (String.ofList piece)) root := by
  obtain ⟨-, hlocate, hdirectory⟩ :=
    Settings.openDirectory_eq_ok_iff.mp (Settings.openSources_eq_ok_iff.mp hopened)
  obtain ⟨hne, hadmitted, start, hstart, hfollows⟩ :=
    (locate_eq_ok_iff (ordinary_stands tree workingDirectory)).mp hlocate
  have hrelative := Path.pieces_relative hsource hne
  rw [start_of_relative (Path.names_relative hrelative)] at hstart
  obtain rfl := Except.ok.inj hstart
  by_cases hdot : source = "."
  · subst hdot
    have hsame : outputPath "." file = file := by simp [outputPath]
    obtain rfl := hfollows.eq_of_idle (by decide)
    exact ⟨[], by rw [hsame]; rfl, by simp, by simp, rfl, .done, hdirectory⟩
  · have hjoin : outputPath source file = Path.join source file := by
      simp [outputPath, hfile, hdot]
    obtain ⟨above, hpieces, hspelled⟩ := Path.exists_pieces_join hfile hne
    have hbeginning : above <+: Path.pieces source := by
      rcases hspelled with hsame | hslash
      · rw [hsame]
      · rw [hslash]
        exact List.prefix_append _ _
    have hnames := hbeginning.map fun piece => Text.bytes (String.ofList piece)
    refine ⟨above, hjoin ▸ hpieces, fun hhead => hrelative ?_,
      Path.relative_of_isPrefix (Path.names_relative hrelative) hnames,
      Path.admit_of_isPrefix hadmitted hnames, ?_, hdirectory⟩
    · obtain ⟨more, hmore⟩ := hbeginning
      rw [← hmore, List.head?_append, hhead, Option.some_or]
    · rw [Path.names] at hfollows
      rcases hspelled with hsame | hslash
      · rwa [hsame] at hfollows
      · -- the empty piece behind the slash stays in the directory
        rw [hslash, List.map_append] at hfollows
        obtain ⟨middle, hfirst, hlast⟩ := Follows.append_iff.mp hfollows
        rwa [hlast.eq_of_idle (by decide)]

/-! ## Writing the output -/

/-- Two reports differ at most in the wording of the error and in what there is to tell. -/
structure Report.Matches (first second : Report) : Prop where
  tree : first.tree = second.tree
  stdout : first.stdout = second.stdout
  error : first.error.isSome = second.error.isSome

/-- A path in front of another does not make it too long where it is not too long already,
nor the path of the directory that it leads to, nor that of a temporary file in there. -/
structure LeavesLength (workingDirectory : Location) (source file : String) : Prop where
  path : Path.isTooLong (Path.names (outputPath source file)) = true →
    Path.isTooLong (Path.names file) = true
  parent : Path.isTooLong (Path.names (outputParent (outputPath source file))) = true →
    Path.isTooLong (Path.names (outputParent file)) = true
  temporary : lacksRoom (Path.fromTop workingDirectory
      (Path.names (outputParent (outputPath source file)))) = true →
    lacksRoom (Path.fromTop [] (Path.names (outputParent file))) = true

theorem createDirectories_outputParent
    (hopened : tree.openSources workingDirectory source = .ok root)
    (hsource : Path.isAbsolute source = false) (hfile : Path.isAbsolute file = false)
    (hname : (Path.fileName? file).isSome = true)
    (hlength : LeavesLength workingDirectory source file) :
    tree.createDirectories (.ordinary workingDirectory) (outputParent (outputPath source file)) =
      tree.createDirectories (.ordinary root) (outputParent file) := by
  obtain ⟨above, hpieces, habove, happroach⟩ := exists_approach hopened hsource hfile
  have hrelative := Path.pieces_relative_of_fileName? hfile hname
  rcases Path.pieces_outputParent_append hpieces habove hrelative
    (Path.trimIdle_pieces_ne_nil hname) with hparent | ⟨hdot, idle, hspelled, hidle⟩
  · refine happroach.createDirectories ?_
      (Path.names_outputParent_relative (Path.names_relative hrelative)) hlength.parent
    rw [Path.names, hparent, List.map_append]
    rfl
  · rw [hspelled, List.map_append] at happroach
    have houter : tree.Approach workingDirectory
        (Path.names (outputParent (outputPath source file))) root := by
      refine happroach.of_idle_end fun piece hpiece => ?_
      obtain ⟨spelled, hmem, rfl⟩ := List.mem_map.mp hpiece
      exact Path.staysPut_of_isIdle (hidle spelled hmem)
    have hinner : tree.Approach root (Path.names (outputParent file)) root := by
      rw [Path.names, hdot]
      exact ⟨by decide, rfl, .of_idle happroach.directory (by decide), happroach.directory⟩
    rw [houter.createDirectories_eq, hinner.createDirectories_eq]

/-- Further pieces in front leave no more room for the name of a temporary file. -/
theorem lacksRoom_fromTop_append {above pieces : List Name} (hpieces : pieces ≠ [])
    (habove : (above ++ pieces).head? ≠ some []) (hrelative : pieces.head? ≠ some [])
    (hlacks : lacksRoom (Path.fromTop [] pieces) = true) :
    lacksRoom (Path.fromTop workingDirectory (above ++ pieces)) = true := by
  rw [Path.fromTop, if_neg hrelative, List.nil_append] at hlacks
  rw [Path.fromTop, if_neg habove, ← List.append_assoc]
  have hlonger := (Path.intercalate_isSuffix [0x2F] (workingDirectory ++ above) pieces).length_le
  have hne : workingDirectory ++ above ++ pieces ≠ [] :=
    List.append_ne_nil_of_right_ne_nil _ hpieces
  rw [lacksRoom, decide_eq_true_iff, List.intercalate_cons_of_ne_nil hpieces,
    List.length_append] at hlacks
  rw [lacksRoom, decide_eq_true_iff, List.intercalate_cons_of_ne_nil hne, List.length_append]
  omega

theorem lacksRoom_outputParent
    (hopened : tree.openSources workingDirectory source = .ok root)
    (hsource : Path.isAbsolute source = false) (hfile : Path.isAbsolute file = false)
    (hname : (Path.fileName? file).isSome = true)
    (hlength : LeavesLength workingDirectory source file) :
    lacksRoom (Path.fromTop workingDirectory
        (Path.names (outputParent (outputPath source file)))) =
      lacksRoom (Path.fromTop [] (Path.names (outputParent file))) := by
  obtain ⟨above, hpieces, habove, happroach⟩ := exists_approach hopened hsource hfile
  have hrelative := Path.pieces_relative_of_fileName? hfile hname
  have hinner := Path.names_outputParent_relative (Path.names_relative hrelative)
  refine Bool.eq_iff_iff.mpr ⟨hlength.temporary, fun hlacks => ?_⟩
  rcases Path.pieces_outputParent_append hpieces habove hrelative
    (Path.trimIdle_pieces_ne_nil hname) with hparent | ⟨hdot, -⟩
  · have hnames : Path.names (outputParent (outputPath source file)) =
        above.map (fun piece => Text.bytes (String.ofList piece)) ++
          Path.names (outputParent file) := by
      rw [Path.names, hparent, List.map_append]
      rfl
    rw [hnames]
    exact lacksRoom_fromTop_append (Path.names_ne_nil _) (happroach.append_relative hinner)
      hinner hlacks
  · -- right in the directory there is room
    rw [Path.names, hdot] at hlacks
    exact absurd hlacks (by decide)

/-- Nothing is written to a path that is too long. -/
theorem writeOutput_of_isTooLong {path : String} (storage : Storage)
    (hlong : Path.isTooLong (Path.names path) = true) (text : String) :
    (writeOutput storage tree workingDirectory path text).error.isSome = true := by
  have hrefused : ∃ fault, Path.admit (Path.names path) = .error fault := by
    unfold Path.admit
    rw [if_pos hlong]
    split <;> exact ⟨_, rfl⟩
  obtain ⟨fault, hfault⟩ := hrefused
  have hmove : ∀ (staged : Tree) (source : Location),
      staged.moveFile (.ordinary workingDirectory) source path = .error fault := by
    intro staged source
    unfold moveFile destination
    dsimp only
    rw [hfault]
    rfl
  unfold writeOutput
  dsimp only
  split
  · rfl
  · split
    · rfl
    · next directory made _ _ hreplace =>
      unfold replaceFile at hreplace
      simp only [hmove] at hreplace
      split at hreplace
      · cases hreplace
      · split at hreplace <;> cases hreplace

/-- Nothing is written without room for a temporary file. -/
theorem writeOutput_of_lacksRoom {path : String} (storage : Storage)
    (hlacks : lacksRoom (Path.fromTop workingDirectory (Path.names (outputParent path))) = true)
    (text : String) :
    (writeOutput storage tree workingDirectory path text).error.isSome = true := by
  unfold writeOutput
  dsimp only
  split
  · rfl
  · rw [replaceFile, temporaryFile, if_pos hlacks]
    rfl

end IncludeDeps
