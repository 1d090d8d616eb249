import IncludeDeps.Proofs.Standpoint

/-!
# Where working from outside differs

Working from outside a directory is working inside it (`working_outside`) as far as the
directory can be named and leaves the lengths of paths alone.  Here is what keeps the
two apart.  A directory whose name is no text can be worked in but not named.  And a
path may become too long when that of the directory is put in front, be it that of the
output or that of the temporary file alone.  Both are shown with idle pieces, which may
stand in a path in any number and lead nowhere.
-/

namespace IncludeDeps

open IncludeDeps.Tree

variable {tree : Tree} {root workingDirectory : Location} {source : String}

/-! ## Idle pieces in front -/

/-- The file `m`, with idle pieces in front. -/
def idlingPath (count : ℕ) : String :=
  String.ofList (List.intercalate ['/'] (List.replicate count ['.'] ++ [['m']]))

theorem pieces_idlingPath (count : ℕ) :
    Path.pieces (idlingPath count) = List.replicate count ['.'] ++ [['m']] := by
  refine Path.pieces_spell (by simp) fun piece hpiece => ?_
  rcases List.mem_append.mp hpiece with hidle | hlast
  · rw [List.eq_of_mem_replicate hidle]
    decide
  · rw [List.mem_singleton.mp hlast]
    decide

theorem names_idlingPath (count : ℕ) :
    Path.names (idlingPath count) = List.replicate count [0x2E] ++ Path.names "m" := by
  rw [Path.names, pieces_idlingPath, List.map_append, List.map_replicate]
  rfl

theorem length_idling_append (count : ℕ) {pieces : List Name} (hpieces : pieces ≠ []) :
    (List.intercalate [0x2F] (List.replicate count [0x2E] ++ pieces)).length =
      2 * count + (List.intercalate [0x2F] pieces).length := by
  induction count with
  | zero => simp
  | succ count ih =>
      rw [List.replicate_succ, List.cons_append, List.intercalate_cons_of_ne_nil
        (List.append_ne_nil_of_right_ne_nil _ hpieces), List.length_append, List.length_append,
        ih, List.length_singleton, List.length_singleton]
      omega

theorem length_idlingPath (count : ℕ) :
    (List.intercalate [0x2F] (Path.names (idlingPath count))).length = 2 * count + 1 := by
  rw [names_idlingPath, length_idling_append count (Path.names_ne_nil _)]
  rfl

theorem idlingPath_relative (count : ℕ) : Path.isAbsolute (idlingPath count) = false := by
  cases count with
  | zero => decide
  | succ count =>
      rw [Path.isAbsolute, idlingPath, String.toList_ofList, List.replicate_succ, List.cons_append,
        List.intercalate_cons_of_ne_nil (by simp)]
      rfl

theorem names_outputPath_idlingPath (count : ℕ) :
    Path.names (outputPath "d" (idlingPath count)) = [0x64] :: Path.names (idlingPath count) := by
  have hrelative := idlingPath_relative count
  have hjoin : outputPath "d" (idlingPath count) = Path.join "d" (idlingPath count) := by
    simp [outputPath, hrelative]
  have hsource : Path.pieces "d" = [['d']] := by decide
  obtain ⟨above, hpieces, hspelled⟩ := Path.exists_pieces_join hrelative (by decide : "d" ≠ "")
  rw [hsource] at hspelled
  rcases hspelled with rfl | hslash
  · rw [hjoin, Path.names, hpieces]
    rfl
  · have hlast := congrArg List.getLast? hslash
    rw [List.getLast?_concat] at hlast
    cases hlast

theorem trimIdle_pieces_idlingPath (count : ℕ) :
    Path.trimIdle (Path.pieces (idlingPath count)) = List.replicate count ['.'] ++ [['m']] := by
  rw [pieces_idlingPath]
  exact List.rdropWhile_concat_neg Path.isIdle _ _ (by decide)

theorem fileName?_idlingPath (count : ℕ) : Path.fileName? (idlingPath count) = some "m" := by
  rw [Path.fileName?, trimIdle_pieces_idlingPath, List.getLast?_concat]
  rfl

/-- The directory that the file lies in is the one to start from. -/
theorem names_outputParent_idlingPath (count : ℕ) :
    Path.names (outputParent (idlingPath count)) = [[0x2E]] := by
  have hrelative := Path.pieces_relative_of_fileName? (idlingPath_relative count)
    (by rw [fileName?_idlingPath]; rfl)
  have hidle : Path.trimIdle (Path.trimIdle (Path.pieces (idlingPath count))).dropLast = [] := by
    rw [trimIdle_pieces_idlingPath, List.dropLast_concat]
    refine List.rdropWhile_eq_nil_iff.mpr fun piece hpiece => ?_
    rw [List.eq_of_mem_replicate hpiece]
    decide
  have hpieces := Path.pieces_outputParent_eq hrelative
    (by rw [trimIdle_pieces_idlingPath]; simp)
  rw [if_pos hidle] at hpieces
  rw [Path.names, hpieces]
  rfl

theorem idlingPath_ne_dash (count : ℕ) : idlingPath count ≠ "-" := by
  intro hsame
  have hname := fileName?_idlingPath count
  rw [hsame] at hname
  exact absurd hname (by decide)

/-- Idle pieces do not keep the file from being written, unless there are too many. -/
theorem writeOutput_idlingPath {count : ℕ} (hshort : 2 * count + 1 ≤ longestPath) (text : String) :
    (writeOutput .ample .empty [] (idlingPath count) text).error = none := by
  have hnames := names_idlingPath count
  have hidle : ∀ piece ∈ List.replicate count ([0x2E] : Name), staysPut piece = true := by
    intro piece hpiece
    rw [List.eq_of_mem_replicate hpiece]
    rfl
  have hadmitted : Path.admit (Path.names (idlingPath count)) = .ok () := by
    refine Path.admit_eq_ok_iff.mpr
      ⟨fun piece hpiece => ?_, (length_idlingPath count).trans_le hshort⟩
    rw [hnames] at hpiece
    rcases List.mem_append.mp hpiece with hdot | hlast
    · rw [List.eq_of_mem_replicate hdot]
      decide
    · rw [List.mem_singleton.mp hlast]
      decide
  have hrelative : (Path.names (idlingPath count)).head? ≠ some [] := by
    rw [hnames]
    cases count with
    | zero => decide
    | succ count => simp [List.replicate_succ]
  have hbeginning := List.prefix_append (List.replicate count [0x2E]) (Path.names "m")
  rw [← hnames] at hbeginning
  have happroach : Tree.Approach .empty [] (List.replicate count [0x2E]) [] :=
    ⟨Path.relative_of_isPrefix hrelative hbeginning, Path.admit_of_isPrefix hadmitted hbeginning,
      .of_idle (get?_top _) hidle, get?_top _⟩
  have hparent : Tree.Approach .empty [] (Path.names (outputParent (idlingPath count))) [] := by
    rw [names_outputParent_idlingPath]
    exact ⟨by decide, rfl, .of_idle (get?_top _) (by decide), get?_top _⟩
  have hlong : Path.isTooLong (Path.names (idlingPath count)) = false := by
    rw [Path.isTooLong, length_idlingPath]
    simpa using hshort
  unfold writeOutput
  dsimp only
  rw [hparent.createDirectories_eq]
  dsimp only
  rw [happroach.replaceFile hnames (by decide) (by simp [hlong]) (get?_top _),
    names_outputParent_idlingPath]
  rfl

/-- A directory with nothing in it has no sources. -/
theorem buildGraph_of_children {settings : Settings} (hchildren : tree.children root = []) :
    (settings.buildGraph tree root).1 = .ok Graph.empty := by
  unfold Settings.buildGraph Tree.discover discoverAmong
  simp only [hchildren, List.filterMap_nil, List.mergeSort_nil]
  rfl

/-- With sources that can be resolved, and a file that has a name, the run is the writing
of the file. -/
theorem run_makefileIn {file : String} {graph : Graph} (storage : Storage) (settings : Settings)
    (hcommand : settings.command = some (.makefile (makefileIn file))) (hdash : file ≠ "-")
    (hname : (Path.fileName? file).isSome = true)
    (hbuilds : settings.Builds tree workingDirectory source graph) :
    ∃ text, (settings.run storage tree workingDirectory).error =
      (writeOutput storage tree workingDirectory (outputPath source file) text).error := by
  have hmakefile : settings.commandOrDefault = .makefile (makefileIn file) := by
    rw [Settings.commandOrDefault, hcommand]
    rfl
  have hspelled : Text.ofBytes? (makefileIn file).file = some file :=
    Text.ofBytes?_eq_some_iff.mpr rfl
  have hnamed : (Path.fileName? file).isNone = false := by
    rw [← Option.not_isSome, hname]
    rfl
  obtain ⟨events, hrun⟩ := run_of_builds storage hmakefile hbuilds
  refine ⟨graph.makefile (makefileIn file).settings, ?_⟩
  rw [hrun, Report.after, Settings.deliverMakefile, hspelled]
  dsimp only
  rw [if_neg hdash, hnamed, if_neg Bool.false_ne_true]

/-! ## Idle pieces behind -/

/-- The directory `d`, with idle pieces behind. -/
def idlingSource (count : ℕ) : String :=
  String.ofList (List.intercalate ['/'] (['d'] :: List.replicate count ['.']))

theorem pieces_idlingSource (count : ℕ) :
    Path.pieces (idlingSource count) = ['d'] :: List.replicate count ['.'] := by
  refine Path.pieces_spell (by simp) fun piece hpiece => ?_
  rcases List.mem_cons.mp hpiece with rfl | hidle
  · decide
  · rw [List.eq_of_mem_replicate hidle]
    decide

theorem names_idlingSource (count : ℕ) :
    Path.names (idlingSource count) = [0x64] :: List.replicate count [0x2E] := by
  rw [Path.names, pieces_idlingSource, List.map_cons, List.map_replicate]
  rfl

theorem length_idlingSource_append (count : ℕ) {pieces : List Name} (hpieces : pieces ≠ []) :
    (List.intercalate [0x2F] (Path.names (idlingSource count) ++ pieces)).length =
      2 + 2 * count + (List.intercalate [0x2F] pieces).length := by
  rw [names_idlingSource, List.cons_append, List.intercalate_cons_of_ne_nil
    (List.append_ne_nil_of_right_ne_nil _ hpieces), List.length_append, List.length_append,
    length_idling_append count hpieces, List.length_singleton, List.length_singleton]
  omega

theorem idlingSource_ne (count : ℕ) {other : String}
    (hother : (Path.pieces other).head? ≠ some ['d']) : idlingSource count ≠ other := by
  rintro rfl
  rw [pieces_idlingSource] at hother
  exact hother rfl

theorem pieces_outputPath_idlingSource (count : ℕ) {file : String}
    (hrelative : Path.isAbsolute file = false) :
    Path.pieces (outputPath (idlingSource count) file) =
      Path.pieces (idlingSource count) ++ Path.pieces file := by
  have hdot : idlingSource count ≠ "." := idlingSource_ne count (by decide)
  have hjoin : outputPath (idlingSource count) file = Path.join (idlingSource count) file := by
    simp [outputPath, hrelative, hdot]
  obtain ⟨above, hpieces, hspelled⟩ :=
    Path.exists_pieces_join hrelative (idlingSource_ne count (by decide))
  rcases hspelled with hsame | hslash
  · rw [hjoin, hpieces, hsame]
  · -- no piece of the directory's path is empty
    have hempty : [] ∈ Path.pieces (idlingSource count) := by
      rw [hslash]
      simp
    rw [pieces_idlingSource] at hempty
    simp [List.mem_replicate] at hempty

/-- The tree that holds nothing but the directory. -/
def bare : Tree :=
  .directory [0x64] .empty .empty

theorem opens_idlingSource {count : ℕ} (settings : Settings)
    (hshort : 2 * count + 1 ≤ longestPath) :
    (settings.inDirectory (Text.bytes (idlingSource count))).Opens bare [] (idlingSource count)
      [[0x64]] := by
  have hnull : ∀ piece ∈ Path.names (idlingSource count), (0 : UInt8) ∉ piece := by
    rw [names_idlingSource]
    intro piece hpiece
    rcases List.mem_cons.mp hpiece with rfl | hidle
    · decide
    · rw [List.eq_of_mem_replicate hidle]
      decide
  have hlength : (List.intercalate [0x2F] (Path.names (idlingSource count))).length =
      2 * count + 1 := by
    rw [names_idlingSource]
    cases count with
    | zero => rfl
    | succ count =>
        rw [List.intercalate_cons_of_ne_nil (by simp), List.replicate_succ', List.length_append,
          List.length_append, length_idling_append count (by simp)]
        simp [List.intercalate_singleton]
        omega
  have hadmitted := Path.admit_eq_ok_iff.mpr ⟨hnull, hlength.trans_le hshort⟩
  have hfollows : bare.Follows (.ordinary []) [] (Path.names (idlingSource count)) [[0x64]] := by
    rw [names_idlingSource]
    refine .step rfl (.down ⟨by decide, by decide, by decide⟩ (by decide)) ?_
    refine .of_idle rfl fun piece hpiece => ?_
    rw [List.eq_of_mem_replicate hpiece]
    rfl
  have hstart : Reach.start (.ordinary [])
      ((Path.names (idlingSource count)).head? == some []) = .ok [] := by
    rw [names_idlingSource]
    rfl
  refine ⟨Text.ofBytes?_eq_some_iff.mpr rfl, Settings.openSources_eq_ok_iff.mpr
    (Settings.openDirectory_eq_ok_iff.mpr ⟨?_, ?_, rfl⟩)⟩
  · simpa using hnull
  · exact (locate_eq_ok_iff (ordinary_stands bare [])).mpr
      ⟨idlingSource_ne count (by decide), hadmitted, [], hstart, hfollows⟩

theorem names_outputPath_idlingSource (count : ℕ) :
    Path.names (outputPath (idlingSource count) "s/m") =
      Path.names (idlingSource count) ++ [[0x73], [0x6D]] := by
  rw [Path.names, pieces_outputPath_idlingSource count (by decide), List.map_append]
  rfl

theorem names_outputParent_idlingSource (count : ℕ) :
    Path.names (outputParent (outputPath (idlingSource count) "s/m")) =
      Path.names (idlingSource count) ++ [[0x73]] := by
  have hpieces := pieces_outputPath_idlingSource count (by decide : Path.isAbsolute "s/m" = false)
  have hrelative : (Path.pieces (idlingSource count)).head? ≠ some [] := by
    rw [pieces_idlingSource]
    simp
  rcases Path.pieces_outputParent_append hpieces hrelative (by decide) (by decide) with
    hparent | ⟨hdot, -⟩
  · rw [Path.names, hparent, List.map_append]
    rfl
  · exact absurd hdot (by decide)

/-! ## Main result -/

/-- A directory whose name is no text is refused, and the path of the source directory
may make that of the output too long, or that of the temporary file alone. -/
theorem outside_differs :
    (let settings : Settings := { command := some (.graph .json) }
      let tree : Tree := .directory [0xFF] .empty .empty
      tree.below? [[0xFF]] = some .empty ∧
      (Program.finish (settings.inDirectory [0xFF])
        ((settings.inDirectory [0xFF]).run .ample tree [])).exit = 1 ∧
      (Program.finish settings (settings.run .ample .empty [])).exit = 0) ∧
    (let settings : Settings := { command := some (.makefile (makefileIn (idlingPath 2047))) }
      let outside := settings.inDirectory [0x64]
      Path.isAbsolute (idlingPath 2047) = false ∧
      (∀ piece ∈ Path.names (idlingPath 2047), goesUp piece = false) ∧
      outside.Opens bare [] "d" [[0x64]] ∧ bare.below? [[0x64]] = some .empty ∧
      (Program.finish outside (outside.run .ample bare [])).exit = 1 ∧
      (Program.finish settings (settings.run .ample .empty [])).exit = 0) ∧
    (let settings : Settings := { command := some (.makefile (makefileIn "s/m")) }
      let outside := settings.inDirectory (Text.bytes (idlingSource 2043))
      Path.isTooLong (Path.names (outputPath (idlingSource 2043) "s/m")) = false ∧
      Path.isTooLong (Path.names (outputParent (outputPath (idlingSource 2043) "s/m"))) = false ∧
      outside.Opens bare [] (idlingSource 2043) [[0x64]] ∧
      (Program.finish outside (outside.run .ample bare [])).exit = 1 ∧
      (Program.finish settings (settings.run .ample .empty [])).exit = 0) := by
  refine ⟨⟨rfl, by decide +kernel, by decide +kernel⟩, ?_, ?_⟩
  · intro settings outside
    have hopens : outside.Opens bare [] "d" [[0x64]] :=
      ⟨Text.ofBytes?_eq_some_iff.mpr rfl, rfl⟩
    have hname : (Path.fileName? (idlingPath 2047)).isSome = true := by
      rw [fileName?_idlingPath]
      rfl
    refine ⟨idlingPath_relative _, fun piece hpiece => ?_, hopens, rfl, ?_, ?_⟩
    · rw [names_idlingPath] at hpiece
      rcases List.mem_append.mp hpiece with hdot | hlast
      · rw [List.eq_of_mem_replicate hdot]
        rfl
      · rw [List.mem_singleton.mp hlast]
        decide
    · obtain ⟨text, hrun⟩ := run_makefileIn .ample outside rfl
        (idlingPath_ne_dash _) hname ⟨[[0x64]], hopens, buildGraph_of_children rfl⟩
      have hlong : Path.isTooLong (Path.names (outputPath "d" (idlingPath 2047))) = true := by
        rw [names_outputPath_idlingPath, Path.isTooLong, List.intercalate_cons_of_ne_nil
          (Path.names_ne_nil _), List.length_append, List.length_append, length_idlingPath]
        rfl
      rw [Program.finish, hrun, if_pos (writeOutput_of_isTooLong .ample hlong text)]
    · obtain ⟨text, hrun⟩ := run_makefileIn .ample settings rfl
        (idlingPath_ne_dash _) hname ⟨[], opens_top rfl .empty, buildGraph_of_children rfl⟩
      have hplain : outputPath "." (idlingPath 2047) = idlingPath 2047 := by simp [outputPath]
      rw [hplain, writeOutput_idlingPath (by decide)] at hrun
      rw [Program.finish, hrun]
      rfl
  · intro settings outside
    have hopens := opens_idlingSource settings (by decide : 2 * 2043 + 1 ≤ longestPath)
    refine ⟨?_, ?_, hopens, ?_, by decide +kernel⟩
    · rw [names_outputPath_idlingSource, Path.isTooLong, length_idlingSource_append 2043 (by simp)]
      rfl
    · rw [names_outputParent_idlingSource, Path.isTooLong,
        length_idlingSource_append 2043 (by simp)]
      rfl
    · obtain ⟨text, hrun⟩ := run_makefileIn .ample outside rfl (by decide)
        (by decide) ⟨[[0x64]], hopens, buildGraph_of_children rfl⟩
      have hlacks : lacksRoom (Path.fromTop []
          (Path.names (outputParent (outputPath (idlingSource 2043) "s/m")))) = true := by
        have hfromTop : Path.fromTop [] (Path.names (idlingSource 2043) ++ [[0x73]]) =
            [] :: (Path.names (idlingSource 2043) ++ [[0x73]]) := by
          rw [names_idlingSource]
          rfl
        rw [names_outputParent_idlingSource, hfromTop, lacksRoom,
          List.intercalate_cons_of_ne_nil (by simp), List.length_append,
          length_idlingSource_append 2043 (by simp)]
        rfl
      rw [Program.finish, hrun, if_pos (writeOutput_of_lacksRoom .ample hlacks text)]

end IncludeDeps
