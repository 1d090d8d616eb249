import IncludeDeps.Proofs.Makefile.Output

/-!
# Makefiles are delivered whole or not at all

A Makefile is rendered from what was read before anything is written.  So a run
that fails before the writing leaves the tree as it was (`run_makefile`), and what
remains is one act of writing (`writeOutput_spec`): the directories on the way are
made, and the file is put in place as a whole.  If that fails at any of its stages,
whatever the storage refuses, nothing is there in addition but directories, and they lie
on the way to the file.

What the file holds is compared with what the same settings print: the text does
not depend on where it goes, only on the tree before the run.
-/

namespace IncludeDeps

open IncludeDeps.Tree

variable {tree : Tree} {workingDirectory : Location} {path : String}

/-- The output could not be put in place; all else has been done by then. -/
def RunError.IsWriting : RunError → Prop
  | makingParent _ _ | makingTemporary _ _ | writing _ _ | replacing _ _ => True
  | _ => False

theorem RunError.isWriting_ofReplaceError (parent path : String) (error : ReplaceError) :
    (ofReplaceError parent path error).IsWriting := by
  cases error <;> trivial

/-- A file was put at a path, and nothing else was changed but that directories
were made on the way to it. -/
structure Delivered (tree : Tree) (reach : Reach) (path : String) (content : List UInt8)
    (after : Tree) (location : Location) : Prop where
  leads : after.locate reach path = .ok location
  file : after.get? location = some (.file content)
  vacant : tree.get? location ≠ some .directory
  others : ∀ other entry, other ≠ location → tree.get? other = some entry →
    after.get? other = some entry
  new : ∀ other entry, other ≠ location → after.get? other = some entry →
    tree.get? other = some entry ∨ entry = .directory ∧
      ∃ part, part <+: (Path.names path).dropLast ∧ after.Leads reach part other

/-- Nothing was lost, and no file is new. -/
structure Spared (tree after : Tree) : Prop where
  grows : tree.Grows after
  file : ∀ location content, after.get? location = some (.file content) →
    tree.get? location = some (.file content)

theorem Spared.refl (tree : Tree) : Spared tree tree :=
  ⟨.refl tree, fun _ _ h => h⟩

/-! ## The directory of the output -/

/-- Idle pieces lead nowhere but to where a path starts. -/
theorem leads_of_idle {part : List Name} {other : Location}
    (hleads : tree.Leads (.ordinary workingDirectory) part other)
    (hidle : ∀ piece ∈ part, staysPut piece = true) : other = [] ∨ other = workingDirectory := by
  obtain ⟨start, hstart, hfollows⟩ := hleads
  rw [hfollows.eq_of_idle hidle]
  cases hhead : part.head? == some [] with
  | true =>
      rw [hhead] at hstart
      exact Or.inl (Except.ok.inj hstart).symm
  | false =>
      rw [hhead] at hstart
      exact Or.inr (Except.ok.inj hstart).symm

/-- The directories on the way to the output's parent are on the way to the output. -/
theorem exists_beginning {part : List Name} {other : Location}
    (hpart : part <+: Path.names (outputParent path))
    (hleads : tree.Leads (.ordinary workingDirectory) part other) :
    other = [] ∨ ∃ beginning, beginning <+: (Path.names path).dropLast ∧
      tree.Leads (.ordinary workingDirectory) beginning other := by
  have hidle : (∀ piece ∈ Path.names (outputParent path), staysPut piece = true) →
      other = [] ∨ ∃ beginning, beginning <+: (Path.names path).dropLast ∧
        tree.Leads (.ordinary workingDirectory) beginning other := by
    intro hidle
    refine (leads_of_idle hleads fun piece hpiece => hidle piece (hpart.subset hpiece)).imp_right ?_
    rintro rfl
    exact ⟨[], List.nil_prefix, _, rfl, .done⟩
  rcases Path.names_outputParent path with hdot | ⟨htop, -⟩ | hbeginning
  · exact hidle (by rw [hdot]; decide)
  · exact hidle (by rw [htop]; decide)
  · exact Or.inr ⟨part, hpart.trans hbeginning, hleads⟩

/-! ## Writing the output -/

/-- What replacing a file in a tree with the directories made for it delivers. -/
theorem delivered_of_replaced {made written : Tree} {here : Location} {name : Name}
    {content : List UInt8}
    (hmade : tree.MadeAlong (.ordinary workingDirectory) (Path.names (outputParent path)) made)
    (hplace : made.Place (.ordinary workingDirectory) path here name)
    (hvacant : made.get? (here ++ [name]) ≠ some .directory)
    (hview : ∀ other, written.get? other =
      if other = here ++ [name] then some (.file content) else made.get? other) :
    Delivered tree (.ordinary workingDirectory) path content written (here ++ [name]) := by
  have hwritten : written.get? (here ++ [name]) = some (.file content) := by
    rw [hview, if_pos rfl]
  have hkeeps : ∀ location, made.get? location = some .directory →
      written.get? location = some .directory := by
    intro location hdirectory
    rw [hview, if_neg, hdirectory]
    rintro rfl
    exact hvacant hdirectory
  refine ⟨?_, hwritten, fun hdirectory => hvacant (hmade.grows _ _ hdirectory),
    fun other entry hother hentry => ?_, fun other entry hother hentry => ?_⟩
  · have hstands := ordinary_stands written workingDirectory
    exact (hplace.mono hkeeps).locate hstands (by simp [hwritten])
  · rw [hview, if_neg hother]
    exact hmade.grows other entry hentry
  · rw [hview, if_neg hother] at hentry
    rcases hmade.new other entry hentry with hbefore | ⟨rfl, part, hpart, hleads⟩
    · exact Or.inl hbefore
    · rcases exists_beginning hpart (hleads.mono hkeeps (by simp [hkeeps _ hentry])) with
        rfl | hbeginning
      · exact Or.inl (get?_top tree)
      · exact Or.inr ⟨rfl, hbeginning⟩

theorem writeOutput_spec (storage : Storage) (tree : Tree) (workingDirectory : Location)
    (path text : String) :
    let report := writeOutput storage tree workingDirectory path text
    report.stdout = "" ∧
    (report.error = none → ∃ location,
      Delivered tree (.ordinary workingDirectory) path (Text.bytes text) report.tree location) ∧
    ∀ error, report.error = some error → error.IsWriting ∧ Spared tree report.tree := by
  obtain ⟨hmade, hleads⟩ := createDirectories_spec (ordinary_stands tree workingDirectory)
    (outputParent path)
  unfold writeOutput
  dsimp only
  split
  · next cause made hresult =>
    rw [hresult] at hmade
    refine ⟨rfl, nofun, ?_⟩
    rintro error ⟨⟩
    exact ⟨trivial, hmade.grows, fun _ _ => hmade.file⟩
  · next directory made hresult =>
    rw [hresult] at hmade hleads
    have hdirectory := (hleads directory rfl).2 (Path.names_ne_nil _)
    split
    · next error left hreplace =>
      have hview := replaceFile_error hdirectory hreplace
      refine ⟨rfl, nofun, ?_⟩
      rintro _ ⟨⟩
      refine ⟨RunError.isWriting_ofReplaceError _ _ error, fun location entry hentry => ?_,
        fun location content hfile => ?_⟩
      · rw [hview]
        exact hmade.grows location entry hentry
      · rw [hview] at hfile
        exact hmade.file hfile
    · next written hreplace =>
      refine ⟨rfl, fun _ => ?_, nofun⟩
      obtain ⟨here, name, hplace, hvacant, hview⟩ :=
        replaceFile_ok (ordinary_stands made workingDirectory) hdirectory hreplace
      exact ⟨here ++ [name], delivered_of_replaced hmade hplace hvacant hview⟩

/-! ## Carrying out the command -/

/-- The settings with the Makefile sent to standard output. -/
def Settings.printing (settings : Settings) (arguments : MakefileArguments) : Settings :=
  { settings with command := some (.makefile { arguments with file := Text.bytes "-" }) }

/-- The source directory is opened, and a graph is built of its sources. -/
def Settings.Builds (settings : Settings) (tree : Tree) (workingDirectory : Location)
    (source : String) (graph : Graph) : Prop :=
  ∃ root, settings.Opens tree workingDirectory source root ∧
    (settings.buildGraph tree root).1 = .ok graph

theorem run_of_builds {settings : Settings} {arguments : MakefileArguments} {source : String}
    {graph : Graph} (storage : Storage) (hcommand : settings.commandOrDefault = .makefile arguments)
    (hbuilds : settings.Builds tree workingDirectory source graph) :
    ∃ events, settings.run storage tree workingDirectory =
      (Settings.deliverMakefile storage arguments graph tree workingDirectory source).after
        events := by
  obtain ⟨root, hopens, hgraph⟩ := hbuilds
  cases hbuild : settings.buildGraph tree root with
  | mk result events =>
      rw [hbuild] at hgraph
      obtain rfl : result = .ok graph := hgraph
      refine ⟨.openedDirectory source :: events, ?_⟩
      rw [Settings.run_of_opens hopens]
      simp only [Settings.runIn, hcommand, hbuild, Report.after]
      rfl

/-- Without a graph the tree is left as it was. -/
theorem run_of_not_builds {settings : Settings} {arguments : MakefileArguments}
    (storage : Storage) (hcommand : settings.commandOrDefault = .makefile arguments)
    (hfails : ∀ source graph, ¬ settings.Builds tree workingDirectory source graph) :
    ∃ error events, ¬ error.IsWriting ∧
      settings.run storage tree workingDirectory = { tree, error := some error, events } := by
  by_cases hopens : ∃ path root, settings.Opens tree workingDirectory path root
  · obtain ⟨path, root, hopens⟩ := hopens
    cases hbuild : settings.buildGraph tree root with
    | mk result events =>
        cases result with
        | ok graph => exact absurd ⟨root, hopens, by rw [hbuild]⟩ (hfails path graph)
        | error error =>
            refine ⟨.resolving error, .openedDirectory path :: events, id, ?_⟩
            rw [Settings.run_of_opens hopens]
            simp only [Settings.runIn, hcommand, hbuild, Report.after]
            rfl
  · obtain ⟨error, herror, hrun⟩ :=
      Settings.run_of_not_opens storage fun path root h => hopens ⟨path, root, h⟩
    refine ⟨error, [], ?_, hrun⟩
    rcases herror with ⟨word, rfl⟩ | ⟨cause, rfl⟩
    · exact id
    · exact id

theorem deliverMakefile_spec (storage : Storage) (arguments : MakefileArguments) (graph : Graph)
    (tree : Tree) (workingDirectory : Location) (source : String) :
    let report := Settings.deliverMakefile storage arguments graph tree workingDirectory source
    let text := graph.makefile arguments.settings
    (arguments.file = Text.bytes "-" → report = { tree, stdout := text }) ∧
    (arguments.file ≠ Text.bytes "-" → report.stdout = "" ∧
      (report.error = none → ∃ file location, Text.ofBytes? arguments.file = some file ∧
        Delivered tree (.ordinary workingDirectory) (outputPath source file) (Text.bytes text)
          report.tree location) ∧
      ∀ error, report.error = some error →
        Spared tree report.tree ∧ (¬ error.IsWriting → report.tree = tree)) := by
  unfold Settings.deliverMakefile
  dsimp only
  cases hfile : Text.ofBytes? arguments.file with
  | none =>
      refine ⟨fun hdash => ?_, fun _ => ⟨rfl, nofun, fun _ _ => ⟨.refl tree, fun _ => rfl⟩⟩⟩
      rw [Text.ofBytes?_eq_some_iff.mpr hdash.symm] at hfile
      cases hfile
  | some file =>
      have hbytes := Text.ofBytes?_eq_some_iff.mp hfile
      dsimp only
      by_cases hdash : file = "-"
      · rw [if_pos hdash]
        exact ⟨fun _ => rfl, fun hother => absurd (hdash ▸ hbytes.symm) hother⟩
      · rw [if_neg hdash]
        refine ⟨fun hsame => absurd (Text.bytes_inj.mp (hbytes.trans hsame)) hdash, fun _ => ?_⟩
        by_cases hname : (Path.fileName? file).isNone = true
        · rw [if_pos hname]
          exact ⟨rfl, nofun, fun _ _ => ⟨.refl tree, fun _ => rfl⟩⟩
        · rw [if_neg hname]
          obtain ⟨hstdout, hdelivered, hspared⟩ := writeOutput_spec storage tree workingDirectory
            (outputPath source file) (graph.makefile arguments.settings)
          refine ⟨hstdout, fun herror => ?_, fun error herror => ?_⟩
          · obtain ⟨location, h⟩ := hdelivered herror
            exact ⟨file, location, rfl, h⟩
          · obtain ⟨hwriting, h⟩ := hspared error herror
            exact ⟨h, fun hearly => absurd hwriting hearly⟩

/-! ## Main result -/

/-- **A Makefile is delivered whole or not at all.**  With a dash for the file the
tree is left as it was.  Otherwise a run that succeeds prints nothing; the file
holds what the same settings would have printed, and all else is as it was but for
directories on the way to it.  A run that fails prints nothing, loses nothing and
makes no file, and what it makes is nothing at all unless it fails in writing.  Where
nothing could have been printed either, it fails before that. -/
theorem makefile_delivered (settings : Settings) (storage : Storage) (tree : Tree)
    (workingDirectory : Location) (arguments : MakefileArguments)
    (hcommand : settings.commandOrDefault = .makefile arguments) :
    let report := settings.run storage tree workingDirectory
    let printed := (settings.printing arguments).run storage tree workingDirectory
    (arguments.file = Text.bytes "-" → report.tree = tree) ∧
    (report.error = none → arguments.file ≠ Text.bytes "-" →
      report.stdout = "" ∧ printed.error = none ∧ ∃ source root file location,
        settings.Opens tree workingDirectory source root ∧
        Text.ofBytes? arguments.file = some file ∧
        Delivered tree (.ordinary workingDirectory) (outputPath source file)
          (Text.bytes printed.stdout) report.tree location) ∧
    (∀ error, report.error = some error → report.stdout = "" ∧ Spared tree report.tree ∧
      (¬ error.IsWriting → report.tree = tree)) ∧
    (printed.error ≠ none → report.error ≠ none ∧ report.tree = tree) := by
  intro report printed
  by_cases hgraph : ∃ source graph, settings.Builds tree workingDirectory source graph
  · obtain ⟨source, graph, hbuilds⟩ := hgraph
    obtain ⟨events, hrun⟩ := run_of_builds storage hcommand hbuilds
    have hreport : report = _ := hrun
    -- printing builds the same graph, as the file plays no part in that
    have hprinting : (settings.printing arguments).Builds tree workingDirectory source graph :=
      hbuilds
    obtain ⟨_, hprinted⟩ := run_of_builds storage rfl hprinting
    have hprinted : printed = _ := hprinted
    rw [(deliverMakefile_spec storage { arguments with file := Text.bytes "-" } graph tree
      workingDirectory source).1 rfl] at hprinted
    have hsound : printed.error = none := by rw [hprinted]; rfl
    obtain ⟨hdash, hfile⟩ := deliverMakefile_spec storage arguments graph tree workingDirectory
      source
    by_cases hsame : arguments.file = Text.bytes "-"
    · rw [hreport, hdash hsame]
      exact ⟨fun _ => rfl, fun _ hother => absurd hsame hother, nofun, fun h => absurd hsound h⟩
    · obtain ⟨hstdout, hdelivered, hspared⟩ := hfile hsame
      obtain ⟨root, hopens, -⟩ := hbuilds
      refine ⟨fun h => absurd h hsame, fun herror _ => ?_, fun error herror => ?_,
        fun h => absurd hsound h⟩
      · rw [hreport] at herror ⊢
        rw [hprinted]
        obtain ⟨file, location, hspelled, h⟩ := hdelivered herror
        exact ⟨hstdout, rfl, source, root, file, location, hopens, hspelled, h⟩
      · rw [hreport] at herror ⊢
        exact ⟨hstdout, hspared error herror⟩
  · obtain ⟨error, events, hearly, hrun⟩ :=
      run_of_not_builds storage hcommand fun source graph h => hgraph ⟨source, graph, h⟩
    have hreport : report = { tree, error := some error, events } := hrun
    rw [hreport]
    exact ⟨fun _ => rfl, nofun, fun _ _ => ⟨rfl, .refl tree, fun _ => rfl⟩, fun _ => ⟨nofun, rfl⟩⟩

/-- A source directory with a source, its header and a directory. -/
def shed : Tree :=
  .directory (Text.bytes "src")
    (.file (Text.bytes "a.c") (Text.bytes "#include \"a.h\"\n")
      (.file (Text.bytes "a.h") [] (.directory (Text.bytes "lib") .empty .empty))) .empty

/-- The arguments that ask for the Makefile in a file. -/
def makefileIn (file : String) : MakefileArguments :=
  { MakefileArguments.implied with file := Text.bytes file }

/-- The settings that ask for the Makefile of `src` in a file. -/
def delivering (file : String) : Settings :=
  { directory := some (Text.bytes "src"), command := some (.makefile (makefileIn file)) }

/-- A storage that makes files but has no space left for their bytes. -/
def Storage.exhausted : Storage :=
  { Storage.ample with store := fun _ => .error (.refused "No space left on device") }

/-- The Makefile may take the place of the source that it was made from, if there is
space left for it.  Where the path ends in a slash, the directory above has been made
before the run fails. -/
theorem makefile_delivered_shed :
    ((delivering "a.c").run .ample shed []).error = none ∧
    (∃ location, Delivered shed (.ordinary []) "src/a.c"
      (Text.bytes ((delivering "-").run .ample shed []).stdout)
      ((delivering "a.c").run .ample shed []).tree location) ∧
    ((delivering "a.c").run .exhausted shed []).error =
      some (.writing "src/a.c" (.refused "No space left on device")) ∧
    Spared shed ((delivering "a.c").run .exhausted shed []).tree ∧
    ((delivering "new/lib/").run .ample shed []).error =
      some (.replacing "src/new/lib/" .notADirectory) ∧
    Spared shed ((delivering "new/lib/").run .ample shed []).tree := by
  have hsucceeds : ((delivering "a.c").run .ample shed []).error = none := by
    decide +kernel
  have hrefused : ((delivering "a.c").run .exhausted shed []).error =
      some (.writing "src/a.c" (.refused "No space left on device")) := by
    decide +kernel
  have hfails : ((delivering "new/lib/").run .ample shed []).error =
      some (.replacing "src/new/lib/" .notADirectory) := by
    decide +kernel
  obtain ⟨-, hdelivered, -⟩ := makefile_delivered (delivering "a.c") .ample shed []
    (makefileIn "a.c") rfl
  obtain ⟨-, -, source, root, file, location, ⟨hsource, -⟩, hfile, hplaced⟩ :=
    hdelivered hsucceeds (by decide)
  obtain rfl : "src" = source := Text.bytes_inj.mp (Text.ofBytes?_eq_some_iff.mp hsource).symm
  obtain rfl : "a.c" = file := Text.bytes_inj.mp (Text.ofBytes?_eq_some_iff.mp hfile).symm
  obtain ⟨-, -, hunwritten, -⟩ := makefile_delivered (delivering "a.c") .exhausted shed []
    (makefileIn "a.c") rfl
  obtain ⟨-, -, hspared, -⟩ := makefile_delivered (delivering "new/lib/") .ample shed []
    (makefileIn "new/lib/") rfl
  exact ⟨hsucceeds, ⟨location, hplaced⟩, hrefused, (hunwritten _ hrefused).2.1, hfails,
    (hspared _ hfails).2.1⟩

end IncludeDeps
