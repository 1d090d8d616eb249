import IncludeDeps.Program
import IncludeDeps.Proofs.Makefile.Delivery
import IncludeDeps.Proofs.Resolution.Agreement
import IncludeDeps.Proofs.Tree.Frame

/-!
# Working from outside a directory

The source directory may be named on the command line, or the program may be started in
it.  It is used in two ways.  What is read and what boilerplate is made is confined to
it, and such paths see nothing else, so for them the tree around is just carried along:
each operation on `tree.graft root inside` is the operation on `inside`, seen from
outside (`outward`).  The path of an output is joined to that of the directory instead
and followed from the working directory.  It leads by way of the directory and, as it
never goes up, does not leave it again (`writeOutput_matches`).

So the two ways to work come to reports that match (`run_matches`); only what is told,
and how, may name other paths.
-/

namespace IncludeDeps

open IncludeDeps.Tree

variable (tree : Tree) (root : Location) (inside : Tree)

/-! ## Reading -/

theorem sources_graft_looksLike :
    ((tree.graft root inside).sources root).LooksLike (inside.sources []) where
  read := funext fun path => by
    have hread := read_graft tree root inside (.confined (Path.names path))
    exact hread
  present := funext fun path => by
    have hlocate := locate_graft tree root inside (.confined (Path.names path))
    simp only [Tree.sources, hlocate]
    cases inside.locate (.confined []) path <;> rfl

theorem Graph.build_congr {first second : SourceDirectory} (options : BuildOptions)
    (hsame : ∀ source, first.resolveRoot options.strict source =
      second.resolveRoot options.strict source) (sources : List String) :
    Graph.build first options sources = Graph.build second options sources := by
  have hextend : ∀ graph, Graph.extend first options sources graph =
      Graph.extend second options sources graph := by
    induction sources with
    | nil => exact fun _ => rfl
    | cons source rest ih =>
        intro graph
        unfold Graph.extend
        simp only [hsame, ih]
  exact hextend Graph.empty

theorem Settings.buildGraph_graft (settings : Settings) :
    settings.buildGraph (tree.graft root inside) root = settings.buildGraph inside [] := by
  have hchildren : (tree.graft root inside).children root = inside.children [] := by
    have hbelow := children_graft tree root inside []
    rwa [List.append_nil] at hbelow
  have hbuild := Graph.build_congr settings.buildOptions fun source =>
    SourceDirectory.resolveRoot_of_looksLike (sources_graft_looksLike tree root inside)
      settings.buildOptions.strict source
  unfold Settings.buildGraph Tree.discover
  simp only [hchildren, hbuild]

/-! ## Making boilerplate -/

/-- What writing came to, seen from the tree around. -/
def Scaffold.Writing.outward {α : Type} (writing : Writing α) : Writing α :=
  { writing with tree := tree.graft root writing.tree }

theorem Scaffold.writeNew_graft (path text : String) :
    writeNew (tree.graft root inside) root path text =
      (writeNew inside [] path text).outward tree root := by
  have hcreate := createFile_graft tree root inside (.confined (Path.names path)) (Text.bytes text)
  unfold writeNew
  rw [hcreate]
  cases inside.createFile (.confined []) path (Text.bytes text) with
  | ok made => rfl
  | error fault => cases fault <;> rfl

theorem Scaffold.makeParent_graft (module : String) :
    makeParent (tree.graft root inside) root module =
      ((makeParent inside [] module).1, tree.graft root (makeParent inside [] module).2) := by
  unfold makeParent
  cases (Path.parent? module).filter (!·.isEmpty) with
  | none => rfl
  | some parent =>
      have hcreate := createDirectories_graft tree root inside (.confined (Path.names parent))
      dsimp only
      rw [hcreate]
      cases inside.createDirectories (.confined []) parent with
      | mk result made => cases result <;> rfl

theorem Scaffold.writeModule_graft (options : ScaffoldOptions) (module : String) :
    writeModule options (tree.graft root inside) root module =
      (writeModule options inside [] module).outward tree root := by
  unfold writeModule
  cases render options module with
  | error error => rfl
  | ok pair =>
      dsimp only
      rw [makeParent_graft]
      cases makeParent inside [] module with
      | mk result made =>
          cases result with
          | error error => rfl
          | ok _ =>
              dsimp only
              rw [writeNew_graft]
              cases writeNew made [] (module ++ ".c") pair.source with
              | mk result left events =>
                  cases result with
                  | error error => rfl
                  | ok first =>
                      dsimp only [Writing.outward]
                      rw [writeNew_graft]
                      rfl

/-- A report, seen from the tree around. -/
def Report.outward (report : Report) : Report :=
  { report with tree := tree.graft root report.tree }

theorem runScaffold_graft (options : ScaffoldOptions) (modules : List String) :
    runScaffold options (tree.graft root inside) root modules =
      (runScaffold options inside [] modules).outward tree root := by
  induction modules generalizing inside with
  | nil => rfl
  | cons module rest ih =>
      unfold runScaffold
      rw [Scaffold.writeModule_graft]
      cases Scaffold.writeModule options inside [] module with
      | mk result left events =>
          cases result with
          | error error => rfl
          | ok outcomes =>
              dsimp only [Scaffold.Writing.outward]
              rw [ih left]
              rfl

/-! ## Writing a Makefile -/

theorem stays_outputParent {reach : Location → Reach} {file : String}
    (hstays : Stays reach (Path.names file)) : Stays reach (Path.names (outputParent file)) := by
  cases hstays with
  | confined _ => exact .confined _
  | ordinary hrelative hdown =>
      rcases Path.names_outputParent_of_relative hrelative with hdot | hbeginning
      · rw [hdot]
        exact .ordinary (by decide) (by decide)
      · exact Stays.of_isPrefix (.ordinary hrelative hdown)
          (hbeginning.trans (List.dropLast_prefix _))

/-- A file stays in the source directory, and its path is not too long because of that. -/
structure KeepsInside (workingDirectory : Location) (source file : String) : Prop where
  relative : Path.isAbsolute file = false
  descends : ∀ piece ∈ Path.names file, goesUp piece = false
  length : LeavesLength workingDirectory source file

variable {tree root inside} (storage : Storage) {workingDirectory : Location} {source : String}

/-- Writing to the path of the output from outside comes to the same as writing to the
file from inside. -/
theorem writeOutput_matches {file : String}
    (hopened : (tree.graft root inside).openSources workingDirectory source = .ok root)
    (hsource : Path.isAbsolute source = false) (hname : (Path.fileName? file).isSome = true)
    (hkeeps : KeepsInside workingDirectory source file) (text : String) :
    (writeOutput storage (tree.graft root inside) workingDirectory (outputPath source file)
      text).Matches ((writeOutput storage inside [] file text).outward tree root) := by
  obtain ⟨hfile, hdown, hlength⟩ := hkeeps
  have hrelative := Path.names_relative (Path.pieces_relative_of_fileName? hfile hname)
  have hstays : Stays .ordinary (Path.names file) := .ordinary hrelative hdown
  obtain ⟨above, hpieces, -, happroach⟩ := exists_approach hopened hsource hfile
  have hnames : Path.names (outputPath source file) =
      above.map (fun piece => Text.bytes (String.ofList piece)) ++ Path.names file := by
    rw [Path.names, hpieces, List.map_append]
    rfl
  have hroom := lacksRoom_outputParent hopened hsource hfile hname hlength
  have hcreate := createDirectories_outputParent hopened hsource hfile hname hlength
  rw [createDirectories_graft tree root inside (stays_outputParent hstays)] at hcreate
  obtain ⟨hmade, hleads⟩ := createDirectories_spec
    (ordinary_stands (tree.graft root inside) workingDirectory)
    (outputParent (outputPath source file))
  unfold writeOutput
  dsimp only
  rw [hcreate] at hmade hleads ⊢
  cases hresult : inside.createDirectories (.ordinary []) (outputParent file) with
  | mk result made =>
      rw [hresult] at hmade hleads
      cases result with
      | error cause => exact ⟨rfl, rfl, rfl⟩
      | ok directory =>
          have hhere : (tree.graft root made).get? (root ++ directory) = some .directory :=
            (hleads _ rfl).2 (Path.names_ne_nil _)
          have hgrown : (tree.graft root made).Approach workingDirectory
              (above.map fun piece => Text.bytes (String.ofList piece)) root :=
            happroach.grow hmade.grows
          dsimp only [Tree.outward, Except.map]
          rw [replaceFile_congr hroom, hgrown.replaceFile hnames hrelative hlength.path hhere,
            replaceFile_graft tree root made hstays]
          cases made.replaceFile storage (.ordinary []) directory
              (Path.fromTop [] (Path.names (outputParent file))) file (Text.bytes text) with
          | mk result left => cases result <;> exact ⟨rfl, rfl, rfl⟩

theorem deliverMakefile_matches {arguments : MakefileArguments} (graph : Graph)
    (hopened : (tree.graft root inside).openSources workingDirectory source = .ok root)
    (hsource : Path.isAbsolute source = false)
    (hfile : ∀ file, Text.ofBytes? arguments.file = some file → file ≠ "-" →
      KeepsInside workingDirectory source file) :
    (Settings.deliverMakefile storage arguments graph (tree.graft root inside) workingDirectory
      source).Matches
        ((Settings.deliverMakefile storage arguments graph inside [] ".").outward tree root) := by
  unfold Settings.deliverMakefile
  dsimp only
  cases hspelled : Text.ofBytes? arguments.file with
  | none => exact ⟨rfl, rfl, rfl⟩
  | some file =>
      dsimp only
      by_cases hdash : file = "-"
      · rw [if_pos hdash, if_pos hdash]
        exact ⟨rfl, rfl, rfl⟩
      · rw [if_neg hdash, if_neg hdash]
        by_cases hname : (Path.fileName? file).isNone = true
        · rw [if_pos hname, if_pos hname]
          exact ⟨rfl, rfl, rfl⟩
        · rw [if_neg hname, if_neg hname]
          have hname : (Path.fileName? file).isSome = true :=
            Option.isSome_iff_ne_none.mpr fun hnone => hname (Option.isNone_iff_eq_none.mpr hnone)
          have hplain : outputPath "." file = file := by simp [outputPath]
          rw [hplain]
          exact writeOutput_matches storage hopened hsource hname (hfile file hspelled hdash) _

theorem runIn_matches (settings : Settings)
    (hopened : (tree.graft root inside).openSources workingDirectory source = .ok root)
    (hsource : Path.isAbsolute source = false)
    (hfile : ∀ arguments file, settings.commandOrDefault = .makefile arguments →
      Text.ofBytes? arguments.file = some file → file ≠ "-" →
        KeepsInside workingDirectory source file) :
    (settings.runIn storage (tree.graft root inside) workingDirectory source root).Matches
      ((settings.runIn storage inside [] "." []).outward tree root) := by
  unfold Settings.runIn
  rw [Settings.buildGraph_graft]
  cases hcommand : settings.commandOrDefault with
  | scaffold arguments =>
      dsimp only
      rw [runScaffold_graft]
      exact ⟨rfl, rfl, rfl⟩
  | graph format =>
      dsimp only
      cases settings.buildGraph inside [] with
      | mk result events => cases result <;> exact ⟨rfl, rfl, rfl⟩
  | makefile arguments =>
      dsimp only
      cases settings.buildGraph inside [] with
      | mk result events =>
          cases result with
          | error error => exact ⟨rfl, rfl, rfl⟩
          | ok graph =>
              have hmatches := deliverMakefile_matches storage graph hopened hsource fun file =>
                hfile arguments file hcommand
              exact ⟨hmatches.tree, hmatches.stdout, hmatches.error⟩

theorem opens_top {settings : Settings} (hdirectory : settings.directory = none) (tree : Tree) :
    settings.Opens tree [] "." [] := by
  refine ⟨by rw [hdirectory]; rfl, Settings.openSources_eq_ok_iff.mpr ?_⟩
  refine Settings.openDirectory_eq_ok_iff.mpr ⟨rfl, ?_, get?_top tree⟩
  refine (locate_eq_ok_iff (ordinary_stands tree [])).mpr ⟨by decide, rfl, [], rfl, ?_⟩
  exact .of_idle (get?_top tree) (by decide)

/-- The settings with another source directory. -/
def Settings.inDirectory (settings : Settings) (word : CommandLine.Word) : Settings :=
  { settings with directory := some word }

theorem run_matches {settings : Settings} {word : CommandLine.Word}
    (hdirectory : settings.directory = none)
    (hopens : (settings.inDirectory word).Opens tree workingDirectory source root)
    (hsource : Path.isAbsolute source = false) (hinside : tree.below? root = some inside)
    (hfile : ∀ arguments file, settings.commandOrDefault = .makefile arguments →
      Text.ofBytes? arguments.file = some file → file ≠ "-" →
        KeepsInside workingDirectory source file) :
    ((settings.inDirectory word).run storage tree workingDirectory).Matches
      ((settings.run storage inside []).outward tree root) := by
  have hopened := hopens.2
  rw [Settings.run_of_opens hopens, Settings.run_of_opens (opens_top hdirectory inside)]
  -- the tree is what the directory holds, grafted onto the tree
  rw [← graft_of_below? hinside] at hopened
  have hmatches := runIn_matches storage (settings.inDirectory word) hopened hsource hfile
  rw [graft_of_below? hinside] at hmatches
  exact ⟨hmatches.tree, hmatches.stdout, hmatches.error⟩

/-! ## Main result -/

/-- **Working from outside a directory is working inside it.**  A run with a source
directory, named by a relative path, has the exit status and the standard output of a run
without one on a tree of what the directory holds.  The directory holds afterwards what
that run leaves, and nothing outside it has changed.  If a file is written, it has to
stay in the directory, and its path must not be too long only because of the directory
in front. -/
theorem working_outside {settings : Settings} {word : CommandLine.Word}
    (hdirectory : settings.directory = none)
    (hopens : (settings.inDirectory word).Opens tree workingDirectory source root)
    (hsource : Path.isAbsolute source = false) (hinside : tree.below? root = some inside)
    (hfile : ∀ arguments file, settings.commandOrDefault = .makefile arguments →
      Text.ofBytes? arguments.file = some file → file ≠ "-" →
        KeepsInside workingDirectory source file) :
    let outer := Program.finish (settings.inDirectory word)
      ((settings.inDirectory word).run storage tree workingDirectory)
    let inner := Program.finish settings (settings.run storage inside [])
    outer.exit = inner.exit ∧ outer.stdout = inner.stdout ∧
      outer.tree.below? root = some inner.tree ∧
      ∀ other, ¬ root <+: other → outer.tree.get? other = tree.get? other := by
  intro outer inner
  obtain ⟨htree, hstdout, herror⟩ := run_matches storage hdirectory hopens hsource hinside hfile
  have hgraft : outer.tree = tree.graft root inner.tree := htree
  have hexit : outer.exit = inner.exit := by
    simp only [outer, inner, Program.finish, herror]
    rfl
  refine ⟨hexit, hstdout, ?_, fun other houtside => ?_⟩
  · rw [hgraft, below?_graft]
  · rw [hgraft, get?_graft_of_not_isPrefix hopens.directory houtside]

/-- The directory that the output needs is made inside `src`. -/
theorem working_outside_shed :
    let settings : Settings := { command := some (.makefile (makefileIn "new/rules")) }
    let outer := Program.finish (delivering "new/rules")
      ((delivering "new/rules").run .ample shed [])
    ∃ inside, shed.below? [Text.bytes "src"] = some inside ∧ KeepsInside [] "src" "new/rules" ∧
      (delivering "new/rules").Opens shed [] "src" [Text.bytes "src"] ∧
      outer.exit = 0 ∧ outer.tree.below? [Text.bytes "src"] =
        some (Program.finish settings (settings.run .ample inside [])).tree ∧
      ∀ other, ¬ [Text.bytes "src"] <+: other → outer.tree.get? other = shed.get? other := by
  intro settings outer
  obtain ⟨inside, hinside⟩ : ∃ inside, shed.below? [Text.bytes "src"] = some inside := ⟨_, rfl⟩
  have hopens : (settings.inDirectory (Text.bytes "src")).Opens shed [] "src" [Text.bytes "src"] :=
    ⟨Text.ofBytes?_eq_some_iff.mpr rfl, rfl⟩
  have hkeeps : KeepsInside [] "src" "new/rules" :=
    ⟨by decide, by decide, by decide, by decide, by decide⟩
  obtain ⟨-, -, htree, hothers⟩ := working_outside .ample rfl hopens (by decide) hinside (by
    rintro arguments file ⟨⟩ hfile -
    obtain rfl := Text.bytes_inj.mp (Text.ofBytes?_eq_some_iff.mp hfile)
    exact hkeeps)
  have hsucceeds : outer.exit = 0 := by decide +kernel
  exact ⟨inside, hinside, hkeeps, hopens, hsucceeds, htree, hothers⟩

end IncludeDeps
