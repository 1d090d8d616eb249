import IncludeDeps.Proofs.Opening
import IncludeDeps.Proofs.Scaffold.Accounts

/-!
# Scaffolding reports what it did

A run over modules handles them in turn.  `Handled` is what holds of it after
some of the modules: both files of each of them are reported in order, and the
reports account for the whole change of the tree.  Either no module is left, or
the next one failed on the tree that the others had left, and nothing happened
after that.

Each module that was handled is settled (`settled_of_runScaffold`), so a second
run finds every file (`runScaffold_again`).
-/

namespace IncludeDeps

open Scaffold

variable {options : ScaffoldOptions} {tree : Tree} {root : Location} {modules : List String}

/-- The paths of the files of modules, in the order in which they are made. -/
def Scaffold.filesOf (modules : List String) : List String :=
  modules.flatMap fun module => [module ++ ".c", module ++ ".h"]

/-- The reports on some files, each on a line of its own. -/
def Scaffold.linesOf (outcomes : List FileOutcome) : String :=
  String.join (outcomes.map fun outcome => outcome.text ++ "\n")

theorem Scaffold.filesOf_cons (module : String) (rest : List String) :
    filesOf (module :: rest) = (module ++ ".c") :: (module ++ ".h") :: filesOf rest :=
  rfl

theorem Scaffold.linesOf_cons (outcome : FileOutcome) (rest : List FileOutcome) :
    linesOf (outcome :: rest) = outcome.text ++ "\n" ++ linesOf rest := by
  rw [linesOf, List.map_cons, String.join_cons, ← linesOf]

/-- A run over modules has handled some of them, with the outcomes given, and
then stopped. -/
structure Handled (options : ScaffoldOptions) (tree : Tree) (root : Location) (report : Report)
    (handled rest : List String) (outcomes : List FileOutcome) : Prop where
  files : outcomes.map FileOutcome.path = filesOf handled
  printed : report.stdout = linesOf outcomes
  accounts : Accounts options root tree report.tree outcomes
  done : rest = [] → report.error = none
  failed : ∀ module later, rest = module :: later → ∃ error,
    report.error = some (.scaffolding module error) ∧
      (runScaffold options tree root handled).error = none ∧
      (writeModule options (runScaffold options tree root handled).tree root module).result =
        .error error

theorem exists_handled (options : ScaffoldOptions)
    (hstands : Reach.Stands (.confined root) tree) (modules : List String) :
    ∃ handled rest outcomes, modules = handled ++ rest ∧
      Handled options tree root (runScaffold options tree root modules) handled rest outcomes := by
  induction modules generalizing tree with
  | nil =>
      refine ⟨[], [], [], rfl, rfl, rfl, .of_madeAlong (.refl tree (.confined root) []),
        fun _ => rfl, by simp⟩
  | cons module rest ih =>
      obtain ⟨hfailure, hsuccess⟩ := writeModule_spec options module hstands
      rw [runScaffold]
      dsimp only
      cases hresult : (writeModule options tree root module).result with
      | error error =>
          refine ⟨[], module :: rest, [], rfl, rfl, rfl, hfailure error hresult, by simp, ?_⟩
          rintro first later ⟨⟩
          exact ⟨error, rfl, rfl, hresult⟩
      | ok pair =>
          obtain ⟨source, header⟩ := pair
          obtain ⟨hsource, hheader, haccounts, -⟩ := hsuccess source header hresult
          have hstandsNext := haccounts.grows.stands hstands
          obtain ⟨handled, left, outcomes, hmodules, hhandled⟩ := ih hstandsNext
          refine ⟨module :: handled, left, source :: header :: outcomes, by rw [hmodules]; rfl, ?_,
            ?_, haccounts.trans hhandled.accounts hstandsNext, hhandled.done, ?_⟩
          · rw [List.map_cons, List.map_cons, hsource, hheader, hhandled.files, filesOf_cons]
          · rw [linesOf_cons, linesOf_cons, ← hhandled.printed]
            simp only [String.append_assoc]
          · intro first later hleft
            obtain ⟨error, herror, hrun, hfails⟩ := hhandled.failed first later hleft
            refine ⟨error, herror, ?_, ?_⟩
            · simpa [runScaffold, hresult, Report.after] using hrun
            · simpa [runScaffold, hresult, Report.after] using hfails

/-- Whatever a successful run has handled is settled. -/
theorem settled_of_runScaffold (hstands : Reach.Stands (.confined root) tree)
    (herror : (runScaffold options tree root modules).error = none) :
    ∀ module ∈ modules,
      Settled options root (runScaffold options tree root modules).tree module := by
  induction modules generalizing tree with
  | nil => exact fun _ hmem => absurd hmem List.not_mem_nil
  | cons module rest ih =>
      obtain ⟨-, hsuccess⟩ := writeModule_spec options module hstands
      rw [runScaffold] at herror ⊢
      dsimp only at herror ⊢
      cases hresult : (writeModule options tree root module).result with
      | error error => simp [hresult] at herror
      | ok pair =>
          obtain ⟨source, header⟩ := pair
          obtain ⟨-, -, haccounts, hsettled⟩ := hsuccess source header hresult
          have hstandsNext := haccounts.grows.stands hstands
          rw [hresult] at herror
          obtain ⟨_, _, _, _, hhandled⟩ := exists_handled options hstandsNext rest
          intro other hmem
          rcases List.mem_cons.mp hmem with rfl | hrest
          · exact hsettled.mono hhandled.accounts.grows
          · exact ih hstandsNext herror other hrest

theorem runScaffold_again (hsettled : ∀ module ∈ modules, Settled options root tree module) :
    runScaffold options tree root modules =
      { tree, stdout := linesOf ((filesOf modules).map .skipped) } := by
  induction modules with
  | nil => rfl
  | cons module rest ih =>
      obtain ⟨hfirst, hrest⟩ := List.forall_mem_cons.mp hsettled
      simp only [runScaffold, hfirst tree (.refl tree), ih hrest, Report.after, List.nil_append,
        filesOf_cons, List.map_cons, linesOf_cons, String.append_assoc]

/-! ## Main result -/

theorem run_scaffold {settings : Settings} {storage : Storage} {workingDirectory : Location}
    {path : String}
    {arguments : ScaffoldArguments} (hcommand : settings.commandOrDefault = .scaffold arguments)
    (hopens : settings.Opens tree workingDirectory path root) :
    settings.run storage tree workingDirectory =
      (runScaffold arguments.options tree root arguments.modules).after
        [.openedDirectory path] := by
  rw [Settings.run_of_opens hopens, Settings.runIn, hcommand]

/-- **Scaffolding takes nothing away and reports what it added.**  Whatever stood
in the tree stands there afterwards.  In an open directory the modules before the
first that fails are handled, and the reports on their files account for the
change; where no directory can be opened nothing happens.  After a success the
same run again changes nothing and reports every file as skipped. -/
theorem scaffold_reports (settings : Settings) (storage : Storage) (tree : Tree)
    (workingDirectory : Location) (arguments : ScaffoldArguments)
    (hcommand : settings.commandOrDefault = .scaffold arguments) :
    let report := settings.run storage tree workingDirectory
    let again := settings.run storage report.tree workingDirectory
    tree.Grows report.tree ∧
    (∀ path root, settings.Opens tree workingDirectory path root →
      ∃ handled rest outcomes, arguments.modules = handled ++ rest ∧
        Handled arguments.options tree root report handled rest outcomes) ∧
    ((∀ path root, ¬ settings.Opens tree workingDirectory path root) →
      report.tree = tree ∧ report.stdout = "" ∧ report.error ≠ none) ∧
    (report.error = none → again.tree = report.tree ∧ again.error = none ∧
      again.stdout = linesOf ((filesOf arguments.modules).map .skipped)) := by
  intro report again
  have hopened : ∀ path root, settings.Opens tree workingDirectory path root →
      ∃ handled rest outcomes, arguments.modules = handled ++ rest ∧
        Handled arguments.options tree root report handled rest outcomes := by
    intro path root hopens
    obtain ⟨handled, rest, outcomes, hmodules, hhandled⟩ :=
      exists_handled arguments.options hopens.stands arguments.modules
    refine ⟨handled, rest, outcomes, hmodules, ?_⟩
    -- the report differs from that of the run over the modules in what there is to tell
    rw [show report = _ from run_scaffold hcommand hopens]
    exact { hhandled with }
  have hclosed : (∀ path root, ¬ settings.Opens tree workingDirectory path root) →
      report.tree = tree ∧ report.stdout = "" ∧ report.error ≠ none := by
    intro hclosed
    obtain ⟨error, -, hrun⟩ := Settings.run_of_not_opens storage hclosed
    simp [show report = _ from hrun]
  refine ⟨?_, hopened, hclosed, fun herror => ?_⟩
  · by_cases hopens : ∃ path root, settings.Opens tree workingDirectory path root
    · obtain ⟨path, root, hopens⟩ := hopens
      obtain ⟨_, _, _, _, hhandled⟩ := hopened path root hopens
      exact hhandled.accounts.grows
    · rw [(hclosed fun path root h => hopens ⟨path, root, h⟩).1]
      exact .refl tree
  · by_cases hopens : ∃ path root, settings.Opens tree workingDirectory path root
    · obtain ⟨path, root, hopens⟩ := hopens
      obtain ⟨_, _, _, _, hhandled⟩ := hopened path root hopens
      have hreport : report = _ := run_scaffold hcommand hopens
      have hsettled : ∀ module ∈ arguments.modules,
          Settled arguments.options root report.tree module := by
        rw [hreport] at herror ⊢
        exact settled_of_runScaffold hopens.stands herror
      have hagain : again = _ := run_scaffold hcommand (hopens.mono hhandled.accounts.grows)
      rw [hagain, runScaffold_again hsettled]
      exact ⟨rfl, rfl, rfl⟩
    · exact absurd herror (hclosed fun path root h => hopens ⟨path, root, h⟩).2.2

/-- A directory with a header and a file without extension. -/
def workshop : Tree :=
  .file (Text.bytes "a.h") (Text.bytes "int a;\n") (.file (Text.bytes "f") [] .empty)

/-- The settings that ask for boilerplate for some modules. -/
def making (modules : List String) : Settings :=
  { command := some (.scaffold { modules }) }

/-- The second module is the first by another name, and `f/d` lies below a file.
Without it the run succeeds, and its repetition skips all six files. -/
theorem scaffold_reports_workshop :
    (making ["a", "b/../a", "b/c", "f/d", "e"]).Opens workshop [] "." [] ∧
    ((making ["a", "b/../a", "b/c", "f/d", "e"]).run .ample workshop []).stdout =
      linesOf [.written "a.c", .skipped "a.h", .skipped "b/../a.c", .skipped "b/../a.h",
        .written "b/c.c", .written "b/c.h"] ∧
    (∃ handled rest outcomes, ["a", "b/../a", "b/c", "f/d", "e"] = handled ++ rest ∧
      Handled {} workshop [] ((making ["a", "b/../a", "b/c", "f/d", "e"]).run .ample workshop [])
        handled rest outcomes) ∧
    ((making ["a", "b/../a", "b/c"]).run .ample workshop []).error = none ∧
    ((making ["a", "b/../a", "b/c"]).run .ample
      ((making ["a", "b/../a", "b/c"]).run .ample workshop []).tree []).stdout =
        linesOf ((filesOf ["a", "b/../a", "b/c"]).map .skipped) := by
  have hopens : (making ["a", "b/../a", "b/c", "f/d", "e"]).Opens workshop [] "." [] := by
    constructor <;> decide +kernel
  have hsucceeds : ((making ["a", "b/../a", "b/c"]).run .ample workshop []).error = none := by
    decide +kernel
  obtain ⟨-, hhandled, -, -⟩ := scaffold_reports (making ["a", "b/../a", "b/c", "f/d", "e"])
    .ample workshop [] { modules := ["a", "b/../a", "b/c", "f/d", "e"] } rfl
  obtain ⟨-, -, -, hagain⟩ := scaffold_reports (making ["a", "b/../a", "b/c"])
    .ample workshop [] { modules := ["a", "b/../a", "b/c"] } rfl
  exact ⟨hopens, by decide +kernel, hhandled "." [] hopens, hsucceeds, (hagain hsucceeds).2.2⟩

end IncludeDeps
