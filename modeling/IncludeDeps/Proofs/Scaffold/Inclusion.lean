import IncludeDeps.Proofs.Resolution.Derivation
import IncludeDeps.Proofs.Scaffold.Accounts
import IncludeDeps.Proofs.Scaffold.Directives
import IncludeDeps.Proofs.Tree.Removal

/-!
# Boilerplate resolves

A module whose two files were made is resolved to its header.  That takes three
things.  Something can only be made in a directory that stands
(`stands_of_writeModule`), so both files are found again where they were made and
are read as they were rendered (`Accounts.read`).  What was rendered holds one
directive, in the source, and that names the header.  And a file that includes
nothing but a second file, which includes nothing, has that one prerequisite and
closes no cycle (`resolveRoot_pair`).
-/

namespace IncludeDeps

open Text

/-! ## Resolving a pair of files -/

section

variable {directory : SourceDirectory} {strict : Bool} {file header : String} {line : ℕ}
  {source content : List UInt8}

theorem promoteOwn_singleton {α : Type} (path : α → String) (item : α) :
    promoteOwn file path [item] = [item] := by
  cases hown : Path.sharesStem file (path item) <;> simp [promoteOwn, hown]

/-- The expansion of a file without directives is over at once. -/
theorem SourceDirectory.walks_leaf {trail : List String} {referrer : Referrer}
    (visited : VisitedSet) (hread : directory.read file = .ok content)
    (hnone : directivesOf content = []) :
    Walks directory strict (.expand referrer file) trail visited
      ⟨.ok [], visited, [.read file]⟩ := by
  have hkept : directory.kept strict content = [] := by simp [kept, hnone]
  have hdropped : directory.droppedSteps strict content = [] := by simp [droppedSteps, hnone]
  have hfollowed : Walks directory strict
      (.follow file (promoteOwn file Directive.target (directory.kept strict content)))
      (trail ++ [file]) visited ⟨.ok [], visited, []⟩ := by
    rw [hkept]
    exact .done
  have hexpanded : Walks directory strict (.expand referrer file) trail visited _ :=
    .expanded hread hfollowed
  rw [hdropped] at hexpanded
  exact hexpanded

theorem SourceDirectory.walks_pair (hsource : directory.read file = .ok source)
    (hheader : directory.read header = .ok content) (hne : header ≠ file)
    (hdirectives : directivesOf source = [⟨header, .quoted, line⟩])
    (hnone : directivesOf content = []) :
    Walks directory strict (.expand .sourceList file) [] (.rooted file)
      ⟨.ok [header], (VisitedSet.rooted file).insert header,
        [.read file, .expanding file header, .read header]⟩ := by
  have hkept : directory.kept strict source = [⟨header, .quoted, line⟩] := by
    simp [kept, hdirectives, keeps]
  have hdropped : directory.droppedSteps strict source = [] := by
    simp [droppedSteps, hdirectives, keeps]
  have hfollowed : Walks directory strict
      (.follow file (promoteOwn file Directive.target (directory.kept strict source)))
      ([] ++ [file]) (.rooted file) ⟨.ok [header], (VisitedSet.rooted file).insert header,
        [.expanding file header, .read header]⟩ := by
    rw [hkept, promoteOwn_singleton]
    exact .entered (by simpa using hne) (walks_leaf _ hheader hnone) rfl .done
  have hexpanded : Walks directory strict (.expand .sourceList file) [] (.rooted file) _ :=
    .expanded hsource hfollowed
  have hlisted : promoteOwn file id [header].eraseDups = [header] := promoteOwn_singleton id header
  rw [hdropped] at hexpanded
  simpa [Except.map, hlisted] using hexpanded

theorem SourceDirectory.resolveRoot_pair (hsource : directory.read file = .ok source)
    (hheader : directory.read header = .ok content) (hne : header ≠ file)
    (hdirectives : directivesOf source = [⟨header, .quoted, line⟩])
    (hnone : directivesOf content = []) :
    (directory.resolveRoot strict file).result = .ok ⟨.ofList [header], []⟩ := by
  have hpair : Walks directory strict _ _ _ _ :=
    walks_pair hsource hheader hne hdirectives hnone
  have hwalk := expand_eq hpair (le_refl directory.depthBound)
  simp [resolveRoot, walkFrom, hwalk, Outcome.map, Except.map, cyclesOf, hne]

end

namespace Scaffold

variable {options : ScaffoldOptions} {tree : Tree} {root : Location} {module : String}

theorem source_ne_header {first second : String} : first ++ ".c" ≠ second ++ ".h" := by
  intro hsame
  have hlast := congrArg (·.toList.getLast?) hsame
  simp at hlast

/-! ## What was made stands and is found -/

theorem makeParent_gone (hgone : tree.get? root ≠ some .directory) (module : String) :
    (makeParent tree root module).2 = tree := by
  unfold makeParent
  split
  · rfl
  · next parent hparent =>
    have hsame := Tree.createDirectories_gone hgone parent
    split
    · next hresult => rwa [hresult] at hsame
    · next hresult => rwa [hresult] at hsame

theorem stands_of_writeModule {outcomes : FileOutcome × FileOutcome}
    (hresult : (writeModule options tree root module).result = .ok outcomes) :
    Reach.Stands (.confined root) tree := by
  rintro _ ⟨⟩
  by_contra hgone
  obtain ⟨pair, made, -, hparent, hsource, -⟩ := exists_of_writeModule hresult
  have hsame := makeParent_gone hgone module
  rw [hparent] at hsame
  obtain rfl : made = tree := hsame
  obtain ⟨name, hlast, hmoves, hdescends⟩ := isExtension_source.exists_last module
  exact hgone (Tree.stands_of_createFile hlast hmoves hdescends (createFile_of_writeNew hsource)
    _ rfl)

/-- What is reported as written is read as it was rendered. -/
theorem Accounts.read {before after : Tree} {outcomes : List FileOutcome} {path : String}
    (haccounts : Accounts options root before after outcomes) (hpath : .written path ∈ outcomes) :
    ∃ content, (after.sources root).read path = .ok content ∧ Rendered options path content := by
  obtain ⟨location, content, hlocate, -, hfile, hrendered⟩ := haccounts.written path hpath
  refine ⟨content, ?_, hrendered⟩
  simp [Tree.sources, Tree.read, hlocate, hfile, bind, Except.bind]

theorem render_eq_ok_iff {pair : Pair} :
    render options module = .ok pair ↔ ∃ name, Path.fileName? module = some name ∧
      pair = ⟨textOf (sourceLines options module name), textOf (headerLines options name)⟩ := by
  unfold render
  cases Path.fileName? module with
  | none => simp
  | some name => simp [eq_comm]

theorem Rendered.eq_source {content : List UInt8}
    (hrendered : Rendered options (module ++ ".c") content) :
    ∃ name, content = bytes (textOf (sourceLines options module name)) := by
  obtain ⟨other, pair, hrender, ⟨hsame, rfl⟩ | ⟨hsame, -⟩⟩ := hrendered
  · obtain rfl := (String.append_left_inj _).mp hsame
    obtain ⟨name, -, rfl⟩ := render_eq_ok_iff.mp hrender
    exact ⟨name, rfl⟩
  · exact absurd hsame source_ne_header

theorem Rendered.eq_header {content : List UInt8}
    (hrendered : Rendered options (module ++ ".h") content) :
    ∃ name, content = bytes (textOf (headerLines options name)) := by
  obtain ⟨other, pair, hrender, ⟨hsame, -⟩ | ⟨-, rfl⟩⟩ := hrendered
  · exact absurd hsame.symm source_ne_header
  · obtain ⟨name, -, rfl⟩ := render_eq_ok_iff.mp hrender
    exact ⟨name, rfl⟩

/-! ## Main result -/

/-- **A module that was made resolves to its header.**  Whatever else stands in the tree and
whatever the guards are tagged with, the source has the header as its one prerequisite, as
long as the module's path can be quoted and the header is not asked to include anything. -/
theorem resolveRoot_of_writeModule (options : ScaffoldOptions) (tree : Tree) (root : Location)
    (module source header : String) (strict : Bool)
    (hquote : '"' ∉ module.toList) (hfeed : '\n' ∉ module.toList)
    (hconfig : given options.configHeader = none) (hend : given options.inlineEnd = none)
    (hinline : ∀ macroName, options.inlineMacro = some macroName → '\n' ∉ macroName.toList)
    (hwritten : (writeModule options tree root module).result =
      .ok (.written source, .written header)) :
    (((writeModule options tree root module).tree.sources root).resolveRoot strict
      (module ++ ".c")).result = .ok ⟨.ofList [module ++ ".h"], []⟩ := by
  obtain ⟨-, hmade⟩ := writeModule_spec options module (stands_of_writeModule hwritten)
  obtain ⟨hsource, hheader, haccounts, -⟩ := hmade _ _ hwritten
  obtain rfl : source = module ++ ".c" := hsource
  obtain rfl : header = module ++ ".h" := hheader
  obtain ⟨sourceContent, hreadSource, hrenderedSource⟩ := haccounts.read List.mem_cons_self
  obtain ⟨headerContent, hreadHeader, hrenderedHeader⟩ :=
    haccounts.read (List.mem_pair.mpr (Or.inr rfl))
  obtain ⟨name, rfl⟩ := hrenderedSource.eq_source
  obtain ⟨name', rfl⟩ := hrenderedHeader.eq_header
  exact SourceDirectory.resolveRoot_pair hreadSource hreadHeader source_ne_header.symm
    (directivesOf_source hquote hfeed) (directivesOf_header hconfig hend hinline)

/-- Options that look like directives. -/
def misleading : ScaffoldOptions :=
  { guardPrefix := some "x\n#include \"y\"", inlineMacro := some "#include <z>" }

/-- A directory with a file that includes a missing one. -/
def drawer : Tree :=
  .file (bytes "a.c") (bytes "#include \"b.h\"\n") .empty

/-- The path of the module goes up, and its name ends in a carriage return. -/
theorem resolveRoot_of_writeModule_misleading :
    (writeModule misleading drawer [] "sub/../é .\r").result =
      .ok (.written "sub/../é .\r.c", .written "sub/../é .\r.h") ∧
    ∀ strict, (((writeModule misleading drawer [] "sub/../é .\r").tree.sources []).resolveRoot
      strict "sub/../é .\r.c").result = .ok ⟨.ofList ["sub/../é .\r.h"], []⟩ := by
  have hwritten : (writeModule misleading drawer [] "sub/../é .\r").result =
      .ok (.written "sub/../é .\r.c", .written "sub/../é .\r.h") := by
    decide +kernel
  have hinline : ∀ macroName, misleading.inlineMacro = some macroName →
      '\n' ∉ macroName.toList := by
    rintro _ ⟨⟩
    decide
  exact ⟨hwritten, fun strict => resolveRoot_of_writeModule misleading drawer [] "sub/../é .\r"
    _ _ strict (by decide) (by decide) rfl rfl hinline hwritten⟩

end Scaffold

end IncludeDeps
