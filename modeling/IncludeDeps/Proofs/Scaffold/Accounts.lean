import IncludeDeps.Proofs.Tree.Growth
import IncludeDeps.Scaffold.Writing

/-!
# What boilerplate adds to a tree

A list of outcomes `Accounts` for the change from one tree to another: nothing
is lost, each file reported as written is new and holds the text rendered for
its module, and there are no other new files.  Accounts of changes made one after
the other go together (`Accounts.trans`).

The two files of a module share their directory and differ in an extension of
two bytes.  So where one of them has a place the other has one as well
(`place_sibling`): once the source is made or found, the header cannot fail any
more, and a module that fails has made no file (`writeModule_accounts`).

A module whose files stand is settled: making its boilerplate again, in any later
tree, finds both and changes nothing (`writeModule_settled`).
-/

namespace IncludeDeps

/-- The path that is reported on. -/
def FileOutcome.path : FileOutcome → String
  | written path => path
  | skipped path => path

namespace Scaffold

open IncludeDeps.Tree

variable {options : ScaffoldOptions} {tree later : Tree} {root here : Location} {name : Name}
  {module path text extension : String}

/-- What is rendered for the file at a path. -/
def Rendered (options : ScaffoldOptions) (path : String) (content : List UInt8) : Prop :=
  ∃ module pair, render options module = .ok pair ∧
    (path = module ++ ".c" ∧ content = Text.bytes pair.source ∨
      path = module ++ ".h" ∧ content = Text.bytes pair.header)

/-- Outcomes account for all that changed from one tree to another. -/
structure Accounts (options : ScaffoldOptions) (root : Location) (before after : Tree)
    (outcomes : List FileOutcome) : Prop where
  grows : before.Grows after
  written : ∀ path, .written path ∈ outcomes → ∃ location content,
    after.locate (.confined root) path = .ok location ∧ before.get? location = none ∧
      after.get? location = some (.file content) ∧ Rendered options path content
  skipped : ∀ path, .skipped path ∈ outcomes →
    ∃ location, after.locate (.confined root) path = .ok location
  new : ∀ location content, after.get? location = some (.file content) →
    before.get? location = some (.file content) ∨
      ∃ path, .written path ∈ outcomes ∧ after.locate (.confined root) path = .ok location
  once : outcomes.Pairwise fun first second => ∀ path other, first = .written path →
    second = .written other →
      after.locate (.confined root) path ≠ after.locate (.confined root) other

theorem Accounts.of_madeAlong {reach : Reach} {pieces : List Name}
    (hmade : tree.MadeAlong reach pieces later) : Accounts options root tree later [] where
  grows := hmade.grows
  written := by simp
  skipped := by simp
  new location content hfile := Or.inl (hmade.file hfile)
  once := .nil

theorem Accounts.trans {before middle after : Tree} {outcomes more : List FileOutcome}
    (hfirst : Accounts options root before middle outcomes)
    (hsecond : Accounts options root middle after more)
    (hstands : Reach.Stands (.confined root) middle) :
    Accounts options root before after (outcomes ++ more) := by
  have hkeeps : ∀ path location, middle.locate (.confined root) path = .ok location →
      after.locate (.confined root) path = .ok location :=
    fun path location hlocate => hsecond.grows.locate hstands hlocate
  refine ⟨hfirst.grows.trans hsecond.grows, fun path hpath => ?_, fun path hpath => ?_,
    fun location content hfile => ?_, ?_⟩
  · rcases List.mem_append.mp hpath with hpath | hpath
    · obtain ⟨location, content, hlocate, hnone, hfile, hrendered⟩ := hfirst.written path hpath
      exact ⟨location, content, hkeeps path location hlocate, hnone,
        hsecond.grows location _ hfile, hrendered⟩
    · obtain ⟨location, content, hlocate, hnone, hfile, hrendered⟩ := hsecond.written path hpath
      refine ⟨location, content, hlocate, ?_, hfile, hrendered⟩
      by_contra hsome
      have hthere := hfirst.grows.isSome (Option.isSome_iff_ne_none.mpr hsome)
      simp [hnone] at hthere
  · rcases List.mem_append.mp hpath with hpath | hpath
    · obtain ⟨location, hlocate⟩ := hfirst.skipped path hpath
      exact ⟨location, hkeeps path location hlocate⟩
    · exact hsecond.skipped path hpath
  · rcases hsecond.new location content hfile with hmiddle | ⟨path, hpath, hlocate⟩
    · refine (hfirst.new location content hmiddle).imp_right ?_
      rintro ⟨path, hpath, hlocate⟩
      exact ⟨path, List.mem_append_left more hpath, hkeeps path location hlocate⟩
    · exact Or.inr ⟨path, List.mem_append_right outcomes hpath, hlocate⟩
  · refine List.pairwise_append.mpr ⟨?_, hsecond.once, ?_⟩
    · refine hfirst.once.imp_of_mem fun hmem hmem' hne => ?_
      rintro path other rfl rfl
      obtain ⟨location, -, hlocate, -⟩ := hfirst.written path hmem
      obtain ⟨location', -, hlocate', -⟩ := hfirst.written other hmem'
      rw [hkeeps path location hlocate, hkeeps other location' hlocate', ← hlocate, ← hlocate']
      exact hne path other rfl rfl
    · -- what the second change writes is not there before it
      rintro first hmem second hmem' path other rfl rfl hsame
      obtain ⟨location, content, hlocate, -, hfile, -⟩ := hfirst.written path hmem
      obtain ⟨location', -, hlocate', hnone, -⟩ := hsecond.written other hmem'
      rw [hkeeps path location hlocate, hlocate'] at hsame
      cases hnone.symm.trans (Except.ok.inj hsame ▸ hfile)

/-! ## The places of a module's files -/

/-- What a module's path is given for one of its files. -/
structure IsExtension (extension : String) : Prop where
  slash : '/' ∉ extension.toList
  null : 0 ∉ Text.bytes extension
  length : (Text.bytes extension).length = 2
  last : ∃ byte, (Text.bytes extension).getLast? = some byte ∧ byte ≠ 0x2E

theorem isExtension_source : IsExtension ".c" := by
  constructor <;> decide

theorem isExtension_header : IsExtension ".h" := by
  constructor <;> decide

/-- A piece with an extension is no idle piece and does not go up. -/
theorem IsExtension.moves (hextension : IsExtension extension) (stem : Name) :
    staysPut (stem ++ Text.bytes extension) = false ∧
      goesUp (stem ++ Text.bytes extension) = false := by
  obtain ⟨byte, hlast, hdot⟩ := hextension.last
  have hend : (stem ++ Text.bytes extension).getLast? = some byte := by
    rw [List.getLast?_append, hlast, Option.some_or]
  constructor
  · by_contra hidle
    rw [Bool.not_eq_false, staysPut, Bool.or_eq_true, List.isEmpty_iff, beq_iff_eq] at hidle
    rcases hidle with hempty | hself
    · simp [hempty] at hend
    · rw [hself] at hend
      exact hdot (Option.some.inj hend).symm
  · by_contra hup
    rw [Bool.not_eq_false, goesUp, beq_iff_eq] at hup
    rw [hup] at hend
    exact hdot (Option.some.inj hend).symm

theorem IsExtension.exists_last (hextension : IsExtension extension) (module : String) :
    ∃ last, (Path.names (module ++ extension)).getLast? = some last ∧
      staysPut last = false ∧ goesUp last = false := by
  obtain ⟨above, stem, -, hnames⟩ := Path.names_append module hextension.slash
  exact ⟨stem ++ Text.bytes extension, by rw [hnames, List.getLast?_concat],
    hextension.moves stem⟩

/-- Where a file of a module has a place, so has another file of it. -/
theorem place_sibling {other : String} (hextension : IsExtension extension)
    (hother : IsExtension other)
    (hplace : tree.Place (.confined root) (module ++ extension) here name) :
    ∃ sibling, tree.Place (.confined root) (module ++ other) here sibling := by
  obtain ⟨above, stem, hmodule, hnames⟩ := Path.names_append module hextension.slash
  obtain ⟨above', stem', hmodule', hnames'⟩ := Path.names_append module hother.slash
  obtain ⟨rfl, hstem⟩ := List.append_inj' (hmodule.symm.trans hmodule') rfl
  obtain rfl := List.singleton_inj.mp hstem
  have hname : stem ++ Text.bytes extension = name := by
    simpa [hnames] using hplace.last
  refine ⟨stem ++ Text.bytes other, ?_, ?_, ?_, hplace.directory, ?_⟩
  · have hadmitted := hplace.admitted
    rw [hnames, Path.admit_eq_ok_iff, Path.intercalate_concat_append, List.length_append,
      hextension.length] at hadmitted
    rw [hnames', Path.admit_eq_ok_iff, Path.intercalate_concat_append, List.length_append,
      hother.length]
    refine ⟨fun piece hpiece => ?_, hadmitted.2⟩
    rcases List.mem_append.mp hpiece with habove | hlast
    · exact hadmitted.1 piece (List.mem_append_left _ habove)
    · have hnull := hadmitted.1 (stem ++ Text.bytes extension) (by simp)
      rw [List.mem_singleton.mp hlast, List.mem_append, not_or]
      exact ⟨fun hzero => hnull (List.mem_append_left _ hzero), hother.null⟩
  · rw [hnames', List.getLast?_concat]
  · have hleads := hplace.leads
    rw [hnames, List.dropLast_concat] at hleads
    rwa [hnames', List.dropLast_concat]
  · obtain ⟨hmoves, hdescends⟩ := hother.moves stem
    refine ⟨hmoves, hdescends, ?_⟩
    have hshort := hplace.proper.short
    rw [← hname, List.length_append, hextension.length] at hshort
    rwa [List.length_append, hother.length]

/-! ## Writing one file -/

theorem writeNew_of_place (hplace : tree.Place (.confined root) path here name)
    (hstands : Reach.Stands (.confined root) tree) :
    writeNew tree root path text =
      if (tree.get? (here ++ [name])).isSome then ⟨.ok (.skipped path), tree, []⟩
      else ⟨.ok (.written path), tree.put (here ++ [name]) (.file (Text.bytes text)),
        [.wroteBoilerplate path]⟩ := by
  rw [writeNew, createFile_eq hplace hstands]
  by_cases hthere : (tree.get? (here ++ [name])).isSome = true
  · rw [if_pos hthere, if_pos hthere]
  · rw [if_neg hthere, if_neg hthere]

theorem createFile_of_writeNew {outcome : FileOutcome}
    (hresult : (writeNew tree root path text).result = .ok outcome) :
    (∃ made, tree.createFile (.confined root) path (Text.bytes text) = .ok made) ∨
      tree.createFile (.confined root) path (Text.bytes text) = .error .alreadyExists := by
  unfold writeNew at hresult
  split at hresult
  · next made hmade => exact Or.inl ⟨made, hmade⟩
  · next hexists => exact Or.inr hexists
  · cases hresult

theorem exists_place_of_writeNew {outcome : FileOutcome} (hextension : IsExtension extension)
    (hstands : Reach.Stands (.confined root) tree)
    (hresult : (writeNew tree root (module ++ extension) text).result = .ok outcome) :
    ∃ here name, tree.Place (.confined root) (module ++ extension) here name := by
  obtain ⟨name, hlast, hmoves, hdescends⟩ := hextension.exists_last module
  obtain ⟨here, hplace⟩ := exists_place_of_createFile hstands hlast hmoves hdescends
    (createFile_of_writeNew hresult)
  exact ⟨here, name, hplace⟩

/-- With a place, a file is made or skipped, and the outcome accounts for it. -/
theorem writeNew_accounts (hplace : tree.Place (.confined root) path here name)
    (hstands : Reach.Stands (.confined root) tree)
    (hrendered : Rendered options path (Text.bytes text)) :
    ∃ outcome, (writeNew tree root path text).result = .ok outcome ∧ outcome.path = path ∧
      Accounts options root tree (writeNew tree root path text).tree [outcome] ∧
      ((writeNew tree root path text).tree.get? (here ++ [name])).isSome = true := by
  rw [writeNew_of_place hplace hstands]
  by_cases hthere : (tree.get? (here ++ [name])).isSome = true
  · rw [if_pos hthere]
    refine ⟨.skipped path, rfl, rfl, ⟨.refl tree, by simp, fun other hother => ?_,
      fun location content => Or.inl, List.pairwise_singleton _ _⟩, hthere⟩
    obtain rfl : other = path := by simpa using hother
    exact ⟨here ++ [name], hplace.locate hstands hthere⟩
  · rw [if_neg hthere]
    have hnone : tree.get? (here ++ [name]) = none := by simpa using hthere
    have hgrows := grows_put (.file (Text.bytes text)) hplace.directory hnone
    have hview := get?_put_vacant (.file (Text.bytes text)) hplace.directory hnone
    have hwritten : (tree.put (here ++ [name]) (.file (Text.bytes text))).get? (here ++ [name]) =
        some (.file (Text.bytes text)) := by
      rw [hview, if_pos rfl]
    have hlocate := (hplace.grow hgrows).locate
      (hgrows.stands hstands) (by simp [hwritten])
    refine ⟨.written path, rfl, rfl, ⟨hgrows, fun other hother => ?_, by simp,
      fun location content hfile => ?_, List.pairwise_singleton _ _⟩, by simp [hwritten]⟩
    · obtain rfl : other = path := by simpa using hother
      exact ⟨here ++ [name], Text.bytes text, hlocate, hnone, hwritten, hrendered⟩
    · by_cases hsame : location = here ++ [name]
      · exact Or.inr ⟨path, List.mem_singleton_self _, hsame ▸ hlocate⟩
      · rw [hview, if_neg hsame] at hfile
        exact Or.inl hfile

/-! ## Writing a module -/

theorem makeParent_madeAlong (module : String) (hstands : Reach.Stands (.confined root) tree) :
    ∃ pieces, tree.MadeAlong (.confined root) pieces (makeParent tree root module).2 := by
  unfold makeParent
  split
  · exact ⟨[], .refl tree _ _⟩
  · next parent hparent =>
    obtain ⟨hmade, -⟩ := createDirectories_spec hstands parent
    refine ⟨Path.names parent, ?_⟩
    split
    · next hresult => rwa [hresult] at hmade
    · next hresult => rwa [hresult] at hmade

/-- The parent that was made for a module is there, and it is admitted where a file of
the module is. -/
theorem leads_of_makeParent {made : Tree} {parent : String} (hextension : IsExtension extension)
    (hstands : Reach.Stands (.confined root) tree)
    (hmade : makeParent tree root module = (.ok (), made))
    (hadmitted : Path.admit (Path.names (module ++ extension)) = .ok ())
    (hparent : Path.parent? module = some parent) (hne : parent ≠ "") :
    ∃ there, made.Leads (.confined root) (Path.names parent) there ∧
      made.get? there = some .directory ∧ Path.admit (Path.names parent) = .ok () := by
  have hgiven : (Path.parent? module).filter (!·.isEmpty) = some parent := by
    simp [hparent, hne]
  unfold makeParent at hmade
  rw [hgiven] at hmade
  dsimp only at hmade
  obtain ⟨-, hleads⟩ := createDirectories_spec hstands parent
  split at hmade
  · next there result hresult =>
    obtain rfl := (Prod.ext_iff.mp hmade).2
    rw [hresult] at hleads
    obtain ⟨hleads, hthere⟩ := hleads there rfl
    refine ⟨there, hleads, hthere (Path.names_ne_nil parent), ?_⟩
    have hbeginning : Path.names parent <+: (Path.names module).dropLast := by
      refine (Path.names_of_parent? hparent hne).resolve_left ?_
      rintro ⟨rfl, -⟩
      -- an absolute path is not followed from the root
      obtain ⟨start, hstart, -⟩ := hleads
      cases hstart
    obtain ⟨above, stem, hmodule, hnames⟩ := Path.names_append module hextension.slash
    refine Path.admit_of_isPrefix hadmitted (hbeginning.trans ?_)
    rw [hmodule, hnames, List.dropLast_concat]
    exact List.prefix_append above _
  · cases hmade

/-- A parent that was made for a module is found again in every later tree. -/
theorem makeParent_again {made : Tree} (hextension : IsExtension extension)
    (hstands : Reach.Stands (.confined root) tree)
    (hmade : makeParent tree root module = (.ok (), made))
    (hadmitted : Path.admit (Path.names (module ++ extension)) = .ok ())
    (hgrows : made.Grows later) : makeParent later root module = (.ok (), later) := by
  obtain ⟨pieces, hmadeAlong⟩ := makeParent_madeAlong module hstands
  rw [hmade] at hmadeAlong
  unfold makeParent
  split
  · rfl
  · next parent hgiven =>
    obtain ⟨hparent, hne⟩ := Option.filter_eq_some_iff.mp hgiven
    obtain ⟨there, hleads, hthere, hparentAdmitted⟩ :=
      leads_of_makeParent hextension hstands hmade hadmitted hparent (by simpa using hne)
    rw [createDirectories_of_leads ((hmadeAlong.grows.trans hgrows).stands hstands)
      hparentAdmitted (hgrows.leads hleads (by simp [hthere])) (hgrows there .directory hthere)]

/-- Making the boilerplate of a module again finds it there. -/
def Settled (options : ScaffoldOptions) (root : Location) (tree : Tree) (module : String) : Prop :=
  ∀ later, tree.Grows later → writeModule options later root module =
    ⟨.ok (.skipped (module ++ ".c"), .skipped (module ++ ".h")), later, []⟩

theorem Settled.mono (hsettled : Settled options root tree module) (hgrows : tree.Grows later) :
    Settled options root later module :=
  fun further hfurther => hsettled further (hgrows.trans hfurther)

/-- What stands at a place is skipped in every later tree. -/
theorem writeNew_again (hplace : tree.Place (.confined root) path here name)
    (hstands : Reach.Stands (.confined root) tree)
    (hthere : (tree.get? (here ++ [name])).isSome = true) (hgrows : tree.Grows later) :
    writeNew later root path text = ⟨.ok (.skipped path), later, []⟩ := by
  rw [writeNew_of_place (hplace.grow hgrows) (hgrows.stands hstands), if_pos (hgrows.isSome hthere)]

/-- Once a module's source is made or found, so is its header. -/
theorem writeFiles_spec {pair : Pair} (hstands : Reach.Stands (.confined root) tree)
    (hrender : render options module = .ok pair)
    (hplace : tree.Place (.confined root) (module ++ ".c") here name) :
    let source := writeNew tree root (module ++ ".c") pair.source
    let header := writeNew source.tree root (module ++ ".h") pair.header
    ∃ first second, source.result = .ok first ∧ header.result = .ok second ∧
      first.path = module ++ ".c" ∧ second.path = module ++ ".h" ∧
      Accounts options root tree header.tree [first, second] ∧
      ∀ later, header.tree.Grows later →
        writeNew later root (module ++ ".c") pair.source =
            ⟨.ok (.skipped (module ++ ".c")), later, []⟩ ∧
          writeNew later root (module ++ ".h") pair.header =
            ⟨.ok (.skipped (module ++ ".h")), later, []⟩ := by
  intro source header
  obtain ⟨first, hfirst, hfirstPath, haccounts, hthere⟩ :=
    writeNew_accounts hplace hstands ⟨module, pair, hrender, Or.inl ⟨rfl, rfl⟩⟩
  have hstandsSource := haccounts.grows.stands hstands
  have hplaceSource := hplace.grow haccounts.grows
  obtain ⟨sibling, hsibling⟩ := place_sibling isExtension_source isExtension_header hplaceSource
  obtain ⟨second, hsecond, hsecondPath, hmore, hthereHeader⟩ :=
    writeNew_accounts hsibling hstandsSource ⟨module, pair, hrender, Or.inr ⟨rfl, rfl⟩⟩
  refine ⟨first, second, hfirst, hsecond, hfirstPath, hsecondPath,
    haccounts.trans hmore hstandsSource, fun later hgrows => ⟨?_, ?_⟩⟩
  · exact writeNew_again hplaceSource hstandsSource hthere (hmore.grows.trans hgrows)
  · exact writeNew_again (hsibling.grow hmore.grows) (hmore.grows.stands hstandsSource)
      hthereHeader hgrows

theorem tree_of_writeNew_error {error : ScaffoldError}
    (hresult : (writeNew tree root path text).result = .error error) :
    (writeNew tree root path text).tree = tree := by
  unfold writeNew at hresult ⊢
  split
  · next hmade => simp [hmade] at hresult
  · rfl
  · rfl

/-- A module that does not fail went through all the steps. -/
theorem exists_of_writeModule {outcomes : FileOutcome × FileOutcome}
    (hresult : (writeModule options tree root module).result = .ok outcomes) :
    ∃ pair made, render options module = .ok pair ∧ makeParent tree root module = (.ok (), made) ∧
      let source := writeNew made root (module ++ ".c") pair.source
      let header := writeNew source.tree root (module ++ ".h") pair.header
      source.result = .ok outcomes.1 ∧ header.result = .ok outcomes.2 ∧
        (writeModule options tree root module).tree = header.tree := by
  unfold writeModule at hresult ⊢
  cases hrender : render options module with
  | error invalid => simp [hrender] at hresult
  | ok pair =>
      rw [hrender] at hresult
      cases hparent : makeParent tree root module with
      | mk result made =>
          rw [hparent] at hresult
          cases result with
          | error fault => cases hresult
          | ok _ =>
              refine ⟨pair, made, rfl, rfl, ?_⟩
              dsimp only at hresult ⊢
              generalize writeNew made root (module ++ ".c") pair.source = source at hresult ⊢
              cases hsource : source.result with
              | error fault => simp [hsource] at hresult
              | ok first =>
                  rw [hsource] at hresult
                  dsimp only at hresult ⊢
                  generalize writeNew source.tree root (module ++ ".h") pair.header = header
                    at hresult ⊢
                  cases hheader : header.result with
                  | error fault =>
                      rw [hheader] at hresult
                      cases hresult
                  | ok second =>
                      rw [hheader] at hresult
                      obtain rfl := Except.ok.inj hresult
                      exact ⟨rfl, rfl, rfl⟩

/-- A module that fails has made no file. -/
theorem accounts_of_writeModule_error {error : ScaffoldError}
    (hstands : Reach.Stands (.confined root) tree)
    (hresult : (writeModule options tree root module).result = .error error) :
    Accounts options root tree (writeModule options tree root module).tree [] := by
  unfold writeModule at hresult ⊢
  cases hrender : render options module with
  | error invalid => exact .of_madeAlong (.refl tree (.confined root) [])
  | ok pair =>
      rw [hrender] at hresult
      obtain ⟨pieces, hmade⟩ := makeParent_madeAlong module hstands
      cases hparent : makeParent tree root module with
      | mk result made =>
          rw [hparent] at hmade hresult
          cases result with
          | error fault => exact .of_madeAlong hmade
          | ok _ =>
              dsimp only at hresult ⊢
              cases hsource : (writeNew made root (module ++ ".c") pair.source).result with
              | error fault =>
                  dsimp only
                  rw [tree_of_writeNew_error hsource]
                  exact .of_madeAlong hmade
              | ok first =>
                  -- where the source has a place, the header cannot fail
                  have hstandsMade := hmade.grows.stands hstands
                  obtain ⟨here, name, hplace⟩ :=
                    exists_place_of_writeNew isExtension_source hstandsMade hsource
                  obtain ⟨_, second, -, hsecond, -⟩ := writeFiles_spec hstandsMade hrender hplace
                  rw [hsource] at hresult
                  dsimp only at hresult
                  rw [hsecond] at hresult
                  cases hresult

/-- A module that fails has made no file, and one that does not has accounted for
both of its files and is settled. -/
theorem writeModule_spec (options : ScaffoldOptions) (module : String)
    (hstands : Reach.Stands (.confined root) tree) :
    (∀ error, (writeModule options tree root module).result = .error error →
      Accounts options root tree (writeModule options tree root module).tree []) ∧
    ∀ source header, (writeModule options tree root module).result = .ok (source, header) →
      source.path = module ++ ".c" ∧ header.path = module ++ ".h" ∧
        Accounts options root tree (writeModule options tree root module).tree [source, header] ∧
        Settled options root (writeModule options tree root module).tree module := by
  refine ⟨fun error => accounts_of_writeModule_error hstands, fun source header hresult => ?_⟩
  obtain ⟨pair, made, hrender, hparent, hsource, hheader, htree⟩ := exists_of_writeModule hresult
  obtain ⟨pieces, hmade⟩ := makeParent_madeAlong module hstands
  rw [hparent] at hmade
  have hstandsMade := hmade.grows.stands hstands
  obtain ⟨here, name, hplace⟩ := exists_place_of_writeNew isExtension_source hstandsMade hsource
  obtain ⟨first, second, hfirst, hsecond, hfirstPath, hsecondPath, haccounts, hagain⟩ :=
    writeFiles_spec hstandsMade hrender hplace
  obtain rfl := Except.ok.inj (hsource.symm.trans hfirst)
  obtain rfl := Except.ok.inj (hheader.symm.trans hsecond)
  rw [htree]
  have hmadeAccounts : Accounts options root tree made [] := .of_madeAlong hmade
  refine ⟨hfirstPath, hsecondPath, hmadeAccounts.trans haccounts hstandsMade,
    fun later hgrows => ?_⟩
  obtain ⟨hsourceAgain, hheaderAgain⟩ := hagain later hgrows
  have hparentAgain := makeParent_again isExtension_source hstands hparent
    hplace.admitted (haccounts.grows.trans hgrows)
  simp [writeModule, hrender, hparentAgain, hsourceAgain, hheaderAgain, Except.map]

end Scaffold

end IncludeDeps
