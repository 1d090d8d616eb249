import IncludeDeps.Proofs.Tree.Following
import IncludeDeps.Proofs.Tree.Spelling

/-!
# Trees that grow

Making files and directories adds to a tree and takes nothing from it.
`Tree.Grows` says that whatever stands in one tree stands in another, and paths
lead to the same places in both.

A new file needs a `Place`: a name in a directory that its path leads to.
Whether `createFile` makes the file or finds something there depends on the place
alone (`createFile_eq`), so two paths with places in one tree differ in nothing
but what stands there.

Making directories is `MadeAlong` the pieces of their path: what is new is a
directory where a beginning of the pieces leads (`createDirectories_spec`), and
where the whole path leads to a directory already nothing is made
(`createDirectories_of_leads`).
-/

namespace IncludeDeps.Tree

variable {tree later : Tree} {reach : Reach} {here there : Location} {piece name : Name}
  {pieces : List Name} {path : String}

/-- Whatever stands in a tree stands in a later one. -/
def Grows (tree later : Tree) : Prop :=
  ∀ location entry, tree.get? location = some entry → later.get? location = some entry

theorem Grows.refl (tree : Tree) : tree.Grows tree := fun _ _ h => h

theorem Grows.trans {middle : Tree} (hfirst : tree.Grows middle) (hsecond : middle.Grows later) :
    tree.Grows later :=
  fun location entry h => hsecond location entry (hfirst location entry h)

theorem Grows.isSome (hgrows : tree.Grows later) (hthere : (tree.get? there).isSome = true) :
    (later.get? there).isSome = true := by
  obtain ⟨entry, hentry⟩ := Option.isSome_iff_exists.mp hthere
  simp [hgrows there entry hentry]

theorem Grows.stands (hgrows : tree.Grows later) (hstands : reach.Stands tree) :
    reach.Stands later :=
  fun root hroot => hgrows root .directory (hstands root hroot)

theorem Grows.leads (hgrows : tree.Grows later) (hleads : tree.Leads reach pieces there)
    (hthere : (tree.get? there).isSome = true) : later.Leads reach pieces there :=
  hleads.mono (fun location => hgrows location .directory) (hgrows.isSome hthere)

theorem Grows.locate (hgrows : tree.Grows later) (hstands : reach.Stands tree)
    (hlocate : tree.locate reach path = .ok there) : later.locate reach path = .ok there := by
  obtain ⟨hpath, hadmitted, hleads⟩ := (locate_eq_ok_iff hstands).mp hlocate
  have hthere := hleads.isSome (Path.names_ne_nil path)
  exact (locate_eq_ok_iff (hgrows.stands hstands)).mpr
    ⟨hpath, hadmitted, hgrows.leads hleads hthere⟩

/-! ## Vacant names -/

theorem vacancy_eq_ok_iff :
    tree.vacancy reach here piece = .ok there ↔
      tree.get? here = some .directory ∧ IsName piece ∧ tree.get? (here ++ [piece]) = none ∧
        there = here ++ [piece] := by
  unfold vacancy
  constructor
  · intro h
    split at h
    · cases h
    · next hentered =>
      split at h
      · next hhere =>
        obtain ⟨hname, hnone⟩ := (enter_eq_notFound_iff hhere).mp hentered
        exact ⟨hhere, hname, hnone, (Except.ok.inj h).symm⟩
      · cases h
    · cases h
  · rintro ⟨hhere, hname, hnone, rfl⟩
    simp [(enter_eq_notFound_iff hhere).mpr ⟨hname, hnone⟩, hhere]

theorem vacancy_eq_alreadyExists_iff (hstands : reach.Stands tree) :
    tree.vacancy reach here piece = .error .alreadyExists ↔
      tree.get? here = some .directory ∧ ∃ there, tree.Enters reach here piece there := by
  unfold vacancy
  constructor
  · intro h
    split at h
    · next location hentered =>
      obtain ⟨hhere, henters⟩ := (enter_eq_ok_iff hstands).mp hentered
      exact ⟨hhere, location, henters⟩
    · split at h <;> cases h
    · next fault hentered =>
      rw [Except.error.inj h] at hentered
      exact absurd hentered enter_ne_alreadyExists
  · rintro ⟨hhere, there, henters⟩
    simp [(enter_eq_ok_iff hstands).mpr ⟨hhere, henters⟩]

theorem get?_put_vacant (entry : Entry) (hhere : tree.get? here = some .directory)
    (hvacant : tree.get? (here ++ [name]) = none) (other : Location) :
    (tree.put (here ++ [name]) entry).get? other =
      if other = here ++ [name] then some entry else tree.get? other :=
  get?_put entry hhere (by simp [hvacant]) other

theorem grows_put (entry : Entry) (hhere : tree.get? here = some .directory)
    (hvacant : tree.get? (here ++ [name]) = none) :
    tree.Grows (tree.put (here ++ [name]) entry) := by
  intro location stood hstood
  rw [get?_put_vacant entry hhere hvacant]
  split
  · next hsame => cases hvacant.symm.trans (hsame ▸ hstood)
  · exact hstood

/-! ## New files -/

/-- A path leads to a name in a directory. -/
structure Place (tree : Tree) (reach : Reach) (path : String) (here : Location) (name : Name) :
    Prop where
  admitted : Path.admit (Path.names path) = .ok ()
  last : (Path.names path).getLast? = some name
  leads : tree.Leads reach (Path.names path).dropLast here
  directory : tree.get? here = some .directory
  proper : IsName name

theorem Place.mono (hplace : tree.Place reach path here name)
    (hkeeps : ∀ location, tree.get? location = some .directory →
      later.get? location = some .directory) : later.Place reach path here name where
  admitted := hplace.admitted
  last := hplace.last
  leads := hplace.leads.mono hkeeps (by simp [hkeeps _ hplace.directory])
  directory := hkeeps _ hplace.directory
  proper := hplace.proper

theorem Place.grow (hplace : tree.Place reach path here name) (hgrows : tree.Grows later) :
    later.Place reach path here name :=
  hplace.mono fun location => hgrows location .directory

theorem Place.locate (hplace : tree.Place reach path here name) (hstands : reach.Stands tree)
    (hthere : (tree.get? (here ++ [name])).isSome = true) :
    tree.locate reach path = .ok (here ++ [name]) := by
  have hnames := List.dropLast_append_getLast? name hplace.last
  refine (locate_eq_ok_iff hstands).mpr ⟨?_, hplace.admitted, ?_⟩
  · rintro rfl
    -- the one piece of the empty path is empty
    exact hplace.proper.ne_nil (Option.some.inj hplace.last).symm
  · rw [← hnames, Leads.concat_iff fun _ => hplace.proper.ne_nil]
    exact ⟨here, hplace.leads, hplace.directory, .down hplace.proper hthere⟩

theorem createFile_eq {content : List UInt8} (hplace : tree.Place reach path here name)
    (hstands : reach.Stands tree) :
    tree.createFile reach path content =
      if (tree.get? (here ++ [name])).isSome then .error .alreadyExists
      else .ok (tree.put (here ++ [name]) (.file content)) := by
  have hadmitted := Path.admit_of_isPrefix hplace.admitted (List.dropLast_prefix _)
  have hwalk := (walk_eq_ok_iff hstands).mpr ⟨hadmitted, hplace.leads⟩
  simp only [createFile, hplace.admitted, hwalk, hplace.last, Option.getD_some, bind, Except.bind]
  by_cases hthere : (tree.get? (here ++ [name])).isSome = true
  · rw [if_pos hthere, (vacancy_eq_alreadyExists_iff hstands).mpr
      ⟨hplace.directory, _, .down hplace.proper hthere⟩]
  · rw [if_neg hthere, vacancy_eq_ok_iff.mpr
      ⟨hplace.directory, hplace.proper, by simpa using hthere, rfl⟩]
    rfl

/-- Where a file is made or something is found, the path has a place, unless it
ends in a piece that is no name. -/
theorem exists_place_of_createFile {content : List UInt8} (hstands : reach.Stands tree)
    (hlast : (Path.names path).getLast? = some name) (hmoves : staysPut name = false)
    (hdescends : goesUp name = false)
    (hcreate : (∃ made, tree.createFile reach path content = .ok made) ∨
      tree.createFile reach path content = .error .alreadyExists) :
    ∃ here, tree.Place reach path here name := by
  have hname : (Path.names path).getLast?.getD [] = name := by rw [hlast, Option.getD_some]
  rcases hcreate with ⟨made, hmade⟩ | hexists
  · obtain ⟨_, hadmitted, h⟩ := bind_eq_ok_iff.mp hmade
    obtain ⟨here, hwalk, h⟩ := bind_eq_ok_iff.mp h
    obtain ⟨vacant, hvacant, -⟩ := bind_eq_ok_iff.mp h
    rw [hname] at hvacant
    obtain ⟨hhere, hproper, -, -⟩ := vacancy_eq_ok_iff.mp hvacant
    exact ⟨here, hadmitted, hlast, ((walk_eq_ok_iff hstands).mp hwalk).2, hhere, hproper⟩
  · obtain ⟨_, hadmitted, h⟩ := (bind_eq_error_iff.mp hexists).resolve_left
      (Path.admit_ne_alreadyExists _)
    obtain ⟨here, hwalk, h⟩ := (bind_eq_error_iff.mp h).resolve_left walk_ne_alreadyExists
    have htaken := (bind_eq_error_iff.mp h).resolve_right fun ⟨_, _, hput⟩ => by cases hput
    rw [hname] at htaken
    obtain ⟨hhere, there, henters⟩ := (vacancy_eq_alreadyExists_iff hstands).mp htaken
    cases henters with
    | stay hidle => cases hmoves.symm.trans hidle
    | up _ hup _ => cases hdescends.symm.trans hup
    | down hproper _ =>
        exact ⟨here, hadmitted, hlast, ((walk_eq_ok_iff hstands).mp hwalk).2, hhere, hproper⟩

/-! ## New directories -/

/-- A tree has nothing new but directories on the way along some pieces. -/
structure MadeAlong (tree : Tree) (reach : Reach) (pieces : List Name) (made : Tree) : Prop where
  grows : tree.Grows made
  new : ∀ location entry, made.get? location = some entry → tree.get? location = some entry ∨
    entry = .directory ∧ ∃ part, part <+: pieces ∧ made.Leads reach part location

theorem MadeAlong.refl (tree : Tree) (reach : Reach) (pieces : List Name) :
    tree.MadeAlong reach pieces tree :=
  ⟨.refl tree, fun _ _ => Or.inl⟩

theorem MadeAlong.widen {part : List Name} (hmade : tree.MadeAlong reach part later)
    (hpart : part <+: pieces) : tree.MadeAlong reach pieces later := by
  refine ⟨hmade.grows, fun location entry hentry => (hmade.new location entry hentry).imp_right ?_⟩
  rintro ⟨hdirectory, shorter, hshorter, hleads⟩
  exact ⟨hdirectory, shorter, hshorter.trans hpart, hleads⟩

theorem MadeAlong.trans {middle : Tree} (hfirst : tree.MadeAlong reach pieces middle)
    (hsecond : middle.MadeAlong reach pieces later) : tree.MadeAlong reach pieces later := by
  refine ⟨hfirst.grows.trans hsecond.grows, fun location entry hentry => ?_⟩
  rcases hsecond.new location entry hentry with hmiddle | hnew
  · refine (hfirst.new location entry hmiddle).imp_right ?_
    rintro ⟨hdirectory, part, hpart, hleads⟩
    exact ⟨hdirectory, part, hpart, hsecond.grows.leads hleads (by simp [hmiddle])⟩
  · exact Or.inr hnew

/-- Files that stand after directories were made stood there before. -/
theorem MadeAlong.file {content : List UInt8} (hmade : tree.MadeAlong reach pieces later)
    (hthere : later.get? there = some (.file content)) :
    tree.get? there = some (.file content) := by
  rcases hmade.new there (.file content) hthere with hbefore | ⟨hdirectory, -⟩
  · exact hbefore
  · cases hdirectory

/-- The directory at some pieces is made below the one that the others lead to. -/
theorem madeAlong_put (hleads : tree.Leads reach pieces here)
    (hvacant : tree.vacancy reach here name = .ok there) :
    tree.MadeAlong reach (pieces ++ [name]) (tree.put there .directory) ∧
      (tree.put there .directory).Leads reach (pieces ++ [name]) there ∧
      (tree.put there .directory).get? there = some .directory := by
  obtain ⟨hhere, hname, hnone, rfl⟩ := vacancy_eq_ok_iff.mp hvacant
  have hview := get?_put_vacant .directory hhere hnone
  have hgrows := grows_put .directory hhere hnone
  have hthere : (tree.put (here ++ [name]) .directory).get? (here ++ [name]) = some .directory := by
    rw [hview, if_pos rfl]
  have hwhole : (tree.put (here ++ [name]) .directory).Leads reach (pieces ++ [name])
      (here ++ [name]) := by
    refine (Leads.concat_iff fun _ => hname.ne_nil).mpr ⟨here, ?_, hgrows here .directory hhere, ?_⟩
    · exact hgrows.leads hleads (by simp [hhere])
    · exact .down hname (by simp [hthere])
  refine ⟨⟨hgrows, fun location entry hentry => ?_⟩, hwhole, hthere⟩
  by_cases hsame : location = here ++ [name]
  · subst hsame
    exact Or.inr ⟨(Option.some.inj (hthere.symm.trans hentry)).symm, _, List.prefix_rfl, hwhole⟩
  · rw [hview, if_neg hsame] at hentry
    exact Or.inl hentry

/-- What making a directory at some pieces comes to: nothing else is made, and
if it succeeds the pieces lead to the directory. -/
def MakesDirectory (tree : Tree) (reach : Reach) (pieces : List Name)
    (result : Except Fault Location × Tree) : Prop :=
  tree.MadeAlong reach pieces result.2 ∧
    ∀ there, result.1 = .ok there → result.2.Leads reach pieces there ∧
      (pieces ≠ [] → result.2.get? there = some .directory)

theorem settleDirectory_spec (above : List Name) (last : Name) {outcome : Except Fault Location}
    (hstands : reach.Stands tree)
    (hvacant : ∀ vacant, outcome = .ok vacant → ∃ here, tree.Leads reach above here ∧
      tree.directoryVacancy reach here last = .ok vacant) :
    tree.MakesDirectory reach (above ++ [last])
      (tree.settleDirectory reach (above ++ [last]) outcome) := by
  cases outcome with
  | ok vacant =>
      obtain ⟨here, hleads, hvacancy⟩ := hvacant vacant rfl
      unfold directoryVacancy at hvacancy
      split at hvacancy
      · cases hvacancy
      · obtain ⟨hmade, hwhole, hdirectory⟩ := madeAlong_put hleads hvacancy
        refine ⟨hmade, ?_⟩
        rintro there ⟨⟩
        exact ⟨hwhole, fun _ => hdirectory⟩
  | error fault =>
      refine ⟨.refl tree reach _, fun there hthere => ?_⟩
      cases hfound : tree.walkToDirectory reach (above ++ [last]) with
      | error _ => simp [settleDirectory, hfound, Except.mapError] at hthere
      | ok found =>
          simp only [settleDirectory, hfound, Except.mapError, Except.ok.injEq] at hthere
          subst hthere
          have hdirectory := walkToDirectory_directory hstands (by simp) hfound
          exact ⟨((walkToDirectory_eq_ok_iff hstands hdirectory).mp hfound).2, fun _ => hdirectory⟩

theorem createDirectoriesUpward_spec (hstands : reach.Stands tree) (upward : List Name) :
    tree.MakesDirectory reach upward.reverse (tree.createDirectoriesUpward reach upward) := by
  induction upward with
  | nil =>
      refine ⟨.refl tree reach _, fun there hthere => ⟨⟨there, hthere, .done⟩, ?_⟩⟩
      exact fun hne => absurd rfl hne
  | cons last above ih =>
      rw [List.reverse_cons]
      unfold createDirectoriesUpward
      dsimp only
      rw [List.reverse_cons]
      split
      · -- the directory above is made first
        obtain ⟨hmade, hleads⟩ := ih
        have hwiden := hmade.widen (List.prefix_append above.reverse [last])
        split
        · next fault made hresult =>
          rw [hresult] at hwiden
          exact ⟨hwiden, fun there hthere => by cases hthere⟩
        · next here made hresult =>
          rw [hresult] at hwiden hleads
          obtain ⟨hsettled, hsettledLeads⟩ := settleDirectory_spec
            above.reverse last (hwiden.grows.stands hstands)
            fun vacant hvacant => ⟨here, (hleads here rfl).1, hvacant⟩
          exact ⟨hwiden.trans hsettled, hsettledLeads⟩
      · refine settleDirectory_spec above.reverse last hstands fun vacant hvacant => ?_
        obtain ⟨here, hfound, hvacant⟩ := bind_eq_ok_iff.mp hvacant
        refine ⟨here, ?_, hvacant⟩
        unfold directoryVacancy at hvacant
        split at hvacant
        · cases hvacant
        · have hhere := (vacancy_eq_ok_iff.mp hvacant).1
          exact ((walkToDirectory_eq_ok_iff hstands hhere).mp hfound).2

theorem createDirectories_spec (hstands : reach.Stands tree) (path : String) :
    tree.MakesDirectory reach (Path.names path) (tree.createDirectories reach path) := by
  have hupward := createDirectoriesUpward_spec hstands (Path.names path).reverse
  rw [List.reverse_reverse] at hupward
  have hrefused : ∀ fault, tree.MakesDirectory reach (Path.names path) (.error fault, tree) :=
    fun fault => ⟨.refl tree reach _, fun there hthere => by cases hthere⟩
  unfold createDirectories
  cases reach with
  | confined root => exact hupward
  | ordinary workingDirectory =>
      dsimp only
      split
      · exact hrefused _
      · split
        · exact hrefused _
        · exact hupward

/-- Where relative pieces lead to a directory, making it changes nothing. -/
theorem createDirectoriesUpward_of_leads (hstands : reach.Stands tree) (hpieces : pieces ≠ [])
    (hrelative : pieces.head? ≠ some []) (hadmitted : Path.admit pieces = .ok ())
    (hleads : tree.Leads reach pieces there) (hthere : tree.get? there = some .directory) :
    tree.createDirectoriesUpward reach pieces.reverse = (.ok there, tree) := by
  have hwhole := (walkToDirectory_eq_ok_iff hstands hthere).mpr
    ⟨Path.admit_of_isPrefix hadmitted (dropIdleEnd_isPrefix _), hleads⟩
  obtain ⟨above, last, hconcat⟩ := (List.eq_nil_or_concat pieces).resolve_left hpieces
  rw [List.concat_eq_append] at hconcat
  subst hconcat
  obtain ⟨here, habove, hhere, henters⟩ :=
    (Leads.concat_iff fun hnone hlast => hrelative (by rw [hnone, hlast]; rfl)).mp hleads
  have hfound : tree.walkToDirectory reach above = .ok here := by
    refine (walkToDirectory_eq_ok_iff hstands hhere).mpr
      ⟨Path.admit_of_isPrefix hadmitted ?_, habove⟩
    exact (dropIdleEnd_isPrefix above).trans (List.prefix_append above [last])
  have htaken : tree.directoryVacancy reach here last = .error .alreadyExists := by
    have hnull : last.contains 0 = false := by
      simpa using (Path.admit_eq_ok_iff.mp hadmitted).1 last (by simp)
    rw [directoryVacancy, hnull, if_neg Bool.false_ne_true]
    exact (vacancy_eq_alreadyExists_iff hstands).mpr ⟨hhere, there, henters⟩
  have hupward : (above ++ [last]).reverse = last :: above.reverse := List.reverse_concat
  simp only [hupward, createDirectoriesUpward, List.reverse_cons, List.reverse_reverse, hfound,
    bind, Except.bind, htaken, settleDirectory, hwhole, Except.mapError]

/-- A path that leads somewhere from the directory it is confined to is relative. -/
theorem Leads.relative {root : Location} (hleads : tree.Leads (.confined root) pieces there) :
    pieces.head? ≠ some [] := by
  intro hhead
  obtain ⟨start, hstart, -⟩ := hleads
  rw [hhead] at hstart
  cases hstart

/-- Where a confined path leads to a directory, making it changes nothing. -/
theorem createDirectories_of_leads {root : Location} (hstands : Reach.Stands (.confined root) tree)
    (hadmitted : Path.admit (Path.names path) = .ok ())
    (hleads : tree.Leads (.confined root) (Path.names path) there)
    (hthere : tree.get? there = some .directory) :
    tree.createDirectories (.confined root) path = (.ok there, tree) :=
  createDirectoriesUpward_of_leads hstands (Path.names_ne_nil path) hleads.relative hadmitted hleads
    hthere

end IncludeDeps.Tree
