import IncludeDeps.Proofs.Scaffold.Inclusion

/-!
# What a module's files are called

A module is named by the last piece of its path that says something, and idle pieces
may come behind it (`Path.Ends`).  The name and the parent of the path do not depend on
them (`Ends.fileName?`, `Ends.parent?`).  But the paths of the module's files are made
of text: an extension goes to the very last piece of the path (`Path.pieces_append`).

So it matters whether the path ends in its name.  If it does, the files are called
after the module and lie where the module does (`IsExtension.beside`).  If it does not,
the extension makes a name of the idle piece, and the files lie in a directory with the
name of the module (`IsExtension.below`), which is not made for them.
-/

namespace IncludeDeps

namespace Path

/-! ## The name and the parent by the pieces -/

/-- The pieces of a path come to a name, and only idle ones are behind it. -/
structure Ends (path : String) (above : List (List Char)) (name : List Char)
    (idle : List (List Char)) : Prop where
  pieces : pieces path = above ++ name :: idle
  busy : isIdle name = false
  idle : ∀ piece ∈ idle, isIdle piece = true

/-- The path of the directory that has the pieces before a name. -/
def directoryOf : List (List Char) → String
  | [] => ""
  | first :: rest =>
    if first.isEmpty && (trimIdle rest).isEmpty then "/"
    else String.ofList (List.intercalate ['/'] (first :: trimIdle rest))

/-- A path ends in a slash, with or without a dot behind it. -/
def EndsIdle (path : String) : Prop :=
  ['/'] <:+ path.toList ∨ ['/', '.'] <:+ path.toList

instance (path : String) : Decidable (EndsIdle path) :=
  inferInstanceAs (Decidable (_ ∨ _))

variable {path extension : String} {above idle : List (List Char)} {name last : List Char}

theorem trimIdle_of_busy (above : List (List Char)) (hbusy : isIdle name = false)
    (hidle : ∀ piece ∈ idle, isIdle piece = true) :
    trimIdle (above ++ name :: idle) = above ++ [name] := by
  have hnone : trimIdle idle = [] := List.rdropWhile_eq_nil_iff.mpr hidle
  rw [← List.singleton_append, ← List.append_assoc, trimIdle_append, if_pos hnone]
  exact List.rdropWhile_concat_neg isIdle above name (by simp [hbusy])

theorem Ends.ne_nil (hends : Ends path above name idle) : name ≠ [] := by
  rintro rfl
  cases hends.busy

theorem Ends.fileName? (hends : Ends path above name idle) :
    fileName? path = if name = ['.', '.'] then none else some (String.ofList name) := by
  rw [Path.fileName?, hends.pieces, trimIdle_of_busy above hends.busy hends.idle,
    List.getLast?_concat]

theorem Ends.parent? (hends : Ends path above name idle) :
    parent? path = some (directoryOf above) := by
  unfold Path.parent?
  rw [hends.pieces]
  cases above with
  | nil =>
      have hnone : trimIdle idle = [] := List.rdropWhile_eq_nil_iff.mpr hends.idle
      simp [hnone, hends.ne_nil, directoryOf]
  | cons first rest =>
      have hsome : ¬ (rest ++ [name]).isEmpty = true := by simp
      simp only [List.cons_append, trimIdle_of_busy rest hends.busy hends.idle, if_neg hsome,
        List.dropLast_concat, directoryOf]
      split <;> rfl

theorem exists_ends {base : String} (hname : fileName? path = some base) :
    ∃ above idle, Ends path above base.toList idle ∧ base.toList ≠ ['.', '.'] := by
  unfold Path.fileName? at hname
  split at hname
  · cases hname
  · next found hlast =>
    split at hname
    · cases hname
    · next hup =>
      obtain rfl := Option.some.inj hname
      rw [String.toList_ofList]
      obtain ⟨above, htrim⟩ := List.getLast?_eq_some_iff.mp hlast
      have hne : trimIdle (Path.pieces path) ≠ [] := by simp [htrim]
      refine ⟨above, (Path.pieces path).rtakeWhile isIdle,
        ⟨?_, ?_, fun piece => List.mem_rtakeWhile_imp⟩, hup⟩
      · rw [← List.singleton_append, ← List.append_assoc, ← htrim]
        exact (List.rdropWhile_append_rtakeWhile).symm
      · -- what is left when the idle pieces are taken off does not end in one
        have hbusy := List.rdropWhile_last_not isIdle (Path.pieces path) hne
        simp only [trimIdle] at htrim
        simpa [List.rdropWhile, htrim] using hbusy

/-! ## A path that ends in its name, and one that does not -/

/-- Whether a name is at the end of a path shows in the last characters of the path. -/
theorem Ends.endsIdle_iff (hends : Ends path above name idle) : EndsIdle path ↔ idle ≠ [] := by
  have hspelled := intercalate_pieces path
  rw [hends.pieces] at hspelled
  constructor
  · rintro hslash rfl
    have hlast : ∃ front last, path.toList = front ++ '/' :: last ∧ isIdle last = true ∧
        '/' ∉ last := by
      rcases hslash with ⟨front, hfront⟩ | ⟨front, hfront⟩
      · exact ⟨front, [], hfront.symm, rfl, by simp⟩
      · exact ⟨front, ['.'], hfront.symm, rfl, by simp⟩
    obtain ⟨front, last, hpath, hidle, hslash⟩ := hlast
    have hpieces := hends.pieces
    rw [Path.pieces, hpath, List.splitOn_append_cons_self, List.splitOn_eq_singleton hslash]
      at hpieces
    obtain ⟨-, hname⟩ := List.append_inj' hpieces rfl
    rw [List.singleton_inj.mp hname, hends.busy] at hidle
    cases hidle
  · intro hne
    obtain ⟨front, last, rfl⟩ := (List.eq_nil_or_concat idle).resolve_left hne
    rw [List.concat_eq_append, ← List.cons_append, ← List.append_assoc,
      intercalate_concat _ _ (by simp), List.append_assoc] at hspelled
    have hlast := hends.idle last (by simp)
    rcases Bool.or_eq_true_iff.mp hlast with hempty | hdot
    · rw [List.isEmpty_iff.mp hempty] at hspelled
      exact Or.inl ⟨_, hspelled⟩
    · rw [eq_of_beq hdot] at hspelled
      exact Or.inr ⟨_, hspelled⟩

theorem ends_append (hpieces : pieces path = above ++ [last])
    (hextension : '/' ∉ extension.toList) (hbusy : isIdle (last ++ extension.toList) = false) :
    Ends (path ++ extension) above (last ++ extension.toList) [] :=
  ⟨pieces_append hpieces hextension, hbusy, by simp⟩

/-- The directory that a path leads to has the name of the path, and the same parent. -/
theorem Ends.ends_directoryOf (hends : Ends path above name idle) {part : List (List Char)}
    (hpart : ∀ piece ∈ part, isIdle piece = true) :
    Ends (directoryOf (above ++ name :: part)) above name [] := by
  have hslash : ∀ piece ∈ above ++ [name], '/' ∉ piece := by
    intro piece hpiece
    have hmem : piece ∈ Path.pieces path := by
      rw [hends.pieces]
      rcases List.mem_append.mp hpiece with habove | hname
      · exact List.mem_append_left _ habove
      · exact List.mem_append_right _ (List.mem_singleton.mp hname ▸ List.mem_cons_self)
    exact slash_notMem_of_mem_splitOn hmem
  refine ⟨?_, hends.busy, by simp⟩
  have hdirectory : directoryOf (above ++ name :: part) =
      String.ofList (List.intercalate ['/'] (above ++ [name])) := by
    cases above with
    | nil =>
        have hnone : trimIdle part = [] := List.rdropWhile_eq_nil_iff.mpr hpart
        simp [directoryOf, hnone, hends.ne_nil]
    | cons first rest =>
        simp [directoryOf, trimIdle_of_busy rest hends.busy hpart]
  rw [hdirectory]
  exact pieces_spell (by simp) hslash

end Path

namespace Scaffold

open IncludeDeps.Tree

variable {options : ScaffoldOptions} {tree : Tree} {root : Location}
  {module base extension parent : String}

/-! ## The files of a module -/

theorem IsExtension.isIdle (hextension : IsExtension extension) (stem : List Char) :
    Path.isIdle (stem ++ extension.toList) = false ∧ stem ++ extension.toList ≠ ['.', '.'] := by
  have hbytes : Text.bytes (String.ofList (stem ++ extension.toList)) =
      Text.bytes (String.ofList stem) ++ Text.bytes extension := by
    simp [Text.bytes]
  obtain ⟨hmoves, hdescends⟩ := hextension.moves (Text.bytes (String.ofList stem))
  rw [← hbytes] at hmoves hdescends
  constructor
  · by_contra hidle
    rw [Path.staysPut_of_isIdle (by simpa using hidle)] at hmoves
    cases hmoves
  · intro hup
    rw [hup] at hdescends
    revert hdescends
    decide

/-- Where a module's path ends in its name, a file of it has that name and lies where
the module does. -/
theorem IsExtension.beside (hextension : IsExtension extension)
    (hname : Path.fileName? module = some base) (hends : ¬ Path.EndsIdle module) :
    Path.fileName? (module ++ extension) = some (base ++ extension) ∧
      Path.parent? (module ++ extension) = Path.parent? module := by
  obtain ⟨above, idle, hmodule, -⟩ := Path.exists_ends hname
  obtain rfl : idle = [] := not_not.mp (mt hmodule.endsIdle_iff.mpr hends)
  obtain ⟨hbusy, hdescends⟩ := hextension.isIdle base.toList
  have hfile := Path.ends_append hmodule.pieces hextension.slash hbusy
  refine ⟨?_, by rw [hfile.parent?, hmodule.parent?]⟩
  rw [hfile.fileName?, if_neg hdescends, ← String.toList_append, String.ofList_toList]

/-- Where it does not, a file lies in a directory that has the name of the module, and
has another name. -/
theorem IsExtension.below (hextension : IsExtension extension)
    (hname : Path.fileName? module = some base) (hends : Path.EndsIdle module) :
    Path.fileName? (module ++ extension) ≠ some (base ++ extension) ∧
      ∃ directory, Path.parent? (module ++ extension) = some directory ∧
        Path.fileName? directory = some base ∧ Path.parent? directory = Path.parent? module := by
  obtain ⟨above, idle, hmodule, hdescends⟩ := Path.exists_ends hname
  obtain ⟨part, last, rfl⟩ :=
    (List.eq_nil_or_concat idle).resolve_left (hmodule.endsIdle_iff.mp hends)
  rw [List.concat_eq_append] at hmodule
  obtain ⟨hbusy, hfileDescends⟩ := hextension.isIdle last
  have hpieces : Path.pieces module = (above ++ base.toList :: part) ++ [last] := by
    rw [hmodule.pieces, List.append_assoc, List.cons_append]
  have hfile := Path.ends_append hpieces hextension.slash hbusy
  have hdirectory := hmodule.ends_directoryOf fun piece hpiece =>
    hmodule.idle piece (List.mem_append_left _ hpiece)
  refine ⟨fun hsame => ?_, _, hfile.parent?, ?_, ?_⟩
  · rw [hfile.fileName?, if_neg hfileDescends, Option.some.injEq, ← String.toList_inj,
      String.toList_ofList, String.toList_append, List.append_left_inj] at hsame
    have hidle := hmodule.idle last (by simp)
    rw [hsame, hmodule.busy] at hidle
    cases hidle
  · rw [hdirectory.fileName?, if_neg hdescends, String.ofList_toList]
  · rw [hdirectory.parent?, hmodule.parent?]

/-- The parent of a module that did not fail stands afterwards. -/
theorem locate_parent {outcomes : FileOutcome × FileOutcome}
    (hresult : (writeModule options tree root module).result = .ok outcomes)
    (hparent : Path.parent? module = some parent) (hne : parent ≠ "") :
    ∃ there, (writeModule options tree root module).tree.locate (.confined root) parent =
        .ok there ∧
      (writeModule options tree root module).tree.get? there = some .directory := by
  have hstands := stands_of_writeModule hresult
  obtain ⟨pair, made, hrender, hmade, hsource, -, htree⟩ := exists_of_writeModule hresult
  obtain ⟨pieces, hmadeAlong⟩ := makeParent_madeAlong module hstands
  rw [hmade] at hmadeAlong
  have hstandsMade := hmadeAlong.grows.stands hstands
  obtain ⟨here, name, hplace⟩ := exists_place_of_writeNew isExtension_source hstandsMade hsource
  obtain ⟨there, hleads, hthere, hadmitted⟩ :=
    leads_of_makeParent isExtension_source hstands hmade hplace.admitted hparent hne
  obtain ⟨_, _, -, -, -, -, haccounts, -⟩ := writeFiles_spec hstandsMade hrender hplace
  have hgrows := haccounts.grows
  rw [← htree] at hgrows
  refine ⟨there, ?_, hgrows there .directory hthere⟩
  exact hgrows.locate hstandsMade
    ((locate_eq_ok_iff hstandsMade).mpr ⟨hne, hadmitted, hleads⟩)

/-- **What a module's files are called.**  They are called after the name that the guards
come from, and lie in the directory that is made for them, just where the path of the
module ends in that name.  Otherwise they lie in a directory with that name, below the one
that is made. -/
theorem files_of_render (options : ScaffoldOptions) (module : String) (pair : Pair)
    (hrender : render options module = .ok pair) :
    ∃ base, Path.fileName? module = some base ∧
      pair = ⟨textOf (sourceLines options module base), textOf (headerLines options base)⟩ ∧
      (∀ extension ∈ [".c", ".h"],
        (Path.fileName? (module ++ extension) = some (base ++ extension) ↔
          ¬ Path.EndsIdle module) ∧
        (Path.parent? (module ++ extension) = Path.parent? module ↔ ¬ Path.EndsIdle module) ∧
        (Path.EndsIdle module → ∃ directory, Path.parent? (module ++ extension) = some directory ∧
          Path.fileName? directory = some base ∧
          Path.parent? directory = Path.parent? module)) ∧
      ∀ tree root source header,
        (writeModule options tree root module).result = .ok (source, header) →
          source.path = module ++ ".c" ∧ header.path = module ++ ".h" ∧
            ∀ parent, Path.parent? module = some parent → parent ≠ "" → ∃ there,
              (writeModule options tree root module).tree.locate (.confined root) parent =
                .ok there ∧
              (writeModule options tree root module).tree.get? there = some .directory := by
  obtain ⟨base, hname, rfl⟩ := render_eq_ok_iff.mp hrender
  refine ⟨base, hname, rfl, fun extension hextension => ?_,
    fun tree root source header hresult => ?_⟩
  · have hextension : IsExtension extension := by
      rcases List.mem_pair.mp hextension with rfl | rfl
      · exact isExtension_source
      · exact isExtension_header
    by_cases hends : Path.EndsIdle module
    · obtain ⟨hother, directory, hfile, hdirectory, hparent⟩ := hextension.below hname hends
      have hbelow : Path.parent? (module ++ extension) ≠ Path.parent? module := by
        rw [hfile, ← hparent]
        exact (Path.parent?_ne_self directory).symm
      exact ⟨iff_of_false hother (not_not.mpr hends), iff_of_false hbelow (not_not.mpr hends),
        fun _ => ⟨directory, hfile, hdirectory, hparent⟩⟩
    · obtain ⟨hfile, hparent⟩ := hextension.beside hname hends
      exact ⟨iff_of_true hfile hends, iff_of_true hparent hends, fun h => absurd h hends⟩
  · obtain ⟨-, hok⟩ := writeModule_spec options module (stands_of_writeModule hresult)
    obtain ⟨hsource, hheader, -⟩ := hok source header hresult
    exact ⟨hsource, hheader, fun parent => locate_parent hresult⟩

/-- Idle pieces inside a path do not matter. -/
theorem files_of_render_nested :
    render misleading "lib/./vec.3" = .ok
        ⟨textOf (sourceLines misleading "lib/./vec.3" "vec.3"),
          textOf (headerLines misleading "vec.3")⟩ ∧
      Path.fileName? "lib/./vec.3.h" = some "vec.3.h" ∧ Path.parent? "lib/./vec.3.h" = some "lib" := by
  have hrender : render misleading "lib/./vec.3" = .ok
      ⟨textOf (sourceLines misleading "lib/./vec.3" "vec.3"),
        textOf (headerLines misleading "vec.3")⟩ :=
    render_eq_ok_iff.mpr ⟨"vec.3", by decide, rfl⟩
  obtain ⟨base, hname, -, hfiles, -⟩ := files_of_render misleading "lib/./vec.3" _ hrender
  obtain rfl : base = "vec.3" := Option.some.inj (hname.symm.trans (by decide))
  obtain ⟨hfile, hparent, -⟩ := hfiles ".h" (by simp)
  have hends : ¬ Path.EndsIdle "lib/./vec.3" := by decide
  exact ⟨hrender, hfile.mpr hends, (hparent.mpr hends).trans (by decide)⟩

/-- A slash at the end of a module's path is not taken off: the guards come from the
name before it, and the files get no name but their extension. -/
theorem files_of_render_slash :
    render {} "sub/" = .ok ⟨textOf (sourceLines {} "sub/" "sub"), textOf (headerLines {} "sub")⟩ ∧
      Path.fileName? "sub/" = some "sub" ∧ Path.fileName? ("sub/" ++ ".c") = some ".c" ∧
      Path.parent? "sub/" = some "" ∧ Path.parent? ("sub/" ++ ".c") = some "sub" ∧
      (writeModule {} (.directory (Text.bytes "sub") .empty .empty) [] "sub/").result =
        .ok (.written "sub/.c", .written "sub/.h") ∧
      (writeModule {} .empty [] "sub/").result = .error (.unwritable "sub/.c" .notFound) := by
  refine ⟨render_eq_ok_iff.mpr ⟨"sub", by decide, rfl⟩, by decide, by decide, by decide,
    by decide, ?_, ?_⟩
  · decide +kernel
  · decide +kernel

end Scaffold

end IncludeDeps
