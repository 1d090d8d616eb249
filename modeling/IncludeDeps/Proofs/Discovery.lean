import IncludeDeps.Discovery
import IncludeDeps.Proofs.Ring
import IncludeDeps.Proofs.Text.Encoding
import IncludeDeps.Proofs.Tree.Replacement
import Mathlib.Data.List.Pairwise

/-!
# Which files are sources

A directory lists each of its names once and in no particular order.  An entry adds its
name to the sources if the name is a text, has a wanted extension and stands for a file
(`examine_eq_some_iff`).  So the sources are different names, and sorting them leaves but
one list, whatever the order of the entries was (`discover_exact`).

An extension is what follows the last dot of a name.  That dot is found from the end of
the name, so the extension has no dot and may be empty; something must stand in front of
the dot (`extension?_eq_some_iff`).  Among the names of a directory, none of which has a
slash, this makes a source of every name that is some text, a dot and a wanted extension
(`hasSourceExtension_iff`).
-/

namespace IncludeDeps

/-! ## Extensions -/

namespace Path

/-- A name that is longer than what follows its last period has a period. -/
theorem exists_eq_append_period {name : List Char}
    (h : (name.reverse.takeWhile (· ≠ '.')).length < name.length) :
    ∃ before, name = before ++ '.' :: (name.reverse.takeWhile (· ≠ '.')).reverse := by
  have hsplit := List.takeWhile_append_dropWhile (p := (· ≠ '.')) (l := name.reverse)
  cases hrest : name.reverse.dropWhile (· ≠ '.') with
  | nil =>
      rw [hrest, List.append_nil] at hsplit
      rw [hsplit, List.length_reverse] at h
      exact absurd h (lt_irrefl _)
  | cons first before =>
      have hfirst := List.head?_dropWhile_not (· ≠ '.') name.reverse
      rw [hrest, List.head?_cons] at hfirst
      obtain rfl : first = '.' := by simpa using hfirst
      refine ⟨before.reverse, ?_⟩
      rw [hrest] at hsplit
      simpa using congrArg List.reverse hsplit.symm

theorem splitExtension?_eq_some {name stem extension : List Char}
    (h : splitExtension? name = some (stem, extension)) :
    name = stem ++ '.' :: extension ∧ '.' ∉ extension ∧ stem ≠ [] := by
  unfold splitExtension? at h
  dsimp only at h
  split at h
  · next hfound =>
    obtain ⟨hlength, hne⟩ := hfound
    obtain ⟨rfl, rfl⟩ := Prod.mk.inj (Option.some.inj h)
    have hperiod : '.' ∉ name.reverse.takeWhile (· ≠ '.') := fun hmem => by
      simpa using List.mem_takeWhile_imp hmem
    obtain ⟨before, hname⟩ := exists_eq_append_period (by simpa using hlength)
    refine ⟨?_, by simpa using hperiod, hne⟩
    generalize (name.reverse.takeWhile (· ≠ '.')).reverse = extension at hname
    have hbefore : before.length = name.length - extension.length - 1 := by
      rw [hname, List.length_append, List.length_cons]
      omega
    rw [← hbefore, hname, List.take_left]
  · cases h

theorem splitExtension?_append {stem extension : List Char} (hperiod : '.' ∉ extension)
    (hstem : stem ≠ []) : splitExtension? (stem ++ '.' :: extension) = some (stem, extension) := by
  have hextension : ∀ c ∈ extension.reverse, decide (c ≠ '.') = true := by
    intro c hc
    exact decide_eq_true (ne_of_mem_of_not_mem (List.mem_reverse.mp hc) hperiod)
  have hlast : ((stem ++ '.' :: extension).reverse.takeWhile (· ≠ '.')).reverse = extension := by
    rw [List.reverse_append, List.reverse_cons, List.append_assoc,
      List.takeWhile_append_of_pos hextension]
    simp
  have hlength : (stem ++ '.' :: extension).length - extension.length - 1 = stem.length := by
    rw [List.length_append, List.length_cons]
    omega
  unfold splitExtension?
  dsimp only
  rw [hlast, hlength, List.take_left, if_pos]
  exact ⟨by rw [List.length_append, List.length_cons]; omega, hstem⟩

/-- Without a slash, the name of a file is the whole path. -/
theorem fileName?_eq_some_iff {path name : String} (hslash : '/' ∉ path.toList) :
    fileName? path = some name ↔ name = path ∧ isIdle path.toList = false ∧ path ≠ ".." := by
  have hpieces : pieces path = [path.toList] := List.splitOn_eq_singleton hslash
  have hup : path.toList = ['.', '.'] ↔ path = ".." := by
    rw [← String.toList_inj]
    rfl
  unfold fileName?
  rw [hpieces]
  cases hidle : isIdle path.toList with
  | true => simp [trimIdle, hidle]
  | false =>
      have htrim : trimIdle [path.toList] = [path.toList] := by simp [trimIdle, hidle]
      rw [htrim, List.getLast?_singleton]
      dsimp only
      split
      · next h => simp [hup.mp h]
      · next h => simp [mt hup.mpr h, eq_comm]

/-- A path that is the name of a file and has no slash is that name. -/
theorem eq_of_fileName? {path name : String} (hslash : '/' ∉ path.toList)
    (h : fileName? path = some name) : name = path :=
  ((fileName?_eq_some_iff hslash).mp h).1

/-- A name without a slash has as its extension what follows its last dot, if something
stands in front of that dot. -/
theorem extension?_eq_some_iff {name extension : String} (hslash : '/' ∉ name.toList)
    (hup : name ≠ "..") :
    extension? name = some extension ↔
      ∃ stem, name = stem ++ "." ++ extension ∧ stem ≠ "" ∧ '.' ∉ extension.toList := by
  unfold extension?
  rw [Option.bind_eq_some_iff]
  constructor
  · intro h
    obtain ⟨file, hfile, hsplit⟩ := h
    obtain rfl := eq_of_fileName? hslash hfile
    obtain ⟨⟨stem, rest⟩, hparts, hrest⟩ := Option.map_eq_some_iff.mp hsplit
    obtain rfl : String.ofList rest = extension := hrest
    obtain ⟨hname, hperiod, hstem⟩ := splitExtension?_eq_some hparts
    refine ⟨String.ofList stem, ?_, by simpa using hstem, by simpa using hperiod⟩
    apply String.toList_inj.mp
    simpa using hname
  · intro h
    obtain ⟨stem, hname, hstem, hperiod⟩ := h
    have hparts : name.toList = stem.toList ++ '.' :: extension.toList := by
      rw [hname]
      simp
    have hne : stem.toList ≠ [] := by simpa using hstem
    have hidle : isIdle name.toList = false := by
      rw [hparts]
      cases hfirst : stem.toList with
      | nil => exact absurd hfirst hne
      | cons first others => simp [isIdle]
    refine ⟨name, (fileName?_eq_some_iff hslash).mpr ⟨rfl, hidle, hup⟩, ?_⟩
    rw [hparts, splitExtension?_append hperiod hne, Option.map_some]
    exact congrArg some String.ofList_toList

end Path

/-- An extension without dots is wanted as it is or with a dot in front of it. -/
theorem dropDot_eq_iff {candidate extension : String} (hperiod : '.' ∉ extension.toList) :
    dropDot candidate = extension ↔ candidate = extension ∨ candidate = "." ++ extension := by
  have hdotted : candidate = "." ++ extension ↔ candidate.toList = '.' :: extension.toList := by
    rw [← String.toList_inj, String.toList_append]
    rfl
  unfold dropDot
  split
  · next rest hcandidate =>
    have hplain : candidate ≠ extension := by
      intro h
      rw [← h, hcandidate] at hperiod
      exact hperiod List.mem_cons_self
    have hrest : String.ofList rest = extension ↔ rest = extension.toList := by
      rw [← String.toList_inj, String.toList_ofList]
    rw [hdotted, hcandidate, List.cons_inj_right, hrest]
    exact (or_iff_right hplain).symm
  · next hcandidate =>
    have hdotless : ¬ candidate = "." ++ extension := fun h => hcandidate _ (hdotted.mp h)
    exact (or_iff_left hdotless).symm

/-- What makes the name of a file the name of a source: it is a text, a dot, and an extension
without dots that is wanted, with or without a dot in front of it. -/
def IsSourceName (wanted : List String) (name : String) : Prop :=
  ∃ stem extension, name = stem ++ "." ++ extension ∧ stem ≠ "" ∧ '.' ∉ extension.toList ∧
    ∃ candidate ∈ wanted, candidate = extension ∨ candidate = "." ++ extension

theorem hasSourceExtension_iff {wanted : List String} {name : String}
    (hslash : '/' ∉ name.toList) (hup : name ≠ "..") :
    hasSourceExtension wanted name = true ↔ IsSourceName wanted name := by
  have hwanted : ∀ extension : String, '.' ∉ extension.toList →
      ((wanted.any fun candidate => dropDot candidate == extension) = true ↔
        ∃ candidate ∈ wanted, candidate = extension ∨ candidate = "." ++ extension) := by
    intro extension hperiod
    simp only [List.any_eq_true, beq_iff_eq, dropDot_eq_iff hperiod]
  unfold hasSourceExtension
  constructor
  · intro h
    split at h
    · cases h
    · next extension hextension =>
      obtain ⟨stem, hname, hstem, hperiod⟩ :=
        (Path.extension?_eq_some_iff hslash hup).mp hextension
      exact ⟨stem, extension, hname, hstem, hperiod, (hwanted extension hperiod).mp h⟩
  · intro h
    obtain ⟨stem, extension, hname, hstem, hperiod, hcandidate⟩ := h
    have hextension := (Path.extension?_eq_some_iff hslash hup).mpr ⟨stem, hname, hstem, hperiod⟩
    rw [hextension]
    exact (hwanted extension hperiod).mpr hcandidate

/-! ## Entries of a directory -/

namespace Tree

variable {tree : Tree} {directory : Location} {name : Name} {entry : Entry}

/-- The entries right below the top are the names that stand for something, each with what it
stands for. -/
theorem mem_items_iff : (name, entry) ∈ tree.items ↔ (tree.item? name).map Item.entry = some entry := by
  induction tree with
  | empty => simp [items, item?]
  | file other content rest ih =>
      by_cases hsame : other = name
      · simp [items, item?, hsame, Item.entry, eq_comm]
      · simp [items, item?, hsame, Ne.symm hsame, ih]
  | directory other inside rest _ ih =>
      by_cases hsame : other = name
      · simp [items, item?, hsame, Item.entry, eq_comm]
      · simp [items, item?, hsame, Ne.symm hsame, ih]

theorem nodup_items (tree : Tree) : (tree.items.map Prod.fst).Nodup := by
  have hfirst : ∀ (other : Name) (rest : List (Name × Entry)), (rest.map Prod.fst).Nodup →
      (other :: (rest.filter (·.1 ≠ other)).map Prod.fst).Nodup := by
    intro other rest hrest
    rw [List.nodup_cons]
    refine ⟨fun hmem => ?_, hrest.sublist (List.filter_sublist.map Prod.fst)⟩
    obtain ⟨child, hchild, hname⟩ := List.mem_map.mp hmem
    exact of_decide_eq_true (List.mem_filter.mp hchild).2 hname
  induction tree with
  | empty => exact List.nodup_nil
  | file other content rest ih => exact hfirst other rest.items ih
  | directory other inside rest _ ih => exact hfirst other rest.items ih

theorem nodup_children (tree : Tree) (directory : Location) :
    ((tree.children directory).map Prod.fst).Nodup := by
  unfold children
  split
  · exact List.nodup_nil
  · exact nodup_items _

theorem mem_children_iff :
    (name, entry) ∈ tree.children directory ↔ tree.get? (directory ++ [name]) = some entry := by
  unfold children
  cases hbelow : tree.below? directory with
  | none =>
      -- where there is no directory, nothing stands below
      refine iff_of_false List.not_mem_nil fun hentry => ?_
      have hdirectory := get?_eq_directory_of_append (List.cons_ne_nil name [])
        (Option.isSome_of_eq_some hentry)
      obtain ⟨inside, hinside⟩ := exists_below? hdirectory
      cases hbelow.symm.trans hinside
  | some inside =>
      rw [get?_append_of_below? hbelow, get?, mem_items_iff]
      cases inside.item? name with
      | none => rfl
      | some item => cases item <;> simp [Item.entry]

end Tree

/-! ## The list of sources -/

section

variable {wanted : List String} {children : List (Name × Entry)} {child : Name × Entry}
  {name : String}

/-- An entry adds its own name to the sources or nothing. -/
theorem examine_eq_some_iff :
    (examine wanted child).1 = some name ↔
      (∃ content, child = (Text.bytes name, .file content)) ∧
        hasSourceExtension wanted name = true := by
  obtain ⟨raw, entry⟩ := child
  unfold examine
  cases htext : Text.ofBytes? raw with
  | none =>
      have hraw : raw ≠ Text.bytes name := by
        intro h
        rw [Text.ofBytes?_eq_some_iff.mpr h.symm] at htext
        cases htext
      simp [hraw]
  | some text =>
      obtain rfl := Text.ofBytes?_eq_some_iff.mp htext
      cases entry with
      | file content =>
          by_cases hextension : hasSourceExtension wanted text = true
          · by_cases hsame : text = name
            · subst hsame
              simp [hextension]
            · simp [hextension, hsame]
          · have hother : text = name → ¬ hasSourceExtension wanted name = true :=
              fun hsame => hsame ▸ hextension
            simpa [hextension] using hother
      | directory =>
          by_cases hextension : hasSourceExtension wanted text = true
          · simp [hextension]
          · simp [hextension]

theorem mem_discoverAmong_iff :
    name ∈ (discoverAmong wanted children).1 ↔
      (∃ content, (Text.bytes name, .file content) ∈ children) ∧
        hasSourceExtension wanted name = true := by
  unfold discoverAmong
  rw [List.mem_mergeSort, List.mem_filterMap]
  constructor
  · intro h
    obtain ⟨child, hchild, hname⟩ := h
    obtain ⟨⟨content, rfl⟩, hextension⟩ := examine_eq_some_iff.mp hname
    exact ⟨⟨content, hchild⟩, hextension⟩
  · intro h
    obtain ⟨⟨content, hchild⟩, hextension⟩ := h
    exact ⟨_, hchild, examine_eq_some_iff.mpr ⟨⟨content, rfl⟩, hextension⟩⟩

/-- Different entries add different names. -/
theorem nodup_discoverAmong (hnodup : (children.map Prod.fst).Nodup) :
    (discoverAmong wanted children).1.Nodup := by
  have hfound : (children.filterMap fun child => (examine wanted child).1).Nodup := by
    rw [List.Nodup, List.pairwise_filterMap]
    refine (List.pairwise_map.mp hnodup).imp ?_
    intro first second hne name hname other hother hsame
    obtain ⟨⟨_, rfl⟩, -⟩ := examine_eq_some_iff.mp hname
    obtain ⟨⟨_, rfl⟩, -⟩ := examine_eq_some_iff.mp hother
    exact hne (congrArg Text.bytes hsame)
  exact (List.mergeSort_perm _ _).nodup_iff.mpr hfound

end

theorem pairwise_byteLe_discoverAmong (wanted : List String) (children : List (Name × Entry)) :
    (discoverAmong wanted children).1.Pairwise fun first second =>
      Text.byteLe first second = true := by
  have htrans : ∀ first second third : String, Text.byteLe first second = true →
      Text.byteLe second third = true → Text.byteLe first third = true :=
    fun _ _ _ => Text.byteLe_trans
  exact List.pairwise_mergeSort htrans Text.byteLe_total _

/-- A sorted list of names is determined by its names, so the order of the entries does not
matter. -/
theorem discoverAmong_eq_of_perm {wanted : List String} {children listing : List (Name × Entry)}
    (hlisting : listing.Perm children) :
    (discoverAmong wanted listing).1 = (discoverAmong wanted children).1 := by
  have hfound : (listing.filterMap fun child => (examine wanted child).1).Perm
      (children.filterMap fun child => (examine wanted child).1) := hlisting.filterMap _
  apply List.Perm.eq_of_pairwise (fun _ _ _ _ => Text.byteLe_antisymm)
    (pairwise_byteLe_discoverAmong wanted listing)
    (pairwise_byteLe_discoverAmong wanted children)
  exact (List.mergeSort_perm _ _).trans (hfound.trans (List.mergeSort_perm _ _).symm)

/-- Sources that are listed in byte order are found in that order. -/
theorem discoverAmong_of_pairwise {wanted sources : List String} {children : List (Name × Entry)}
    (hfound : (children.filterMap fun child => (examine wanted child).1) = sources)
    (hsorted : sources.Pairwise fun first second => Text.byteLe first second = true) :
    (discoverAmong wanted children).1 = sources := by
  rw [discoverAmong, hfound, List.mergeSort_of_pairwise hsorted]

theorem pairwise_byteLt_discoverAmong {wanted : List String} {children : List (Name × Entry)}
    (hnodup : (children.map Prod.fst).Nodup) :
    (discoverAmong wanted children).1.Pairwise fun first second =>
      Text.byteLt first second = true := by
  refine (pairwise_byteLe_discoverAmong wanted children).imp₂ ?_ (nodup_discoverAmong hnodup)
  intro first second hle hne
  exact Text.byteLt_of_ne hle hne

/-- A name that a directory can hold: it is one piece of a path, and does not go up. -/
def IsFileName (name : Name) : Prop :=
  0x2F ∉ name ∧ name ≠ [0x2E, 0x2E]

instance (name : Name) : Decidable (IsFileName name) :=
  inferInstanceAs (Decidable (_ ∧ _))

theorem slash_notMem_of_isFileName {name : String} (hname : IsFileName (Text.bytes name)) :
    '/' ∉ name.toList := by
  intro hslash
  have hbytes := Text.bytes_ofList name.toList
  rw [String.ofList_toList] at hbytes
  apply hname.1
  rw [hbytes]
  exact List.mem_flatMap.mpr ⟨'/', hslash, by decide⟩

/-- **Which files are found.**  The sources of a directory do not depend on the order in which
its entries are listed, they come in strict byte order, and they are the names of the files
right inside the directory that are the name of a source. -/
theorem discover_exact (tree : Tree) (directory : Location) (wanted : List String)
    (hnames : ∀ child ∈ tree.children directory, IsFileName child.1)
    (listing : List (Name × Entry)) (hlisting : listing.Perm (tree.children directory)) :
    (discoverAmong wanted listing).1 = (tree.discover directory wanted).1 ∧
      ((discoverAmong wanted listing).1.Pairwise fun first second =>
        Text.byteLt first second = true) ∧
      ∀ name, name ∈ (discoverAmong wanted listing).1 ↔
        (∃ content, tree.get? (directory ++ [Text.bytes name]) = some (.file content)) ∧
          IsSourceName wanted name := by
  have hsame : (discoverAmong wanted listing).1 = (tree.discover directory wanted).1 :=
    discoverAmong_eq_of_perm hlisting
  refine ⟨hsame, ?_, fun name => ?_⟩
  · rw [hsame]
    exact pairwise_byteLt_discoverAmong (tree.nodup_children directory)
  · rw [hsame, Tree.discover, mem_discoverAmong_iff]
    simp only [Tree.mem_children_iff]
    refine and_congr_right fun hfile => ?_
    obtain ⟨content, hcontent⟩ := hfile
    have hname := hnames _ (Tree.mem_children_iff.mpr hcontent)
    refine hasSourceExtension_iff (slash_notMem_of_isFileName hname) ?_
    intro hup
    have hbytes : Text.bytes ".." = [0x2E, 0x2E] := by decide
    exact hname.2 ((congrArg Text.bytes hup).trans hbytes)

/-- A directory with two files that are sources, two whose names are none, and a directory
whose name would be one. -/
def shelf : Tree :=
  .directory (Text.bytes "lib")
    (.file (Text.bytes "z.old.c") [] <| .file (Text.bytes ".c") [] <|
      .file [0xFF, 0x2E, 0x63] [] <| .file (Text.bytes "a.") [] <|
      .directory (Text.bytes "odd.c") (.file (Text.bytes "inner.c") [] .empty) .empty) .empty

/-- What is found in `shelf` if a file without anything behind its last dot counts too, and
the entries are listed backwards. -/
theorem discover_exact_shelf :
    (∀ child ∈ shelf.children [Text.bytes "lib"], IsFileName child.1) ∧
      (shelf.children [Text.bytes "lib"]).reverse.Perm (shelf.children [Text.bytes "lib"]) ∧
      (discoverAmong [".c", ""] (shelf.children [Text.bytes "lib"]).reverse).1 =
        (shelf.discover [Text.bytes "lib"] [".c", ""]).1 ∧
      "z.old.c" ∈ (shelf.discover [Text.bytes "lib"] [".c", ""]).1 ∧
      "a." ∈ (shelf.discover [Text.bytes "lib"] [".c", ""]).1 ∧
      ".c" ∉ (shelf.discover [Text.bytes "lib"] [".c", ""]).1 ∧
      "odd.c" ∉ (shelf.discover [Text.bytes "lib"] [".c", ""]).1 ∧
      "inner.c" ∉ (shelf.discover [Text.bytes "lib"] [".c", ""]).1 := by
  have hnames : ∀ child ∈ shelf.children [Text.bytes "lib"], IsFileName child.1 := by decide
  have hlisting := List.reverse_perm (shelf.children [Text.bytes "lib"])
  obtain ⟨hsame, -, hfound⟩ := discover_exact shelf [Text.bytes "lib"] [".c", ""] hnames _ hlisting
  rw [hsame] at hfound
  refine ⟨hnames, hlisting, hsame, ?_, ?_, ?_, ?_, ?_⟩
  · refine (hfound _).mpr ⟨⟨[], by decide⟩, "z.old", "c", by decide⟩
  · refine (hfound _).mpr ⟨⟨[], by decide⟩, "a", "", by decide⟩
  · intro h
    have hextension := (hasSourceExtension_iff (by decide) (by decide)).mpr ((hfound _).mp h).2
    revert hextension
    decide
  · intro h
    obtain ⟨content, hcontent⟩ := ((hfound _).mp h).1
    have hdirectory : shelf.get? [Text.bytes "lib", Text.bytes "odd.c"] = some .directory := by
      decide
    cases hdirectory.symm.trans hcontent
  · intro h
    obtain ⟨content, hcontent⟩ := ((hfound _).mp h).1
    have hnone : shelf.get? [Text.bytes "lib", Text.bytes "inner.c"] = none := by decide
    cases hnone.symm.trans hcontent

end IncludeDeps
