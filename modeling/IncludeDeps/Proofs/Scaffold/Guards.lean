import IncludeDeps.Proofs.Scaffold.Inclusion
import Mathlib.Data.List.Destutter

/-!
# The names of guards

The guard of a module comes from its name: letters become capitals, and each run of other
characters becomes one underscore.  `toList_guardName` says so without a state: put a
capital or an underscore for each character, then drop every underscore behind another.

Reading a text character by character, all there is to know of what was read is whether a
run of other characters is open behind it (`gapAfter`).  A guard name leaves a run open
exactly where its text does (`gapAfter_guardFrom`) and is its own guard name
(`guardFrom_guardFrom`); so in a text each part may be replaced by its guard name, wherever
the text is cut (`guardName_append`).

A guard is made of the tag of the project, which the options decide, the guard name and an
ending.  `leadingName` reads it back from the first line of a rendered text.
-/

namespace IncludeDeps.Scaffold

variable {options : ScaffoldOptions} {module name : String}

/-! ## Letters and gaps -/

/-- The character of a guard that stands for a character of a name. -/
def guardLetter (c : Char) : Char :=
  if isGuardCharacter c then c.toUpper else '_'

/-- Two characters that may stand next to each other in the guard name of a text. -/
def Apart (first second : Char) : Prop :=
  first ≠ '_' ∨ second ≠ '_'

instance : DecidableRel Apart :=
  fun _ _ => inferInstanceAs (Decidable (_ ∨ _))

/-- Whether a run of other characters is open behind a text, if it is told whether one is
open before it. -/
def gapAfter : Bool → List Char → Bool
  | inGap, [] => inGap
  | _, c :: rest => gapAfter (!isGuardCharacter c) rest

theorem isGuardCharacter_toUpper {c : Char} (hc : isGuardCharacter c = true) :
    isGuardCharacter c.toUpper = true := by
  rw [isGuardCharacter_iff]
  exact (isUpper_or_isDigit_toUpper hc).imp_left Or.inl

theorem toUpper_ne_underscore {c : Char} (hc : isGuardCharacter c = true) : c.toUpper ≠ '_' := by
  intro hsame
  have hletter := isGuardCharacter_toUpper hc
  rw [hsame] at hletter
  exact absurd hletter (by decide)

theorem guardFrom_cons_letter {c : Char} (hc : isGuardCharacter c = true) (inGap : Bool)
    (rest : List Char) : guardFrom inGap (c :: rest) = c.toUpper :: guardFrom false rest := by
  rw [guardFrom, if_pos hc]

theorem guardFrom_cons_gap {c : Char} (hc : ¬ isGuardCharacter c = true) (rest : List Char) :
    guardFrom false (c :: rest) = '_' :: guardFrom true rest := by
  rw [guardFrom, if_neg hc]
  rfl

theorem guardFrom_cons_more {c : Char} (hc : ¬ isGuardCharacter c = true) (rest : List Char) :
    guardFrom true (c :: rest) = guardFrom true rest := by
  rw [guardFrom, if_neg hc, if_pos rfl]

/-! ## What a guard name is -/

theorem destutter'_guardLetter (c : Char) (text : List Char) :
    (text.map guardLetter).destutter' Apart c = c :: guardFrom (c == '_') text := by
  induction text generalizing c with
  | nil => rfl
  | cons next rest ih =>
      rw [List.map_cons, guardLetter]
      by_cases hnext : isGuardCharacter next = true
      · have hapart : Apart c next.toUpper := Or.inr (toUpper_ne_underscore hnext)
        rw [if_pos hnext, guardFrom_cons_letter hnext, List.destutter'_cons_pos _ hapart, ih,
          beq_false_of_ne (toUpper_ne_underscore hnext)]
      · rw [if_neg hnext]
        by_cases hc : c = '_'
        · have htogether : ¬ Apart c '_' := by simp [Apart, hc]
          rw [List.destutter'_cons_neg _ htogether, ih, hc, beq_self_eq_true,
            guardFrom_cons_more hnext]
        · have hapart : Apart c '_' := Or.inl hc
          rw [List.destutter'_cons_pos _ hapart, ih, beq_self_eq_true, beq_false_of_ne hc,
            guardFrom_cons_gap hnext]

/-- Capitals and underscores, and no underscore behind another. -/
theorem toList_guardName (name : String) :
    (guardName name).toList = (name.toList.map guardLetter).destutter Apart := by
  rw [guardName, String.toList_ofList]
  cases name.toList with
  | nil => rfl
  | cons c rest =>
      rw [List.map_cons, List.destutter_cons', destutter'_guardLetter, guardLetter]
      by_cases hc : isGuardCharacter c = true
      · rw [if_pos hc, guardFrom_cons_letter hc, beq_false_of_ne (toUpper_ne_underscore hc)]
      · rw [if_neg hc, guardFrom_cons_gap hc, beq_self_eq_true]

example : guardName "thread--storage.v2" = "THREAD_STORAGE_V2" := by
  decide

theorem not_underscores_infix_guardName (name : String) :
    ¬ ['_', '_'] <:+: (guardName name).toList := by
  intro hinfix
  have hchain : (guardName name).toList.IsChain Apart := by
    rw [toList_guardName]
    exact List.isChain_destutter Apart _
  have hpair : ['_', '_'].IsChain Apart := List.IsChain.infix hchain hinfix
  have hapart : Apart '_' '_' := List.isChain_pair.mp hpair
  exact absurd hapart (by decide)

/-! ## Guard names of guard names -/

theorem guardFrom_append (inGap : Bool) (first second : List Char) :
    guardFrom inGap (first ++ second) =
      guardFrom inGap first ++ guardFrom (gapAfter inGap first) second := by
  induction first generalizing inGap with
  | nil => rfl
  | cons c rest ih =>
      rw [List.cons_append, guardFrom, guardFrom, gapAfter]
      cases isGuardCharacter c <;> cases inGap <;> simp [ih]

section

variable {outer inner : Bool}

/-- Reading the guard name of a text comes to the same as reading the text, as long as the
guard name has not been spared an underscore that is still to be written. -/
theorem guardFrom_guardFrom (hopen : inner = true → outer = true) (text : List Char) :
    guardFrom outer (guardFrom inner text) = guardFrom outer text := by
  induction text generalizing outer inner with
  | nil => rfl
  | cons c rest ih =>
      by_cases hc : isGuardCharacter c = true
      · rw [guardFrom_cons_letter hc, guardFrom_cons_letter (isGuardCharacter_toUpper hc),
          guardFrom_cons_letter hc,
          toUpper_of_isUpper_or_isDigit (isUpper_or_isDigit_toUpper hc), ih id]
      · have hunderscore : ¬ isGuardCharacter '_' = true := by decide
        cases inner with
        | false =>
            rw [guardFrom_cons_gap hc]
            cases outer with
            | false => rw [guardFrom_cons_gap hunderscore, guardFrom_cons_gap hc, ih id]
            | true => rw [guardFrom_cons_more hunderscore, guardFrom_cons_more hc, ih id]
        | true =>
            obtain rfl : outer = true := hopen rfl
            rw [guardFrom_cons_more hc, ih id]

/-- A guard name leaves a run open where its text does. -/
theorem gapAfter_guardFrom (hopen : inner = true → outer = true) (text : List Char) :
    gapAfter outer (guardFrom inner text) = gapAfter outer text := by
  induction text generalizing outer inner with
  | nil => rfl
  | cons c rest ih =>
      by_cases hc : isGuardCharacter c = true
      · rw [guardFrom_cons_letter hc, gapAfter, gapAfter, isGuardCharacter_toUpper hc, hc]
        exact ih id
      · have hgap : (!isGuardCharacter c) = true := by simpa using hc
        cases inner with
        | false =>
            rw [guardFrom_cons_gap hc, gapAfter, gapAfter, hgap]
            exact ih id
        | true =>
            rw [guardFrom_cons_more hc, gapAfter, hgap, hopen rfl]
            exact ih id

end

theorem guardName_guardName (name : String) : guardName (guardName name) = guardName name := by
  rw [guardName, guardName, String.toList_ofList, guardFrom_guardFrom id]

/-- The guard name of a text is that of its parts, wherever it is cut. -/
theorem guardName_append (first second : String) :
    guardName (first ++ second) = guardName (guardName first ++ guardName second) := by
  have hparts : guardFrom false (first.toList ++ second.toList) =
      guardFrom false (guardFrom false first.toList ++ guardFrom false second.toList) := by
    calc guardFrom false (first.toList ++ second.toList)
        = guardFrom false first.toList ++
            guardFrom (gapAfter false first.toList) second.toList := guardFrom_append ..
      _ = guardFrom false (guardFrom false first.toList) ++
            guardFrom (gapAfter false (guardFrom false first.toList))
              (guardFrom false second.toList) := by
          rw [guardFrom_guardFrom id, gapAfter_guardFrom id, guardFrom_guardFrom (by simp)]
      _ = guardFrom false (guardFrom false first.toList ++ guardFrom false second.toList) :=
          (guardFrom_append ..).symm
  rw [guardName, String.toList_append, hparts]
  simp only [guardName, String.toList_append, String.toList_ofList]

/-! ## Guards -/

/-- An identifier in capitals: capitals, digits and underscores, and no digit at the
beginning. -/
structure IsMacroName (text : String) : Prop where
  begins : ∃ first rest, text.toList = first :: rest ∧ first.isDigit = false
  plain : ∀ c ∈ text.toList, IsGuardText c

/-- A guard is a tag, which the options alone decide, and the guard name. -/
theorem guard_eq (options : ScaffoldOptions) (name : String) :
    guard options name = guard options "" ++ guardName name := by
  have hempty : guardName "" = "" := rfl
  unfold guard
  split <;> simp [hempty]

theorem exists_guard_eq (options : ScaffoldOptions) (name : String) :
    ∃ rest, (guard options name).toList = '_' :: '_' :: rest := by
  unfold guard
  split <;> simp

theorem isMacroName_guard (options : ScaffoldOptions) (name : String) {ending : String}
    (hending : ∀ c ∈ ending.toList, IsGuardText c) : IsMacroName (guard options name ++ ending) where
  begins := by
    obtain ⟨rest, hguard⟩ := exists_guard_eq options name
    exact ⟨'_', '_' :: rest ++ ending.toList, by simp [hguard], by decide⟩
  plain := by
    rw [String.toList_append, List.forall_mem_append]
    exact ⟨fun c => isGuardText_of_mem_guard, hending⟩

theorem isMacroName_headerGuard (options : ScaffoldOptions) (name : String) :
    IsMacroName (headerGuard options name) :=
  isMacroName_guard options name (by simp [IsGuardText])

theorem isMacroName_sourceGuard (options : ScaffoldOptions) (name : String) :
    IsMacroName (sourceGuard options name) :=
  isMacroName_guard options name (by simp [IsGuardText])

/-- Headers and sources are told apart by the endings of their guards. -/
theorem headerGuard_ne_sourceGuard (options other : ScaffoldOptions) (name otherName : String) :
    headerGuard options name ≠ sourceGuard other otherName := by
  intro hsame
  rw [headerGuard, sourceGuard, ← String.toList_inj, String.toList_append, String.toList_append]
    at hsame
  have hlength : "_H__".toList.length = "_C__".toList.length := by simp
  obtain ⟨-, hending⟩ := List.append_inj' hsame hlength
  exact absurd hending (by simp)

theorem headerGuard_eq_iff {otherName : String} :
    headerGuard options name = headerGuard options otherName ↔
      guardName name = guardName otherName := by
  rw [headerGuard, headerGuard, String.append_left_inj, guard_eq options name,
    guard_eq options otherName, String.append_right_inj]

/-! ## Guards in rendered texts -/

/-- The name on the first line of a text, behind the word that the line begins with. -/
def leadingName (text : String) : String :=
  String.ofList ((text.toList.takeWhile (· ≠ '\n')).dropWhile (· ≠ ' ')).tail

theorem toList_textOf_cons (line : String) (lines : List String) :
    (textOf (line :: lines)).toList = line.toList ++ '\n' :: (textOf lines).toList := by
  simp [textOf, String.toList_join]

theorem leadingName_textOf {word : String} {lines : List String} {front : List Char}
    (hword : word.toList = front ++ [' ']) (hblank : ' ' ∉ front) (hfeed : '\n' ∉ front)
    (hname : '\n' ∉ name.toList) : leadingName (textOf ((word ++ name) :: lines)) = name := by
  have hline : ∀ c ∈ (word ++ name).toList, decide (c ≠ '\n') = true := by
    intro c hc
    have hwhole : '\n' ∉ (word ++ name).toList := by simp [hword, hfeed, hname]
    exact decide_eq_true (ne_of_mem_of_not_mem hc hwhole)
  have hfront : ∀ c ∈ front, decide (c ≠ ' ') = true := by
    intro c hc
    exact decide_eq_true (ne_of_mem_of_not_mem hc hblank)
  rw [leadingName, toList_textOf_cons, List.takeWhile_append_of_pos hline,
    List.takeWhile_cons_of_neg (by decide), List.append_nil, String.toList_append, hword,
    List.append_assoc, List.dropWhile_append_of_pos hfront, List.singleton_append,
    List.dropWhile_cons_of_neg (by decide), List.tail_cons, String.ofList_toList]

theorem leadingName_header (options : ScaffoldOptions) (name : String) :
    leadingName (textOf (headerLines options name)) = headerGuard options name := by
  have hword : "#ifndef ".toList = "#ifndef".toList ++ [' '] := rfl
  exact leadingName_textOf hword (by decide) (by decide) (by simp [headerGuard, feed_notMem_guard])

theorem leadingName_source (options : ScaffoldOptions) (module name : String) :
    leadingName (textOf (sourceLines options module name)) = sourceGuard options name := by
  have hword : "#define ".toList = "#define".toList ++ [' '] := rfl
  exact leadingName_textOf hword (by decide) (by decide) (by simp [sourceGuard, feed_notMem_guard])

/-- Two texts with guards: the header tests and defines a macro, the source defines one. -/
structure IsGuarded (pair : Pair) : Prop where
  header : ∃ below, pair.header = textOf (("#ifndef " ++ leadingName pair.header) ::
    ("#define " ++ leadingName pair.header ++ " 1") :: below)
  source : ∃ below, pair.source = textOf (("#define " ++ leadingName pair.source) :: below)
  headerName : IsMacroName (leadingName pair.header)
  sourceName : IsMacroName (leadingName pair.source)

theorem isGuarded_of_render {pair : Pair} (hrender : render options module = .ok pair) :
    IsGuarded pair := by
  obtain ⟨name, -, rfl⟩ := render_eq_ok_iff.mp hrender
  refine ⟨?_, ?_, ?_, ?_⟩ <;> dsimp only
  · rw [leadingName_header]
    exact ⟨_, rfl⟩
  · rw [leadingName_source]
    exact ⟨_, rfl⟩
  · rw [leadingName_header]
    exact isMacroName_headerGuard options name
  · rw [leadingName_source]
    exact isMacroName_sourceGuard options name

/-! ## Main result -/

/-- **Guards tell apart what their names tell apart.**  The guard name of a text has one
form: capitals, digits and underscores, none of them behind another, which is its own guard
name and made of the guard names of the parts of the text.  Whatever the options, the guards
of a module are macro names, and no header has the guard of a source.  Under the same options
two headers share their guard exactly if the names of their modules have one guard name. -/
theorem guards_canonical :
    (∀ name, (∀ c ∈ (guardName name).toList, IsGuardText c) ∧
      ¬ ['_', '_'] <:+: (guardName name).toList ∧
      (guardName name).toList = (name.toList.map guardLetter).destutter Apart ∧
      guardName (guardName name) = guardName name) ∧
    (∀ first second, guardName (first ++ second) = guardName (guardName first ++ guardName second)) ∧
    (∀ options module pair, render options module = .ok pair → IsGuarded pair) ∧
    (∀ options other module otherModule pair otherPair,
      render options module = .ok pair → render other otherModule = .ok otherPair →
        leadingName pair.header ≠ leadingName otherPair.source) ∧
    ∀ options module otherModule pair otherPair, render options module = .ok pair →
      render options otherModule = .ok otherPair →
        ∃ name otherName, Path.fileName? module = some name ∧
          Path.fileName? otherModule = some otherName ∧
          (leadingName pair.header = leadingName otherPair.header ↔
            guardName name = guardName otherName) := by
  refine ⟨fun name => ?_, guardName_append, fun _ _ _ => isGuarded_of_render, ?_, ?_⟩
  · exact ⟨fun c => isGuardText_of_mem_guardName, not_underscores_infix_guardName name,
      toList_guardName name, guardName_guardName name⟩
  · intro options other module otherModule pair otherPair hrender hother
    obtain ⟨name, -, rfl⟩ := render_eq_ok_iff.mp hrender
    obtain ⟨otherName, -, rfl⟩ := render_eq_ok_iff.mp hother
    rw [leadingName_header, leadingName_source]
    exact headerGuard_ne_sourceGuard options other name otherName
  · intro options module otherModule pair otherPair hrender hother
    obtain ⟨name, hname, rfl⟩ := render_eq_ok_iff.mp hrender
    obtain ⟨otherName, hotherName, rfl⟩ := render_eq_ok_iff.mp hother
    refine ⟨name, otherName, hname, hotherName, ?_⟩
    rw [leadingName_header, leadingName_header]
    exact headerGuard_eq_iff

/-- A tag without any letter, which still makes a run. -/
def dashed : ScaffoldOptions :=
  { guardPrefix := some "--" }

/-- Two modules whose names have one guard name share a guard. -/
theorem guards_canonical_dashed :
    ∃ pair other, render dashed "sys/vec-3" = .ok pair ∧ render dashed "Vec.§3" = .ok other ∧
      IsGuarded pair ∧ leadingName pair.header ≠ leadingName other.source ∧
      leadingName pair.header = leadingName other.header ∧
      guardName ("sys/" ++ "vec-3") = guardName (guardName "sys/" ++ guardName "vec-3") := by
  have hrender : render dashed "sys/vec-3" = .ok
      ⟨textOf (sourceLines dashed "sys/vec-3" "vec-3"), textOf (headerLines dashed "vec-3")⟩ :=
    render_eq_ok_iff.mpr ⟨"vec-3", by decide, rfl⟩
  have hother : render dashed "Vec.§3" = .ok
      ⟨textOf (sourceLines dashed "Vec.§3" "Vec.§3"), textOf (headerLines dashed "Vec.§3")⟩ :=
    render_eq_ok_iff.mpr ⟨"Vec.§3", by decide, rfl⟩
  obtain ⟨-, happend, hguarded, hapart, hshared⟩ := guards_canonical
  obtain ⟨name, otherName, hname, hotherName, hiff⟩ :=
    hshared dashed "sys/vec-3" "Vec.§3" _ _ hrender hother
  obtain rfl : name = "vec-3" := Option.some.inj (hname.symm.trans (by decide))
  obtain rfl : otherName = "Vec.§3" := Option.some.inj (hotherName.symm.trans (by decide))
  exact ⟨_, _, hrender, hother, hguarded _ _ _ hrender, hapart _ _ _ _ _ _ hrender hother,
    hiff.mpr (by decide), happend "sys/" "vec-3"⟩

end IncludeDeps.Scaffold
