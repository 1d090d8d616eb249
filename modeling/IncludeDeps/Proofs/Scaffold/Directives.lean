import IncludeDeps.Proofs.Directive.Grammar
import IncludeDeps.Proofs.Text.Encoding
import IncludeDeps.Scaffold.Basic
import IncludeDeps.SourceDirectory

/-!
# The directives of boilerplate

Boilerplate is rendered line by line, and a line of it holds a directive only if
it was meant to: what goes into the other lines are guards, which consist of
capitals, digits and underscores, and names after a word that is not the one of an
include directive.  So as long as no value breaks a line, none can make up a
directive or hide one (`IsSilent`).

The source of a module includes the module's header and nothing else
(`directivesOf_source`); a header that is not asked to include anything includes
nothing (`directivesOf_header`).
-/

namespace IncludeDeps.Scaffold

open Text

variable {options : ScaffoldOptions} {module name line : String} {lines : List String}

/-! ## Guards -/

/-- A character that may stand in a guard. -/
def IsGuardText (c : Char) : Prop :=
  c = '_' ∨ c.isUpper = true ∨ c.isDigit = true

theorem isUpper_iff {c : Char} : c.isUpper = true ↔ 'A'.val ≤ c.val ∧ c.val ≤ 'Z'.val :=
  decide_eq_true_iff

theorem isLower_iff {c : Char} : c.isLower = true ↔ 'a'.val ≤ c.val ∧ c.val ≤ 'z'.val := by
  rw [← decide_eq_true_iff (p := 'a'.val ≤ c.val), ← decide_eq_true_iff (p := c.val ≤ 'z'.val)]
  exact Bool.and_eq_true_iff

theorem isDigit_iff {c : Char} : c.isDigit = true ↔ '0'.val ≤ c.val ∧ c.val ≤ '9'.val := by
  rw [← decide_eq_true_iff (p := '0'.val ≤ c.val), ← decide_eq_true_iff (p := c.val ≤ '9'.val)]
  exact Bool.and_eq_true_iff

theorem isGuardCharacter_iff {c : Char} :
    isGuardCharacter c = true ↔ (c.isUpper = true ∨ c.isLower = true) ∨ c.isDigit = true := by
  rw [← Bool.or_eq_true, ← Bool.or_eq_true]
  rfl

theorem isUpper_or_isDigit_toUpper {c : Char} (hc : isGuardCharacter c = true) :
    c.toUpper.isUpper = true ∨ c.toUpper.isDigit = true := by
  unfold Char.toUpper
  split
  · next hlower =>
    left
    rw [isUpper_iff]
    simp only [UInt32.le_iff_toNat_le, UInt32.toNat_add, UInt32.reduceToNat, Char.reduceVal,
      UInt32.reduceSub, Nat.reducePow] at hlower ⊢
    omega
  · next hother =>
    rw [isGuardCharacter_iff, isLower_iff] at hc
    simpa only [hother, or_false] using hc

/-- A capital or a digit is its own capital. -/
theorem toUpper_of_isUpper_or_isDigit {c : Char} (hc : c.isUpper = true ∨ c.isDigit = true) :
    c.toUpper = c := by
  rw [isUpper_iff, isDigit_iff] at hc
  unfold Char.toUpper
  split
  · next hlower =>
    simp only [UInt32.le_iff_toNat_le, UInt32.reduceToNat, Char.reduceVal] at hc hlower
    omega
  · rfl

theorem isGuardText_of_mem_guardFrom {inGap : Bool} {text : List Char} {c : Char}
    (hmem : c ∈ guardFrom inGap text) : IsGuardText c := by
  induction text generalizing inGap with
  | nil => cases hmem
  | cons first rest ih =>
      rw [guardFrom] at hmem
      split at hmem
      · next hfirst =>
        rcases List.mem_cons.mp hmem with rfl | hrest
        · exact Or.inr (isUpper_or_isDigit_toUpper hfirst)
        · exact ih hrest
      · split at hmem
        · exact ih hmem
        · rcases List.mem_cons.mp hmem with rfl | hrest
          · exact Or.inl rfl
          · exact ih hrest

theorem isGuardText_of_mem_guardName {c : Char} (hmem : c ∈ (guardName name).toList) :
    IsGuardText c :=
  isGuardText_of_mem_guardFrom (by rwa [guardName, String.toList_ofList] at hmem)

/-- Whatever the tag and the name, a guard consists of capitals, digits and
underscores. -/
theorem isGuardText_of_mem_guard {c : Char} (hmem : c ∈ (guard options name).toList) :
    IsGuardText c := by
  have hunderscores : ∀ c ∈ "__".toList, IsGuardText c := by
    intro c hc
    exact Or.inl (by simpa using hc)
  unfold guard at hmem
  split at hmem
  · rw [String.toList_append, List.mem_append] at hmem
    exact hmem.elim (hunderscores c) isGuardText_of_mem_guardName
  · next tag htag =>
    obtain ⟨given, -, rfl⟩ := Option.map_eq_some_iff.mp (Option.filter_eq_some_iff.mp htag).1
    simp only [String.toList_append, List.mem_append] at hmem
    rcases hmem with ((hc | hc) | hc) | hc
    · exact hunderscores c hc
    · exact isGuardText_of_mem_guardName hc
    · exact hunderscores c hc
    · exact isGuardText_of_mem_guardName hc

theorem feed_notMem_guard : '\n' ∉ (guard options name).toList := by
  intro hmem
  simpa [IsGuardText] using isGuardText_of_mem_guard hmem

/-! ## Lines without directives -/

/-- A line that is not broken and holds no directive. -/
@[mk_iff] structure IsSilent (line : String) : Prop where
  whole : '\n' ∉ line.toList
  none : Directive.ofLine? line.toList = none

instance (line : String) : Decidable (IsSilent line) :=
  decidable_of_iff' _ (isSilent_iff line)

/-- What begins unlike a directive may go on with anything that does not break the
line. -/
theorem isSilent_append {beginning rest : String}
    (hbeginning : ∀ more, Directive.ofLine? (beginning.toList ++ more) = none)
    (hwhole : '\n' ∉ beginning.toList) (hrest : '\n' ∉ rest.toList) :
    IsSilent (beginning ++ rest) where
  whole := by simp [hwhole, hrest]
  none := by rw [String.toList_append, hbeginning]

theorem isSilent_of_mem_linkage (hline : line ∈ linkage) : IsSilent line := by
  revert line
  decide

/-- The line of a directive that is written without further blanks. -/
theorem spells_include {form : Form} {target : List Char} (hne : target ≠ [])
    (hclosing : form.closing ∉ target)
    (hline : line.toList = "#include ".toList ++ form.opening :: (target ++ [form.closing])) :
    Directive.Spells line.toList form target := by
  refine ⟨[], [], [' '], [], by simp [IsBlanks], by simp [IsBlanks],
    by simpa [IsBlanks] using (by decide : isBlank ' ' = true), hne, hclosing, ?_⟩
  rw [hline]
  rfl

/-! ## Texts of lines -/

theorem lines_textOf (hwhole : ∀ line ∈ lines, '\n' ∉ line.toList) :
    Text.lines (textOf lines).toList = lines.map fun line => dropReturn line.toList := by
  have htext : (textOf lines).toList = (lines.map String.toList).flatMap (· ++ ['\n']) := by
    simp [textOf, String.toList_join, List.flatMap_map]
  rw [htext, lines_flatMap (by simpa using hwhole), List.map_map]
  rfl

theorem directivesOf_textOf (hwhole : ∀ line ∈ lines, '\n' ∉ line.toList) :
    directivesOf (Text.bytes (textOf lines)) =
      Directive.ofLines 1 (lines.map fun line => dropReturn line.toList) := by
  rw [directivesOf, decode_bytes, Directive.extract, lines_textOf hwhole]

theorem ofLines_silent {number : ℕ} (hsilent : ∀ line ∈ lines, IsSilent line) :
    Directive.ofLines number (lines.map fun line => dropReturn line.toList) = [] := by
  refine Directive.ofLines_eq_nil fun text htext => ?_
  obtain ⟨line, hline, rfl⟩ := List.mem_map.mp htext
  rw [Directive.ofLine?_dropReturn, (hsilent line hline).none]

theorem directivesOf_silent (hsilent : ∀ line ∈ lines, IsSilent line) :
    directivesOf (Text.bytes (textOf lines)) = [] := by
  rw [directivesOf_textOf fun line hline => (hsilent line hline).whole, ofLines_silent hsilent]

/-- Among lines that hold no directive, the one of a line that spells it is all there
is. -/
theorem directivesOf_spells {above below : List String} {form : Form} {target : List Char}
    (habove : ∀ line ∈ above, IsSilent line) (hbelow : ∀ line ∈ below, IsSilent line)
    (hwhole : '\n' ∉ line.toList) (hreturn : line.toList.getLast? ≠ some '\r')
    (hspells : Directive.Spells line.toList form target) :
    directivesOf (Text.bytes (textOf (above ++ line :: below))) =
      [⟨String.ofList target, form, above.length + 1⟩] := by
  have hlines : ∀ other ∈ above ++ line :: below, '\n' ∉ other.toList := by
    intro other hother
    rcases List.mem_append.mp hother with hother | hother
    · exact (habove other hother).whole
    · rcases List.mem_cons.mp hother with rfl | hother
      · exact hwhole
      · exact (hbelow other hother).whole
  rw [directivesOf_textOf hlines, List.map_append, Directive.ofLines_append,
    ofLines_silent habove, List.nil_append, List.length_map, List.map_cons, Directive.ofLines,
    dropReturn_of_ne hreturn, Directive.ofLine?_eq_some_iff.mpr hspells]
  dsimp only
  rw [ofLines_silent hbelow, Nat.add_comm]

/-! ## Boilerplate -/

/-- The one directive of a source names the module's header, if the module's path
can be quoted. -/
theorem directivesOf_source (hquote : '"' ∉ module.toList) (hfeed : '\n' ∉ module.toList) :
    directivesOf (Text.bytes (textOf (sourceLines options module name))) =
      [⟨module ++ ".h", .quoted, 3⟩] := by
  have habove : ∀ line ∈ ["#define " ++ sourceGuard options name, ""], IsSilent line := by
    simp only [List.forall_mem_cons, List.not_mem_nil, false_imp_iff, implies_true, and_true]
    refine ⟨isSilent_append (fun _ => rfl) (by decide) ?_, by decide, rfl⟩
    simp [sourceGuard, feed_notMem_guard]
  have hbelow : ∀ line ∈ "" :: linkage, IsSilent line := by
    intro line hline
    rcases List.mem_cons.mp hline with rfl | hline
    · decide
    · exact isSilent_of_mem_linkage hline
  have hspells : Directive.Spells ("#include \"" ++ module ++ ".h\"").toList .quoted
      (module ++ ".h").toList :=
    spells_include (by simp) (by simpa [Form.closing] using hquote)
      (by simp [Form.opening, Form.closing])
  have hreturn : ("#include \"" ++ module ++ ".h\"").toList.getLast? ≠ some '\r' := by
    have hclosing : ".h\"".toList.getLast? = some '"' := rfl
    rw [String.toList_append, List.getLast?_append, hclosing, Option.some_or]
    decide
  have hsource := directivesOf_spells habove hbelow (by simp [hfeed]) hreturn hspells
  rwa [String.ofList_toList] at hsource

theorem isSilent_of_mem_inlineLines {guarding : String} (hguarding : '\n' ∉ guarding.toList)
    (hinline : ∀ macroName, options.inlineMacro = some macroName → '\n' ∉ macroName.toList)
    (hline : line ∈ inlineLines options guarding) : IsSilent line := by
  unfold inlineLines at hline
  split at hline
  · cases hline
  · next macroName hgiven =>
    have hinline := hinline macroName (Option.filter_eq_some_iff.mp hgiven).1
    revert line
    simp only [List.forall_mem_cons, List.not_mem_nil, false_imp_iff, implies_true, and_true,
      String.append_assoc]
    refine ⟨by decide, by decide, isSilent_append (fun _ => rfl) (by decide) hguarding,
      isSilent_append (fun _ => rfl) (by decide) hinline, by decide,
      isSilent_append (fun _ => rfl) (by decide) (by simp [hinline]),
      isSilent_append (fun _ => rfl) (by decide) (by simp [hguarding]), by decide⟩

/-- A header includes nothing unless it is asked to. -/
theorem directivesOf_header (hconfig : given options.configHeader = none)
    (hend : given options.inlineEnd = none)
    (hinline : ∀ macroName, options.inlineMacro = some macroName → '\n' ∉ macroName.toList) :
    directivesOf (Text.bytes (textOf (headerLines options name))) = [] := by
  have hguard : '\n' ∉ (headerGuard options name).toList := by
    simp [headerGuard, feed_notMem_guard]
  have hsource : '\n' ∉ (sourceGuard options name).toList := by
    simp [sourceGuard, feed_notMem_guard]
  have hends : inlineEndLines options = [] := by
    simp [inlineEndLines, hend]
  refine directivesOf_silent fun line hline => ?_
  simp only [headerLines, configLines, hconfig, hends, List.append_nil, List.mem_append,
    List.mem_cons, List.not_mem_nil, or_false, String.append_assoc] at hline
  rcases hline with (((rfl | rfl) | hline) | rfl | hline) | rfl | rfl
  · exact isSilent_append (fun _ => rfl) (by decide) hguard
  · exact isSilent_append (fun _ => rfl) (by decide) (by simp [hguard])
  · exact isSilent_of_mem_inlineLines hsource hinline hline
  · decide
  · exact isSilent_of_mem_linkage hline
  · decide
  · exact isSilent_append (fun _ => rfl) (by decide) (by simp [hguard])

end IncludeDeps.Scaffold
