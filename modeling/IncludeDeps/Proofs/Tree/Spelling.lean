import IncludeDeps.Tree.Lookup
import Mathlib.Data.List.Basic
import Mathlib.Data.List.DropRight
import Mathlib.Data.List.Infix

/-!
# How paths are spelled

A path is its pieces with slashes between them (`intercalate_pieces`), and no
piece holds a slash.  So what is spelled by pieces is taken apart into the same
pieces again (`pieces_spell`), which settles the two operations on paths that
the program uses beside following them:

* an extension, which holds no slash, goes to the last piece (`pieces_append`);
* the path of the parent is spelled by pieces that the path begins with
  (`names_of_parent?`); only for a file right below the top of the file system
  it is a slash, whose pieces say the same as the empty first piece alone.

Whether a path is admitted depends on its pieces, and a beginning of admitted
pieces is admitted (`admit_of_isPrefix`).
-/

namespace IncludeDeps.Path

/-! ## Pieces -/

theorem intercalate_pieces (path : String) :
    List.intercalate ['/'] (pieces path) = path.toList :=
  List.intercalate_splitOn '/'

theorem slash_notMem_of_mem_splitOn {text piece : List Char} (hpiece : piece ∈ text.splitOn '/') :
    '/' ∉ piece := by
  induction text generalizing piece with
  | nil => simp_all
  | cons first rest ih =>
      rw [List.splitOn_cons_eq_if_modifyHead] at hpiece
      split at hpiece
      · rcases List.mem_cons.mp hpiece with rfl | hrest
        · exact List.not_mem_nil
        · exact ih hrest
      · next hfirst =>
        -- a character other than the slash joins the first piece of the rest
        cases hsplit : rest.splitOn '/' with
        | nil => exact absurd hsplit (List.splitOn_ne_nil '/' rest)
        | cons head tail =>
            rw [hsplit] at ih hpiece
            rcases List.mem_cons.mp hpiece with rfl | htail
            · rw [List.mem_cons, not_or]
              refine ⟨fun hslash => hfirst ?_, ih List.mem_cons_self⟩
              simp [← hslash]
            · exact ih (List.mem_cons_of_mem head htail)

theorem names_ne_nil (path : String) : names path ≠ [] := by
  simp [names, pieces]

/-- What is spelled by pieces without slashes has these pieces. -/
theorem pieces_spell {spelled : List (List Char)} (hne : spelled ≠ [])
    (hslash : ∀ piece ∈ spelled, '/' ∉ piece) :
    pieces (String.ofList (List.intercalate ['/'] spelled)) = spelled := by
  rw [pieces, String.toList_ofList]
  exact List.splitOn_intercalate '/' hslash hne

theorem intercalate_concat_append {α : Type*} (separator last more : List α)
    (above : List (List α)) :
    List.intercalate separator (above ++ [last ++ more]) =
      List.intercalate separator (above ++ [last]) ++ more := by
  induction above with
  | nil => simp [List.intercalate_singleton]
  | cons first rest ih =>
      rw [List.cons_append, List.cons_append, List.intercalate_cons_of_ne_nil (by simp),
        List.intercalate_cons_of_ne_nil (by simp), ih, List.append_assoc _ _ more]

theorem intercalate_concat {α : Type*} (separator last : List α) {front : List (List α)}
    (hfront : front ≠ []) :
    List.intercalate separator (front ++ [last]) =
      List.intercalate separator front ++ separator ++ last := by
  induction front with
  | nil => exact absurd rfl hfront
  | cons first rest ih =>
      cases rest with
      | nil => simp [List.intercalate_cons_cons, List.intercalate_singleton]
      | cons second others =>
          have hrest : second :: others ≠ [] := List.cons_ne_nil second others
          rw [List.cons_append, List.intercalate_cons_of_ne_nil (by simp), ih hrest,
            List.intercalate_cons_of_ne_nil hrest]
          simp only [List.append_assoc]

/-- An extension goes to the last piece. -/
theorem pieces_append {path extension : String} {above : List (List Char)} {last : List Char}
    (hpieces : pieces path = above ++ [last]) (hextension : '/' ∉ extension.toList) :
    pieces (path ++ extension) = above ++ [last ++ extension.toList] := by
  have hslash : ∀ piece ∈ above ++ [last], '/' ∉ piece := fun piece hpiece =>
    slash_notMem_of_mem_splitOn (hpieces ▸ hpiece)
  have hspelled : path ++ extension =
      String.ofList (List.intercalate ['/'] (above ++ [last ++ extension.toList])) := by
    rw [intercalate_concat_append, ← hpieces, intercalate_pieces, ← String.toList_append,
      String.ofList_toList]
  rw [hspelled]
  refine pieces_spell (by simp) fun piece hpiece => ?_
  rcases List.mem_append.mp hpiece with habove | hlast
  · exact hslash piece (List.mem_append_left _ habove)
  · rw [List.mem_singleton.mp hlast, List.mem_append, not_or]
    exact ⟨hslash last (List.mem_append_right above (List.mem_singleton_self last)), hextension⟩

theorem names_append (path : String) {extension : String} (hextension : '/' ∉ extension.toList) :
    ∃ above last, names path = above ++ [last] ∧
      names (path ++ extension) = above ++ [last ++ Text.bytes extension] := by
  obtain ⟨above, last, hpieces⟩ :=
    (List.eq_nil_or_concat (pieces path)).resolve_left (List.splitOn_ne_nil '/' _)
  rw [List.concat_eq_append] at hpieces
  refine ⟨above.map fun piece => Text.bytes (String.ofList piece), Text.bytes (String.ofList last),
    ?_, ?_⟩
  · simp [names, hpieces]
  · simp [names, pieces_append hpieces hextension, Text.bytes]

/-! ## Joined paths -/

/-- A relative path goes on from another path: its pieces come after those of the
other, less the empty piece behind a slash at its end. -/
theorem exists_pieces_join {base path : String} (hrelative : isAbsolute path = false)
    (hbase : base ≠ "") : ∃ above, pieces (join base path) = above ++ pieces path ∧
      (pieces base = above ∨ pieces base = above ++ [[]]) := by
  have hempty : base.isEmpty = false := by simpa using hbase
  by_cases hslash : base.toList.getLast? = some '/'
  · have hjoin : join base path = base ++ path := by simp [join, hrelative, hslash]
    refine ⟨base.toList.dropLast.splitOn '/', ?_, Or.inr ?_⟩
    · rw [hjoin, pieces, String.toList_append, ← List.dropLast_append_getLast? '/' hslash,
        List.append_assoc, List.singleton_append, List.splitOn_append_cons_self,
        List.dropLast_concat]
      rfl
    · rw [pieces, ← List.dropLast_append_getLast? '/' hslash, List.splitOn_append_cons_self,
        List.dropLast_concat, List.splitOn_nil]
  · have hjoin : join base path = base ++ "/" ++ path := by
      simp [join, hrelative, hempty, hslash]
    refine ⟨pieces base, ?_, Or.inl rfl⟩
    rw [hjoin, pieces, String.toList_append, String.toList_append, List.append_assoc]
    exact List.splitOn_append_cons_self _ _

/-! ## Idle pieces -/

theorem staysPut_of_isIdle {piece : List Char} (hidle : isIdle piece = true) :
    Tree.staysPut (Text.bytes (String.ofList piece)) = true := by
  rcases Bool.or_eq_true_iff.mp hidle with hempty | hdot
  · rw [List.isEmpty_iff.mp hempty]
    decide
  · rw [eq_of_beq hdot]
    decide

/-- What is taken off the end of a list in two parts comes off the first part only
where nothing is left of the second. -/
theorem rdropWhile_append {α : Type*} (drops : α → Bool) (first second : List α) :
    (first ++ second).rdropWhile drops =
      if second.rdropWhile drops = [] then first.rdropWhile drops
      else first ++ second.rdropWhile drops := by
  simp only [List.rdropWhile, List.reverse_append, List.dropWhile_append, List.isEmpty_iff,
    List.reverse_eq_nil_iff]
  split
  · rfl
  · rw [List.reverse_append, List.reverse_reverse]

theorem trimIdle_append (first second : List (List Char)) :
    trimIdle (first ++ second) =
      if trimIdle second = [] then trimIdle first else first ++ trimIdle second :=
  rdropWhile_append isIdle first second

theorem trimIdle_cons {first : List Char} {rest : List (List Char)}
    (hleft : trimIdle (first :: rest) ≠ []) :
    trimIdle (first :: rest) = first :: trimIdle rest := by
  rw [← List.singleton_append, trimIdle_append] at hleft ⊢
  split
  · next hrest =>
    rw [if_pos hrest] at hleft
    have hone : trimIdle [first] = if isIdle first then [] else [first] :=
      List.rdropWhile_singleton isIdle first
    rw [hone] at hleft ⊢
    split at hleft
    · exact absurd rfl hleft
    · next hbusy => rw [if_neg hbusy, hrest]
  · rfl

theorem eq_dot_of_trimIdle {first : List Char} {rest : List (List Char)} (hfirst : first ≠ [])
    (hidle : trimIdle (first :: rest) = []) : first = ['.'] ∧ trimIdle rest = [] := by
  have hall : ∀ piece ∈ first :: rest, isIdle piece := List.rdropWhile_eq_nil_iff.mp hidle
  obtain ⟨hdot, hrest⟩ := List.forall_mem_cons.mp hall
  exact ⟨by simpa [isIdle, hfirst] using hdot, List.rdropWhile_eq_nil_iff.mpr hrest⟩

theorem trimIdle_isPrefix (spelled : List (List Char)) : trimIdle spelled <+: spelled := by
  unfold trimIdle
  conv_rhs => rw [← List.reverse_reverse spelled]
  exact List.reverse_prefix.mpr (List.dropWhile_suffix isIdle)

theorem dropLast_isPrefix {α : Type*} {part whole : List α} (hpart : part <+: whole) :
    part.dropLast <+: whole.dropLast := by
  obtain ⟨more, rfl⟩ := hpart
  by_cases hmore : more = []
  · rw [hmore, List.append_nil]
  · rw [List.dropLast_append_of_ne_nil hmore]
    exact (List.dropLast_prefix part).trans (List.prefix_append part _)

/-! ## Parents -/

theorem names_of_parent? {path parent : String} (hparent : parent? path = some parent)
    (hne : parent ≠ "") :
    (parent = "/" ∧ ∃ below, below ≠ [] ∧ names path = [] :: below) ∨
      names parent <+: (names path).dropLast := by
  unfold parent? at hparent
  split at hparent
  · cases hparent
  · next first rest hpieces =>
    dsimp only at hparent
    split at hparent
    · split at hparent
      · cases hparent
      · exact absurd (Option.some.inj hparent).symm hne
    · next hnamed =>
      have hrest : rest ≠ [] := by
        rintro rfl
        exact hnamed rfl
      split at hparent
      · next htop =>
        obtain ⟨hfirst, -⟩ := Bool.and_eq_true_iff.mp htop
        rw [List.isEmpty_iff] at hfirst
        refine Or.inl ⟨(Option.some.inj hparent).symm, rest.map fun piece =>
          Text.bytes (String.ofList piece), by simp [hrest], ?_⟩
        simp [names, hpieces, hfirst, Text.bytes]
      · have habove : first :: trimIdle (trimIdle rest).dropLast <+: (pieces path).dropLast := by
          rw [hpieces, List.dropLast_cons_of_ne_nil hrest, List.prefix_cons_inj]
          exact (trimIdle_isPrefix _).trans (dropLast_isPrefix (trimIdle_isPrefix rest))
        obtain rfl := Option.some.inj hparent
        refine Or.inr ?_
        rw [names, names, ← List.map_dropLast, pieces_spell (List.cons_ne_nil _ _)]
        · exact habove.map _
        · intro piece hpiece
          exact slash_notMem_of_mem_splitOn ((List.dropLast_subset _) (habove.subset hpiece))

theorem parent?_ne_self (path : String) : parent? path ≠ some path := by
  intro hself
  by_cases hne : path = ""
  · rw [hne] at hself
    cases hself
  · rcases names_of_parent? hself hne with ⟨rfl, -⟩ | hbeginning
    · cases hself
    · have hlength := hbeginning.length_le
      have hpieces := List.length_pos_iff.mpr (names_ne_nil path)
      rw [List.length_dropLast] at hlength
      omega

/-! ## Admission -/

theorem admit_eq_ok_iff {pieces : List Name} :
    Path.admit pieces = .ok () ↔
      (∀ piece ∈ pieces, 0 ∉ piece) ∧ (List.intercalate [0x2F] pieces).length ≤ longestPath := by
  unfold Path.admit isTooLong
  by_cases hnull : pieces.any (·.contains 0) = true
  · simp only [hnull, if_true, reduceCtorEq, false_iff, not_and]
    intro hall
    obtain ⟨piece, hpiece, hzero⟩ := List.any_eq_true.mp hnull
    exact absurd (List.contains_iff_mem.mp hzero) (hall piece hpiece)
  · have hall : ∀ piece ∈ pieces, 0 ∉ piece := by
      intro piece hpiece hzero
      exact hnull (List.any_eq_true.mpr ⟨piece, hpiece, List.contains_iff_mem.mpr hzero⟩)
    rw [if_neg hnull]
    by_cases hlong : longestPath < (List.intercalate [0x2F] pieces).length
    · simp [hlong]
    · simpa [hlong, Nat.le_of_not_lt hlong] using hall

theorem admit_ne_alreadyExists (pieces : List Name) :
    Path.admit pieces ≠ .error .alreadyExists := by
  unfold Path.admit
  repeat' split
  all_goals simp

theorem intercalate_isPrefix {α : Type*} {separator : List α} {part whole : List (List α)}
    (hpart : part <+: whole) :
    List.intercalate separator part <+: List.intercalate separator whole := by
  induction part generalizing whole with
  | nil => exact List.nil_prefix
  | cons first rest ih =>
      obtain ⟨more, rfl⟩ := hpart
      cases rest with
      | nil =>
          cases more with
          | nil => exact List.prefix_rfl
          | cons next further =>
              rw [List.singleton_append, List.intercalate_cons_cons, List.intercalate_singleton,
                List.append_assoc]
              exact List.prefix_append _ _
      | cons second others =>
          rw [List.cons_append, List.cons_append, List.intercalate_cons_cons,
            List.intercalate_cons_cons, List.prefix_append_right_inj]
          exact ih (List.prefix_append (second :: others) more)

/-- A beginning of relative pieces is relative. -/
theorem relative_of_isPrefix {part whole : List Name} (hwhole : whole.head? ≠ some [])
    (hpart : part <+: whole) : part.head? ≠ some [] := by
  obtain ⟨more, rfl⟩ := hpart
  intro hhead
  exact hwhole (by rw [List.head?_append, hhead, Option.some_or])

theorem admit_of_isPrefix {part whole : List Name} (hwhole : Path.admit whole = .ok ())
    (hpart : part <+: whole) : Path.admit part = .ok () := by
  rw [admit_eq_ok_iff] at hwhole ⊢
  obtain ⟨hnull, hlength⟩ := hwhole
  exact ⟨fun piece hpiece => hnull piece (hpart.subset hpiece),
    (intercalate_isPrefix hpart).length_le.trans hlength⟩

end IncludeDeps.Path
