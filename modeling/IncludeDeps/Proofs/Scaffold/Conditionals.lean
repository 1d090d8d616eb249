import IncludeDeps.Proofs.Scaffold.Inclusion

/-!
# The conditionals of boilerplate

A line that begins with `#ifdef`, `#ifndef`, `#else` or `#endif` is part of a
conditional.  `Nests` says by rules that the conditionals of a text are complete and
lie inside or beside one another.

A header is put together from blocks of lines, three of which may be missing.  In each of
them the conditionals nest on their own, whatever the guards and the options are, as long
as no option breaks a line; so they nest in every header, and the include guard goes around
all the rest (`lines_header`).  Likewise each block includes what it was asked to include
and nothing else, and so does the header (`isBlock_headerLines`).
-/

namespace IncludeDeps

open Text

namespace ScaffoldOptions

/-- No option breaks a line, and the headers can stand in angle brackets. -/
structure KeepsLines (options : ScaffoldOptions) : Prop where
  configHeader : ∀ header, options.configHeader = some header →
    '\n' ∉ header.toList ∧ '>' ∉ header.toList
  inlineMacro : ∀ macroName, options.inlineMacro = some macroName → '\n' ∉ macroName.toList
  inlineEnd : ∀ header, options.inlineEnd = some header →
    '\n' ∉ header.toList ∧ '>' ∉ header.toList

/-- The headers that a new header is to include, in order: one at the end needs a macro that it
undefines. -/
def headers (options : ScaffoldOptions) : List String :=
  (Scaffold.given options.configHeader).toList ++
    if (Scaffold.given options.inlineMacro).isSome then (Scaffold.given options.inlineEnd).toList
    else []

/-- The options without those that are empty. -/
def withoutEmpty (options : ScaffoldOptions) : ScaffoldOptions where
  guardPrefix := Scaffold.given options.guardPrefix
  configHeader := Scaffold.given options.configHeader
  inlineMacro := Scaffold.given options.inlineMacro
  inlineEnd := Scaffold.given options.inlineEnd

end ScaffoldOptions

namespace Scaffold

/-! ## Conditionals -/

/-- The parts of a conditional. -/
inductive Conditional where
  /-- The beginning. -/
  | opening
  /-- What divides it. -/
  | alternative
  /-- The end. -/
  | closing
  deriving DecidableEq, Repr

/-- The part of a conditional that a line is, by the word that it begins with. -/
def Conditional.ofLine? (line : List Char) : Option Conditional :=
  if "#ifdef".toList.isPrefixOf line || "#ifndef".toList.isPrefixOf line then some .opening
  else if "#else".toList.isPrefixOf line then some .alternative
  else if "#endif".toList.isPrefixOf line then some .closing
  else none

/-- Lines in which every conditional is complete.  Each beginning has an end of its own with
at most one part between them that divides it, and what stands in between is complete as
well. -/
inductive Nests : List (Option Conditional) → Prop
  /-- No lines. -/
  | nil : Nests []
  /-- A line that is no part of a conditional. -/
  | plain {rest : List (Option Conditional)} (hrest : Nests rest) : Nests (none :: rest)
  /-- A conditional that is not divided. -/
  | whole {body rest : List (Option Conditional)} (hbody : Nests body) (hrest : Nests rest) :
      Nests (some .opening :: (body ++ some .closing :: rest))
  /-- A conditional that is divided. -/
  | divided {first second rest : List (Option Conditional)} (hfirst : Nests first)
      (hsecond : Nests second) (hrest : Nests rest) :
      Nests (some .opening :: (first ++ some .alternative :: (second ++ some .closing :: rest)))

theorem Nests.append {above below : List (Option Conditional)} (habove : Nests above)
    (hbelow : Nests below) : Nests (above ++ below) := by
  induction habove with
  | nil => exact hbelow
  | plain _ ih => exact ih.plain
  | whole hbody _ _ ih =>
      rw [List.cons_append, List.append_assoc, List.cons_append]
      exact hbody.whole ih
  | divided hfirst hsecond _ _ _ ih =>
      rw [List.cons_append, List.append_assoc, List.cons_append, List.append_assoc,
        List.cons_append]
      exact hfirst.divided hsecond ih

theorem Nests.between {body : List (Option Conditional)} (hbody : Nests body) :
    Nests (some .opening :: (body ++ [some .closing])) :=
  hbody.whole .nil

/-- The conditionals of a text, line by line. -/
def conditionals (text : String) : List (Option Conditional) :=
  (Text.lines text.toList).map Conditional.ofLine?

theorem isPrefixOf_dropReturn {word line : List Char} (hword : '\r' ∉ word) :
    word.isPrefixOf (dropReturn line) = word.isPrefixOf line := by
  by_cases hreturn : line.getLast? = some '\r'
  · obtain ⟨line, rfl⟩ := List.getLast?_eq_some_iff.mp hreturn
    have hne : word ≠ line ++ ['\r'] := by
      rintro rfl
      exact hword (List.mem_append_right line (List.mem_singleton_self _))
    rw [dropReturn_concat, Bool.eq_iff_iff, List.isPrefixOf_iff_prefix, List.isPrefixOf_iff_prefix,
      List.prefix_concat_iff, or_iff_right hne]
  · rw [dropReturn_of_ne hreturn]

/-- A carriage return at the end of a line does not matter. -/
theorem Conditional.ofLine?_dropReturn (line : List Char) :
    ofLine? (dropReturn line) = ofLine? line := by
  unfold ofLine?
  rw [isPrefixOf_dropReturn (by decide), isPrefixOf_dropReturn (by decide),
    isPrefixOf_dropReturn (by decide), isPrefixOf_dropReturn (by decide)]

/-! ## Blocks of lines -/

variable {options : ScaffoldOptions} {module name guarding line : String}
  {lines above below headers more : List String}

/-- The conditionals of some lines. -/
def partsOf (lines : List String) : List (Option Conditional) :=
  lines.map fun line => Conditional.ofLine? line.toList

/-- What some lines include, in order. -/
def included (lines : List String) : List (Form × String) :=
  lines.filterMap fun line =>
    (Directive.ofLine? line.toList).map fun found => (found.1, String.ofList found.2)

/-- Lines that stand on their own: none is broken, the conditionals nest, and what they include
is the headers given, in angle brackets. -/
structure IsBlock (lines headers : List String) : Prop where
  whole : ∀ line ∈ lines, '\n' ∉ line.toList
  nests : Nests (partsOf lines)
  included : included lines = headers.map (Form.angle, ·)

theorem IsBlock.append (habove : IsBlock above headers) (hbelow : IsBlock below more) :
    IsBlock (above ++ below) (headers ++ more) where
  whole := List.forall_mem_append.mpr ⟨habove.whole, hbelow.whole⟩
  nests := by
    rw [partsOf, List.map_append]
    exact habove.nests.append hbelow.nests
  included := by
    rw [Scaffold.included, List.filterMap_append, List.map_append]
    exact congrArg₂ _ habove.included hbelow.included

/-- A line below which a block stands. -/
theorem IsBlock.cons (hlines : IsBlock lines headers) (hline : IsSilent line)
    (hpart : Conditional.ofLine? line.toList = none) : IsBlock (line :: lines) headers where
  whole := List.forall_mem_cons.mpr ⟨hline.whole, hlines.whole⟩
  nests := by
    rw [partsOf, List.map_cons, hpart]
    exact hlines.nests.plain
  included := by
    rw [Scaffold.included, List.filterMap_cons, hline.none]
    exact hlines.included

/-- A conditional that goes around a block. -/
theorem IsBlock.enclosed {opening closing : String} (hlines : IsBlock lines headers)
    (hopening : IsSilent opening) (hbegins : Conditional.ofLine? opening.toList = some .opening)
    (hclosing : IsSilent closing) (hends : Conditional.ofLine? closing.toList = some .closing) :
    IsBlock (opening :: (lines ++ [closing])) headers where
  whole := by
    simp only [List.forall_mem_cons, List.forall_mem_append, List.not_mem_nil, false_imp_iff,
      implies_true, and_true]
    exact ⟨hopening.whole, hlines.whole, hclosing.whole⟩
  nests := by
    rw [partsOf, List.map_cons, List.map_append, List.map_singleton, hbegins, hends]
    exact hlines.nests.between
  included := by
    rw [Scaffold.included, List.filterMap_cons, hopening.none, Option.map_none,
      List.filterMap_append, List.filterMap_cons, hclosing.none, Option.map_none,
      List.filterMap_nil, List.append_nil]
    exact hlines.included

theorem isBlock_silent (hsilent : ∀ line ∈ lines, IsSilent line) (hnests : Nests (partsOf lines)) :
    IsBlock lines [] where
  whole line hline := (hsilent line hline).whole
  nests := hnests
  included := by
    refine List.filterMap_eq_nil_iff.mpr fun line hline => ?_
    rw [(hsilent line hline).none, Option.map_none]

theorem map_ofLine?_dropReturn (lines : List String) :
    (lines.map fun line => dropReturn line.toList).map Conditional.ofLine? = partsOf lines := by
  rw [List.map_map]
  exact List.map_congr_left fun line _ => Conditional.ofLine?_dropReturn line.toList

theorem conditionals_textOf (hwhole : ∀ line ∈ lines, '\n' ∉ line.toList) :
    conditionals (textOf lines) = partsOf lines := by
  rw [conditionals, lines_textOf hwhole, map_ofLine?_dropReturn]

theorem map_ofLines (number : ℕ) (lines : List (List Char)) :
    (Directive.ofLines number lines).map (fun directive => (directive.form, directive.target)) =
      lines.filterMap fun line =>
        (Directive.ofLine? line).map fun found => (found.1, String.ofList found.2) := by
  induction lines generalizing number with
  | nil => rfl
  | cons line rest ih =>
      rw [Directive.ofLines, List.filterMap_cons]
      cases Directive.ofLine? line with
      | none => exact ih (number + 1)
      | some found => exact congrArg _ (ih (number + 1))

theorem map_extract_textOf (hwhole : ∀ line ∈ lines, '\n' ∉ line.toList) :
    (Directive.extract (textOf lines).toList).map
      (fun directive => (directive.form, directive.target)) = included lines := by
  rw [Directive.extract, lines_textOf hwhole, map_ofLines, List.filterMap_map]
  refine List.filterMap_congr fun line _ => ?_
  rw [Function.comp_apply, Directive.ofLine?_dropReturn]

theorem isBlock_nil : IsBlock [] [] :=
  isBlock_silent (by simp) .nil

/-- A line that begins with a word of its own does not become part of a conditional by what
follows. -/
theorem Conditional.ofLine?_append {beginning rest : String} {part : Option Conditional}
    (hbeginning : ∀ more, ofLine? (beginning.toList ++ more) = part) :
    ofLine? (beginning ++ rest).toList = part := by
  rw [String.toList_append, hbeginning]

theorem Conditional.ofLine?_around {beginning middle ending : String} {part : Option Conditional}
    (hbeginning : ∀ more, ofLine? (beginning.toList ++ more) = part) :
    ofLine? (beginning ++ middle ++ ending).toList = part := by
  rw [String.append_assoc, ofLine?_append hbeginning]

theorem isBlock_linkage : IsBlock linkage [] := by
  have hparts : partsOf linkage = [some .opening, none, some .closing, none, none, none,
      some .opening, none, some .closing] := by decide
  have hwrapped : Nests [some .opening, none, some .closing] := Nests.nil.plain.between
  refine isBlock_silent (fun line => isSilent_of_mem_linkage) ?_
  rw [hparts]
  exact hwrapped.append hwrapped.plain.plain.plain

theorem isBlock_angle {header : String} (hne : header ≠ "") (hfeed : '\n' ∉ header.toList)
    (hclosing : '>' ∉ header.toList) : IsBlock ["#include <" ++ header ++ ">"] [header] where
  whole := by simp [hfeed]
  nests := by
    have hpart : Conditional.ofLine? ("#include <" ++ header ++ ">").toList = none :=
      Conditional.ofLine?_around fun _ => rfl
    rw [partsOf, List.map_singleton, hpart]
    exact Nests.nil.plain
  included := by
    have hspells : Directive.Spells ("#include <" ++ header ++ ">").toList .angle header.toList :=
      spells_include (by simpa using hne) (by simpa [Form.closing] using hclosing)
        (by simp [Form.opening, Form.closing])
    rw [Scaffold.included, List.filterMap_cons, Directive.ofLine?_eq_some_iff.mpr hspells,
      Option.map_some, String.ofList_toList]
    rfl

/-- A comment and the line that includes a header. -/
theorem isBlock_include {comment header : String} (hcomment : IsSilent comment)
    (hpart : Conditional.ofLine? comment.toList = none) (hne : header ≠ "")
    (hfeed : '\n' ∉ header.toList) (hclosing : '>' ∉ header.toList) :
    IsBlock ["", comment, "#include <" ++ header ++ ">"] [header] :=
  ((isBlock_angle hne hfeed hclosing).cons hcomment hpart).cons (by decide) (by decide)

/-! ## The blocks of a header -/

theorem ne_empty_of_given {option : Option String} {text : String} (hgiven : given option = some text) :
    option = some text ∧ text ≠ "" := by
  obtain ⟨hoption, hne⟩ := Option.filter_eq_some_iff.mp hgiven
  exact ⟨hoption, by simpa using hne⟩

theorem isBlock_configLines (hkeeps : options.KeepsLines) :
    IsBlock (configLines options) (given options.configHeader).toList := by
  unfold configLines
  split
  · next hnone =>
    rw [hnone]
    exact isBlock_nil
  · next header hgiven =>
    obtain ⟨hoption, hne⟩ := ne_empty_of_given hgiven
    obtain ⟨hfeed, hclosing⟩ := hkeeps.configHeader header hoption
    rw [hgiven]
    exact isBlock_include (by decide) (by decide) hne hfeed hclosing

theorem isBlock_inlineLines (hkeeps : options.KeepsLines) (hguarding : '\n' ∉ guarding.toList) :
    IsBlock (inlineLines options guarding) [] := by
  refine isBlock_silent
    (fun line => isSilent_of_mem_inlineLines hguarding hkeeps.inlineMacro) ?_
  unfold inlineLines
  split
  · exact .nil
  · next macroName _ =>
    have hbeginning : Conditional.ofLine? ("#ifdef " ++ guarding).toList = some .opening :=
      Conditional.ofLine?_append fun _ => rfl
    have hempty : Conditional.ofLine? ("#define " ++ macroName).toList = none :=
      Conditional.ofLine?_append fun _ => rfl
    have hinline : Conditional.ofLine? ("#define " ++ macroName ++ " inline").toList = none :=
      Conditional.ofLine?_around fun _ => rfl
    have hend : Conditional.ofLine? ("#endif /* " ++ guarding ++ " */").toList = some .closing :=
      Conditional.ofLine?_around fun _ => rfl
    have hdivided : Nests [some .opening, none, some .alternative, none, some .closing] :=
      Nests.nil.plain.divided Nests.nil.plain .nil
    simp only [partsOf, List.map_cons, List.map_nil, hbeginning, hempty, hinline, hend]
    exact (hdivided.append Nests.nil.plain).plain.plain

theorem isBlock_inlineEndLines (hkeeps : options.KeepsLines) :
    IsBlock (inlineEndLines options)
      (if (given options.inlineMacro).isSome then (given options.inlineEnd).toList else []) := by
  unfold inlineEndLines
  cases hmacro : given options.inlineMacro with
  | none => exact isBlock_nil
  | some macroName =>
      cases hend : given options.inlineEnd with
      | none => exact isBlock_nil
      | some header =>
          obtain ⟨hoption, hne⟩ := ne_empty_of_given hend
          obtain ⟨hfeed, hclosing⟩ := hkeeps.inlineEnd header hoption
          have hwhole := hkeeps.inlineMacro macroName (ne_empty_of_given hmacro).1
          have hcomment : IsSilent ("/* Undefine " ++ macroName ++ " */") := by
            rw [String.append_assoc]
            exact isSilent_append (fun _ => rfl) (by decide) (by simp [hwhole])
          have hpart : Conditional.ofLine? ("/* Undefine " ++ macroName ++ " */").toList = none :=
            Conditional.ofLine?_around fun _ => rfl
          exact isBlock_include hcomment hpart hne hfeed hclosing

/-- What the include guard of a header goes around, below the line that defines it. -/
def guardedLines (options : ScaffoldOptions) (name : String) : List String :=
  configLines options ++ inlineLines options (sourceGuard options name) ++ "" :: linkage ++
    inlineEndLines options ++ [""]

theorem headerLines_eq (options : ScaffoldOptions) (name : String) :
    headerLines options name =
      ("#ifndef " ++ headerGuard options name) :: ("#define " ++ headerGuard options name ++ " 1") ::
        (guardedLines options name ++
          ["#endif /* end " ++ headerGuard options name ++ " include guard */"]) := by
  simp only [headerLines, guardedLines, List.append_assoc, List.cons_append, List.nil_append]

theorem isBlock_guardedLines (hkeeps : options.KeepsLines) (name : String) :
    IsBlock (guardedLines options name) options.headers := by
  have hguarding : '\n' ∉ (sourceGuard options name).toList := by
    simp [sourceGuard, feed_notMem_guard]
  have hempty : IsBlock [""] [] := isBlock_nil.cons (by decide) (by decide)
  have hblock := ((((isBlock_configLines hkeeps).append (isBlock_inlineLines hkeeps hguarding)).append
    (hempty.append isBlock_linkage)).append (isBlock_inlineEndLines hkeeps)).append hempty
  simp only [List.append_nil] at hblock
  exact hblock

theorem isSilent_opening (options : ScaffoldOptions) (name : String) :
    IsSilent ("#ifndef " ++ headerGuard options name) :=
  isSilent_append (fun _ => rfl) (by decide) (by simp [headerGuard, feed_notMem_guard])

theorem isSilent_define (options : ScaffoldOptions) (name : String) :
    IsSilent ("#define " ++ headerGuard options name ++ " 1") := by
  rw [String.append_assoc]
  exact isSilent_append (fun _ => rfl) (by decide) (by simp [headerGuard, feed_notMem_guard])

theorem isSilent_closing (options : ScaffoldOptions) (name : String) :
    IsSilent ("#endif /* end " ++ headerGuard options name ++ " include guard */") := by
  rw [String.append_assoc]
  exact isSilent_append (fun _ => rfl) (by decide) (by simp [headerGuard, feed_notMem_guard])

theorem isBlock_headerLines (hkeeps : options.KeepsLines) (name : String) :
    IsBlock (headerLines options name) options.headers := by
  have hopening : Conditional.ofLine? ("#ifndef " ++ headerGuard options name).toList =
      some .opening := Conditional.ofLine?_append fun _ => rfl
  have hdefine : Conditional.ofLine? ("#define " ++ headerGuard options name ++ " 1").toList =
      none :=
    Conditional.ofLine?_around fun _ => rfl
  have hclosing : Conditional.ofLine? ("#endif /* end " ++ headerGuard options name ++
      " include guard */").toList = some .closing :=
    Conditional.ofLine?_around fun _ => rfl
  rw [headerLines_eq]
  exact ((isBlock_guardedLines hkeeps name).cons (isSilent_define options name) hdefine).enclosed
    (isSilent_opening options name) hopening (isSilent_closing options name) hclosing

theorem getLast?_toList_append {beginning ending : String} {c : Char}
    (hending : ending.toList.getLast? = some c) :
    (beginning ++ ending).toList.getLast? = some c := by
  rw [String.toList_append, List.getLast?_append, hending, Option.some_or]

/-- The lines of a header.  The first and the last are those of the include guard, and the
conditionals in between nest. -/
theorem lines_header (hkeeps : options.KeepsLines) (name : String) :
    ∃ inner, Text.lines (textOf (headerLines options name)).toList =
        ("#ifndef " ++ headerGuard options name).toList ::
          ("#define " ++ headerGuard options name ++ " 1").toList :: (inner ++
            [("#endif /* end " ++ headerGuard options name ++ " include guard */").toList]) ∧
      Nests (inner.map Conditional.ofLine?) := by
  refine ⟨(guardedLines options name).map fun line => dropReturn line.toList, ?_, ?_⟩
  · have hopening : ("#ifndef " ++ headerGuard options name).toList.getLast? ≠ some '\r' := by
      rw [headerGuard, ← String.append_assoc, getLast?_toList_append (by decide : _ = some '_')]
      decide
    have hdefine : ("#define " ++ headerGuard options name ++ " 1").toList.getLast? ≠ some '\r' := by
      rw [getLast?_toList_append (by decide : _ = some '1')]
      decide
    have hclosing : ("#endif /* end " ++ headerGuard options name ++
        " include guard */").toList.getLast? ≠ some '\r' := by
      rw [getLast?_toList_append (by decide : _ = some '/')]
      decide
    rw [lines_textOf (isBlock_headerLines hkeeps name).whole, headerLines_eq]
    simp only [List.map_cons, List.map_append, List.map_nil, dropReturn_of_ne hopening,
      dropReturn_of_ne hdefine, dropReturn_of_ne hclosing]
  · rw [map_ofLine?_dropReturn]
    exact (isBlock_guardedLines hkeeps name).nests

theorem nests_conditionals_source (hfeed : '\n' ∉ module.toList) :
    Nests (conditionals (textOf (sourceLines options module name))) := by
  have hwhole : ∀ line ∈ sourceLines options module name, '\n' ∉ line.toList := by
    simp only [sourceLines, List.forall_mem_append, List.forall_mem_cons, List.not_mem_nil,
      false_imp_iff, implies_true, and_true]
    exact ⟨⟨by simp [sourceGuard, feed_notMem_guard], by decide, by simp [hfeed], by decide⟩,
      isBlock_linkage.whole⟩
  have hdefine : Conditional.ofLine? ("#define " ++ sourceGuard options name).toList = none :=
    Conditional.ofLine?_append fun _ => rfl
  have hinclude : Conditional.ofLine? ("#include \"" ++ module ++ ".h\"").toList = none :=
    Conditional.ofLine?_around fun _ => rfl
  have hempty : Conditional.ofLine? "".toList = none := by decide
  rw [conditionals_textOf hwhole, sourceLines, partsOf, List.map_append, List.map_cons,
    List.map_cons, List.map_cons, List.map_cons, hdefine, hempty, hinclude]
  exact isBlock_linkage.nests.plain.plain.plain.plain

/-! ## Empty options -/

theorem given_given (option : Option String) : given (given option) = given option := by
  rw [given, given, Option.filter_filter]
  simp only [Bool.and_self]

/-- An empty tag is as good as none. -/
theorem guard_withoutEmpty (options : ScaffoldOptions) (name : String) :
    guard options.withoutEmpty name = guard options name := by
  have htag : (options.withoutEmpty.guardPrefix.map guardName).filter (!·.isEmpty) =
      (options.guardPrefix.map guardName).filter (!·.isEmpty) := by
    change ((given options.guardPrefix).map guardName).filter (!·.isEmpty) = _
    cases options.guardPrefix with
    | none => rfl
    | some tag =>
        by_cases hempty : tag = ""
        · rw [hempty]
          decide
        · rw [given, Option.filter_some, if_pos (by simpa using hempty)]
  rw [guard, guard, htag]

theorem render_withoutEmpty (options : ScaffoldOptions) (module : String) :
    render options.withoutEmpty module = render options module := by
  have hconfig : configLines options.withoutEmpty = configLines options := by
    rw [configLines, configLines, ScaffoldOptions.withoutEmpty, given_given]
  have hinline : inlineLines options.withoutEmpty = inlineLines options := by
    funext guarding
    rw [inlineLines, inlineLines, ScaffoldOptions.withoutEmpty, given_given]
  have hend : inlineEndLines options.withoutEmpty = inlineEndLines options := by
    rw [inlineEndLines, inlineEndLines, ScaffoldOptions.withoutEmpty, given_given, given_given]
  simp only [render, sourceLines, headerLines, headerGuard, sourceGuard, guard_withoutEmpty,
    hconfig, hinline, hend]

/-! ## Main result -/

/-- **Boilerplate is what the preprocessor expects.**  The source includes the module's header
and nothing else; the header includes what the options ask for, in that order.  In both texts
the conditionals nest, and the include guard of the header goes around all its other lines.
An empty option is as good as none. -/
theorem wellFormed_of_render (options : ScaffoldOptions) (module : String) (pair : Pair)
    (hrender : render options module = .ok pair) (hquote : '"' ∉ module.toList)
    (hfeed : '\n' ∉ module.toList) (hkeeps : options.KeepsLines) :
    Directive.extract pair.source.toList = [⟨module ++ ".h", .quoted, 3⟩] ∧
      (Directive.extract pair.header.toList).map
        (fun directive => (directive.form, directive.target)) =
          options.headers.map (Form.angle, ·) ∧
      (∃ guard inner, Text.lines pair.header.toList =
          ("#ifndef " ++ guard).toList :: ("#define " ++ guard ++ " 1").toList ::
            (inner ++ [("#endif /* end " ++ guard ++ " include guard */").toList]) ∧
        Nests (inner.map Conditional.ofLine?)) ∧
      Nests (conditionals pair.source) ∧ Nests (conditionals pair.header) ∧
      render options.withoutEmpty module = .ok pair := by
  obtain ⟨name, -, rfl⟩ := render_eq_ok_iff.mp hrender
  have hsource : directivesOf (bytes (textOf (sourceLines options module name))) = _ :=
    directivesOf_source hquote hfeed
  rw [directivesOf, decode_bytes] at hsource
  have hheader := isBlock_headerLines hkeeps name
  refine ⟨hsource, ?_, ⟨headerGuard options name, lines_header hkeeps name⟩,
    nests_conditionals_source hfeed, ?_, ?_⟩
  · rw [map_extract_textOf hheader.whole, hheader.included]
  · rw [conditionals_textOf hheader.whole]
    exact hheader.nests
  · rw [render_withoutEmpty, hrender]

/-- Options that look like parts of conditionals or like directives. -/
def posing : ScaffoldOptions :=
  { guardPrefix := some "#endif", configHeader := some "a\"b <c", inlineMacro := some "X\r",
    inlineEnd := some "#else " }

/-- The name of the module begins like a conditional and ends in a carriage return. -/
theorem wellFormed_of_render_posing :
    ∃ pair, render posing "sub/#if\r" = .ok pair ∧ posing.KeepsLines ∧
      Directive.extract pair.source.toList = [⟨"sub/#if\r.h", .quoted, 3⟩] ∧
      (Directive.extract pair.header.toList).map
        (fun directive => (directive.form, directive.target)) =
          [(.angle, "a\"b <c"), (.angle, "#else ")] ∧
      Nests (conditionals pair.source) ∧ Nests (conditionals pair.header) := by
  have hrender : render posing "sub/#if\r" = .ok
      ⟨textOf (sourceLines posing "sub/#if\r" "#if\r"), textOf (headerLines posing "#if\r")⟩ := by
    rfl
  have hkeeps : posing.KeepsLines := by
    refine ⟨?_, ?_, ?_⟩ <;> rintro _ ⟨⟩ <;> decide
  obtain ⟨hsource, hheader, -, hnestsSource, hnestsHeader, -⟩ :=
    wellFormed_of_render posing "sub/#if\r" _ hrender (by decide) (by decide) hkeeps
  exact ⟨_, hrender, hkeeps, hsource, hheader, hnestsSource, hnestsHeader⟩

end Scaffold

end IncludeDeps
