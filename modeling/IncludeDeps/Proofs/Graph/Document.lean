import IncludeDeps.Graph.Json
import IncludeDeps.Proofs.Json.Grammar
import Mathlib.Data.List.Basic
import Mathlib.Tactic.SplitIfs

/-!
# The JSON text of a graph

What is written for a character is read as that character (`character?_escaped`), so a
string is read as its text, whatever follows.  An array and an object are written alike,
as blocks of members between brackets, and read by the same three rules, which `Parts`
puts together: a block is read as the parts that its members are read as
(`reads_block`), and one without members is an opening and a closing bracket.

From strings to arrays, from arrays to members and from members to the whole text, what
is written is read as what it was written for.  The grammar leaves no choice, so the
text determines the graph, but for what was skipped.
-/

namespace IncludeDeps

open Json

namespace Graph.Json

variable {rest : List Char}

/-! ## Strings -/

theorem hexValue?_hexDigit {n : ℕ} (hn : n < 16) : hexValue? (hexDigit n) = some n := by
  revert n
  decide

theorem numbered?_hexDigit {c : Char} (hc : c.toNat < 0x20) :
    numbered? ('0' :: '0' :: hexDigit (c.toNat / 16) :: hexDigit (c.toNat % 16) :: rest) =
      some (c, rest) := by
  have hunit : unit? ('0' :: '0' :: hexDigit (c.toNat / 16) :: hexDigit (c.toNat % 16) :: rest) =
      some (c.toNat, rest) := by
    have hzero : hexValue? '0' = some 0 := rfl
    have hjoin : c.toNat / 16 * 16 + c.toNat % 16 = c.toNat := by omega
    simp [unit?, hzero, hexValue?_hexDigit (show c.toNat / 16 < 16 by omega),
      hexValue?_hexDigit (Nat.mod_lt c.toNat (by decide : 16 > 0)), hjoin]
  have hscalar : c.toNat < 0xD800 ∨ 0xDFFF < c.toNat := Or.inl (by omega)
  simp [numbered?, hunit, hscalar]

/-- What is written for a character is read as that character. -/
theorem character?_escaped (c : Char) (rest : List Char) :
    character? (escaped c ++ rest) = some (c, rest) := by
  unfold escaped
  split_ifs with hquote hslash hback hform hfeed hreturn htab hcontrol
  iterate 7
    · subst c
      rfl
  · exact numbered?_hexDigit hcontrol
  · simp [character?, hquote, hslash, hcontrol]

theorem characters_escaped (written rest : List Char) :
    Characters (written.flatMap escaped ++ '"' :: rest) written rest := by
  induction written with
  | nil => exact .done rfl
  | cons c written ih =>
      refine .more ?_ ih
      rw [List.flatMap_cons, List.append_assoc, character?_escaped]

theorem toList_string (text : String) :
    (string text).toList ++ rest = '"' :: (text.toList.flatMap escaped ++ '"' :: rest) := by
  simp [string]

/-- A text is read as a phrase wherever it is put. -/
def ReadsAs (written : String) (phrase : Phrase) : Prop :=
  ∀ blanks rest, (∀ c ∈ blanks, isSpace c = true) →
    Reads (blanks ++ (written.toList ++ rest)) phrase rest

theorem readsAs_string (text : String) : ReadsAs (string text) (.value (.string text)) := by
  intro blanks rest hblanks
  have hopens : skipSpace (blanks ++ ((string text).toList ++ rest)) =
      '"' :: (text.toList.flatMap escaped ++ '"' :: rest) := by
    rw [skipSpace_append hblanks, toList_string, skipSpace_cons rfl]
  have hreads := Reads.string hopens (characters_escaped text.toList rest)
  rwa [String.ofList_toList] at hreads

/-! ## Blocks -/

/-- The parts of an array or an object are read by three rules. -/
structure Parts {α : Type} (phrase : Bool → List α → Phrase) (part : α → Phrase) (mark : Char) :
    Prop where
  visible : isSpace mark = false
  ends : ∀ {text first rest}, skipSpace text = mark :: rest → Reads text (phrase first []) rest
  first : ∀ {text onward one others rest}, Reads text (part one) onward →
    Reads onward (phrase false others) rest → Reads text (phrase true (one :: others)) rest
  next : ∀ {text more one others rest}, skipSpace text = ',' :: more →
    Reads more (phrase true (one :: others)) rest → Reads text (phrase false (one :: others)) rest

theorem parts_items : Parts .items .value ']' :=
  ⟨rfl, .itemsEnd, .firstItem, .nextItem⟩

theorem parts_members : Parts .members (fun member => .member member.1 member.2) '\x7d' :=
  ⟨rfl, .membersEnd, .firstMember, .nextMember⟩

/-- What follows a member of a block. -/
def following (indent closing rest : List Char) : List String → List Char
  | [] => '\n' :: indent ++ (closing ++ rest)
  | member :: members =>
    ',' :: ('\n' :: indent ++ [' ', ' '] ++
      (member.toList ++ following indent closing rest members))

theorem toList_intercalate_block (indent closing member : String) (members : List String) :
    (",\n".intercalate
      ((member :: members).map fun member => indent ++ "  " ++ member)).toList ++
        ('\n' :: indent.toList ++ (closing.toList ++ rest)) =
      indent.toList ++ [' ', ' '] ++
        (member.toList ++ following indent.toList closing.toList rest members) := by
  induction members generalizing member with
  | nil => simp [following]
  | cons next members ih =>
      rw [List.map_cons, List.map_cons, String.intercalate_cons_cons, ← List.map_cons,
        String.toList_append, List.append_assoc, ih]
      simp [following]

theorem toList_block_cons (opening closing indent member : String) (members : List String) :
    (block opening closing indent (member :: members)).toList ++ rest =
      opening.toList ++ ('\n' :: indent.toList ++ [' ', ' '] ++
        (member.toList ++ following indent.toList closing.toList rest members)) := by
  rw [List.cons_append, List.cons_append, ← toList_intercalate_block]
  simp [block]

/-- What stands before a member of a block is white space. -/
theorem isSpace_beginning {indent : List Char} (hindent : ∀ c ∈ indent, isSpace c = true) :
    ∀ c ∈ '\n' :: indent ++ [' ', ' '], isSpace c = true :=
  List.forall_mem_append.mpr ⟨List.forall_mem_cons.mpr ⟨rfl, hindent⟩, by simp [isSpace]⟩

section

variable {α β : Type} {phrase : Bool → List α → Phrase} {part : α → Phrase} {mark : Char}

/-- Members of a block are read as parts. -/
theorem reads_following {indent : List Char} {write : β → String} {meaning : β → α}
    (hparts : Parts phrase part mark) (hindent : ∀ c ∈ indent, isSpace c = true) (members : List β)
    (hmembers : ∀ member ∈ members, ReadsAs (write member) (part (meaning member))) :
    Reads (following indent [mark] rest (members.map write))
      (phrase false (members.map meaning)) rest := by
  induction members with
  | nil =>
      have hline : ∀ c ∈ '\n' :: indent, isSpace c = true :=
        List.forall_mem_cons.mpr ⟨rfl, hindent⟩
      refine hparts.ends ?_
      rw [List.map_nil, following, skipSpace_append hline]
      exact skipSpace_cons hparts.visible rest
  | cons member members ih =>
      obtain ⟨hmember, hmembers⟩ := List.forall_mem_cons.mp hmembers
      have hfirst := hmember _ (following indent [mark] rest (members.map write))
        (isSpace_beginning hindent)
      exact hparts.next (skipSpace_cons rfl _) (hparts.first hfirst (ih hmembers))

theorem reads_block (opening closing indent : String) (write : β → String) (meaning : β → α)
    (rest : List Char) (hparts : Parts phrase part mark) (hclosing : closing.toList = [mark])
    (hindent : ∀ c ∈ indent.toList, isSpace c = true) (members : List β)
    (hmembers : ∀ member ∈ members, ReadsAs (write member) (part (meaning member))) :
    ∃ more, (block opening closing indent (members.map write)).toList ++ rest =
        opening.toList ++ more ∧ Reads more (phrase true (members.map meaning)) rest := by
  cases members with
  | nil =>
      refine ⟨mark :: rest, ?_, hparts.ends (skipSpace_cons hparts.visible rest)⟩
      simp [block, hclosing]
  | cons member members =>
      obtain ⟨hmember, hmembers⟩ := List.forall_mem_cons.mp hmembers
      refine ⟨_, toList_block_cons opening closing indent (write member) (members.map write), ?_⟩
      rw [hclosing]
      exact hparts.first (hmember _ _ (isSpace_beginning hindent))
        (reads_following hparts hindent members hmembers)

end

/-! ## Documents -/

/-- The value that is written for the prerequisites of a source. -/
def listed (prerequisites : Prerequisites) : Value :=
  .array (prerequisites.paths.map .string)

theorem readsAs_array (prerequisites : Prerequisites) :
    ReadsAs (array prerequisites) (.value (listed prerequisites)) := by
  intro blanks rest hblanks
  obtain ⟨more, htext, hitems⟩ := reads_block "[" "]" "  " string .string rest parts_items rfl
    (by simp [isSpace]) prerequisites.paths fun path _ => readsAs_string path
  refine .array ?_ hitems
  rw [skipSpace_append hblanks, array, htext]
  exact skipSpace_cons rfl more

theorem readsAs_member (entry : String × Prerequisites) :
    ReadsAs (member entry) (.member entry.1 (listed entry.2)) := by
  intro blanks rest hblanks
  have hopens : skipSpace (blanks ++ ((member entry).toList ++ rest)) =
      '"' :: (entry.1.toList.flatMap escaped ++ '"' :: ':' :: ' ' ::
        ((array entry.2).toList ++ rest)) := by
    rw [skipSpace_append hblanks, member, String.toList_append, String.toList_append,
      List.append_assoc, List.append_assoc, toList_string, skipSpace_cons rfl]
    rfl
  have hreads := Reads.member hopens (characters_escaped entry.1.toList _) (skipSpace_cons rfl _)
    (readsAs_array entry.2 [' '] rest (by simp [isSpace]))
  rwa [String.ofList_toList] at hreads

end Graph.Json

open Graph.Json

/-- The members of the object that a graph is written as. -/
def Graph.members (graph : Graph) : List (String × Value) :=
  graph.entries.map fun entry => (entry.1, listed entry.2)

theorem Graph.document_json (graph : Graph) : Document graph.json (.object graph.members) := by
  obtain ⟨more, htext, hmembers⟩ := reads_block "\x7b" "\x7d" "" member
    (fun entry => (entry.1, listed entry.2)) [] parts_members rfl (by simp) graph.entries
    fun entry _ => readsAs_member entry
  refine ⟨[], .object ?_ hmembers, rfl⟩
  rw [List.append_nil] at htext
  rw [json, htext]
  exact skipSpace_cons rfl more

theorem Graph.Json.listed_injective : Function.Injective listed := by
  intro first second hsame
  have hstring : Function.Injective Value.string := fun _ _ h => Value.string.inj h
  have hpaths := List.map_injective_iff.mpr hstring (Value.array.inj hsame)
  exact Prerequisites.paths_inj.mp hpaths

theorem Graph.members_inj {first second : Graph} :
    first.members = second.members ↔ first.entries = second.entries := by
  have hentry : Function.Injective fun entry : String × Prerequisites =>
      (entry.1, listed entry.2) := by
    rintro ⟨source, prerequisites⟩ ⟨source', prerequisites'⟩ hsame
    obtain ⟨rfl, hlisted⟩ := Prod.mk.inj hsame
    obtain rfl := listed_injective hlisted
    rfl
  exact (List.map_injective_iff.mpr hentry).eq_iff

/-- **The JSON text of a graph says what is in the graph.**  It is a document of one value,
an object whose keys are the sources in order, each with the array of its prerequisites in
order.  So graphs with the same text have the same entries, and what was skipped does not
show. -/
theorem Graph.document_json_iff (graph : Graph) :
    (∀ value, Document graph.json value ↔ value = .object graph.members) ∧
      graph.members.map Prod.fst = graph.sources ∧ graph.sources.Nodup ∧
      ∀ other : Graph, other.json = graph.json ↔ other.entries = graph.entries := by
  have hkeys : graph.members.map Prod.fst = graph.sources := by
    rw [members, List.map_map, sources]
    rfl
  refine ⟨fun value => ⟨fun hvalue => graph.document_json.unique hvalue, ?_⟩, hkeys, graph.nodup,
    fun other => ⟨fun hsame => ?_, fun hentries => by rw [json, json, hentries]⟩⟩
  · rintro rfl
    exact graph.document_json
  · have hother := other.document_json
    rw [hsame] at hother
    exact members_inj.mp (Value.object.inj (graph.document_json.unique hother))

end IncludeDeps
