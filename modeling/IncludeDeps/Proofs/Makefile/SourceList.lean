import IncludeDeps.Proofs.Makefile.Faithful
import IncludeDeps.Proofs.Makefile.Reading

/-!
# The list of sources, read by make

The list of sources is spread over lines, each but the last ending in a backslash and each
but the first beginning with a margin.  Make joins them, with a space for a backslash and
the blanks around it, so what it reads is one definition, of the sources with a space
between any two (`logicalLines_sourceList`).
-/

namespace IncludeDeps.Makefile

open Make

variable {sources : List String} {database : Database}

/-- A text does not end with a blank or a backslash. -/
def EndsInName (text : List Char) : Prop :=
  ∃ c, text.getLast? = some c ∧ Make.isBlank c = false ∧ c ≠ '\\'

theorem endsInName_append {before name : List Char} (hname : EndsInName name) :
    EndsInName (before ++ name) := by
  obtain ⟨c, hlast, hc⟩ := hname
  exact ⟨c, by rw [List.getLast?_append, hlast]; rfl, hc⟩

theorem endsInName_of_isFile {name : List Char} (hname : IsFile name) : EndsInName name := by
  have hlast := List.getLast?_eq_some_getLast hname.ne_nil
  generalize name.getLast hname.ne_nil = c at hlast
  have hc := hname.literal c (List.mem_of_getLast? hlast)
  exact ⟨c, hlast, isBlank_of_isLiteral hc, ne_of_isLiteral hc '\\' (by decide)⟩

/-- What stands in front of a source on a line of its own. -/
def margin : List Char :=
  List.replicate 8 ' '

theorem sourceGap_eq : sourceGap = '\\' :: '\n' :: margin := rfl

theorem isBlank_of_mem_margin {c : Char} (hc : c ∈ margin) : Make.isBlank c = true := by
  rw [List.eq_of_mem_replicate hc]
  decide

theorem splitOn_wordsAfter_cons {front : List Char} (hfeed : '\n' ∉ front) (rest : List Char)
    (source : String) (others : List String) :
    (front ++ wordsAfter sourceGap rest (source :: others)).splitOn '\n' =
      (front ++ [' ', '\\']) ::
        ((margin ++ source.toList) ++ wordsAfter sourceGap rest others).splitOn '\n' := by
  have hfront : '\n' ∉ front ++ [' ', '\\'] := by simp [hfeed]
  rw [← List.splitOn_append_cons_self_of_not_mem hfront, wordsAfter, sourceGap_eq]
  simp only [List.append_assoc, List.cons_append, List.nil_append]

theorem logicalLines_continued {front next : List Char} {lines others : List (List Char)}
    (htab : front.head? ≠ some '\t') (hend : EndsInName front)
    (hlines : logicalLines lines = next :: others) :
    logicalLines ((front ++ [' ', '\\']) :: lines) =
      (front ++ ' ' :: next.dropWhile Make.isBlank) :: others := by
  obtain ⟨c, hlast, hblank, -⟩ := hend
  obtain ⟨before, rfl⟩ := List.getLast?_eq_some_iff.mp hlast
  have hjoin : before ++ [c] ++ [' ', '\\'] = (before ++ [c] ++ [' ']) ++ ['\\'] := by simp
  have hcontinued : (before ++ [c] ++ [' ', '\\']).head? ≠ some '\t' ∧
      (before ++ [c] ++ [' ', '\\']).getLast? = some '\\' := by
    rw [List.head?_append, hjoin, List.getLast?_concat]
    exact ⟨by cases before <;> simpa using htab, rfl⟩
  rw [logicalLines, if_pos hcontinued, hlines, hjoin, List.dropLast_concat,
    List.rdropWhile_concat_pos _ _ _ (by decide),
    List.rdropWhile_concat_neg _ _ _ (by simp [hblank])]

/-- Names that are spread over lines stand on one line again. -/
theorem logicalLines_wordsAfter {front rest : List Char} (hfeed : '\n' ∉ front)
    (htab : front.head? ≠ some '\t') (hend : EndsInName front)
    (hsources : ∀ source ∈ sources, IsFile source.toList) :
    logicalLines ((front ++ wordsAfter sourceGap rest sources).splitOn '\n') =
      (front ++ sources.flatMap fun source => ' ' :: source.toList) ::
        logicalLines (rest.splitOn '\n') := by
  induction sources generalizing front with
  | nil =>
      obtain ⟨c, hlast, -, hslash⟩ := hend
      have hwhole : IsWhole front := ⟨hfeed, Or.inr (by rw [hlast]; simpa using hslash)⟩
      rw [wordsAfter, List.splitOn_append_cons_self_of_not_mem hfeed,
        Database.logicalLines_cons hwhole]
      simp
  | cons source others ih =>
      obtain ⟨hsource, hothers⟩ := List.forall_mem_cons.mp hsources
      have hline : '\n' ∉ margin ++ source.toList :=
        List.not_mem_append (by decide) (hsource.notMem '\n' (by decide))
      have hnext := ih hline (by simp [margin]) (endsInName_append (endsInName_of_isFile hsource))
        hothers
      rw [splitOn_wordsAfter_cons hfeed, logicalLines_continued htab hend hnext,
        List.append_assoc, List.dropWhile_append_of_pos fun c => isBlank_of_mem_margin,
        dropWhile_isBlank_of_isWord hsource.isWord, List.flatMap_cons, List.cons_append]

theorem logicalLines_sourceList (hsources : ∀ source ∈ sources, IsFile source.toList)
    (rest : List Char) :
    logicalLines (((sourceList sources).toList ++ rest).splitOn '\n') =
      ("SOURCES".toList ++ '=' :: unwords (sources.map String.toList)) ::
        logicalLines (rest.splitOn '\n') := by
  rw [toList_sourceList, ← List.append_assoc]
  cases sources with
  | nil =>
      have hend : EndsInName "SOURCES=".toList := ⟨'=', rfl, rfl, by decide⟩
      exact logicalLines_wordsAfter (by decide) (by decide) hend hsources
  | cons source others =>
      obtain ⟨hsource, hothers⟩ := List.forall_mem_cons.mp hsources
      have hfeed : '\n' ∉ "SOURCES=".toList ++ source.toList :=
        List.not_mem_append (by decide) (hsource.notMem '\n' (by decide))
      rw [List.headD_cons, List.tail_cons, logicalLines_wordsAfter hfeed (by simp)
        (endsInName_append (endsInName_of_isFile hsource)) hothers, List.map_cons, unwords_cons,
        List.flatMap_map, List.append_assoc]
      rfl

/-- The list of sources defines `SOURCES`, and its value is the sources. -/
theorem readFrom?_sourceList (hsources : ∀ source ∈ sources, IsFile source.toList)
    (rest : List Char) :
    database.readFrom? ((sourceList sources).toList ++ rest) =
      (database.define "SOURCES".toList (unwords (sources.map String.toList))).readFrom? rest := by
  have hnames : ∀ name ∈ sources.map String.toList, IsFile name :=
    List.forall_mem_map.mpr hsources
  have hsigns : ∀ special, isLiteral special = false → special ≠ ' ' →
      special ∉ unwords (sources.map String.toList) := fun special hspecial hspace =>
    notMem_unwords hspace fun name hname => (hnames name hname).notMem special hspecial
  rw [Database.readFrom?, logicalLines_sourceList hsources, List.foldlM_cons,
    Database.readLine?_define (by decide) (hsigns '\\' (by decide) (by decide))
      (hsigns '#' (by decide) (by decide)) (hsigns '$' (by decide) (by decide)),
    dropWhile_isBlank_unwords fun name hname => (hnames name hname).isWord]
  rfl

end IncludeDeps.Makefile
