import IncludeDeps.Makefile
import Mathlib.Data.List.Basic
import Mathlib.Data.List.TakeWhile
import Mathlib.Tactic.Common

/-!
# A Makefile determines its graph

A rule shows the object and not the source that it is made from, and a Makefile has
no marks between the list of sources, the preamble and the rules.  It is read from
left to right instead: a name ends at the first space or line feed, and what comes
next tells whether the list goes on (`wordsAfter_inj`).  So the sources are known
first, then the preamble can be left out, whatever the settings put into it, and the
targets too, since they follow from the sources.  What is left of each rule is the
list of its prerequisites (`rules_inj`).

All that names must be is free of spaces and line feeds.
-/

namespace IncludeDeps

namespace Makefile

variable {first second : String} {tail other rest gap : List Char}

/-- Whether a character does not end a name. -/
def isInked (c : Char) : Bool :=
  c != ' ' && c != '\n'

/-- A name that shows where it ends. -/
def IsPlain (name : String) : Prop :=
  ∀ c ∈ name.toList, isInked c = true

instance (name : String) : Decidable (IsPlain name) :=
  decidable_of_iff (name.toList.all isInked = true) List.all_eq_true

/-- The text after a name ends it. -/
def Ends (tail : List Char) : Prop :=
  ∃ c more, tail = c :: more ∧ isInked c = false

theorem takeWhile_plain (hplain : IsPlain first) (hends : Ends tail) :
    (first.toList ++ tail).takeWhile isInked = first.toList := by
  obtain ⟨c, more, rfl, hc⟩ := hends
  rw [List.takeWhile_append_of_pos hplain, List.takeWhile_cons_of_neg (by simp [hc]),
    List.append_nil]

theorem plain_inj (hfirst : IsPlain first) (hsecond : IsPlain second) (htail : Ends tail)
    (hother : Ends other) (hsame : first.toList ++ tail = second.toList ++ other) :
    first = second ∧ tail = other := by
  have hnames : first.toList = second.toList := by
    rw [← takeWhile_plain hfirst htail, hsame, takeWhile_plain hsecond hother]
  rw [hnames] at hsame
  exact ⟨String.toList_inj.mp hnames, List.append_cancel_left hsame⟩

/-! ## Lists of names -/

/-- Names with a space and a gap before each, up to the end of the line. -/
def wordsAfter (gap rest : List Char) : List String → List Char
  | [] => '\n' :: rest
  | name :: names => ' ' :: (gap ++ (name.toList ++ wordsAfter gap rest names))

theorem ends_wordsAfter (gap rest : List Char) (names : List String) :
    Ends (wordsAfter gap rest names) := by
  cases names with
  | nil => exact ⟨'\n', rest, rfl, rfl⟩
  | cons name names => exact ⟨' ', _, rfl, rfl⟩

theorem wordsAfter_inj {names others : List String} {more : List Char}
    (hnames : ∀ name ∈ names, IsPlain name) (hothers : ∀ name ∈ others, IsPlain name)
    (hsame : wordsAfter gap rest names = wordsAfter gap more others) :
    names = others ∧ rest = more := by
  induction names generalizing others with
  | nil =>
      cases others with
      | nil => exact ⟨rfl, by simpa [wordsAfter] using hsame⟩
      | cons name others => simp [wordsAfter] at hsame
  | cons name names ih =>
      cases others with
      | nil => simp [wordsAfter] at hsame
      | cons other others =>
          rw [List.forall_mem_cons] at hnames hothers
          have hafter := List.append_cancel_left (List.cons_inj_right _ |>.mp hsame)
          obtain ⟨hname, htail⟩ := plain_inj hnames.1 hothers.1 (ends_wordsAfter _ _ _)
            (ends_wordsAfter _ _ _) hafter
          obtain ⟨hrest, hmore⟩ := ih hnames.2 hothers.2 htail
          exact ⟨by rw [hname, hrest], hmore⟩

/-! ## The parts of a Makefile -/

/-- What stands between two sources, but for the space it begins with. -/
def sourceGap : List Char :=
  "\\\n        ".toList

theorem toList_intercalate_sources (sources : List String) :
    (" \\\n        ".intercalate sources).toList ++ '\n' :: rest =
      (sources.headD "").toList ++ wordsAfter sourceGap rest sources.tail := by
  induction sources with
  | nil => rfl
  | cons source others ih =>
      cases others with
      | nil => simp [wordsAfter]
      | cons next others =>
          have hgap : " \\\n        ".toList = ' ' :: sourceGap := rfl
          rw [String.intercalate_cons_cons, String.toList_append, String.toList_append,
            List.append_assoc, ih, hgap, List.append_assoc]
          rfl

theorem toList_sourceList (sources : List String) :
    (sourceList sources).toList ++ rest = "SOURCES=".toList ++
      ((sources.headD "").toList ++ wordsAfter sourceGap rest sources.tail) := by
  rw [← toList_intercalate_sources]
  simp [sourceList]

/-- The list of sources shows the sources, but for an empty one, which looks like a list of
one empty name. -/
theorem sourceList_inj {sources others : List String} {more : List Char}
    (hsources : ∀ source ∈ sources, IsPlain source) (hothers : ∀ source ∈ others, IsPlain source)
    (hsame : (sourceList sources).toList ++ rest = (sourceList others).toList ++ more) :
    sources.headD "" = others.headD "" ∧ sources.tail = others.tail ∧ rest = more := by
  have hhead : ∀ names : List String, (∀ name ∈ names, IsPlain name) →
      IsPlain (names.headD "") := by
    intro names hnames
    cases names with
    | nil => exact fun c hc => nomatch hc
    | cons name names => exact hnames name List.mem_cons_self
  rw [toList_sourceList, toList_sourceList] at hsame
  obtain ⟨hfirst, hrest⟩ := plain_inj (hhead sources hsources) (hhead others hothers)
    (ends_wordsAfter _ _ _) (ends_wordsAfter _ _ _) (List.append_cancel_left hsame)
  exact ⟨hfirst, wordsAfter_inj (fun name hname => hsources name (List.mem_of_mem_tail hname))
    (fun name hname => hothers name (List.mem_of_mem_tail hname)) hrest⟩

theorem toList_join_paths (paths : List String) :
    (String.join (paths.map fun path => " " ++ path)).toList ++ '\n' :: rest =
      wordsAfter [] rest paths := by
  induction paths with
  | nil => rfl
  | cons path paths ih =>
      rw [wordsAfter, ← ih]
      simp

theorem toList_rule (settings : MakefileSettings) (entry : String × Prerequisites) :
    (rule settings entry).toList ++ rest = '\n' :: ((target settings entry.1).toList ++ ':' ::
      wordsAfter [] (compileCommand.toList ++ rest) entry.2.paths) := by
  rw [← toList_join_paths]
  simp [rule]

theorem eq_of_headD_of_tail {sources others : List String} (hempty : sources = [] ↔ others = [])
    (hhead : sources.headD "" = others.headD "") (htail : sources.tail = others.tail) :
    sources = others := by
  cases sources with
  | nil => exact (hempty.mp rfl).symm
  | cons source sources =>
      cases others with
      | nil => exact hempty.mpr rfl
      | cons other others =>
          obtain rfl : source = other := hhead
          obtain rfl : sources = others := htail
          rfl

theorem rules_eq_empty_iff {settings : MakefileSettings}
    {entries : List (String × Prerequisites)} :
    String.join (entries.map (rule settings)) = "" ↔ entries = [] := by
  cases entries with
  | nil => simp
  | cons entry entries => simp [rule]

/-- The rules for the same sources show their prerequisites. -/
theorem rules_inj {settings : MakefileSettings} {entries others : List (String × Prerequisites)}
    (hentries : ∀ entry ∈ entries, ∀ path ∈ entry.2.paths, IsPlain path)
    (hothers : ∀ entry ∈ others, ∀ path ∈ entry.2.paths, IsPlain path)
    (hsources : entries.map Prod.fst = others.map Prod.fst)
    (hsame : String.join (entries.map (rule settings)) =
      String.join (others.map (rule settings))) : entries = others := by
  induction entries generalizing others with
  | nil => exact (List.map_eq_nil_iff.mp hsources.symm).symm
  | cons entry entries ih =>
      cases others with
      | nil => cases hsources
      | cons other others =>
          rw [List.forall_mem_cons] at hentries hothers
          rw [List.map_cons, List.map_cons, List.cons.injEq] at hsources
          obtain ⟨hsource, hsources⟩ := hsources
          have htexts := congrArg String.toList hsame
          rw [List.map_cons, List.map_cons, String.join_cons, String.join_cons,
            String.toList_append, String.toList_append, toList_rule, toList_rule, hsource] at htexts
          -- the same source has the same target
          have hlines := List.cons_inj_right _ |>.mp
            (List.append_cancel_left (List.cons_inj_right _ |>.mp htexts))
          obtain ⟨hpaths, hrest⟩ := wordsAfter_inj hentries.1 hothers.1 hlines
          have hrules := String.toList_inj.mp (List.append_cancel_left hrest)
          have hentry : entry = other := Prod.ext hsource (Prerequisites.paths_inj.mp hpaths)
          rw [hentry, ih hentries.2 hothers.2 hsources hrules]

end Makefile

open Makefile

/-- The names in a graph show where they end. -/
def Graph.IsPlain (graph : Graph) : Prop :=
  ∀ entry ∈ graph.entries, Makefile.IsPlain entry.1 ∧
    ∀ path ∈ entry.2.paths, Makefile.IsPlain path

instance (graph : Graph) : Decidable graph.IsPlain :=
  inferInstanceAs (Decidable (∀ entry ∈ graph.entries, Makefile.IsPlain entry.1 ∧
    ∀ path ∈ entry.2.paths, Makefile.IsPlain path))

theorem Graph.IsPlain.sources {graph : Graph} (hplain : graph.IsPlain) :
    ∀ source ∈ graph.sources, Makefile.IsPlain source := by
  intro source hsource
  obtain ⟨entry, hentry, rfl⟩ := List.mem_map.mp hsource
  exact (hplain entry hentry).1

/-- **A Makefile determines its graph.**  Under the same settings, whatever these are,
graphs have the same Makefile only if they list the same sources in the same order, each
with the same prerequisites in the same order. -/
theorem Graph.makefile_eq_iff (settings : MakefileSettings) (first second : Graph)
    (hfirst : first.IsPlain) (hsecond : second.IsPlain) :
    first.makefile settings = second.makefile settings ↔ first.entries = second.entries := by
  constructor
  · intro hsame
    have htexts := congrArg String.toList hsame
    simp only [makefile, String.toList_append, List.append_assoc] at htexts
    obtain ⟨hhead, htail, hrest⟩ := sourceList_inj hfirst.sources hsecond.sources htexts
    have hrules := String.toList_inj.mp
      (List.append_cancel_left (List.append_cancel_left hrest))
    -- no rules stand below an empty list, but one does below a list of one empty name
    have hempty : first.sources = [] ↔ second.sources = [] := by
      rw [sources, sources, List.map_eq_nil_iff, List.map_eq_nil_iff, ← rules_eq_empty_iff, hrules,
        rules_eq_empty_iff]
    have hsources : first.sources = second.sources := eq_of_headD_of_tail hempty hhead htail
    exact rules_inj (fun entry hentry => (hfirst entry hentry).2)
      (fun entry hentry => (hsecond entry hentry).2) hsources hrules
  · intro hentries
    rw [makefile, makefile, sources, sources, hentries]

/-- A graph with a source that is named like the mark between two sources and depends on
nothing. -/
def Graph.slashed (extension : String) : Graph where
  entries := [("a" ++ extension, .ofList ["\\", "b:"]), ("\\", .ofList [])]
  skipped := []
  nodup := by
    have hne : "a" ++ extension ≠ "\\" := fun h => by
      simpa using congrArg (·.toList.head?) h
    simpa using hne

/-- Both rules are the same for `a.c` and `a.cpp`. -/
theorem Graph.makefile_eq_iff_slashed :
    (Graph.slashed ".c").IsPlain ∧ (Graph.slashed ".cpp").IsPlain ∧
      (Graph.slashed ".c").entries.map (rule {}) = (Graph.slashed ".cpp").entries.map (rule {}) ∧
      (Graph.slashed ".c").makefile {} ≠ (Graph.slashed ".cpp").makefile {} := by
  have hfirst : (Graph.slashed ".c").IsPlain := by decide +kernel
  have hsecond : (Graph.slashed ".cpp").IsPlain := by decide +kernel
  refine ⟨hfirst, hsecond, by decide +kernel, fun hsame => ?_⟩
  have hentries := (makefile_eq_iff {} _ _ hfirst hsecond).mp hsame
  exact absurd (congrArg (List.map Prod.fst) hentries) (by decide)

end IncludeDeps
