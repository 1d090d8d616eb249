import IncludeDeps.Proofs.Resolution.Agreement
import IncludeDeps.Proofs.Resolution.Failure

/-!
# Strict readings

A strict reading follows every directive, any other reading drops the angle
bracket directives whose target is absent.  The two differ on no file all of
whose targets are present (`alike_of_present`).  A strict resolution that
succeeds has read every target that it met, and what can be read is present; so
it drops nothing when it is not strict, and `Walks.transfer` applies.

A strict resolution that fails may have gone another way before it failed,
since a directive that is dropped otherwise may be moved to the front.  But a
chain of includes that ends in a readable file leads through readable files
only, and so through none that is dropped (`includes_of_strict`).  Hence the
file that the error refers to is reached in both readings, and the directive is
one of those that make the difference.
-/

namespace IncludeDeps.SourceDirectory

open Relation

variable {directory : SourceDirectory}

/-- Where all targets of a file are present, no directive is dropped, strict or
not. -/
theorem alike_of_present {file : String} {content : List UInt8}
    (hread : directory.read file = .ok content)
    (hpresent : ∀ directive ∈ directivesOf content, directory.present directive.target = true) :
    directory.Alike directory true false file := by
  have hkeeps : ∀ directive ∈ directivesOf content,
      directory.keeps true directive = directory.keeps false directive := by
    intro directive hmem
    rw [keeps_iff.mpr (Or.inr (Or.inr rfl)),
      keeps_iff.mpr (Or.inr (Or.inl (hpresent directive hmem)))]
  refine ⟨content, content, hread, hread, ?_, ?_⟩
  · exact congrArg _ (List.filter_congr hkeeps)
  · refine congrArg _ (List.filter_congr fun directive hmem => ?_)
    rw [hkeeps directive hmem]

section

variable {root : String}
  (hlookup : ∀ path content, directory.read path = .ok content → directory.present path = true)

include hlookup

/-- A file that a strict reading reaches is reached by any reading, if it can be
read. -/
theorem includes_of_strict {path : String} {content : List UInt8}
    (hreached : ReflTransGen (directory.Includes true) root path)
    (hread : directory.read path = .ok content) :
    ReflTransGen (directory.Includes false) root path := by
  induction hreached generalizing content with
  | refl => exact .refl
  | tail _ hincludes ih =>
      obtain ⟨text, htext, directive, hmem, htarget, -⟩ := hincludes
      exact (ih htext).tail
        ⟨text, htext, directive, hmem, htarget, Or.inr (Or.inl (hlookup _ content hread))⟩

/-- A strict walk that succeeds is also the walk that is not strict. -/
theorem Walks.lenient {outcome : Outcome (List String)} {found : List String}
    (hwalk : Walks directory true (.expand .sourceList root) [] (.rooted root) outcome)
    (hok : outcome.result = .ok found) :
    Walks directory false (.expand .sourceList root) [] (.rooted root) outcome := by
  refine hwalk.transfer hok (.expand .sourceList .sourceList root) fun file hfile => ?_
  obtain ⟨content, hread⟩ := (hwalk.readable hfile).resolve_right
    fun ⟨error, herror, _⟩ => by cases hok.symm.trans herror
  refine alike_of_present hread fun directive hmem => ?_
  -- the target of a file that was read is reached, and so it was read as well
  have hfileReached : ReflTransGen (directory.Includes true) root file := by
    by_cases hroot : file = root
    · rw [hroot]
    · exact hwalk.reflTransGen_of_mem_visited
        (hwalk.mem_visited_of_mem_reads hfile fun hown => hroot (List.mem_singleton.mp hown))
  have hincludes : directory.Includes true file directive.target :=
    ⟨content, hread, directive, hmem, rfl, Or.inr (Or.inr rfl)⟩
  obtain ⟨text, htext⟩ := hwalk.readable_of_ok hok (hfileReached.tail hincludes)
  exact hlookup directive.target text htext

end

/-! ## Main result -/

/-- **Strict readings only refuse more.**  Where every file that can be read is
present, a strict resolution that succeeds comes to the same when it is not
strict.  And if it fails while the other succeeds, its error refers to an angle
bracket directive with an absent target, in a file that the other reads too. -/
theorem resolveRoot_strict (directory : SourceDirectory) (root : String)
    (hlookup : ∀ path content, directory.read path = .ok content →
      directory.present path = true) :
    (∀ resolution, (directory.resolveRoot true root).result = .ok resolution →
      (directory.resolveRoot false root).result = .ok resolution) ∧
    ∀ resolution error, (directory.resolveRoot false root).result = .ok resolution →
      (directory.resolveRoot true root).result = .error error →
      ∃ file line content, error.referrer = .directive file line ∧
        file ∈ readsOf (directory.resolveRoot false root).steps ∧
        directory.read file = .ok content ∧ ⟨error.path, .angle, line⟩ ∈ directivesOf content ∧
        directory.present error.path = false := by
  constructor
  · intro resolution h
    obtain ⟨outcome, found, hwalk, hok, -⟩ := walkFrom_eq_ok h
    rw [resolveRoot, walkFrom_congr hwalk (hwalk.lenient hlookup hok)]
    exact h
  · intro resolution error hlenient hstrict
    obtain ⟨outcome, found, hwalk, hok, -, hsteps, -⟩ := walkFrom_eq_ok hlenient
    have hexplained := explained_of_error hstrict
    obtain ⟨fault, hfault, -⟩ := hexplained.cause
    -- whatever is reached without strictness can be read, and the file of the error cannot
    have hunreached : ¬ ReflTransGen (directory.Includes false) root error.path := by
      intro hreached
      obtain ⟨content, hread⟩ := hwalk.readable_of_ok hok hreached
      cases hread.symm.trans hfault
    have hpath : error.path ≠ root := fun hsame => hunreached (hsame ▸ .refl)
    obtain ⟨file, line, hreferrer, hfile, hline, -⟩ := hexplained.directive hpath
    obtain ⟨content, hread, directive, hmem, htarget, hnumber, -⟩ := hline
    have hreached := includes_of_strict hlookup hfile hread
    have hdropped : ¬ (directive.form = .quoted ∨ directory.present error.path = true) :=
      fun hkept => hunreached (hreached.tail
        ⟨content, hread, directive, hmem, htarget, hkept.imp_right Or.inl⟩)
    rw [not_or, Bool.not_eq_true] at hdropped
    refine ⟨file, line, content, hreferrer, ?_, hread, ?_, hdropped.2⟩
    · rw [resolveRoot, ← hsteps]
      exact hwalk.mem_reads_of_ok hok hreached
    · obtain ⟨target, form, number⟩ := directive
      obtain rfl : form = .angle := by
        cases form with
        | quoted => exact absurd rfl hdropped.1
        | angle => rfl
      rw [← htarget, ← hnumber]
      exact hmem

/-- In the directory of a tree a file that can be read can be looked up. -/
theorem present_of_read {tree : Tree} {location : Location} {path : String}
    {content : List UInt8} (hread : (tree.sources location).read path = .ok content) :
    (tree.sources location).present path = true := by
  change tree.read (.confined location) path = .ok content at hread
  cases hlocate : tree.locate (.confined location) path with
  | error fault => simp [Tree.read, hlocate, bind, Except.bind] at hread
  | ok found => simp [Tree.sources, hlocate, Except.toOption]

/-- A source whose own header is one of the system. -/
def hosted : Tree :=
  .file (Text.bytes "a.c") (Text.bytes "#include \"b.h\"\n#include <b.h>\n")
    (.file (Text.bytes "b.h") (Text.bytes "#include \"c.h\"\n#include <sys/b.h>\n")
      (.file (Text.bytes "c.h") [] .empty))

/-- A strict reading stops at the own header of `b.h`, before it comes to `c.h`;
it makes no difference for `knot`, whose files are all present. -/
theorem resolveRoot_strict_hosted :
    ((hosted.sources []).resolveRoot true "a.c").result =
      .error (.missingFile "sys/b.h" (.directive "b.h" 2)) ∧
    ((hosted.sources []).resolveRoot false "a.c").result = .ok ⟨.ofList ["b.h", "c.h"], []⟩ ∧
    "b.h" ∈ readsOf ((hosted.sources []).resolveRoot false "a.c").steps ∧
    (hosted.sources []).present "sys/b.h" = false ∧
    ((knot.sources []).resolveRoot true "a.c").result = .ok knotResolution ∧
    ((knot.sources []).resolveRoot false "a.c").result = .ok knotResolution := by
  have hstrict : ((hosted.sources []).resolveRoot true "a.c").result =
      .error (.missingFile "sys/b.h" (.directive "b.h" 2)) := rfl
  have hlenient : ((hosted.sources []).resolveRoot false "a.c").result =
      .ok ⟨.ofList ["b.h", "c.h"], []⟩ := rfl
  have hknot : ((knot.sources []).resolveRoot true "a.c").result = .ok knotResolution := rfl
  obtain ⟨-, hfails⟩ := resolveRoot_strict (hosted.sources []) "a.c" fun _ _ => present_of_read
  obtain ⟨hagrees, -⟩ := resolveRoot_strict (knot.sources []) "a.c" fun _ _ => present_of_read
  obtain ⟨file, line, content, hreferrer, hreads, -, -, habsent⟩ := hfails _ _ hlenient hstrict
  obtain ⟨rfl, rfl⟩ := Referrer.directive.inj hreferrer
  exact ⟨hstrict, hlenient, hreads, habsent, hknot, hagrees _ hknot⟩

end IncludeDeps.SourceDirectory
