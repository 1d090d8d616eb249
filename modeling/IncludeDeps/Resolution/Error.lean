import IncludeDeps.Fault

/-!
# Why a resolution fails
-/

namespace IncludeDeps

/-- What asked for a file. -/
inductive Referrer where
  /-- The list of sources. -/
  | sourceList
  /-- A directive of a file. -/
  | directive (file : String) (line : Nat)
  deriving DecidableEq, Repr

/-- The wording of a referrer. -/
def Referrer.text : Referrer → String
  | sourceList => "the source list"
  | directive file line => "`" ++ file ++ "` (line " ++ toString line ++ ")"

/-- Why a file could not be resolved. -/
inductive ResolveError where
  /-- A file does not exist. -/
  | missingFile (path : String) (referrer : Referrer)
  /-- A file exists but could not be read. -/
  | unreadableFile (path : String) (referrer : Referrer) (cause : Fault)
  deriving DecidableEq, Repr

namespace ResolveError

/-- The error for a file whose reading failed. -/
def ofFault (path : String) (referrer : Referrer) : Fault → ResolveError
  | .notFound => missingFile path referrer
  | cause => unreadableFile path referrer cause

/-- The file that could not be resolved. -/
def path : ResolveError → String
  | missingFile path _ | unreadableFile path _ _ => path

/-- What asked for that file. -/
def referrer : ResolveError → Referrer
  | missingFile _ referrer | unreadableFile _ referrer _ => referrer

@[simp] theorem path_ofFault (file : String) (asker : Referrer) (fault : Fault) :
    (ofFault file asker fault).path = file := by
  cases fault <;> rfl

@[simp] theorem referrer_ofFault (file : String) (asker : Referrer) (fault : Fault) :
    (ofFault file asker fault).referrer = asker := by
  cases fault <;> rfl

/-- The fault behind the error, where it has one to show. -/
def cause? : ResolveError → Option Fault
  | missingFile _ _ => none
  | unreadableFile _ _ cause => some cause

/-- The wording of the error without its cause. -/
def message : ResolveError → String
  | missingFile path referrer =>
    "`" ++ path ++ "` referenced by " ++ referrer.text ++ " does not exist"
  | unreadableFile path referrer _ =>
    "`" ++ path ++ "` referenced by " ++ referrer.text ++ " could not be read"

/-- The code that names the kind of the error. -/
def code : ResolveError → String
  | missingFile _ _ => "mkdeps::resolve::missing_file"
  | unreadableFile _ _ _ => "mkdeps::resolve::unreadable_file"

/-- The advice that goes with the error. -/
def help? : ResolveError → Option String
  | missingFile _ _ => some "include targets are looked up relative to the source directory"
  | unreadableFile _ _ _ => none

end ResolveError

end IncludeDeps
