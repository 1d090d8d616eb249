/-!
# File faults

The reasons for which an operation on a file or a directory fails.
-/

namespace IncludeDeps

/-- Why an operation on a file or a directory failed. -/
inductive Fault where
  /-- A piece of the path does not exist. -/
  | notFound
  /-- Something is already there. -/
  | alreadyExists
  /-- A file stands where the path needs a directory. -/
  | notADirectory
  /-- A directory stands where a file is needed. -/
  | isADirectory
  /-- The path leaves the directory that it is confined to. -/
  | outsideRoot
  /-- The path holds a null byte. -/
  | invalidPath
  /-- The path holds a null byte and was refused before the system saw it. -/
  | nullByte
  /-- The path is longer than a path may be, or a piece of it longer than a
  name may be. -/
  | nameTooLong
  /-- The path ends in a piece that is not a name. -/
  | busy
  /-- The system refuses for a reason of its own, which it words: a full device, a
  missing permission. -/
  | refused (wording : String)
  deriving DecidableEq, Repr

/-- The wording of a fault. -/
def Fault.text : Fault → String
  | notFound => "No such file or directory (os error 2)"
  | alreadyExists => "File exists (os error 17)"
  | notADirectory => "Not a directory (os error 20)"
  | isADirectory => "Is a directory (os error 21)"
  | outsideRoot => "a path led outside of the filesystem"
  | invalidPath => "Invalid argument (os error 22)"
  | nullByte => "file name contained an unexpected NUL byte"
  | nameTooLong => "File name too long (os error 36)"
  | busy => "Device or resource busy (os error 16)"
  | refused wording => wording

end IncludeDeps
