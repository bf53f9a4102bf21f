import FlatSol.Path.Basic

/-!
# Faults of the file tree

Why an operation on the file tree fails, and the error that a caller sees.
-/

namespace FlatSol

inductive Fault
  | notFound
  | notDirectory
  | isDirectory
  | alreadyExists
  | tooManyLinks
  | nameTooLong
  /-- The path ends in `.`, in `..` or at the root, where no entry can be replaced. -/
  | busy
  | nulInPath
  | notUtf8
deriving DecidableEq, Repr

def Fault.cause : Fault → Text
  | .notFound => "No such file or directory (os error 2)".toList
  | .notDirectory => "Not a directory (os error 20)".toList
  | .isDirectory => "Is a directory (os error 21)".toList
  | .alreadyExists => "File exists (os error 17)".toList
  | .tooManyLinks => "Too many levels of symbolic links (os error 40)".toList
  | .nameTooLong => "File name too long (os error 36)".toList
  | .busy => "Device or resource busy (os error 16)".toList
  | .nulInPath => "file name contained an unexpected NUL byte".toList
  | .notUtf8 => "stream did not contain valid UTF-8".toList

inductive Attempt
  | readFile
  | readSettings
  | writeFile
  | createDirectory
  /-- Making the file that is then moved to its place; the path is that of its directory. -/
  | createTemporary
deriving DecidableEq, Repr

def Attempt.text : Attempt → Text
  | .readFile => "failed to read file: ".toList
  | .readSettings => "failed to read flatten config: ".toList
  | .writeFile => "failed to write file: ".toList
  | .createDirectory => "failed to create directory: ".toList
  | .createTemporary => "failed to create temporary file in: ".toList

structure IoError where
  attempt : Attempt
  path : Path
  fault : Fault
deriving DecidableEq, Repr

namespace IoError

/-- What was attempted, and where. -/
def message (e : IoError) : Text :=
  e.attempt.text ++ e.path.text

def chain (e : IoError) : Text :=
  e.message ++ ": ".toList ++ e.fault.cause

end IoError

end FlatSol
