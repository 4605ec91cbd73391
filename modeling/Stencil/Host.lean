import Stencil.Path
/-!
# Host — what commands need of the machine they run on

A host reads and writes files and directories and takes what a command prints and reports.  Commands are written for
any host, so that what they do can be run on a real machine and reasoned about on one that is a value.
-/
namespace Stencil

inductive IoFailure
  | notFound
  | exists
  | notDirectory
  | isDirectory
  | nameTooLong
  | nulByte
  /-- Only the contents of files can be copied. -/
  | notRegular
  | invalidUtf8
  | other (message : String)
deriving DecidableEq, Repr

def IoFailure.message : IoFailure → String
  | .notFound => "No such file or directory (os error 2)"
  | .exists => "File exists (os error 17)"
  | .notDirectory => "Not a directory (os error 20)"
  | .isDirectory => "Is a directory (os error 21)"
  | .nameTooLong => "File name too long (os error 36)"
  | .nulByte => "file name contained an unexpected NUL byte"
  | .notRegular => "the source path is neither a regular file nor a symlink to a regular file"
  | .invalidUtf8 => "stream did not contain valid UTF-8"
  | .other message => message

structure Found where
  path : Path
  name : Bytes
  isDir : Bool
deriving Repr

/-- What a walk finds, in order, and the directory at which it ends early because that cannot be read. -/
structure Walk where
  found : List Found
  failure : Option (Path × IoFailure)
deriving Repr

class Host (m : Type → Type) where
  readFile : Path → m (Except IoFailure Bytes)
  writeFile : Path → Bytes → m (Except IoFailure Unit)
  /-- Makes the second path a file with the contents of the first.  The second is emptied before the first is read. -/
  copyFile : Path → Path → m (Except IoFailure Unit)
  /-- Makes a directory and all that are missing above it.  Those that could be made stay when a later one fails. -/
  createDir : Path → m (Except IoFailure Unit)
  isDir : Path → m Bool
  pathExists : Path → m Bool
  /-- Everything below a directory, each directory before what is in it, entries of one directory by name. -/
  walk : Path → m Walk
  print : Bytes → m Unit
  report : String → m Unit

end Stencil
