/-!
# Files of the working directory

A path is followed name by name from the working directory. What is known are the files in that
directory and that there are directories above it.
-/

namespace CellFormula.Command

/-- Why a path leads to no file. -/
inductive FileFault where
  | notFound
  | notDirectory
  | isDirectory
  | nameTooLong
  deriving DecidableEq

namespace FileFault

def all : List FileFault :=
  [.notFound, .notDirectory, .isDirectory, .nameTooLong]

/-- The number that the system has for the fault. -/
def code : FileFault → Nat
  | .notFound => 2
  | .notDirectory => 20
  | .isDirectory => 21
  | .nameTooLong => 36

def ofCode? (code : Nat) : Option FileFault :=
  all.find? (·.code == code)

def words : FileFault → String
  | .notFound => "No such file or directory"
  | .notDirectory => "Not a directory"
  | .isDirectory => "Is a directory"
  | .nameTooLong => "File name too long"

def message (fault : FileFault) : String :=
  s!"{fault.words} (os error {fault.code})"

end FileFault

/-- The contents of the files in the working directory, by name. -/
abbrev Files :=
  List (String × String)

namespace Files

/-- Follows the names of a path from a directory `above` levels over the working directory. -/
def follow (files : Files) (above : Nat) : List String → Except FileFault String
  | [] => .error .isDirectory
  | name :: rest =>
    if name = "" ∨ name = "." then follow files above rest
    else if name = ".." then follow files (above + 1) rest
    else if 255 < name.utf8ByteSize then .error .nameTooLong
    else match above, files.lookup name with
      | 0, some content => if rest.isEmpty then .ok content else .error .notDirectory
      | _, _ => .error .notFound

/-- The content of the file that a path leads to. What an absolute path names is not known. -/
def read (files : Files) (path : String) : Except FileFault String :=
  if 4096 ≤ path.utf8ByteSize then .error .nameTooLong
  else follow files (if path.toList.head? = some '/' then 1 else 0) (path.splitOn "/")

end Files

end CellFormula.Command
