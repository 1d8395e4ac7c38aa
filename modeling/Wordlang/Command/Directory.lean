/-!
# Files by their paths

A working directory as a value, and what a path leads to in it. A path is a list of names between
slashes; every name but the last has to be that of a directory, and behind a final slash the last
one too.
-/

namespace Wordlang.Command

/-- Why a path cannot be used. -/
inductive PathFault where
  /-- It leads nowhere. -/
  | absent
  /-- It leads to a directory. -/
  | isDirectory
  /-- A name on the way is that of a file. -/
  | notDirectory
  /-- It holds a character that no path can hold. -/
  | invalid
  /-- A name in it is too long. -/
  | tooLong
  /-- Something else. -/
  | other (reason : String)
  deriving DecidableEq, Repr, Inhabited

/-- The wording of a fault. -/
def PathFault.reason : PathFault → String
  | absent => "no such file or directory"
  | isDirectory => "is a directory"
  | notDirectory => "not a directory"
  | invalid => "invalid argument"
  | tooLong => "file name too long"
  | other reason => reason

/-- What cannot be done with a file, and why. -/
inductive FileError where
  /-- It cannot be opened. -/
  | opening (path : String) (fault : PathFault)
  /-- It cannot be read. -/
  | reading (path : String) (fault : PathFault)
  deriving DecidableEq, Repr, Inhabited

/-- The wording of an error. -/
def FileError.message : FileError → String
  | opening path fault => "open " ++ path ++ ": " ++ fault.reason
  | reading path fault => "read " ++ path ++ ": " ++ fault.reason

/-- A path in a working directory: the names on the way. -/
abbrev Path := List String

/-- A working directory. -/
structure Directory where
  /-- The files. -/
  files : List (Path × List UInt8) := []
  /-- The directories, besides those that files are in. -/
  folders : List Path := []
  deriving Repr, Inhabited

/-- What a path leads to. -/
inductive Place where
  /-- A file. -/
  | file (bytes : List UInt8)
  /-- A directory. -/
  | folder
  /-- Nothing, in a directory that exists. -/
  | free
  deriving DecidableEq, Repr, Inhabited

/-- How many bytes a name may have. -/
def nameLimit : Nat := 255

namespace Directory

/-- What is at a path, of which everything but the last name exists. -/
def place (d : Directory) (path : Path) : Place :=
  match d.files.lookup path with
  | some bytes => .file bytes
  | none =>
    if path.isEmpty || d.folders.any path.isPrefixOf || d.files.any (path.isPrefixOf ·.1) then
      .folder
    else .free

/-- Whether names only lead up, or nowhere else. -/
def leadsUp (names : List String) : Bool := names.all fun n => n = "." || n = ".."

/-- Follows names from a directory on. Above the working directory there are directories and nothing
else. -/
def follow (d : Directory) (here : Path) : List String → Except PathFault (Path × Place)
  | [] => .ok (here, .folder)
  | n :: rest =>
    if n = "." then follow d here rest
    else if n = ".." then
      if !here.isEmpty then follow d here.dropLast rest
      else if leadsUp rest then .ok ([], .folder)
      else .error .absent
    else if nameLimit < n.utf8ByteSize then .error .tooLong
    else
      let path := here ++ [n]
      match d.place path, rest with
      | .folder, _ => follow d path rest
      | p, [] => .ok (path, p)
      | .file _, _ :: _ => .error .notDirectory
      | .free, _ :: _ => .error .absent

/-- The names in a path, and whether a slash is at its end. -/
def names (path : String) : List String × Bool :=
  ((path.splitOn "/").filter (· ≠ ""), path.toList.getLast? = some '/')

/-- What a path leads to. -/
def find (d : Directory) (path : String) : Except PathFault (Path × Place) :=
  if path = "" then .error .absent
  else if path.toList.contains '\x00' then .error .invalid
  else if path.toList.head? = some '/' then .error .absent
  else d.follow [] (names path).1

/-- The contents of a file. -/
def read (d : Directory) (path : String) : Except FileError (List UInt8) :=
  match d.find path with
  | .error f => .error (.opening path f)
  | .ok (_, .folder) => .error (.reading path .isDirectory)
  | .ok (_, .free) => .error (.opening path .absent)
  | .ok (_, .file bytes) =>
    if (names path).2 then .error (.opening path .notDirectory) else .ok bytes

/-- The place where a file is written, whether or not there is one already. -/
def writePath (d : Directory) (path : String) : Except FileError Path :=
  match d.find path with
  | .error f => .error (.opening path f)
  | .ok (_, .folder) => .error (.opening path .isDirectory)
  | .ok (p, _) =>
    if (names path).2 then .error (.opening path .isDirectory) else .ok p

end Directory

end Wordlang.Command
