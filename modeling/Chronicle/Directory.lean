/-!
Files in directories, and how a path leads to one: its names, with slashes between them, are
followed one by one, and the first that cannot be followed tells why.
-/

namespace Chronicle

/-- Why a file cannot be read. -/
inductive ReadError where
  | notFound
  | permissionDenied
  | notDirectory
  | isDirectory
  | nameTooLong
  | notText
  | failed (number : Nat)
  deriving DecidableEq

namespace ReadError

/-- The cause that the system has a number for. -/
def ofNumber : Nat → ReadError
  | 2 => notFound
  | 13 => permissionDenied
  | 20 => notDirectory
  | 21 => isDirectory
  | 36 => nameTooLong
  | n => failed n

def message : ReadError → String
  | notFound => "No such file or directory (os error 2)"
  | permissionDenied => "Permission denied (os error 13)"
  | notDirectory => "Not a directory (os error 20)"
  | isDirectory => "Is a directory (os error 21)"
  | nameTooLong => "File name too long (os error 36)"
  | notText => "stream did not contain valid UTF-8"
  | failed n => "Input/output error (os error " ++ toString n ++ ")"

end ReadError

inductive FileTree where
  | file (text : String)
  | directory (entries : List (String × FileTree))

abbrev Directory := List (String × FileTree)

/-- A file or directory, and the directories above it, the nearest first. -/
structure Place where
  here : FileTree
  above : List Directory

namespace Place

/-- The most bytes that a name may have. -/
def longestName : Nat := 255

/-- The most bytes that a path may have. -/
def longestPath : Nat := 4095

/-- The directory above. The topmost one is above itself. -/
def up (p : Place) : Place :=
  match p.above with
  | d :: ds => ⟨.directory d, ds⟩
  | [] => p

def top (p : Place) : Place :=
  match p.above.getLast? with
  | some d => ⟨.directory d, []⟩
  | none => p

/-- Follows one name. An empty name and a dot stay, but only in a directory. -/
def step (p : Place) (name : String) : Except ReadError Place :=
  match p.here with
  | .file _ => .error .notDirectory
  | .directory entries =>
    if name = "" ∨ name = "." then .ok p
    else if name = ".." then .ok p.up
    else if longestName < name.utf8ByteSize then .error .nameTooLong
    else
      match entries.lookup name with
      | some e => .ok ⟨e, entries :: p.above⟩
      | none => .error .notFound

/-- Follows a path, from the top if it starts with a slash. -/
def follow (p : Place) (path : String) : Except ReadError Place :=
  if path = "" then .error .notFound
  else if longestPath < path.utf8ByteSize then .error .nameTooLong
  else (path.splitOn "/").foldlM step (if path.startsWith "/" then p.top else p)

def read (p : Place) (path : String) : Except ReadError String := do
  match (← p.follow path).here with
  | .file text => return text
  | .directory _ => throw .isDirectory

end Place

end Chronicle
