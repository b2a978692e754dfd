import Ogg.Bytes

/-!
# Files and folders

What a path leads to in a tree of files and folders, one of them being the folder
that the program works in. A path is a sequence of steps between slashes, taken
from the left: the empty step and `.` stay where they are, `..` goes up, any other
step goes down by name. Only a folder can be stepped from, even to stay there, so
a path that goes on after a file leads nowhere. The first step that cannot be
taken decides; a path that is too long as a whole is refused before its first step.
-/

namespace Ogg.CommandLine

/-- Why a path leads to no bytes. -/
inductive PathError where
  /-- There is nothing of that name. -/
  | missing
  /-- It goes on after a file. -/
  | notFolder
  /-- It leads to a folder. -/
  | folder
  /-- It, or a name in it, is too long. -/
  | tooLong
  deriving DecidableEq, Repr

/-- The system's words for a path that leads to no bytes. -/
def PathError.message : PathError → String
  | missing => "No such file or directory (os error 2)"
  | notFolder => "Not a directory (os error 20)"
  | folder => "Is a directory (os error 21)"
  | tooLong => "File name too long (os error 36)"

/-- The most bytes that a name can have. -/
def maxNameLength : Nat := 255

/-- The most bytes that a path can have. -/
def maxPathLength : Nat := 4095

/-- A file, or a folder and what is in it. -/
inductive FileTree where
  /-- A file of the given bytes. -/
  | file (data : Bytes)
  /-- A folder. -/
  | folder (entries : List (String × FileTree))

namespace FileTree

/-- A folder that holds files written one after another: of two with the same name the
later is there. -/
def ofFiles (files : List (String × Bytes)) : FileTree :=
  folder (files.reverse.map fun (name, data) => (name, file data))

end FileTree

/-- A place in a tree of files and folders. -/
structure Place where
  /-- What is at the place. -/
  here : FileTree
  /-- The folders it lies in, the innermost first. -/
  above : List FileTree := []

namespace Place

/-- The folder that the place lies in; the outermost folder lies in itself. -/
def up (p : Place) : Place :=
  match p.above with
  | [] => p
  | outer :: rest => ⟨outer, rest⟩

/-- The outermost folder. -/
def top (p : Place) : Place :=
  match p.above.getLast? with
  | some outer => ⟨outer, []⟩
  | none => p

/-- One step of a path. -/
def enter (p : Place) (step : String) : Except PathError Place :=
  match p.here with
  | .file _ => .error .notFolder
  | .folder entries =>
    if step = "" ∨ step = "." then .ok p
    else if step = ".." then .ok p.up
    else if maxNameLength < step.utf8ByteSize then .error .tooLong
    else
      match entries.lookup step with
      | some found => .ok ⟨found, p.here :: p.above⟩
      | none => .error .missing

/-- The steps of a path, one after another. -/
def walk (p : Place) : List String → Except PathError Place
  | [] => .ok p
  | step :: rest => (p.enter step).bind fun next => next.walk rest

/-- The place that a path leads to. A path that begins with a slash begins at the top. -/
def follow (p : Place) (path : String) : Except PathError Place :=
  if path = "" then .error .missing
  else if maxPathLength < path.utf8ByteSize then .error .tooLong
  else (if path.startsWith "/" then p.top else p).walk (path.splitOn "/")

/-- The bytes that a path leads to. -/
def read (p : Place) (path : String) : Except PathError Bytes :=
  match p.follow path with
  | .error e => .error e
  | .ok ⟨.file data, _⟩ => .ok data
  | .ok ⟨.folder _, _⟩ => .error .folder

end Place

end Ogg.CommandLine
