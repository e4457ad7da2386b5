import EightBit.Text.Numeral

/-!
# Files

What reading a file by its path yields. Source text is the UTF-8 reading of the
bytes of a file (`EightBit.sourceText`), and a path that leads to no such bytes
has a reason for it (`EightBit.Unreadable`).

Paths are followed in a tree of directories (`EightBit.Folder.read`), so that what
the command line does can be said without a file system at hand. A path goes from
name to name; the names `.` and `..` stand for a directory itself and for the one
it is in, and the topmost directory is in itself. The first name that cannot be
followed is the one that counts: `missing/..` leads nowhere, although `..` would
lead back.
-/

namespace EightBit

/-- Why a source file cannot be read. -/
inductive Unreadable where
  /-- There is no such file. -/
  | missing
  /-- The file may not be read. -/
  | denied
  /-- Part of the path is a file and not a directory. -/
  | notDirectory
  /-- The path is that of a directory. -/
  | directory
  /-- The path, or a name in it, is too long to be looked up. -/
  | nameTooLong
  /-- The file is not UTF-8. -/
  | notText
  /-- Any other reason, in words. -/
  | other (reason : String)
deriving DecidableEq, Repr

/-- Why a source file cannot be read, in words. -/
def Unreadable.message : Unreadable → String
  | missing => "No such file or directory (os error 2)"
  | denied => "Permission denied (os error 13)"
  | notDirectory => "Not a directory (os error 20)"
  | directory => "Is a directory (os error 21)"
  | nameTooLong => "File name too long (os error 36)"
  | notText => "stream did not contain valid UTF-8"
  | other reason => reason

/-- **The source text that bytes spell.** -/
def sourceText (bytes : ByteArray) : Except Unreadable Text :=
  match String.fromUTF8? bytes with
  | some text => .ok text.toList
  | none => .error .notText

/-! ### Directories -/

/-- **A file or a directory.** -/
inductive FileTree where
  /-- A file with its bytes. -/
  | file (bytes : ByteArray)
  /-- A directory with what it holds, by name. -/
  | directory (entries : List (String × FileTree))

/-- **A place among directories**: what the directory there holds, and what those
above it hold, the nearest first. -/
structure Folder where
  entries : List (String × FileTree)
  above : List (List (String × FileTree)) := []

namespace Folder

/-- The number of bytes in the longest name of a file. -/
def maxNameLength : Nat := 255

/-- The number of bytes in the longest path. -/
def maxPathLength : Nat := 4095

/-- The directory that a directory is in. -/
def parent (here : Folder) : Folder :=
  match here.above with
  | [] => here
  | entries :: above => { entries, above }

/-- The topmost directory. -/
def root (here : Folder) : Folder :=
  { entries := here.above.getLast?.getD here.entries }

/-- The bytes that the remaining names of a path lead to. Only the last name can be
that of a file, and not even a slash may follow it. -/
def follow (here : Folder) : (names : List String) → Except Unreadable ByteArray
  | [] => .error .directory
  | name :: rest =>
    if name = "" ∨ name = "." then here.follow rest
    else if name = ".." then here.parent.follow rest
    else if maxNameLength < name.utf8ByteSize then .error .nameTooLong
    else
      match here.entries.lookup name with
      | none => .error .missing
      | some (.directory entries) =>
        follow { entries, above := here.entries :: here.above } rest
      | some (.file bytes) => if rest = [] then .ok bytes else .error .notDirectory

/-- **The bytes that a path leads to**, from the topmost directory if it begins with
a slash. -/
def read (here : Folder) (path : String) : Except Unreadable ByteArray :=
  if path = "" then .error .missing
  else if maxPathLength < path.utf8ByteSize then .error .nameTooLong
  else (if path.startsWith "/" then here.root else here).follow (path.splitOn "/")

end Folder

end EightBit
