import Pseudocod.CommandLine.Basic

/-!
# Folders of files

A folder without subfolders, held in memory: names with the bytes of the files. It answers which
file, if any, a relative path leads to.
-/

namespace Pseudocod.CommandLine

/-- The files of a folder by name. -/
abbrev Folder := List (String × ByteArray)

/-- What a path leads to, seen from inside the folder. Empty parts and `.` lead nowhere else, and
`..` leads out to the folders around this one, of which nothing is known but that they are there. A
file is not a folder: a path that goes on behind its name leads to nothing. -/
def Folder.find (folder : Folder) (path : String) : Found :=
  let parts := path.splitOn "/"
  match parts.filter fun part => part ≠ "" ∧ part ≠ "." with
  | [] => if path = "" then .missing else .folder
  | name :: rest =>
    if (name :: rest).all (· = "..") then .folder
    else if rest ≠ [] ∨ parts.head? = some "" ∨ parts.getLast? ≠ some name then .missing
    else
      match folder.lookup name with
      | none => .missing
      | some content => .bytes content

end Pseudocod.CommandLine
