/-!
# Paths and file trees

A path is a sequence of names, from the working directory or from the root. A file tree is the part
of a file system below the working directory; what lies above it is a directory of which nothing
else is known.

* `Path.ofText`, `Path.toText`: a path and its normal form, in which nothing is said twice;
* `FileTree.read`: the bytes of a file, or why it cannot be read.
-/

namespace ScopedLisp

/-- The slashes in front of a path, and its names. -/
structure Path where
  root : String
  names : List String
deriving DecidableEq, Repr

namespace Path

/-- The path that a text is. Empty names and the name `.` say nothing. Two slashes in front are
kept, and any other number of them is one. -/
def ofText (text : String) : Path where
  root := match (text.toList.takeWhile (· == '/')).length with
    | 0 => ""
    | 2 => "//"
    | _ => "/"
  names := (text.splitOn "/").filter fun name => name != "" && name != "."

/-- The normal form of a path. -/
def toText (p : Path) : String :=
  if p.root == "" && p.names.isEmpty then "." else p.root ++ "/".intercalate p.names

end Path

/-- Why a file cannot be read. -/
inductive ReadFault where
  | missing
  | isDirectory
  | notDirectory
  | nameTooLong
  | other (report : String)
deriving DecidableEq, Repr

/-- The report of a file that cannot be read. -/
def ReadFault.message : ReadFault → String
  | missing => "No such file or directory"
  | isDirectory => "Is a directory"
  | notDirectory => "Not a directory"
  | nameTooLong => "File name too long"
  | other report => report

/-- The directories and files below the working directory, by their names from there. -/
structure FileTree where
  directories : List (List String) := []
  files : List (List String × List UInt8) := []

namespace FileTree

/-- A place in a file system. -/
inductive Place where
  | file (bytes : List UInt8)
  | directory (names : List String)
  | outside

/-- Whether there is a directory of these names: every directory above a known one is there. -/
def hasDirectory (t : FileTree) (names : List String) : Bool :=
  t.directories.any names.isPrefixOf || t.files.any fun f => names.isPrefixOf f.1 && names != f.1

/-- The greatest size of a name in bytes. -/
def maxNameSize : Nat := 255

/-- The greatest size of a path in bytes. -/
def maxPathSize : Nat := 4095

/-- Goes from a place to the one of the given name in it. -/
def enter (t : FileTree) (place : Place) (name : String) : Except ReadFault Place :=
  match place with
  | .file _ => .error .notDirectory
  | .outside =>
    if name == ".." then .ok .outside
    else if maxNameSize < name.utf8ByteSize then .error .nameTooLong
    else .error .missing
  | .directory names =>
    if name == ".." then .ok (if names.isEmpty then .outside else .directory names.dropLast)
    else if maxNameSize < name.utf8ByteSize then .error .nameTooLong
    else
      let names := names ++ [name]
      match t.files.lookup names with
      | some bytes => .ok (.file bytes)
      | none => if t.hasDirectory names then .ok (.directory names) else .error .missing

/-- The bytes of the file at a path. -/
def read (t : FileTree) (p : Path) : Except ReadFault (List UInt8) := do
  if maxPathSize < p.toText.utf8ByteSize then .error .nameTooLong
  let start : Place := if p.root == "" then .directory [] else .outside
  match ← p.names.foldlM t.enter start with
  | .file bytes => pure bytes
  | .directory _ | .outside => .error .isDirectory

end FileTree

end ScopedLisp
