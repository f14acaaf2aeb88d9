import ResourcePki.Octets
import ResourcePki.Text.Decimal

/-!
Files and directories in a tree, and what a path names in it.

A path is a list of names with slashes between them. It is followed name by name, from the root if
it begins with a slash and else from the directory in which relative paths begin. Every name has to
be looked up in a directory, also an empty one behind a slash at the end, so a file may only be the
last of them. Empty names and a single dot stay where they are, two dots lead one directory up, and
the root is its own parent. The rules are those of POSIX for a tree without links, with the limits
that are common for the length of a name and of a path.
-/

namespace ResourcePki

/-- Why a file cannot be read. -/
inductive FileError where
  /-- Nothing has the path. -/
  | notFound
  /-- The path goes on behind a file. -/
  | notDirectory
  /-- The path is that of a directory. -/
  | isDirectory
  /-- A name, or the path as a whole, is too long. -/
  | nameTooLong
  /-- There is another reason. -/
  | other (reason : String)
  deriving DecidableEq, Repr

/-- The wording of a reason and its number. -/
def FileError.withNumber (reason : String) (number : Nat) : String :=
  reason ++ " (os error " ++ Decimal.text number ++ ")"

/-- The wording of the reason. -/
def FileError.message : FileError → String
  | .notFound => withNumber "No such file or directory" 2
  | .notDirectory => withNumber "Not a directory" 20
  | .isDirectory => withNumber "Is a directory" 21
  | .nameTooLong => withNumber "File name too long" 36
  | .other reason => reason

/-- What can have a path. -/
inductive FileNode where
  | directory
  | file (content : Octets)
  deriving DecidableEq, Repr

/-- Files and directories by the names that lead to them from the root. -/
structure FileTree where
  nodes : List (List String × FileNode)
  /-- The directory in which relative paths begin. -/
  start : List String

namespace FileTree

/-- The most octets of a name. -/
def longestName : Nat := 255

/-- The most octets of a path. -/
def longestPath : Nat := 4095

/-- Whether names lead to a directory because they are on the way to something. -/
def isOnTheWay (t : FileTree) (place : List String) : Bool :=
  place.isPrefixOf t.start || t.nodes.any fun (names, _) => place.isPrefixOf names

/-- What stands where names lead to from the root. -/
def node? (t : FileTree) (place : List String) : Option FileNode :=
  match t.nodes.lookup place with
  | some node => some node
  | none => if t.isOnTheWay place then some .directory else none

/-- The place that one name leads to from a directory. -/
def step (t : FileTree) (place : List String) (name : String) : Except FileError (List String) :=
  if name = "" ∨ name = "." then .ok place
  else if name = ".." then .ok place.dropLast
  else if name.utf8ByteSize > longestName then .error .nameTooLong
  else if (t.node? (place ++ [name])).isNone then .error .notFound
  else .ok (place ++ [name])

/-- The place that names lead to from a place. -/
def walk (t : FileTree) : List String → List String → Except FileError (List String)
  | place, [] => .ok place
  | place, name :: names =>
    match t.node? place with
    | none => .error .notFound
    | some (.file _) => .error .notDirectory
    | some .directory =>
      match t.step place name with
      | .ok next => t.walk next names
      | .error reason => .error reason

/-- The place that a path names. -/
def resolve (t : FileTree) (path : String) : Except FileError (List String) :=
  if path = "" then .error .notFound
  else if path.utf8ByteSize > longestPath then .error .nameTooLong
  else t.walk (if path.startsWith "/" then [] else t.start) (path.splitOn "/")

/-- The content of the file with a path. -/
def read (t : FileTree) (path : String) : Except FileError Octets := do
  match t.node? (← t.resolve path) with
  | some (.file content) => return content
  | some .directory => throw .isDirectory
  | none => throw .notFound

end FileTree

end ResourcePki
