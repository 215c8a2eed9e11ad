import ContentSchema.FilePath

/-!
# File trees

Files and directories by the parts of their absolute paths.  Whatever holds a file is a directory.
A path is followed part by part: each part but the last has to be a directory, a dot stays where it
is, and two dots go up.
-/

namespace ContentSchema

/-- Why a file can not be read or made. -/
inductive FileError
  | notFound
  | notADirectory
  | isADirectory
  /-- The content is no text. -/
  | notText
  | nameTooLong
  | invalidName
deriving DecidableEq, Repr

def FileError.message : FileError → String
  | .notFound => "No such file or directory (os error 2)"
  | .notADirectory => "Not a directory (os error 20)"
  | .isADirectory => "Is a directory (os error 21)"
  | .notText => "stream did not contain valid UTF-8"
  | .nameTooLong => "File name too long (os error 36)"
  | .invalidName => "file name contained an unexpected NUL byte"

/-- What stands at a path. -/
inductive FileNode
  | directory
  /-- A file with its text, if it holds one. -/
  | file (text : Option String)
deriving DecidableEq, Repr

structure FileTree where
  nodes : List (List String × FileNode)
  /-- The directory that relative paths start from. -/
  current : List String
deriving Inhabited

namespace FileTree

/-- What stands at `place`; the directories that hold something need no entry. -/
def node? (t : FileTree) (place : List String) : Option FileNode :=
  match t.nodes.lookup place with
  | some node => some node
  | none =>
    if place = [] ∨ t.nodes.any (fun p => place.isPrefixOf p.1) then some .directory else none

/-- Put a node at `place`. -/
def put (t : FileTree) (place : List String) (node : FileNode) : FileTree :=
  { t with nodes := (place, node) :: t.nodes.filter (·.1 ≠ place) }

/-- Follow the parts of a path from `place`. -/
def follow (t : FileTree) (place : List String) : List String → Except FileError (List String)
  | [] => .ok place
  | part :: rest =>
    match t.node? place with
    | none => .error .notFound
    | some (.file _) => .error .notADirectory
    | some .directory =>
      if part = "" ∨ part = "." then t.follow place rest
      else if part = ".." then t.follow place.dropLast rest
      else if 255 < part.utf8ByteSize then .error .nameTooLong
      else t.follow (place ++ [part]) rest

/-- The place that parts lead to, from the root if they start with an empty one. -/
def place (t : FileTree) (parts : List String) : Except FileError (List String) :=
  if parts.any fun part => part.toList.contains (Char.ofNat 0) then .error .invalidName
  else if parts = [""] then .error .notFound
  else t.follow (if parts.head? = some "" then [] else t.current) parts

/-- What a path leads to. -/
def find (t : FileTree) (path : String) : Except FileError (List String × FileNode) := do
  let place ← t.place (FilePath.parts path)
  match t.node? place with
  | some node => .ok (place, node)
  | none => .error .notFound

def isPresent (t : FileTree) (path : String) : Bool :=
  match t.find path with
  | .ok _ => true
  | .error _ => false

/-- The text of a file. -/
def read (t : FileTree) (path : String) : Except FileError String := do
  match ← t.find path with
  | (_, .directory) => .error .isADirectory
  | (_, .file none) => .error .notText
  | (_, .file (some text)) => .ok text

/-- The absolute path of a place. -/
def pathTo (place : List String) : String := "/" ++ Text.join "/" place

/-- The absolute paths of the files that stand directly in a directory. -/
def filesIn (t : FileTree) (path : String) : List String :=
  match t.find path with
  | .ok (place, .directory) =>
    t.nodes.filterMap fun (p, node) =>
      match node with
      | .file _ => if p ≠ [] ∧ p.dropLast = place then some (pathTo p) else none
      | .directory => none
  | _ => []

/-- Make a file without content, or take the content from one.  A path that ends with a slash names
a directory. -/
def create (t : FileTree) (path : String) : Except FileError FileTree := do
  let parts := FilePath.parts path
  if 1 < parts.length ∧ parts.getLast? = some "" then
    let _ ← t.place (parts.reverse.dropWhile (· = "")).reverse.dropLast
    .error .isADirectory
  else
    let place ← t.place parts
    if t.node? place = some .directory then .error .isADirectory
    else .ok (t.put place (.file (some "")))

end FileTree

end ContentSchema
