import ContentSchema.Text.Split

/-!
# File paths

A file path is a text with slashes between its parts.  It is joined and cut as a text: no part is
looked up, and dots stay where they are.
-/

namespace ContentSchema.FilePath

/-- The parts between slashes; an absolute path has an empty one in front. -/
def parts (path : String) : List String := Text.split '/' path

def isAbsolute (path : String) : Bool := path.toList.head? = some '/'

/-- `path` as seen from the directory `base`; an absolute path stays as it is. -/
def join (base path : String) : String :=
  if isAbsolute path then path
  else if base = "" ∨ base.toList.getLast? = some '/' then base ++ path
  else base ++ "/" ++ path

/-- Drop what names nothing, empty parts and dots, from the end of a path, whose parts come last
part first.  The first part of a path stays. -/
def dropIdle : List String → List String
  | part :: before =>
    if (part = "" ∨ part = ".") ∧ before ≠ [] then dropIdle before else part :: before
  | [] => []

/-- The directory of a file. -/
def parent (path : String) : String :=
  match dropIdle ((dropIdle (parts path).reverse).drop 1) with
  | [""] => "/"
  | kept => Text.join "/" kept.reverse

/-- The name of a file up to its last dot, and the suffix after it.  A dot in front of a name
starts no suffix. -/
def splitName (name : String) : String × Option String :=
  let pieces := Text.split '.' name
  match Text.join "." pieces.dropLast with
  | "" => (name, none)
  | stem => (stem, pieces.getLast?)

theorem join_of_isAbsolute {path : String} (base : String) (h : isAbsolute path) :
    join base path = path := by
  simp [join, h]

end ContentSchema.FilePath
