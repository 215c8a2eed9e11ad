import ContentSchema.Text.Script
import ContentSchema.Text.Split

/-!
# Path templates

A path in a setting may name variables: `$NAME`, `$` and a name in braces, or the same with a
default after `:-`.  Two dollar signs stand for one, and one that names nothing stands for itself.
A tilde in front, alone or before a slash, stands for the home directory, unless the value of a
variable brought it there.
-/

namespace ContentSchema.FilePath

/-- A stretch of a template. -/
inductive Piece
  | char (c : Char)
  | variable (name : String) (default : Option String)
deriving DecidableEq, Repr

namespace Template

/-- A character of a variable name that stands without braces. -/
def isNameChar (c : Char) : Bool := Text.isAlphanumeric c || c = '_'

/-- The text before the first `:-`, and the text after it. -/
def cutDefault? : List Char → Option (List Char × List Char)
  | ':' :: '-' :: cs => some ([], cs)
  | c :: cs => (cutDefault? cs).map fun (name, default) => (c :: name, default)
  | [] => none

/-- The variable that stands in braces; without a name there is no default. -/
def braced (inside : List Char) : Piece :=
  match cutDefault? inside with
  | some (c :: name, default) =>
    .variable (String.ofList (c :: name)) (some (String.ofList default))
  | _ => .variable (String.ofList inside) none

/-- What a dollar sign and the text after it make, and the rest. -/
def afterDollar (cs : List Char) : List Piece × List Char :=
  match cs with
  | [] => ([.char '$'], [])
  | c :: rest =>
    if c = '$' then ([.char '$'], rest)
    else if c = '\x7b' then
      match rest.dropWhile (· ≠ '\x7d') with
      | [] => ([.char '$', .char c], rest)
      | _ :: after => ([braced (rest.takeWhile (· ≠ '\x7d'))], after)
    else if isNameChar c then
      ([.variable (String.ofList (c :: rest.takeWhile isNameChar)) none], rest.dropWhile isNameChar)
    else ([.char '$'], c :: rest)

theorem length_afterDollar_le (cs : List Char) : (afterDollar cs).2.length ≤ cs.length := by
  have drop_le (p : Char → Bool) (rest : List Char) : (rest.dropWhile p).length ≤ rest.length :=
    (List.dropWhile_sublist p).length_le
  cases cs with
  | nil => simp [afterDollar]
  | cons c rest =>
    have h := drop_le (· ≠ '\x7d') rest
    have := drop_le isNameChar rest
    simp only [afterDollar]
    split
    · simp
    · split
      · split
        · simp
        · next e => simp only [e, List.length_cons] at h ⊢; omega
      · split <;> simp only [List.length_cons] <;> omega

/-- The pieces of a template. -/
def pieces : List Char → List Piece
  | [] => []
  | c :: cs =>
    if c = '$' then (afterDollar cs).1 ++ pieces (afterDollar cs).2
    else .char c :: pieces cs
termination_by cs => cs.length
decreasing_by
  · have := length_afterDollar_le cs
    simp only [List.length_cons]
    omega
  · simp

/-- The text of a piece, given what its variable is set to. -/
def fill? (value : Option String) : Piece → Option String
  | .char c => some (String.singleton c)
  | .variable _ default => value.or default

/-- Put the home directory in the place of a tilde in front. -/
def expandTilde (home path : String) : String :=
  match path.toList with
  | ['~'] => home
  | '~' :: '/' :: cs => home ++ String.ofList ('/' :: cs)
  | _ => path

/-- A tilde counts if it stood in the template, not if a variable put it in front. -/
def expandHome (home template path : String) : String :=
  if template.toList.head? = some '~' then expandTilde home path else path

end Template

end ContentSchema.FilePath
