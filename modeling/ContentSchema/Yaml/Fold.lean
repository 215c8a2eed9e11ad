import ContentSchema.Text.Hex
import ContentSchema.Text.Split

/-!
# Scalars over several lines

A line break inside a plain or a quoted scalar is a space, and every further one a line break;
blanks around line breaks are lost.  A block scalar keeps its lines, or folds them in the same way
except around lines that start with a blank.
-/

namespace ContentSchema.Yaml

/-- A scalar as far as it has been read, last characters first. -/
structure Fold where
  done : List Char := []
  /-- Blanks or line breaks that count once more text follows. -/
  pending : List Char := []
  /-- The pending characters come from a line break. -/
  broken : Bool := false

namespace Fold

/-- A blank inside a line counts if more text follows on the line. -/
def blank (f : Fold) (c : Char) : Fold :=
  if f.broken then f else { f with pending := c :: f.pending }

/-- The first line break is a space, and every further one a line break. -/
def newline (f : Fold) : Fold :=
  if f.broken then
    { f with pending := if f.pending = [' '] then ['\n'] else '\n' :: f.pending }
  else { f with pending := [' '], broken := true }

def char (f : Fold) (c : Char) : Fold := ⟨c :: (f.pending ++ f.done), [], false⟩

/-- An escaped line break: the blanks before it count, the break itself does not. -/
def join (f : Fold) : Fold := ⟨f.pending ++ f.done, [], true⟩

/-- The text, with the pending blanks of a quoted scalar. -/
def quotedText (f : Fold) : String := String.ofList (f.pending ++ f.done).reverse

/-- The text without pending blanks. -/
def plainText (f : Fold) : String := String.ofList f.done.reverse

end Fold

/-! ### Quoted scalars -/

/-- The character an escape of one letter stands for. -/
def escapedChar? (c : Char) : Option Char :=
  match c with
  | '0' => some (Char.ofNat 0)
  | 'a' => some (Char.ofNat 7)
  | 'b' => some (Char.ofNat 8)
  | 't' | '\t' => some '\t'
  | 'n' => some '\n'
  | 'v' => some (Char.ofNat 11)
  | 'f' => some (Char.ofNat 12)
  | 'r' => some '\r'
  | 'e' => some (Char.ofNat 27)
  | ' ' | '"' | '/' | '\\' => some c
  | 'N' => some (Char.ofNat 0x85)
  | '_' => some (Char.ofNat 0xA0)
  | 'L' => some (Char.ofNat 0x2028)
  | 'P' => some (Char.ofNat 0x2029)
  | _ => none

/-- What follows a backslash. -/
def escape? : List Char → Option (Char × List Char)
  | 'x' :: rest => Text.takeHexChar? 2 rest
  | 'u' :: rest => Text.takeHexChar? 4 rest
  | 'U' :: rest => Text.takeHexChar? 8 rest
  | c :: rest => (escapedChar? c).map (·, rest)
  | [] => none

/-- The text up to the closing double quote, and what follows it. -/
def doubleQuoted? : Nat → Fold → List Char → Option (String × List Char)
  | 0, _, _ => none
  | _ + 1, _, [] => none
  | fuel + 1, f, c :: rest =>
    if c = '"' then some (f.quotedText, rest)
    else if c = '\n' then doubleQuoted? fuel f.newline rest
    else if c = ' ' ∨ c = '\t' then doubleQuoted? fuel (f.blank c) rest
    else if c = '\\' then
      match rest with
      | '\n' :: rest => doubleQuoted? fuel f.join rest
      | rest => do
        let (c, rest) ← escape? rest
        doubleQuoted? fuel (f.char c) rest
    else doubleQuoted? fuel (f.char c) rest

/-- The text up to the closing single quote; two quotes are one character. -/
def singleQuoted? (f : Fold) : List Char → Option (String × List Char)
  | [] => none
  | '\'' :: '\'' :: rest => singleQuoted? (f.char '\'') rest
  | c :: rest =>
    if c = '\'' then some (f.quotedText, rest)
    else if c = '\n' then singleQuoted? f.newline rest
    else if c = ' ' ∨ c = '\t' then singleQuoted? (f.blank c) rest
    else singleQuoted? (f.char c) rest

/-! ### Block scalars -/

/-- What becomes of the line breaks at the end. -/
inductive Chomp
  | strip
  | clip
  | keep
deriving DecidableEq, Repr

/-- The header of a block scalar. -/
structure BlockHeader where
  folded : Bool
  chomp : Chomp := .clip
  /-- Columns of indentation beyond those of the container. -/
  indent : Option Nat := none

/-- Read the indicators of a header up to the end of its line. -/
def blockHeader? (h : BlockHeader) : List Char → Option (BlockHeader × List Char)
  | '-' :: rest => blockHeader? { h with chomp := .strip } rest
  | '+' :: rest => blockHeader? { h with chomp := .keep } rest
  | '\n' :: rest => some (h, rest)
  | [] => some (h, [])
  | c :: rest =>
    if '1' ≤ c ∧ c ≤ '9' then blockHeader? { h with indent := some (c.toNat - 48) } rest
    else if c = ' ' ∨ c = '\t' then
      match rest.dropWhile fun c => c = ' ' || c = '\t' with
      | '#' :: comment => some (h, (comment.dropWhile (· ≠ '\n')).drop 1)
      | [] => some (h, [])
      | '\n' :: rest => some (h, rest)
      | _ => none
    else none

/-- Number of spaces in front. -/
def leadingSpaces (line : List Char) : Nat := (line.takeWhile (· = ' ')).length

/-- Whether a line has spaces only. -/
def isBlankLine (line : List Char) : Bool := line.all (· = ' ')

/-- The lines of a block scalar without their indentation, and the lines after it. -/
def blockLines (indent : Nat) : List (List Char) → List (List Char) × List (List Char)
  | [] => ([], [])
  | line :: rest =>
    if indent ≤ leadingSpaces line || isBlankLine line then
      let (inside, after) := blockLines indent rest
      (line.drop indent :: inside, after)
    else ([], line :: rest)

/-- Whether a line starts with a blank. -/
def isIndented : List Char → Bool
  | c :: _ => c = ' ' || c = '\t'
  | [] => false

/-- The text of content lines: `breaks` empty lines follow the line before, if there is one. -/
def blockText (folded : Bool) : Option (List Char) → Nat → List (List Char) → List Char
  | _, _, [] => []
  | before, breaks, [] :: rest => blockText folded before (breaks + 1) rest
  | before, breaks, line :: rest =>
    let between :=
      match before with
      | none => List.replicate breaks '\n'
      | some last =>
        if folded && !isIndented last && !isIndented line then
          if breaks = 0 then [' '] else List.replicate breaks '\n'
        else '\n' :: List.replicate breaks '\n'
    between ++ line ++ blockText folded (some line) 0 rest

/-- Whether a tab follows the spaces in front of a line. -/
def isTabbed (line : List Char) : Bool := (line.drop (leadingSpaces line)).head? = some '\t'

/-- The text of a block scalar after its header, and the text after it.  The container starts in
column `parent`, counted from 1; the lines of the scalar start beyond it. -/
def blockScalar? (parent : Nat) (h : BlockHeader) (cs : List Char) :
    Option (String × List Char) :=
  let lines := Text.splitChars '\n' cs
  let first := lines.find? fun line => !isBlankLine line
  let indent := match h.indent with
    | some n => parent - 1 + n
    | none => max ((first.map leadingSpaces).getD 0) (max parent 1)
  let (inside, after) := blockLines indent lines
  if h.indent.isNone && first.any isTabbed then none
  else if after.head?.any fun line => leadingSpaces line < indent && isTabbed line then none
  else
    let content := (inside.reverse.dropWhile List.isEmpty).reverse
    let breaks := inside.length - (if after.isEmpty then 1 else 0) - (content.length - 1)
    let kept := match h.chomp with
      | .strip => 0
      | .clip => if content.isEmpty then 0 else min breaks 1
      | .keep => breaks
    some (String.ofList (blockText h.folded none 0 content ++ List.replicate kept '\n'),
      List.intercalate ['\n'] after)

end ContentSchema.Yaml
