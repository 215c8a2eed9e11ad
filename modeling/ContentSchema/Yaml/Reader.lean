import ContentSchema.Document
import ContentSchema.Yaml.Fold

/-!
# Reading YAML

One document of block and flow collections, scalars of five styles, comments, anchors and aliases.
Columns count from 1, and the container of the document is in column 0.  Tags, directives and
explicit keys are not read.  Recursion is bounded by the length of the text.
-/

namespace ContentSchema.Yaml

/-- A place in a text. -/
structure Cursor where
  column : Nat
  rest : List Char

/-- What has been read, the documents that have names, and the place after it. -/
structure Scan (α : Type) where
  value : α
  anchors : Entries Document
  cursor : Cursor

namespace Cursor

/-- Whether nothing is left of the text. -/
def atEnd (c : Cursor) : Bool := c.rest.isEmpty

/-- A place further on the same line. -/
def move (c : Cursor) (rest : List Char) : Cursor :=
  ⟨c.column + (c.rest.length - rest.length), rest⟩

end Cursor

/-- A blank or the end of a line or of the text. -/
def blankAhead : List Char → Bool
  | [] => true
  | c :: _ => c = ' ' || c = '\t' || c = '\n'

def isFlowMark (c : Char) : Bool := c = ',' || c = '[' || c = ']' || c = '\x7b' || c = '\x7d'

/-- Skip blanks, comments and line breaks.  Outside flow collections a line has no tab before its
content; `tabs` says whether tabs are blanks on this line. -/
def skipGap? (flow : Bool) : (tabs comment : Bool) → Nat → List Char → Option Cursor
  | _, _, column, [] => some ⟨column, []⟩
  | tabs, comment, column, c :: cs =>
    if c = '\n' then skipGap? flow flow false 1 cs
    else if comment then skipGap? flow tabs true (column + 1) cs
    else if c = ' ' then skipGap? flow tabs false (column + 1) cs
    else if c = '\t' then if tabs then skipGap? flow tabs false (column + 1) cs else none
    else if c = '#' then skipGap? flow tabs true (column + 1) cs
    else some ⟨column, c :: cs⟩

namespace Cursor

/-- The next content in a block, and whether it is on a later line. -/
def next? (c : Cursor) (tabs : Bool) : Option (Cursor × Bool) := do
  let after ← skipGap? false tabs false c.column c.rest
  let broken := (c.rest.take (c.rest.length - after.rest.length)).contains '\n'
  some (after, broken)

/-- The next content in a flow collection. -/
def nextInFlow? (c : Cursor) : Option Cursor := skipGap? true true false c.column c.rest

/-- The place itself, if nothing but a comment is left on its line. -/
def lineEnd? (c : Cursor) : Option Cursor := do
  let (after, broken) ← c.next? true
  if broken || after.atEnd then some c else none

end Cursor

/-! ### Plain scalars -/

/-- Whether a plain scalar can start here. -/
def plainAhead (flow : Bool) : List Char → Bool
  | [] => false
  | c :: rest =>
    if c = '-' then !blankAhead rest
    else if c = '?' || c = ':' then !flow && !blankAhead rest
    else !(isFlowMark c || c = '#' || c = '&' || c = '*' || c = '!' || c = '|' || c = '>' ||
      c = '\'' || c = '"' || c = '%' || c = '@' || c = '\x60' || c = ' ' || c = '\t' || c = '\n')

/-- Read a plain scalar.  In a block its further lines are indented beyond column `parent`. -/
def plain? (flow : Bool) (parent : Nat) : Fold → Nat → List Char → Option (String × Cursor)
  | f, column, [] => some (f.plainText, ⟨column, []⟩)
  | f, column, c :: cs =>
    let stop := some (f.plainText, Cursor.mk column (c :: cs))
    if c = '\n' then plain? flow parent f.newline 1 cs
    else if c = ' ' then plain? flow parent (f.blank c) (column + 1) cs
    else if c = '\t' then
      if f.broken && !flow && column ≤ parent then none
      else plain? flow parent (f.blank c) (column + 1) cs
    else if c = '#' && !f.pending.isEmpty then stop
    else if f.broken && !flow && column ≤ parent then stop
    else if flow && isFlowMark c then stop
    else if c = ':' && blankAhead cs then stop
    else if flow && c = ':' && (cs.head?.any fun d => isFlowMark d || d = '?') then none
    else plain? flow parent (f.char c) (column + 1) cs

/-! ### Names of documents -/

def isAnchorChar (c : Char) : Bool := c.isAlphanum || c = '_' || c = '-'

/-- The name behind `&` or `*`. -/
def anchorName? (cs : List Char) : Option (String × List Char) :=
  let name := cs.takeWhile isAnchorChar
  let rest := cs.dropWhile isAnchorChar
  let closed := match rest with
    | [] => true
    | c :: _ => blankAhead rest || isFlowMark c || c = '?' || c = ':' || c = '%' || c = '@' ||
      c = '\x60'
  if name.isEmpty || !closed then none else some (String.ofList name, rest)

/-! ### Flow collections -/

/-- A scalar in quotes. -/
def quoted? (c : Cursor) : Option (String × Cursor) := do
  let (s, rest) ← match c.rest with
    | '"' :: rest => doubleQuoted? (rest.length + 1) {} rest
    | '\'' :: rest => singleQuoted? {} rest
    | _ => none
  let read := c.rest.take (c.rest.length - rest.length)
  let column := if read.contains '\n' then (read.reverse.takeWhile (· ≠ '\n')).length + 1
    else c.column + read.length
  some (s, ⟨column, rest⟩)

/-- The text of a scalar that is a key. -/
def keyText? : Document → Option String
  | .string s | .plain s => some s
  | _ => none

mutual

/-- An item of a flow collection; nothing between two marks is the empty word. -/
def flowNode? : Nat → Entries Document → Cursor → Option (Scan Document)
  | 0, _, _ => none
  | fuel + 1, anchors, c =>
    match c.rest with
    | '[' :: rest => do
      let items ← flowItems? fuel anchors (c.move rest)
      some ⟨.list items.value, items.anchors, items.cursor⟩
    | '\x7b' :: rest => do
      let members ← flowMembers? fuel anchors (c.move rest)
      some ⟨.map members.value, members.anchors, members.cursor⟩
    | '*' :: rest => do
      let (name, rest) ← anchorName? rest
      some ⟨← anchors.get? name, anchors, c.move rest⟩
    | '&' :: rest => do
      let (name, rest) ← anchorName? rest
      let node ← flowNode? fuel anchors (← (c.move rest).nextInFlow?)
      some { node with anchors := node.anchors.put name node.value }
    | mark :: rest =>
      if mark = '"' || mark = '\'' then do
        let (s, c) ← quoted? c
        some ⟨.string s, anchors, c⟩
      else if plainAhead true (mark :: rest) then do
        let (s, c) ← plain? true 0 {} c.column c.rest
        some ⟨.plain s, anchors, c⟩
      else if mark = ',' || mark = ']' || mark = '\x7d' || mark = ':' then
        some ⟨.plain "", anchors, c⟩
      else none
    | [] => none

/-- The items up to the closing bracket; an item `key: value` is a map of its own. -/
def flowItems? : Nat → Entries Document → Cursor → Option (Scan (List Document))
  | 0, _, _ => none
  | fuel + 1, anchors, c => do
    let c ← c.nextInFlow?
    match c.rest with
    | ']' :: rest => some ⟨[], anchors, c.move rest⟩
    | ',' :: _ => none
    | _ =>
      let node ← flowNode? fuel anchors c
      let c ← node.cursor.nextInFlow?
      let item ← match c.rest with
        | ':' :: rest => do
          let key ← keyText? node.value
          let value ← flowNode? fuel node.anchors (← (c.move rest).nextInFlow?)
          some { value with value := Document.map [(key, value.value)] }
        | _ => some { node with cursor := c }
      let c ← item.cursor.nextInFlow?
      match c.rest with
      | ',' :: rest =>
        let items ← flowItems? fuel item.anchors (c.move rest)
        some { items with value := item.value :: items.value }
      | ']' :: rest => some ⟨[item.value], item.anchors, c.move rest⟩
      | _ => none

/-- The members up to the closing brace; a key may stand alone. -/
def flowMembers? : Nat → Entries Document → Cursor → Option (Scan (List (String × Document)))
  | 0, _, _ => none
  | fuel + 1, anchors, c => do
    let c ← c.nextInFlow?
    match c.rest with
    | '\x7d' :: rest => some ⟨[], anchors, c.move rest⟩
    | ',' :: _ => none
    | _ =>
      let node ← flowNode? fuel anchors c
      let key ← keyText? node.value
      let c ← node.cursor.nextInFlow?
      let value ← match c.rest with
        | ':' :: rest => flowNode? fuel node.anchors (← (c.move rest).nextInFlow?)
        | _ => some ⟨.plain "", node.anchors, c⟩
      let c ← value.cursor.nextInFlow?
      match c.rest with
      | ',' :: rest =>
        let members ← flowMembers? fuel value.anchors (c.move rest)
        some { members with value := (key, value.value) :: members.value }
      | '\x7d' :: rest => some ⟨[(key, value.value)], value.anchors, c.move rest⟩
      | _ => none

end

/-! ### Blocks -/

/-- The place behind the colon of a key, when there is one on the same line. -/
def keyEnd? (c : Cursor) : Option Cursor :=
  let rest := c.rest.dropWhile fun d => d = ' ' || d = '\t'
  match rest with
  | ':' :: after => if blankAhead after then some (c.move after) else none
  | _ => none

/-- Whether an entry of a block list starts here. -/
def entryAhead : List Char → Bool
  | '-' :: rest => blankAhead rest
  | _ => false

/-- A key of a block map at this place: its text and the place behind its colon. -/
def blockKey? (c : Cursor) : Option (String × Cursor) := do
  let (s, after) ← match c.rest with
    | '"' :: _ | '\'' :: _ => quoted? c
    | _ => if plainAhead false c.rest then plain? false c.column {} c.column c.rest else none
  let read := c.rest.take (c.rest.length - after.rest.length)
  if read.contains '\n' then none else some (s, ← keyEnd? after)

mutual

/-- A node whose content starts at this place, inside a container in column `parent`.  A node that
is `fresh` may be a block collection; as the value of a key a list may stand in the column of its
container. -/
def blockNode? : Nat → (parent : Nat) → (fresh value : Bool) → Entries Document → Cursor →
    Option (Scan Document)
  | 0, _, _, _, _, _ => none
  | fuel + 1, parent, fresh, value, anchors, c =>
    if c.atEnd || c.column < parent || (c.column = parent && !(value && entryAhead c.rest)) then
      some ⟨.plain "", anchors, c⟩
    else if entryAhead c.rest then do
      if !fresh then none
      let items ← blockItems? fuel c.column anchors c
      some ⟨.list items.value, items.anchors, items.cursor⟩
    else
      match if fresh then blockKey? c else none with
      | some (key, after) => do
        let members ← blockMembers? fuel c.column key anchors after
        some ⟨.map members.value, members.anchors, members.cursor⟩
      | none =>
        match c.rest with
        | '&' :: rest => do
          let (name, rest) ← anchorName? rest
          let (c, broken) ← (c.move rest).next? true
          let node ← blockNode? fuel parent broken value anchors c
          some { node with anchors := node.anchors.put name node.value }
        | '*' :: rest => do
          let (name, rest) ← anchorName? rest
          some ⟨← anchors.get? name, anchors, ← (c.move rest).lineEnd?⟩
        | '|' :: rest => do
          let (header, rest) ← blockHeader? { folded := false } rest
          let (s, rest) ← blockScalar? parent header rest
          some ⟨.string s, anchors, ⟨1, rest⟩⟩
        | '>' :: rest => do
          let (header, rest) ← blockHeader? { folded := true } rest
          let (s, rest) ← blockScalar? parent header rest
          some ⟨.string s, anchors, ⟨1, rest⟩⟩
        | '"' :: _ | '\'' :: _ => do
          let (s, c) ← quoted? c
          some ⟨.string s, anchors, ← c.lineEnd?⟩
        | '[' :: _ | '\x7b' :: _ => do
          let node ← flowNode? fuel anchors c
          some { node with cursor := ← node.cursor.lineEnd? }
        | rest => do
          if !plainAhead false rest then none
          let (s, c) ← plain? false parent {} c.column rest
          if c.rest.head? = some ':' then none
          some ⟨.plain s, anchors, c⟩

/-- The members of a block map in column `column`, from the value of its key `key` on. -/
def blockMembers? : Nat → (column : Nat) → (key : String) → Entries Document → Cursor →
    Option (Scan (List (String × Document)))
  | 0, _, _, _, _ => none
  | fuel + 1, column, key, anchors, c => do
    let (c, broken) ← c.next? true
    let node ← blockNode? fuel column broken true anchors c
    let (c, _) ← node.cursor.next? false
    if c.atEnd || c.column < column then some ⟨[(key, node.value)], node.anchors, c⟩
    else if c.column = column then
      let (next, after) ← blockKey? c
      let members ← blockMembers? fuel column next node.anchors after
      some { members with value := (key, node.value) :: members.value }
    else none

/-- The entries of a block list in column `column`. -/
def blockItems? : Nat → (column : Nat) → Entries Document → Cursor →
    Option (Scan (List Document))
  | 0, _, _, _ => none
  | fuel + 1, column, anchors, c => do
    let (c, _) ← (c.move (c.rest.drop 1)).next? false
    let node ← blockNode? fuel column true false anchors c
    let (c, _) ← node.cursor.next? false
    if c.atEnd || c.column < column then some ⟨[node.value], node.anchors, c⟩
    else if c.column = column then
      if entryAhead c.rest then
        let items ← blockItems? fuel column node.anchors c
        some { items with value := node.value :: items.value }
      else some ⟨[node.value], node.anchors, c⟩
    else none

end

/-! ### Texts -/

/-- Whether a character may stand in a text at all. -/
def isPrintable (c : Char) : Bool :=
  let n := c.toNat
  n = 9 || n = 10 || (32 ≤ n && n < 127) || n = 0x85 || (0xA0 ≤ n && n ≠ 0xFEFF && n ≠ 0xFFFE &&
    n ≠ 0xFFFF)

/-- Every line break as one line feed, without a byte order mark in front. -/
def normalizeBreaks : List Char → List Char
  | '\r' :: '\n' :: cs => '\n' :: normalizeBreaks cs
  | '\r' :: cs => '\n' :: normalizeBreaks cs
  | c :: cs => c :: normalizeBreaks cs
  | [] => []

/-- Whether a line starts with three times this character and nothing or a blank behind. -/
def isMarker (mark : Char) (line : List Char) : Bool :=
  line.take 3 = [mark, mark, mark] && blankAhead (line.drop 3)

/-- Whether a line says nothing. -/
def isComment (line : List Char) : Bool :=
  match line.dropWhile (· = ' ') with
  | [] => true
  | c :: _ => c = '#'

/-- The lines up to the marker that ends a document; more than one document is refused. -/
def documentLines? : List (List Char) → Option (List (List Char))
  | [] => some []
  | line :: rest =>
    if isMarker '-' line then none
    else if isMarker '.' line then
      if (line.drop 3 :: rest).all isComment then some [] else none
    else (documentLines? rest).map (line :: ·)

/-- The lines of the document, the marker that starts it replaced by blanks. -/
def contentLines? (lines : List (List Char)) : Option (List (List Char)) :=
  let before := lines.takeWhile isComment
  match lines.dropWhile isComment with
  | [] => some []
  | line :: rest =>
    if isMarker '-' line then
      (documentLines? rest).map fun rest => before ++ ([' ', ' ', ' '] ++ line.drop 3) :: rest
    else (documentLines? (line :: rest)).map (before ++ ·)

/-- The document a text holds; the empty word if it holds none. -/
def parse? (s : String) : Option Document := do
  let cs := normalizeBreaks s.toList
  let cs := if cs.head? = some (Char.ofNat 0xFEFF) then cs.drop 1 else cs
  if !cs.all isPrintable then none
  let lines ← contentLines? (Text.splitChars '\n' cs)
  let (c, _) ← (Cursor.mk 1 (List.intercalate ['\n'] lines)).next? false
  let node ← blockNode? (4 * cs.length + 4) 0 true false [] c
  let (c, _) ← node.cursor.next? false
  if c.atEnd then some node.value else none

end ContentSchema.Yaml
