import ContentSchema.Toml.Scalar
import ContentSchema.Toml.Table

/-!
# Reading TOML

Keys with values, headers, arrays and inline tables.  Arrays and inline tables may go over several
lines and end with a comma.  Recursion is bounded by the length of the text.
-/

namespace ContentSchema.Toml

def isBlank (c : Char) : Bool := c = ' ' || c = '\t'

def skipBlanks (cs : List Char) : List Char := cs.dropWhile isBlank

/-- Skip a comment up to the end of its line. -/
def skipComment? : List Char → Option (List Char)
  | '#' :: cs =>
    let rest := cs.dropWhile (· ≠ '\n')
    if (cs.take (cs.length - rest.length)).any isControl then none else some rest
  | cs => some cs

/-- Skip blanks, comments and line breaks. -/
def skipLines? : Nat → List Char → Option (List Char)
  | 0, cs => some cs
  | fuel + 1, cs => do
    match ← skipComment? (skipBlanks cs) with
    | '\n' :: rest => skipLines? fuel rest
    | rest => some rest

/-- Skip everything without a meaning. -/
def skip? (cs : List Char) : Option (List Char) := skipLines? (cs.length + 1) cs

/-! ### Keys -/

def isBareChar (c : Char) : Bool := c.isAlphanum || c = '_' || c = '-'

/-- One part of a key: a bare word or a text on one line. -/
def simpleKey? (cs : List Char) : Option (String × List Char) :=
  match cs.takeWhile isBareChar with
  | [] => shortText? cs
  | word => some (String.ofList word, cs.dropWhile isBareChar)

/-- A key with dots between its parts. -/
def key? : Nat → List Char → Option (List String × List Char)
  | 0, _ => none
  | fuel + 1, cs => do
    let (part, rest) ← simpleKey? (skipBlanks cs)
    match skipBlanks rest with
    | '.' :: rest => do
      let (parts, rest) ← key? fuel rest
      some (part :: parts, rest)
    | rest => some ([part], rest)

/-! ### Values -/

mutual

def value? : Nat → List Char → Option (Document × List Char)
  | 0, _ => none
  | fuel + 1, cs =>
    match cs with
    | '"' :: _ | '\'' :: _ => (text? cs).map fun (s, rest) => (.string s, rest)
    | '[' :: rest => do
      let (items, rest) ← items? fuel (← skip? rest)
      some (.list items, rest)
    | '\x7b' :: rest => do
      let (members, rest) ← inlineMembers? fuel [] (← skip? rest)
      some (.map (membersToDocuments members), rest)
    | cs =>
      let (word, rest) := takeWord cs
      (word? word).map (·, rest)

/-- The items of an array up to its bracket. -/
def items? : Nat → List Char → Option (List Document × List Char)
  | 0, _ => none
  | fuel + 1, cs =>
    match cs with
    | ']' :: rest => some ([], rest)
    | cs => do
      let (item, rest) ← value? fuel cs
      match ← skip? rest with
      | ',' :: rest => do
        let (items, rest) ← items? fuel (← skip? rest)
        some (item :: items, rest)
      | ']' :: rest => some ([item], rest)
      | _ => none

/-- The members of an inline table up to its brace, added to those before. -/
def inlineMembers? : Nat → Members → List Char → Option (Members × List Char)
  | 0, _, _ => none
  | fuel + 1, members, cs =>
    match cs with
    | '\x7d' :: rest => some (members, rest)
    | cs => do
      let (key, rest) ← key? fuel cs
      match rest with
      | '=' :: rest => do
        let (d, rest) ← value? fuel (skipBlanks rest)
        let members ← addValue? key d members
        match ← skip? rest with
        | ',' :: rest => inlineMembers? fuel members (← skip? rest)
        | '\x7d' :: rest => some (members, rest)
        | _ => none
      | _ => none

end

/-! ### Documents -/

/-- The rest after the end of a line, which may hold a comment. -/
def lineEnd? (cs : List Char) : Option (List Char) := do
  match ← skipComment? (skipBlanks cs) with
  | [] => some []
  | '\n' :: rest => some rest
  | _ => none

/-- A header: the path of its table, and whether the table is one of several. -/
def header? (cs : List Char) : Option (List String × Bool × List Char) :=
  match cs with
  | '[' :: '[' :: cs => do
    let (path, rest) ← key? (cs.length + 1) cs
    match rest with
    | ']' :: ']' :: rest => some (path, true, rest)
    | _ => none
  | '[' :: cs => do
    let (path, rest) ← key? (cs.length + 1) cs
    match rest with
    | ']' :: rest => some (path, false, rest)
    | _ => none
  | _ => none

/-- Read line by line; `current` is the path of the table that the keys go into. -/
def lines? : Nat → List String → Members → List Char → Option Members
  | 0, _, _, _ => none
  | fuel + 1, current, root, cs => do
    match ← skip? cs with
    | [] => some root
    | '[' :: rest => do
      let (path, several, rest) ← header? ('[' :: rest)
      let opened := if several then openElement? else openTable?
      let root ← modifyTable? (opened (path.getLastD "")) path.dropLast root
      lines? fuel path root (← lineEnd? rest)
    | cs => do
      let (key, rest) ← key? (cs.length + 1) cs
      match rest with
      | '=' :: rest => do
        let (d, rest) ← value? (2 * rest.length + 2) (skipBlanks rest)
        let root ← modifyTable? (addValue? key d) current root
        lines? fuel current root (← lineEnd? rest)
      | _ => none

/-- Line breaks of two characters as one. -/
def normalizeBreaks : List Char → List Char
  | '\r' :: '\n' :: cs => '\n' :: normalizeBreaks cs
  | c :: cs => c :: normalizeBreaks cs
  | [] => []

/-- The table a text holds. -/
def parse? (s : String) : Option Document := do
  let cs := normalizeBreaks s.toList
  let cs := if cs.head? = some (Char.ofNat 0xFEFF) then cs.drop 1 else cs
  let members ← lines? (cs.length + 1) [] [] cs
  some (.map (membersToDocuments members))

end ContentSchema.Toml
