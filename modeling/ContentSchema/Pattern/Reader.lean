import ContentSchema.Number
import ContentSchema.Pattern.Tree

/-!
# Reading patterns

The pattern language: alternation, groups with flags and names, greedy and lazy repetition, classes
with nesting and set operations, escapes and assertions.  There is no looking around and no
reference back.  A text outside the language reads as nothing.
-/

namespace ContentSchema.Pattern

/-- The flags in force at a place of a pattern. -/
structure Flags where
  caseless : Bool := false
  multiline : Bool := false
  dotAll : Bool := false
  unicode : Bool := true
  carriage : Bool := false
  /-- Blanks and comments in the pattern are skipped. -/
  spaced : Bool := false

abbrev Expr := Tree CharSet Anchor

/-- An element of a sequence; flags are no operand of a repetition. -/
inductive Piece
  | expr (e : Expr)
  | flags

def Piece.expr? : Piece → Option Expr
  | .expr e => some e
  | .flags => none

/-- The sequence of pieces given last first. -/
def sequence (pieces : List Piece) : Expr :=
  (pieces.filterMap Piece.expr?).foldl (fun e first => match e with
    | .empty => first
    | e => .seq first e) .empty

/-- Skip blanks and comments where the flags ask for it. -/
def skipSpace (f : Flags) : Nat → List Char → List Char
  | 0, cs => cs
  | _, [] => []
  | fuel + 1, c :: cs =>
    if !f.spaced then c :: cs
    else if Text.isBlank c then skipSpace f fuel cs
    else if c = '#' then skipSpace f fuel (cs.dropWhile (· ≠ '\n'))
    else c :: cs

def Flags.skip (f : Flags) (cs : List Char) : List Char := skipSpace f (cs.length + 1) cs

/-! ### Escapes -/

/-- What a backslash introduces. -/
inductive Escape
  | literal (c : Char)
  | set (s : CharSet)
  | anchor (a : Anchor)

def hexDigit? (c : Char) : Option Nat :=
  if c.isDigit then some (c.toNat - 48)
  else if 'a' ≤ c ∧ c ≤ 'f' then some (c.toNat - 87)
  else if 'A' ≤ c ∧ c ≤ 'F' then some (c.toNat - 55)
  else none

def hexValue? (ds : List Char) : Option Char := do
  if ds = [] then none
  let n ← ds.foldlM (fun n d => (hexDigit? d).map (16 * n + ·)) 0
  if n < 0xD800 ∨ (0xDFFF < n ∧ n < 0x110000) then some (Char.ofNat n) else none

/-- A code point: `size` digits, or any number between braces. -/
def readHex? (size : Nat) (cs : List Char) : Option (Char × List Char) :=
  match cs with
  | '\x7b' :: rest => do
    let ds := rest.takeWhile (· ≠ '\x7d')
    let c ← hexValue? ds
    match rest.drop ds.length with
    | _ :: rest => some (c, rest)
    | [] => none
  | _ => do
    let c ← if size ≤ cs.length then hexValue? (cs.take size) else none
    some (c, cs.drop size)

/-- The set between the braces of a property. -/
def propertySet? (body : List Char) : Option CharSet :=
  let name := body.takeWhile fun c => c ≠ '=' && c ≠ ':'
  match body.drop name.length with
  | [] => CharSet.named? (CharSet.looseName name)
  | c :: value =>
    match name.reverse, c with
    | '!' :: name, '=' => do
      let set ← CharSet.namedValue? (CharSet.looseName name.reverse) (CharSet.looseName value)
      return set.complement
    | _, _ => CharSet.namedValue? (CharSet.looseName name) (CharSet.looseName value)

/-- A property after `p` or `P`: one letter or a name between braces. -/
def readProperty? (f : Flags) (negated : Bool) (cs : List Char) : Option (CharSet × List Char) := do
  if !f.unicode then none
  let (set, rest) ← match cs with
    | '\x7b' :: rest => do
      let body := rest.takeWhile (· ≠ '\x7d')
      match rest.drop body.length with
      | _ :: rest => do some (← propertySet? body, rest)
      | [] => none
    | c :: rest => do some (← CharSet.named? (CharSet.looseName [c]), rest)
    | [] => none
  let set := if f.caseless then .folded set else set
  some (if negated then .complement set else set, rest)

/-- A boundary after `b`; braces may name a side of it. -/
def readBoundary? (f : Flags) (cs : List Char) : Option (Anchor × List Char) :=
  match cs with
  | '\x7b' :: c :: rest =>
    if c.isAlpha ∨ c = '-' then
      let body := (c :: rest).takeWhile (· ≠ '\x7d')
      match (c :: rest).drop body.length with
      | [] => none
      | _ :: rest =>
        match String.ofList body with
        | "start" => some (.wordStart f.unicode, rest)
        | "end" => some (.wordEnd f.unicode, rest)
        | "start-half" => some (.afterNonWord f.unicode, rest)
        | "end-half" => some (.beforeNonWord f.unicode, rest)
        | _ => none
    else some (.boundary f.unicode, cs)
  | _ => some (.boundary f.unicode, cs)

/-- A class letter as a set; its complement needs Unicode. -/
def classLetter? (f : Flags) (c : Char) : Option CharSet :=
  let pick (unicode ascii : CharSet) := if f.unicode then unicode else ascii
  match c with
  | 'd' => some (pick CharSet.digits CharSet.asciiDigits)
  | 's' => some (pick CharSet.blanks CharSet.asciiBlanks)
  | 'w' => some (pick CharSet.word CharSet.asciiWord)
  | 'D' => if f.unicode then some (.complement CharSet.digits) else none
  | 'S' => if f.unicode then some (.complement CharSet.blanks) else none
  | 'W' => if f.unicode then some (.complement CharSet.word) else none
  | _ => none

/-- What follows a backslash. -/
def readEscape? (f : Flags) : List Char → Option (Escape × List Char)
  | [] => none
  | c :: rest =>
    if c.isDigit then none
    else if !c.isAlpha && c.toNat < 128 then
      if c = '<' then some (.anchor (.wordStart f.unicode), rest)
      else if c = '>' then some (.anchor (.wordEnd f.unicode), rest)
      else some (.literal c, rest)
    else
      match c with
      | 'x' => (readHex? 2 rest).map fun (c, rest) => (.literal c, rest)
      | 'u' => (readHex? 4 rest).map fun (c, rest) => (.literal c, rest)
      | 'U' => (readHex? 8 rest).map fun (c, rest) => (.literal c, rest)
      | 'p' => (readProperty? f false rest).map fun (s, rest) => (.set s, rest)
      | 'P' => (readProperty? f true rest).map fun (s, rest) => (.set s, rest)
      | 'a' => some (.literal (Char.ofNat 7), rest)
      | 'f' => some (.literal (Char.ofNat 12), rest)
      | 't' => some (.literal '\t', rest)
      | 'n' => some (.literal '\n', rest)
      | 'r' => some (.literal '\r', rest)
      | 'v' => some (.literal (Char.ofNat 11), rest)
      | 'A' => some (.anchor .textStart, rest)
      | 'z' => some (.anchor .textEnd, rest)
      | 'B' => some (.anchor (.noBoundary f.unicode), rest)
      | 'b' => (readBoundary? f rest).map fun (a, rest) => (.anchor a, rest)
      | c => (classLetter? f c).map fun s => (.set s, rest)

/-! ### Classes -/

inductive SetOperation
  | intersection
  | difference
  | exclusive

def SetOperation.apply (f : Flags) (op : SetOperation) (a b : CharSet) : CharSet :=
  let fold (s : CharSet) : CharSet := if f.caseless then .folded s else s
  match op with
  | .intersection => .intersection (fold a) (fold b)
  | .difference => .difference (fold a) (fold b)
  | .exclusive => .exclusive (fold a) (fold b)

/-- The left operand of a pending operation, applied to what has been read since. -/
def settle (f : Flags) (pending : Option (CharSet × SetOperation)) (s : CharSet) : CharSet :=
  match pending with
  | some (left, op) => op.apply f left s
  | none => s

/-- A class written `[:name:]` or `[:^name:]`, after its bracket. -/
def readAsciiClass? : List Char → Option (CharSet × List Char)
  | ':' :: rest => do
    let (negated, rest) := match rest with
      | '^' :: rest => (true, rest)
      | rest => (false, rest)
    let name := rest.takeWhile (· ≠ ':')
    match rest.drop name.length with
    | ':' :: ']' :: rest => do
      let s ← CharSet.asciiClass? (String.ofList name)
      some (if negated then .complement s else s, rest)
    | _ => none
  | _ => none

/-- One element of a class. -/
def readElement? (f : Flags) : List Char → Option (Escape × List Char)
  | [] => none
  | '\\' :: rest => do
    match ← readEscape? f rest with
    | (.anchor _, _) => none
    | element => some element
  | c :: rest => some (.literal c, rest)

/-- An element of a class, or two with a dash between them. -/
def readRange? (f : Flags) (cs : List Char) : Option (CharSet × List Char) := do
  let (first, rest) ← readElement? f cs
  let rest := f.skip rest
  let alone : Option (CharSet × List Char) := match first with
    | .literal c => some (CharSet.single c, rest)
    | .set s => some (s, rest)
    | .anchor _ => none
  match rest with
  | [] => none
  | '-' :: after =>
    match f.skip after with
    | ']' :: _ | '-' :: _ => alone
    | after => do
      let (second, rest) ← readElement? f after
      match first, second with
      | .literal a, .literal b =>
        if a.toNat ≤ b.toNat then some (.ranges [(a.toNat, b.toNat)], rest) else none
      | _, _ => none
  | _ => alone

/-- The dashes and the bracket that are literal at the start of a class. -/
def readClassStart (f : Flags) : Nat → CharSet → List Char → CharSet × List Char
  | 0, s, cs => (s, cs)
  | fuel + 1, s, cs =>
    match cs with
    | '-' :: rest => readClassStart f fuel (.union s (CharSet.single '-')) (f.skip rest)
    | cs => (s, cs)

/-- Whether a class is negated, the literals at its start, and the rest, after the bracket. -/
def openClass (f : Flags) (cs : List Char) : Bool × CharSet × List Char :=
  let (negated, cs) := match f.skip cs with
    | '^' :: rest => (true, f.skip rest)
    | cs => (false, cs)
  match cs with
  | ']' :: rest => (negated, CharSet.single ']', f.skip rest)
  | cs =>
    let (s, rest) := readClassStart f cs.length CharSet.empty cs
    (negated, s, rest)

/-- The rest of a class after its opening: the set read so far since the last operation, the left
operand of that operation, and whether the class is negated. -/
def readClass? (f : Flags) : Nat → Bool → Option (CharSet × SetOperation) → CharSet → List Char →
    Option (CharSet × List Char)
  | 0, _, _, _, _ => none
  | fuel + 1, negated, pending, s, cs =>
    let operation (op : SetOperation) (rest : List Char) :=
      readClass? f fuel negated (some (settle f pending s, op)) CharSet.empty rest
    match f.skip cs with
    | [] => none
    | '[' :: rest =>
      match readAsciiClass? rest with
      | some (t, rest) => readClass? f fuel negated pending (.union s t) rest
      | none => do
        let (inner, t, rest) := openClass f rest
        let (t, rest) ← readClass? f fuel inner none t rest
        readClass? f fuel negated pending (.union s t) rest
    | ']' :: rest =>
      let whole := settle f pending s
      let whole := if f.caseless then .folded whole else whole
      if negated then if f.unicode then some (.complement whole, rest) else none
      else some (whole, rest)
    | '&' :: '&' :: rest => operation .intersection rest
    | '-' :: '-' :: rest => operation .difference rest
    | '~' :: '~' :: rest => operation .exclusive rest
    | cs => do
      let (t, rest) ← readRange? f cs
      readClass? f fuel negated pending (.union s t) rest

/-! ### Repetition -/

/-- A count below `2 ^ 32` between optional blanks; `none` inside if there are no digits. -/
def readCount? (cs : List Char) : Option (Option Nat × List Char) :=
  let cs := cs.dropWhile Text.isBlank
  let (ds, rest) := Text.takeDigits cs
  let rest := rest.dropWhile Text.isBlank
  if ds = [] then some (none, rest)
  else if Text.digitsValue ds < 4294967296 then some (some (Text.digitsValue ds), rest)
  else none

/-- The bounds of a repetition after the opening brace. -/
def readBounds? (cs : List Char) : Option (Nat × Option Nat × List Char) := do
  let (least, rest) ← readCount? cs
  let least ← least
  match rest with
  | '\x7d' :: rest => some (least, some least, rest)
  | ',' :: '\x7d' :: rest => some (least, none, rest)
  | ',' :: rest => do
    let (most, rest) ← readCount? rest
    let most ← most
    match rest with
    | '\x7d' :: rest => if least ≤ most then some (least, some most, rest) else none
    | _ => none
  | _ => none

/-- The mark of a lazy repetition changes only which match is found. -/
def skipLazy : List Char → List Char
  | '?' :: rest => rest
  | cs => cs

/-! ### Groups -/

/-- One flag letter switched on or off. -/
def Flags.switch? (f : Flags) (on : Bool) : Char → Option Flags
  | 'i' => some { f with caseless := on }
  | 'm' => some { f with multiline := on }
  | 's' => some { f with dotAll := on }
  | 'U' => some f
  | 'u' => some { f with unicode := on }
  | 'R' => some { f with carriage := on }
  | 'x' => some { f with spaced := on }
  | _ => none

/-- The flags up to a colon or a closing bracket: the flags then in force, the letters read (last
first) and the rest from that character on. -/
def readFlags? : Nat → Flags → List Char → List Char → Option (Flags × List Char × List Char)
  | 0, _, _, _ => none
  | _, _, _, [] => none
  | fuel + 1, f, seen, c :: rest =>
    if c = ':' ∨ c = ')' then
      if seen.head? = some '-' then none else some (f, seen, c :: rest)
    else if seen.contains c then none
    else if c = '-' then readFlags? fuel f ('-' :: seen) rest
    else do
      let f ← f.switch? (!seen.contains '-') c
      readFlags? fuel f (c :: seen) rest

/-- A group name up to its closing bracket. -/
def readName? (cs : List Char) : Option (String × List Char) :=
  let name := cs.takeWhile (· ≠ '>')
  let startsWell : Bool := match name with
    | c :: _ => c = '_' || Text.isAlphabetic c
    | [] => false
  let goesWell := name.all fun c =>
    c = '_' || c = '.' || c = '[' || c = ']' || Text.isAlphanumeric c
  match cs.drop name.length with
  | _ :: rest => if startsWell ∧ goesWell then some (String.ofList name, rest) else none
  | [] => none

/-- How a group begins, after its opening bracket. -/
inductive GroupStart
  /-- Flags for the rest of the enclosing group. -/
  | setFlags (f : Flags)
  | group (f : Flags) (name : Option String)

def openGroup? (f : Flags) (cs : List Char) : Option (GroupStart × List Char) :=
  match f.skip cs with
  | '?' :: 'P' :: '<' :: rest | '?' :: '<' :: rest => do
    let (name, rest) ← readName? rest
    some (.group f (some name), rest)
  | '?' :: rest => do
    let (flags, seen, rest) ← readFlags? (rest.length + 1) f [] rest
    match rest with
    | ')' :: rest => if seen = [] then none else some (.setFlags flags, rest)
    | _ :: rest => some (.group flags none, rest)
    | [] => none
  | cs => some (.group f none, cs)

/-! ### Expressions -/

def literal (f : Flags) (c : Char) : Expr :=
  .set (if f.caseless then .folded (CharSet.single c) else CharSet.single c)

/-- Any character, or any but the line ends. -/
def anyChar? (f : Flags) : Option Expr :=
  if !f.unicode then none
  else if f.dotAll then some (.set CharSet.any)
  else if f.carriage then some (.set (.complement (.ranges [(10, 10), (13, 13)])))
  else some (.set (.complement (CharSet.single '\n')))

/-- What an expression read up to the end of its group leaves behind. -/
structure Parsed where
  expr : Expr
  names : List String
  rest : List Char

/-- The alternatives so far (last first), or nothing yet. -/
def alternatives (done : Option Expr) (pieces : List Piece) : Expr :=
  match done with
  | some e => .either e (sequence pieces)
  | none => sequence pieces

/-- The rest of a group or of the pattern, up to a closing bracket or the end.  `done` holds the
alternatives before, `pieces` the sequence so far with its last element first. -/
def readExpr? : Nat → Flags → Option Expr → List Piece → List String → List Char → Option Parsed
  | 0, _, _, _, _, _ => none
  | fuel + 1, f, done, pieces, names, cs =>
    let next (e : Expr) (rest : List Char) := readExpr? fuel f done (.expr e :: pieces) names rest
    let again (least : Nat) (most : Option Nat) (rest : List Char) : Option Parsed :=
      match pieces with
      | .expr e :: before =>
        readExpr? fuel f done (.expr (.repeated least most e) :: before) names (skipLazy rest)
      | _ => none
    match f.skip cs with
    | [] => some ⟨alternatives done pieces, names, []⟩
    | ')' :: rest => some ⟨alternatives done pieces, names, ')' :: rest⟩
    | '|' :: rest => readExpr? fuel f (some (alternatives done pieces)) [] names rest
    | '(' :: rest => do
      match ← openGroup? f rest with
      | (.setFlags f, rest) => readExpr? fuel f done (.flags :: pieces) names rest
      | (.group inner name, rest) => do
        if name.any names.contains then none
        let ⟨e, names, rest⟩ ← readExpr? fuel inner none [] (name.toList ++ names) rest
        match rest with
        | _ :: rest => readExpr? fuel f done (.expr e :: pieces) names rest
        | [] => none
    | '[' :: rest => do
      let (negated, s, rest) := openClass f rest
      let (s, rest) ← readClass? f fuel negated none s rest
      next (.set s) rest
    | '?' :: rest => again 0 (some 1) rest
    | '*' :: rest => again 0 none rest
    | '+' :: rest => again 1 none rest
    | '\x7b' :: rest => do
      let (least, most, rest) ← readBounds? rest
      again least most rest
    | '.' :: rest => do next (← anyChar? f) rest
    | '^' :: rest => next (.anchor (if f.multiline then .lineStart f.carriage else .textStart)) rest
    | '$' :: rest => next (.anchor (if f.multiline then .lineEnd f.carriage else .textEnd)) rest
    | '\\' :: rest => do
      match ← readEscape? f rest with
      | (.literal c, rest) => next (literal f c) rest
      | (.set s, rest) => next (.set s) rest
      | (.anchor a, rest) => next (.anchor a) rest
    | c :: rest => next (literal f c) rest

/-- The expression a whole text denotes, unless it is malformed or too large. -/
def parse? (s : String) : Option Expr := do
  let cs := s.toList
  let parsed ← readExpr? (cs.length + 1) {} none [] [] cs
  if parsed.rest = [] ∧ parsed.expr.cost ≤ Tree.maxCost then some parsed.expr else none

/-- Whether a pattern is well formed and matches somewhere in a text. -/
def search (pattern text : String) : Bool := (parse? pattern).any (·.found text)

end ContentSchema.Pattern
