import ContentSchema.Value

/-!
# JSON text

The compact form of a value, and the form with one item a line.  Objects are written in their own
order, which is key order.  A text escapes the quote, the backslash and the control characters
below the space, and nothing else.
-/

namespace ContentSchema.Json

/-- The lower-case hexadecimal digit of `n < 16`. -/
def hexDigit (n : Nat) : Char := Char.ofNat (if n < 10 then 48 + n else 87 + n)

/-- One character between quotes. -/
def escapeChar (c : Char) : List Char :=
  if c = '"' then ['\\', '"']
  else if c = '\\' then ['\\', '\\']
  else if 32 ≤ c.toNat then [c]
  else if c.toNat = 8 then ['\\', 'b']
  else if c.toNat = 9 then ['\\', 't']
  else if c.toNat = 10 then ['\\', 'n']
  else if c.toNat = 12 then ['\\', 'f']
  else if c.toNat = 13 then ['\\', 'r']
  else ['\\', 'u', '0', '0', hexDigit (c.toNat / 16), hexDigit (c.toNat % 16)]

/-- A text between quotes. -/
def quote (s : String) : List Char := '"' :: s.toList.flatMap escapeChar ++ ['"']

mutual

/-- The compact form. -/
def chars : Value → List Char
  | .null => ['n', 'u', 'l', 'l']
  | .bool true => ['t', 'r', 'u', 'e']
  | .bool false => ['f', 'a', 'l', 's', 'e']
  | .number n => n.text.toList
  | .string s => quote s
  | .list items => '[' :: itemChars items ++ [']']
  | .object ms => '\x7b' :: memberChars ms ++ ['\x7d']

/-- Items with commas between them. -/
def itemChars : List Value → List Char
  | [] => []
  | [v] => chars v
  | v :: w :: rest => chars v ++ ',' :: itemChars (w :: rest)

/-- Members with commas between them. -/
def memberChars : List (String × Value) → List Char
  | [] => []
  | [(k, v)] => quote k ++ ':' :: chars v
  | (k, v) :: m :: rest => quote k ++ ':' :: chars v ++ ',' :: memberChars (m :: rest)

end

/-- The compact form as a text. -/
def text (v : Value) : String := String.ofList (chars v)

/-- The plain text of a value: nothing for null, a text itself, else the compact form. -/
def plainText : Value → String
  | .null => ""
  | .string s => s
  | v => text v

/-! ### One item a line -/

/-- A new line at a depth of two spaces each. -/
def newline (depth : Nat) : List Char := '\n' :: List.replicate (2 * depth) ' '

mutual

/-- The form with one item a line, the items of this value at `depth + 1`. -/
def prettyChars (depth : Nat) : Value → List Char
  | .list (v :: vs) => '[' :: prettyItems (depth + 1) (v :: vs) ++ newline depth ++ [']']
  | .object (m :: ms) => '\x7b' :: prettyMembers (depth + 1) (m :: ms) ++ newline depth ++ ['\x7d']
  | v => chars v

def prettyItems (depth : Nat) : List Value → List Char
  | [] => []
  | [v] => newline depth ++ prettyChars depth v
  | v :: w :: rest => newline depth ++ prettyChars depth v ++ ',' :: prettyItems depth (w :: rest)

def prettyMembers (depth : Nat) : List (String × Value) → List Char
  | [] => []
  | [(k, v)] => newline depth ++ quote k ++ ':' :: ' ' :: prettyChars depth v
  | (k, v) :: m :: rest =>
    newline depth ++ quote k ++ ':' :: ' ' :: prettyChars depth v ++
      ',' :: prettyMembers depth (m :: rest)

end

/-- The form with one item a line, as a text. -/
def prettyText (v : Value) : String := String.ofList (prettyChars 0 v)

end ContentSchema.Json
