import ContentSchema.Text.Blank
import ContentSchema.Text.Script

/-!
# Character sets

The sets a pattern is made of: ranges, categories, the named classes and what set operations make
of them.
-/

namespace ContentSchema.Pattern

open Text

inductive CharSet
  | ranges (rs : List (Nat × Nat))
  | categories (cs : List Category)
  | complement (a : CharSet)
  | union (a b : CharSet)
  | intersection (a b : CharSet)
  /-- With every character also its variants in case. -/
  | folded (a : CharSet)

namespace CharSet

def contains : CharSet → Char → Bool
  | .ranges rs, c => inRanges rs c
  | .categories cs, c => cs.contains (category c)
  | .complement a, c => !a.contains c
  | .union a b, c => a.contains c || b.contains c
  | .intersection a b, c => a.contains c && b.contains c
  | .folded a, c => (caseVariants c).any a.contains

/-- How many ranges the set has, roughly. -/
def breadth : CharSet → Nat
  | .ranges rs => rs.length
  | .categories cs => 60 * cs.length
  | .complement a => a.breadth + 1
  | .union a b => a.breadth + b.breadth
  | .intersection a b => a.breadth + b.breadth
  | .folded a => 2 * a.breadth

def empty : CharSet := .ranges []

def any : CharSet := .ranges [(0, 0x10FFFF)]

def single (c : Char) : CharSet := .ranges [(c.toNat, c.toNat)]

def difference (a b : CharSet) : CharSet := .intersection a (.complement b)

def exclusive (a b : CharSet) : CharSet := .union (difference a b) (difference b a)

/-! ### Named sets -/

def blanks : CharSet :=
  .ranges [(9, 13), (0x20, 0x20), (0x85, 0x85), (0xA0, 0xA0), (0x1680, 0x1680), (0x2000, 0x200A),
    (0x2028, 0x2029), (0x202F, 0x202F), (0x205F, 0x205F), (0x3000, 0x3000)]

def digits : CharSet := .categories [.Nd]

def alphabetic : CharSet :=
  .union (.categories [.Lu, .Ll, .Lt, .Lm, .Lo, .Nl]) (.ranges (letterMarks ++ framedLetters))

/-- Letters, marks, digits, connecting punctuation and the two joiners. -/
def word : CharSet :=
  .union (.categories [.Lu, .Ll, .Lt, .Lm, .Lo, .Nl, .Mn, .Mc, .Me, .Nd, .Pc])
    (.ranges ((0x200C, 0x200D) :: framedLetters))

def asciiBlanks : CharSet := .ranges [(9, 13), (32, 32)]

def asciiDigits : CharSet := .ranges [(48, 57)]

def asciiWord : CharSet := .ranges [(48, 57), (65, 90), (95, 95), (97, 122)]

/-- The classes written `[:name:]`; they hold ASCII characters only. -/
def asciiClass? (name : String) : Option CharSet :=
  match name with
  | "alnum" => some (.ranges [(48, 57), (65, 90), (97, 122)])
  | "alpha" => some (.ranges [(65, 90), (97, 122)])
  | "ascii" => some (.ranges [(0, 127)])
  | "blank" => some (.ranges [(9, 9), (32, 32)])
  | "cntrl" => some (.ranges [(0, 31), (127, 127)])
  | "digit" => some asciiDigits
  | "graph" => some (.ranges [(33, 126)])
  | "lower" => some (.ranges [(97, 122)])
  | "print" => some (.ranges [(32, 126)])
  | "punct" => some (.ranges [(33, 47), (58, 64), (91, 96), (123, 126)])
  | "space" => some asciiBlanks
  | "upper" => some (.ranges [(65, 90)])
  | "word" => some asciiWord
  | "xdigit" => some (.ranges [(48, 57), (65, 70), (97, 102)])
  | _ => none

/-- The general categories by their names in lower case without separators. -/
def categoryNames : List (List String × List Category) :=
  [(["l", "letter"], [.Lu, .Ll, .Lt, .Lm, .Lo]),
   (["lc", "casedletter"], [.Lu, .Ll, .Lt]),
   (["lu", "uppercaseletter"], [.Lu]),
   (["ll", "lowercaseletter"], [.Ll]),
   (["lt", "titlecaseletter"], [.Lt]),
   (["lm", "modifierletter"], [.Lm]),
   (["lo", "otherletter"], [.Lo]),
   (["m", "mark", "combiningmark"], [.Mn, .Mc, .Me]),
   (["mn", "nonspacingmark"], [.Mn]),
   (["mc", "spacingmark"], [.Mc]),
   (["me", "enclosingmark"], [.Me]),
   (["n", "number"], [.Nd, .Nl, .No]),
   (["nd", "decimalnumber", "digit"], [.Nd]),
   (["nl", "letternumber"], [.Nl]),
   (["no", "othernumber"], [.No]),
   (["p", "punctuation", "punct"], [.Pc, .Pd, .Ps, .Pe, .Pi, .Pf, .Po]),
   (["pc", "connectorpunctuation"], [.Pc]),
   (["pd", "dashpunctuation"], [.Pd]),
   (["ps", "openpunctuation"], [.Ps]),
   (["pe", "closepunctuation"], [.Pe]),
   (["pi", "initialpunctuation"], [.Pi]),
   (["pf", "finalpunctuation"], [.Pf]),
   (["po", "otherpunctuation"], [.Po]),
   (["s", "symbol"], [.Sm, .Sc, .Sk, .So]),
   (["sm", "mathsymbol"], [.Sm]),
   (["sc", "currencysymbol"], [.Sc]),
   (["sk", "modifiersymbol"], [.Sk]),
   (["so", "othersymbol"], [.So]),
   (["z", "separator"], [.Zs, .Zl, .Zp]),
   (["zs", "spaceseparator"], [.Zs]),
   (["zl", "lineseparator"], [.Zl]),
   (["zp", "paragraphseparator"], [.Zp]),
   (["c", "other"], [.Cc, .Cf, .Cs, .Co, .Cn]),
   (["cc", "control", "cntrl"], [.Cc]),
   (["cf", "format"], [.Cf]),
   (["co", "privateuse"], [.Co]),
   (["cn", "unassigned"], [.Cn])]

/-- A property name in lower case, without blanks, dashes, underscores and a leading `is`. -/
def looseName (s : List Char) : String :=
  let kept := (s.filter fun c => c ≠ ' ' && c ≠ '-' && c ≠ '_').map Char.toLower
  String.ofList (match kept with
    | 'i' :: 's' :: c :: rest => c :: rest
    | cs => cs)

def categoryNamed? (name : String) : Option CharSet :=
  match name with
  | "any" => some any
  | "assigned" => some (.complement (.categories [.Cn]))
  | "ascii" => some (.ranges [(0, 127)])
  | _ => (categoryNames.find? (·.1.contains name)).map fun e => .categories e.2

def scriptNamed? (name : String) : Option CharSet := (scripts.lookup name).map .ranges

def propertyNamed? (name : String) : Option CharSet :=
  match name with
  | "alphabetic" | "alpha" => some alphabetic
  | "lowercase" | "lower" => some (.union (.categories [.Ll]) (.ranges otherLower))
  | "uppercase" | "upper" => some (.union (.categories [.Lu]) (.ranges otherUpper))
  | "whitespace" | "wspace" | "space" => some blanks
  | "cased" => some (.union (.categories [.Lu, .Ll, .Lt]) (.ranges otherCased))
  | _ => none

/-- A set named alone: a property, a category or a script. -/
def named? (name : String) : Option CharSet :=
  (propertyNamed? name).orElse fun _ => (categoryNamed? name).orElse fun _ => scriptNamed? name

/-- A set named by a property and its value. -/
def namedValue? (property value : String) : Option CharSet :=
  if property = "generalcategory" ∨ property = "gc" then categoryNamed? value
  else if ["script", "sc", "scriptextensions", "scx"].contains property then scriptNamed? value
  else none

end CharSet

end ContentSchema.Pattern
