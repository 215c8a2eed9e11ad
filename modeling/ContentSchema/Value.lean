import ContentSchema.Entries
import ContentSchema.Number

/-!
# Values

The dynamic values that records are made of.  An object lists its members in key order; the
building functions of this library keep it so.  `same` is equality up to the value of numbers.
-/

namespace ContentSchema

inductive Value
  | null
  | bool (b : Bool)
  | number (n : Number)
  | string (s : String)
  | list (items : List Value)
  | object (members : List (String × Value))
deriving Inhabited

namespace Value

mutual

/-- Identity: integers and doubles differ even when their values agree. -/
def decEq : (v w : Value) → Decidable (v = w)
  | .null, .null => isTrue rfl
  | .bool a, .bool b =>
    if h : a = b then isTrue (by rw [h]) else isFalse (by intro e; injection e; contradiction)
  | .number a, .number b =>
    if h : a = b then isTrue (by rw [h]) else isFalse (by intro e; injection e; contradiction)
  | .string a, .string b =>
    if h : a = b then isTrue (by rw [h]) else isFalse (by intro e; injection e; contradiction)
  | .list as, .list bs =>
    match decEqItems as bs with
    | isTrue h => isTrue (by rw [h])
    | isFalse h => isFalse (by intro e; injection e; contradiction)
  | .object as, .object bs =>
    match decEqMembers as bs with
    | isTrue h => isTrue (by rw [h])
    | isFalse h => isFalse (by intro e; injection e; contradiction)
  | .null, .bool _ | .null, .number _ | .null, .string _ | .null, .list _ | .null, .object _
  | .bool _, .null | .bool _, .number _ | .bool _, .string _ | .bool _, .list _
  | .bool _, .object _ | .number _, .null | .number _, .bool _ | .number _, .string _
  | .number _, .list _ | .number _, .object _ | .string _, .null | .string _, .bool _
  | .string _, .number _ | .string _, .list _ | .string _, .object _ | .list _, .null
  | .list _, .bool _ | .list _, .number _ | .list _, .string _ | .list _, .object _
  | .object _, .null | .object _, .bool _ | .object _, .number _ | .object _, .string _
  | .object _, .list _ => isFalse nofun

def decEqItems : (vs ws : List Value) → Decidable (vs = ws)
  | [], [] => isTrue rfl
  | v :: vs, w :: ws =>
    match decEq v w, decEqItems vs ws with
    | isTrue h, isTrue hs => isTrue (by rw [h, hs])
    | isFalse h, _ => isFalse (by intro e; injection e; contradiction)
    | _, isFalse h => isFalse (by intro e; injection e; contradiction)
  | [], _ :: _ => isFalse nofun
  | _ :: _, [] => isFalse nofun

def decEqMembers : (vs ws : List (String × Value)) → Decidable (vs = ws)
  | [], [] => isTrue rfl
  | (k, v) :: vs, (l, w) :: ws =>
    if hk : k = l then
      match decEq v w, decEqMembers vs ws with
      | isTrue h, isTrue hs => isTrue (by rw [hk, h, hs])
      | isFalse h, _ => isFalse (by intro e; injection e with e; injection e; contradiction)
      | _, isFalse h => isFalse (by intro e; injection e; contradiction)
    else isFalse (by intro e; injection e with e; injection e; contradiction)
  | [], _ :: _ => isFalse nofun
  | _ :: _, [] => isFalse nofun

end

instance : DecidableEq Value := decEq

/-! ### Reading -/

/-- A whole number; beyond 64 bits its nearest double. -/
def ofInt (i : Int) : Value := .number (.ofInt i)

/-- The double as a number, an integer where one is exact. -/
def ofBinary64 (x : Binary64) : Value := .number (.ofBinary64 x)

def bool? : Value → Option Bool
  | .bool b => some b
  | _ => none

def number? : Value → Option Number
  | .number n => some n
  | _ => none

/-- The number rounded to a double. -/
def binary64? (v : Value) : Option Binary64 := v.number?.map Number.toBinary64

def string? : Value → Option String
  | .string s => some s
  | _ => none

def list? : Value → Option (List Value)
  | .list items => some items
  | _ => none

def isNull : Value → Bool
  | .null => true
  | _ => false

def isObject : Value → Bool
  | .object _ => true
  | _ => false

/-- The items of a list; nothing else has any. -/
def items : Value → List Value
  | .list items => items
  | _ => []

/-- The members of an object; nothing else has any. -/
def members : Value → Entries Value
  | .object ms => ms
  | _ => []

/-- The member of an object with this key. -/
def get? (key : String) (v : Value) : Option Value := v.members.get? key

/-- Nothing, an empty text, an empty list or an empty object. -/
def isEmpty : Value → Bool
  | .null => true
  | .string s => s.toList.isEmpty
  | .list items => items.isEmpty
  | .object ms => ms.isEmpty
  | _ => false

/-- The record id a number stands for: a positive integer, or a positive double without a fraction
(no more than the greatest natural number of 64 bits). -/
def id? : Value → Option Nat
  | .number (.integer i _) => if 0 < i then some i.toNat else none
  | .number (.real x) =>
    if x.isWhole ∧ 0 < x.scaled then some (min x.truncate.toNat (wordEnd - 1)) else none
  | _ => none

/-! ### Equality by value -/

mutual

/-- Equality in which numbers compare by value. -/
def same : Value → Value → Bool
  | .null, .null => true
  | .bool a, .bool b => a == b
  | .number a, .number b => a.same b
  | .string a, .string b => a == b
  | .list as, .list bs => sameItems as bs
  | .object as, .object bs => sameMembers as bs
  | _, _ => false

/-- Pairwise equality of two lists of one length. -/
def sameItems : List Value → List Value → Bool
  | [], [] => true
  | a :: as, b :: bs => same a b && sameItems as bs
  | _, _ => false

/-- The same keys with equal values. -/
def sameMembers : List (String × Value) → List (String × Value) → Bool
  | [], [] => true
  | (k, a) :: as, (l, b) :: bs => k == l && same a b && sameMembers as bs
  | _, _ => false

end

/-! ### Size -/

mutual

/-- Number of values, keys and characters; bounds every recursion into a value. -/
def weight : Value → Nat
  | .string s => 1 + s.length
  | .list items => 1 + weightItems items
  | .object ms => 1 + weightMembers ms
  | _ => 1

def weightItems : List Value → Nat
  | [] => 0
  | v :: vs => weight v + weightItems vs

def weightMembers : List (String × Value) → Nat
  | [] => 0
  | (k, v) :: ms => 1 + k.length + weight v + weightMembers ms

end

end Value

end ContentSchema
