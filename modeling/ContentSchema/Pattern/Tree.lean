import ContentSchema.Pattern.CharSet

/-!
# Patterns and their search

A pattern is a regular expression over characters with assertions about a place.  A set of places
in a text is a number whose bit `i` stands for the place before character `i`; each construct maps
the places where a match may start to those where it may end, so a search costs no backtracking.
-/

namespace ContentSchema.Pattern

/-- A condition on the characters next to a place. -/
inductive Anchor
  | textStart
  | textEnd
  /-- After a line feed or at the start; with the flag, also around carriage returns. -/
  | lineStart (carriage : Bool)
  | lineEnd (carriage : Bool)
  /-- Between a word character and another; without the flag words are ASCII. -/
  | boundary (unicode : Bool)
  | noBoundary (unicode : Bool)
  | wordStart (unicode : Bool)
  | wordEnd (unicode : Bool)
  /-- No word character before. -/
  | afterNonWord (unicode : Bool)
  /-- No word character behind. -/
  | beforeNonWord (unicode : Bool)

def isWord (unicode : Bool) (c : Option Char) : Bool :=
  match c with
  | some c => if unicode then CharSet.word.contains c else CharSet.asciiWord.contains c
  | none => false

/-- Whether the assertion holds between two neighbours. -/
def Anchor.holds (a : Anchor) (before after : Option Char) : Bool :=
  match a with
  | .textStart => before.isNone
  | .textEnd => after.isNone
  | .lineStart false => before.isNone || before == some '\n'
  | .lineStart true =>
    before.isNone || before == some '\n' || (before == some '\r' && after != some '\n')
  | .lineEnd false => after.isNone || after == some '\n'
  | .lineEnd true =>
    after.isNone || after == some '\r' || (after == some '\n' && before != some '\r')
  | .boundary u => isWord u before != isWord u after
  | .noBoundary u => isWord u before == isWord u after
  | .wordStart u => !isWord u before && isWord u after
  | .wordEnd u => isWord u before && !isWord u after
  | .afterNonWord u => !isWord u before
  | .beforeNonWord u => !isWord u after

/-- A regular expression with sets `σ` and assertions `α` at its leaves. -/
inductive Tree (σ α : Type)
  | empty
  | set (s : σ)
  | anchor (a : α)
  | seq (first second : Tree σ α)
  | either (first second : Tree σ α)
  /-- At least `least` times in a row, at most `most` times if there is a bound. -/
  | repeated (least : Nat) (most : Option Nat) (body : Tree σ α)

namespace Tree

variable {σ α σ' α' : Type}

def map (f : σ → σ') (g : α → α') : Tree σ α → Tree σ' α'
  | .empty => .empty
  | .set s => .set (f s)
  | .anchor a => .anchor (g a)
  | .seq a b => .seq (a.map f g) (b.map f g)
  | .either a b => .either (a.map f g) (b.map f g)
  | .repeated least most a => .repeated least most (a.map f g)

/-- Bytes a compiled form takes, roughly: a fixed part for each state and for each range. -/
def cost : Tree CharSet Anchor → Nat
  | .empty => 0
  | .set s => 32 + 60 * (s.breadth - 1)
  | .anchor _ => 32
  | .seq a b => a.cost + b.cost
  | .either a b => 32 + a.cost + b.cost
  | .repeated least none a => 32 + (max 1 least) * a.cost
  | .repeated _ (some most) a => most * (a.cost + 32)

/-- A pattern with a greater cost is refused. -/
def maxCost : Nat := 10485760

/-- Apply `step` `n` times. -/
def iterate (step : Nat → Nat) : Nat → Nat → Nat
  | 0, places => places
  | n + 1, places => iterate step n (step places)

/-- All places that at most `n` steps reach. -/
def reach (step : Nat → Nat) : Nat → Nat → Nat
  | 0, places => places
  | n + 1, places => reach step n (places ||| step places)

/-- The places where a match from `places` may end.  Leaves hold the places at which they apply;
`bound` is more than the length of the text, and rounds beyond it change nothing. -/
def ends (bound : Nat) : Tree Nat Nat → Nat → Nat
  | .empty, places => places
  | .set mask, places => (places &&& mask) <<< 1
  | .anchor mask, places => places &&& mask
  | .seq a b, places => b.ends bound (a.ends bound places)
  | .either a b, places => a.ends bound places ||| b.ends bound places
  | .repeated least most a, places =>
    let extra := match most with
      | some most => most - least
      | none => bound
    reach (a.ends bound) (min extra bound) (iterate (a.ends bound) (min least bound) places)

end Tree

/-- The places below `n` with a property. -/
def mask (n : Nat) (p : Nat → Bool) : Nat :=
  (List.range n).foldl (fun m i => if p i then m ||| (1 <<< i) else m) 0

/-- Whether the pattern matches somewhere in the text. -/
def Tree.found (t : Tree CharSet Anchor) (s : String) : Bool :=
  let text := s.toList.toArray
  let n := text.size
  let before (i : Nat) : Option Char := if i = 0 then none else text[i - 1]?
  let masked := t.map (fun set => mask n fun i => (text[i]?).any set.contains)
    (fun a => mask (n + 1) fun i => a.holds (before i) text[i]?)
  masked.ends (n + 2) ((1 <<< (n + 1)) - 1) != 0

end ContentSchema.Pattern
