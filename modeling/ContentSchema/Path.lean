import ContentSchema.Text.Split
import ContentSchema.Value

/-!
# Paths

A path addresses a value inside a record, one segment for each object key or list index.  Reading,
writing and changing a value at a path recurse over the segments; a reference is resolved against
a path the way a relative link is resolved against the page that holds it.
-/

namespace ContentSchema

structure Path where
  segments : List String
deriving DecidableEq, Repr, Inhabited

namespace Path

/-- The path of the record itself. -/
def root : Path := ⟨[]⟩

/-- The segments of a dotted text, empty ones left out. -/
def pieces (s : String) : List String := (Text.split '.' s).filter (· ≠ "")

/-- Read a dotted text. -/
def parse (s : String) : Path := ⟨pieces s⟩

/-- The segments with dots between them. -/
def text (p : Path) : String := Text.join "." p.segments

/-- Append an object key. -/
def child (p : Path) (segment : String) : Path := ⟨p.segments ++ [segment]⟩

/-- Append a list index. -/
def index (p : Path) (i : Nat) : Path := p.child (String.ofList (Nat.toDigits 10 i))

/-- Append all segments of another path. -/
def append (p q : Path) : Path := ⟨p.segments ++ q.segments⟩

instance : Append Path := ⟨append⟩

def isRoot (p : Path) : Bool := p.segments.isEmpty

/-- Number of segments. -/
def depth (p : Path) : Nat := p.segments.length

/-- The last segment; empty for the root. -/
def name (p : Path) : String := p.segments.getLastD ""

/-- The path of the container; the root is its own. -/
def parent (p : Path) : Path := ⟨p.segments.dropLast⟩

/-! ### References -/

/-- One part of a reference between slashes: nothing and `.` stay, `..` goes up, else go down. -/
def step (segments : List String) (part : String) : List String :=
  if part = "" ∨ part = "." then segments
  else if part = ".." then segments.dropLast
  else segments ++ pieces part

/-- The path a reference names from `p`.  The last segment of `p` is the file of the link: a name
is a sibling, `..` the container, and a leading slash starts at the root. -/
def resolve (p : Path) (reference : String) : Path :=
  match reference.toList with
  | '/' :: rest => ⟨(Text.split '/' (String.ofList rest)).foldl step []⟩
  | _ => ⟨(Text.split '/' reference).foldl step p.parent.segments⟩

/-! ### Values at a path -/

/-- The value one segment below: a member of an object or an item of a list. -/
def descend (v : Value) (segment : String) : Option Value :=
  match v with
  | .object ms => Entries.get? segment ms
  | .list items => do items[← Text.readIndex? segment]?
  | _ => none

/-- The value below `v` along the segments. -/
def lookupSegments : List String → Value → Option Value
  | [], v => some v
  | s :: rest, v => (descend v s).bind (lookupSegments rest)

/-- The value at a path, if there is one. -/
def lookup (p : Path) (v : Value) : Option Value := lookupSegments p.segments v

/-- Change the value one segment below, which must be present. -/
def modifyStep? (segment : String) (f : Value → Option Value) (v : Value) : Option Value :=
  match v with
  | .object ms => do
    let w ← (← Entries.get? segment ms |>.map f)
    some (.object (Entries.update segment (fun _ => w) ms))
  | .list items => do
    let i ← Text.readIndex? segment
    let w ← (← items[i]?.map f)
    some (.list (items.set i w))
  | _ => none

/-- Change the value along the segments. -/
def modifySegments? (f : Value → Option Value) : List String → Value → Option Value
  | [], v => f v
  | s :: rest, v => modifyStep? s (modifySegments? f rest) v

/-- Change the value at a path; `none` when there is none or `f` refuses. -/
def modify? (p : Path) (f : Value → Option Value) (v : Value) : Option Value :=
  modifySegments? f p.segments v

/-- Store a value in a container: an object takes any key, a list only an index it has. -/
def store? (segment : String) (w v : Value) : Option Value :=
  match v with
  | .object ms => some (.object (Entries.insert segment w ms))
  | .list items => do
    let i ← Text.readIndex? segment
    if i < items.length then some (.list (items.set i w)) else none
  | _ => none

/-- Store `w` along the segments; the container must be present. -/
def setSegments? (w : Value) : List String → Value → Option Value
  | [], _ => some w
  | [s], v => store? s w v
  | s :: t :: rest, v => modifyStep? s (setSegments? w (t :: rest)) v

/-- Store `w` at a path; `none` when the container cannot hold it. -/
def set? (p : Path) (w v : Value) : Option Value := setSegments? w p.segments v

/-- Store `w` at a path, or leave the value as it is. -/
def set (p : Path) (w v : Value) : Value := (p.set? w v).getD v

end Path

end ContentSchema
