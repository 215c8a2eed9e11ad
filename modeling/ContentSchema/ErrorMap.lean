import ContentSchema.Path

/-!
# Error maps

The messages of a failed operation under the texts of their paths.  The first message of a path
stays, and paths are listed in the order of their first message.
-/

namespace ContentSchema

structure ErrorMap where
  entries : Entries String
deriving DecidableEq, Repr, Inhabited

namespace ErrorMap

def empty : ErrorMap := ⟨[]⟩

/-- Add a message under a key that has none. -/
def add (errors : ErrorMap) (key message : String) : ErrorMap :=
  if errors.entries.contains key then errors else ⟨errors.entries ++ [(key, message)]⟩

/-- Add a message at a path that has none. -/
def insert (errors : ErrorMap) (path : Path) (message : String) : ErrorMap :=
  errors.add path.text message

def get? (errors : ErrorMap) (key : String) : Option String := errors.entries.get? key

def contains (errors : ErrorMap) (key : String) : Bool := errors.entries.contains key

def isEmpty (errors : ErrorMap) : Bool := errors.entries.isEmpty

def size (errors : ErrorMap) : Nat := errors.entries.length

/-- A key below a first segment; the empty key becomes that segment. -/
def below (first key : String) : String := if key = "" then first else first ++ "." ++ key

/-- Add the messages of another map, each path below `first`. -/
def merge (errors : ErrorMap) (first : String) (other : ErrorMap) : ErrorMap :=
  other.entries.foldl (fun errors e => errors.add (below first e.1) e.2) errors

/-- One line for each path. -/
def text (errors : ErrorMap) : String :=
  Text.join "\n" (errors.entries.map fun e => e.1 ++ ": " ++ e.2)

theorem get?_add_self (errors : ErrorMap) (key message : String) (h : errors.contains key = false) :
    (errors.add key message).get? key = some message := by
  obtain ⟨es⟩ := errors
  simp only [contains] at h
  simp only [add, h, get?, Bool.false_eq_true, if_false]
  induction es with
  | nil => simp [Entries.get?]
  | cons e rest ih =>
    obtain ⟨k, v⟩ := e
    by_cases hk : k = key
    · simp [Entries.contains, Entries.get?, hk] at h
    · simp only [List.cons_append, Entries.get?_cons, hk, if_false]
      exact ih (by simpa [Entries.contains, Entries.get?, hk] using h)

end ErrorMap

end ContentSchema
