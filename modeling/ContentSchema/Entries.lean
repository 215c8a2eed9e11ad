/-!
# Entries

Association lists with texts as keys.  `put` keeps the order of first insertion, `insert` keeps the
keys sorted; both replace the value of a key that is present.  Neither needs an invariant for its
look-up laws.
-/

namespace ContentSchema

/-- Pairs of a key and a value, read from the front. -/
abbrev Entries (α : Type) := List (String × α)

namespace Entries

variable {α : Type}

/-- The value of the first entry with this key. -/
def get? (key : String) : Entries α → Option α
  | [] => none
  | (k, v) :: rest => if k = key then some v else get? key rest

def keys (es : Entries α) : List String := es.map (·.1)

def contains (key : String) (es : Entries α) : Bool := (es.get? key).isSome

/-- Replace the value of `key` in place, or add it behind all others. -/
def put (key : String) (value : α) : Entries α → Entries α
  | [] => [(key, value)]
  | (k, v) :: rest => if k = key then (key, value) :: rest else (k, v) :: put key value rest

/-- Add an entry in front of the first greater key. -/
def place (key : String) (value : α) : Entries α → Entries α
  | [] => [(key, value)]
  | (k, v) :: rest =>
    if key < k then (key, value) :: (k, v) :: rest else (k, v) :: place key value rest

/-- Replace the value of `key` in place, or add it in front of the first greater key. -/
def insert (key : String) (value : α) (es : Entries α) : Entries α :=
  if es.contains key then put key value es else place key value es

/-- Drop every entry with this key. -/
def erase (key : String) (es : Entries α) : Entries α := es.filter (·.1 ≠ key)

/-- Change the value of the first entry with this key. -/
def update (key : String) (f : α → α) : Entries α → Entries α
  | [] => []
  | (k, v) :: rest => if k = key then (k, f v) :: rest else (k, v) :: update key f rest

/-- In the order of first insertion, with the value of the last. -/
def ofList (ps : List (String × α)) : Entries α := ps.foldl (fun es p => put p.1 p.2 es) []

/-- Sorted by key, with the value of the last. -/
def sorted (ps : List (String × α)) : Entries α := ps.foldl (fun es p => insert p.1 p.2 es) []

@[simp] theorem get?_nil (key : String) : get? key ([] : Entries α) = none := rfl

theorem get?_cons (key k : String) (v : α) (rest : Entries α) :
    get? key ((k, v) :: rest) = if k = key then some v else get? key rest := rfl

theorem get?_put_self (key : String) (value : α) (es : Entries α) :
    (put key value es).get? key = some value := by
  induction es with
  | nil => simp [put, get?]
  | cons e rest ih => obtain ⟨k, v⟩ := e; by_cases h : k = key <;> simp [put, get?, h, ih]

theorem get?_put_of_ne {key other : String} (h : key ≠ other) (value : α) (es : Entries α) :
    (put key value es).get? other = es.get? other := by
  induction es with
  | nil => simp [put, get?, h]
  | cons e rest ih =>
    obtain ⟨k, v⟩ := e
    by_cases hk : k = key
    · subst hk; simp [put, get?, h]
    · simp [put, get?, hk, ih]

theorem get?_place_self {key : String} {es : Entries α} (h : es.get? key = none) (value : α) :
    (place key value es).get? key = some value := by
  induction es with
  | nil => simp [place, get?]
  | cons e rest ih =>
    obtain ⟨k, v⟩ := e
    by_cases hk : k = key
    · simp [get?, hk] at h
    · by_cases hlt : key < k
      · simp [place, get?, hlt]
      · simp only [get?, hk, if_false] at h
        simp [place, get?, hk, hlt, ih h]

theorem get?_place_of_ne {key other : String} (h : key ≠ other) (value : α) (es : Entries α) :
    (place key value es).get? other = es.get? other := by
  induction es with
  | nil => simp [place, get?, h]
  | cons e rest ih =>
    obtain ⟨k, v⟩ := e
    by_cases hlt : key < k <;> simp [place, get?, hlt, h, ih]

theorem get?_insert_self (key : String) (value : α) (es : Entries α) :
    (insert key value es).get? key = some value := by
  unfold insert contains
  cases h : es.get? key with
  | some v => simpa using get?_put_self key value es
  | none => simpa using get?_place_self h value

theorem get?_insert_of_ne {key other : String} (h : key ≠ other) (value : α) (es : Entries α) :
    (insert key value es).get? other = es.get? other := by
  unfold insert
  split
  · exact get?_put_of_ne h value es
  · exact get?_place_of_ne h value es

end Entries

end ContentSchema
