import ContentSchema.Document

/-!
# TOML tables

Tables grow line by line: a header names the table that the next keys go into, and a dotted key
names tables on the way to its value.  A table is opened by one header at most, a value is given
once, and what stands in braces or brackets is closed.
-/

namespace ContentSchema.Toml

/-- How a table came to be. -/
inductive Origin
  /-- By a header for a table inside it. -/
  | implied
  | header
  /-- By a dotted key. -/
  | dotted
deriving DecidableEq, Repr

inductive Item
  /-- A value that nothing is added to. -/
  | closed (d : Document)
  | table (origin : Origin) (members : List (String × Item))
  /-- Tables under one name, the last one first. -/
  | tables (elements : List (List (String × Item)))
deriving Inhabited

/-- Members of a table. -/
abbrev Members := List (String × Item)

/-- Add a value at a dotted key; the tables on the way are made by dotted keys or implied. -/
def addValue? : List String → Document → Members → Option Members
  | [], _, _ => none
  | [key], d, members =>
    if Entries.contains key members then none else some (Entries.put key (.closed d) members)
  | key :: path, d, members =>
    match Entries.get? key members with
    | none => do some (Entries.put key (.table .dotted (← addValue? path d [])) members)
    | some (.table origin inner) =>
      if origin = .header then none
      else do some (Entries.put key (.table origin (← addValue? path d inner)) members)
    | some _ => none

/-- Change the members of the table that a header names; tables on the way are implied, and the
last one of several is meant. -/
def modifyTable? (f : Members → Option Members) : List String → Members → Option Members
  | [], members => f members
  | key :: path, members =>
    match Entries.get? key members with
    | none => do
      some (Entries.put key (.table .implied (← modifyTable? f path [])) members)
    | some (.table origin inner) => do
      some (Entries.put key (.table origin (← modifyTable? f path inner)) members)
    | some (.tables (last :: before)) => do
      some (Entries.put key (.tables ((← modifyTable? f path last) :: before)) members)
    | some _ => none

/-- Open the table `key`, which no header and no dotted key has opened before. -/
def openTable? (key : String) (members : Members) : Option Members :=
  match Entries.get? key members with
  | none => some (Entries.put key (.table .header []) members)
  | some (.table .implied inner) => some (Entries.put key (.table .header inner) members)
  | some _ => none

/-- Open a further table under `key`. -/
def openElement? (key : String) (members : Members) : Option Members :=
  match Entries.get? key members with
  | none => some (Entries.put key (.tables [[]]) members)
  | some (.tables elements) => some (Entries.put key (.tables ([] :: elements)) members)
  | some _ => none

mutual

def Item.toDocument : Item → Document
  | .closed d => d
  | .table _ members => .map (membersToDocuments members)
  | .tables elements => .list (elementsToDocuments elements [])

def membersToDocuments : List (String × Item) → List (String × Document)
  | [] => []
  | (key, item) :: rest => (key, item.toDocument) :: membersToDocuments rest

/-- The elements in order, from a list with the last one first. -/
def elementsToDocuments : List (List (String × Item)) → List Document → List Document
  | [], found => found
  | members :: before, found =>
    elementsToDocuments before (.map (membersToDocuments members) :: found)

end

end ContentSchema.Toml
