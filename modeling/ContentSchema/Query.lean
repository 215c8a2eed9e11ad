import ContentSchema.Error
import ContentSchema.Value

/-!
# Queries

A request describes which records of a collection are wanted; a record source answers requests.  A
query is a request on its way to a source: each method returns a changed copy, and the last one
asks the source.
-/

namespace ContentSchema

/-- A condition on one member of a record. -/
inductive Filter
  | eq (field : String) (value : Value)
  | ne (field : String) (value : Value)
  | among (field : String) (values : List Value)
deriving DecidableEq, Inhabited

namespace Filter

/-- Whether a record passes; a member it lacks counts as null. -/
def accepts (f : Filter) (record : Value) : Bool :=
  match f with
  | .eq field value => ((record.get? field).getD .null).same value
  | .ne field value => !((record.get? field).getD .null).same value
  | .among field values => values.any ((record.get? field).getD .null).same

end Filter

/-- What a record source needs to know. -/
structure Request where
  collection : String
  /-- Members to return; all when empty. -/
  select : List String := []
  /-- Conditions, all of which must hold. -/
  filters : List Filter := []
  /-- The caller is going to populate the records. -/
  populate : Bool := false
  limit : Option Nat := none
deriving DecidableEq, Inhabited

/-- A store of records. -/
structure RecordSource where
  /-- The records a request asks for. -/
  fetch : Request → Except QueryError (List Value)

namespace RecordSource

/-- How many records pass the filters, whatever the limit. -/
def count (source : RecordSource) (request : Request) : Except QueryError Nat :=
  (source.fetch { request with limit := none }).map List.length

end RecordSource

/-- A request together with the source it goes to. -/
structure Query where
  source : RecordSource
  request : Request

namespace Query

def select (q : Query) (names : List String) : Query :=
  { q with request := { q.request with select := names } }

def filter (q : Query) (f : Filter) : Query :=
  { q with request := { q.request with filters := q.request.filters ++ [f] } }

def whereEq (q : Query) (field : String) (value : Value) : Query := q.filter (.eq field value)

def whereNe (q : Query) (field : String) (value : Value) : Query := q.filter (.ne field value)

def whereIn (q : Query) (field : String) (values : List Value) : Query :=
  q.filter (.among field values)

def populate (q : Query) (flag : Bool) : Query :=
  { q with request := { q.request with populate := flag } }

def limit (q : Query) (n : Nat) : Query :=
  { q with request := { q.request with limit := some n } }

/-- The records asked for. -/
def all (q : Query) : Except QueryError (List Value) := q.source.fetch q.request

/-- The first record, whatever the limit. -/
def first (q : Query) : Except QueryError (Option Value) := (q.limit 1).all.map List.head?

/-- The number of matching records, whatever the limit. -/
def count (q : Query) : Except QueryError Nat := q.source.count q.request

/-- Whether a record matches, whatever the limit. -/
def «exists» (q : Query) : Except QueryError Bool := (q.select ["id"]).first.map Option.isSome

end Query

/-- Start a query on a collection. -/
def RecordSource.query (source : RecordSource) (collection : String) : Query :=
  ⟨source, { collection := collection }⟩

end ContentSchema
