import Mathlib.Data.List.Induction
import ContentSchema.Proofs.StoreQueries

/-!
# Query chains — what a chain of query calls asks, and what a store answers

The calls of a chain are made one after the other on a query.  However they are mixed, what counts
in the end are the conditions of all of them, the last selection and the last limit
(`QueryChain.on_eq`).  A store that was filled by insertions answers from the records of the
collection, in the order of their insertion, that pass every condition (`Store.chain_answers`).
-/

namespace ContentSchema

/-! ### Insertions -/

namespace Store

/-- Insert records one after the other, each into the collection it comes with. -/
def insertEach (store : Store) (inserts : List (String × Value)) : Store :=
  inserts.foldl (fun store e => store.insert e.1 e.2) store

/-- The records that come with a collection, in their order. -/
def insertedInto (collection : String) (inserts : List (String × Value)) : List Value :=
  (inserts.filter (·.1 = collection)).map (·.2)

theorem records_insert_of_ne (store : Store) {collection other : String} (h : collection ≠ other)
    (record : Value) : (store.insert collection record).records other = store.records other := by
  unfold records insert add
  rw [Entries.get?_put_of_ne h]

/-- Insertions append to each collection the records that come with it. -/
theorem records_insertEach (store : Store) (inserts : List (String × Value))
    (collection : String) :
    (store.insertEach inserts).records collection =
      store.records collection ++ insertedInto collection inserts := by
  induction inserts generalizing store with
  | nil => simp [insertEach, insertedInto]
  | cons e inserts ih =>
    obtain ⟨name, record⟩ := e
    show ((store.insert name record).insertEach inserts).records collection = _
    rw [ih]
    by_cases hname : name = collection
    · subst hname
      simp [insertedInto]
    · simp [insertedInto, records_insert_of_ne store hname, hname]

end Store

/-! ### Chains -/

/-- One call in a chain that makes a query. -/
inductive QueryCall
  | select (names : List String)
  | whereEq (field : String) (value : Value)
  | whereNe (field : String) (value : Value)
  | whereIn (field : String) (values : List Value)
  | populate (flag : Bool)
  | limit (n : Nat)

namespace QueryCall

/-- The query after a call. -/
def apply (q : Query) : QueryCall → Query
  | .select names => q.select names
  | .whereEq field value => q.whereEq field value
  | .whereNe field value => q.whereNe field value
  | .whereIn field values => q.whereIn field values
  | .populate flag => q.populate flag
  | .limit n => q.limit n

/-- The condition that a call adds. -/
def condition? : QueryCall → Option Filter
  | .whereEq field value => some (.eq field value)
  | .whereNe field value => some (.ne field value)
  | .whereIn field values => some (.among field values)
  | _ => none

def selection? : QueryCall → Option (List String)
  | .select names => some names
  | _ => none

def populate? : QueryCall → Option Bool
  | .populate flag => some flag
  | _ => none

def limit? : QueryCall → Option Nat
  | .limit n => some n
  | _ => none

end QueryCall

/-- Calls that are made one after the other. -/
abbrev QueryChain := List QueryCall

namespace QueryChain

/-- The query after all calls. -/
def on (chain : QueryChain) (q : Query) : Query := chain.foldl QueryCall.apply q

def conditions (chain : QueryChain) : List Filter := chain.filterMap QueryCall.condition?

/-- The last selection; all members when there is none. -/
def selection (chain : QueryChain) : List String :=
  (chain.filterMap QueryCall.selection?).getLastD []

def lastLimit (chain : QueryChain) : Option Nat := (chain.filterMap QueryCall.limit?).getLast?

/-- The records that pass every condition of the chain. -/
def matching (chain : QueryChain) (records : List Value) : List Value :=
  records.filter fun record => (conditions chain).all (·.accepts record)

variable {chain : QueryChain} {records : List Value}

theorem on_concat (chain : QueryChain) (call : QueryCall) (q : Query) :
    on (chain ++ [call]) q = call.apply (on chain q) := by
  simp [on]

/-- A chain that starts a query collects the conditions and keeps the last of everything else. -/
theorem on_eq (chain : QueryChain) (source : RecordSource) (collection : String) :
    on chain (source.query collection) =
      ⟨source,
        { collection := collection
          select := selection chain
          filters := conditions chain
          populate := (chain.filterMap QueryCall.populate?).getLastD false
          limit := lastLimit chain }⟩ := by
  induction chain using List.reverseRecOn with
  | nil => rfl
  | append_singleton chain call ih =>
    rw [on_concat, ih]
    cases call <;>
      simp [QueryCall.apply, Query.select, Query.whereEq, Query.whereNe, Query.whereIn,
        Query.filter, Query.populate, Query.limit, selection, conditions, lastLimit,
        QueryCall.condition?, QueryCall.selection?, QueryCall.populate?, QueryCall.limit?]

/-- Only which conditions there are decides what matches. -/
theorem matching_congr {other : QueryChain}
    (h : ∀ f, f ∈ conditions other ↔ f ∈ conditions chain) (records : List Value) :
    matching other records = matching chain records := by
  unfold matching
  congr 1
  funext record
  rw [Bool.eq_iff_iff]
  simp only [List.all_eq_true, h]

/-- Calls in the middle of a chain filter what the calls around them leave. -/
theorem matching_middle (before calls after : QueryChain) (records : List Value) :
    matching (before ++ calls ++ after) records =
      (matching (before ++ after) records).filter
        fun record => (conditions calls).all (·.accepts record) := by
  unfold matching
  rw [List.filter_filter]
  congr 1
  funext record
  simp only [conditions, List.filterMap_append, List.all_append]
  rw [Bool.and_right_comm, Bool.and_comm]

end QueryChain

/-! ### Answers -/

/-- The first records of a list, as many as the limit allows. -/
def upToLimit (limit : Option Nat) (records : List Value) : List Value :=
  match limit with
  | some n => records.take n
  | none => records

/-- What a query answers that finds these records, in this order: all of them up to the limit, and
the first one and their number whatever the limit. -/
structure Query.Finds (q : Query) (found : List Value) (select : List String)
    (limit : Option Nat) : Prop where
  all : q.all = .ok ((upToLimit limit found).map (Store.project · select))
  first : q.first = .ok (found.head?.map (Store.project · select))
  count : q.count = .ok found.length
  «exists» : q.exists = .ok (found.length != 0)

/-- Two queries that nothing tells apart. -/
structure Query.Alike (q r : Query) : Prop where
  all : q.all = r.all
  first : q.first = r.first
  count : q.count = r.count
  «exists» : q.exists = r.exists

theorem Query.Finds.alike {q r : Query} {found : List Value} {select : List String}
    {limit : Option Nat} (hq : q.Finds found select limit) (hr : r.Finds found select limit) :
    q.Alike r :=
  ⟨hq.all.trans hr.all.symm, hq.first.trans hr.first.symm, hq.count.trans hr.count.symm,
    hq.exists.trans hr.exists.symm⟩

namespace Store

variable {store : Store} {collection : String}

/-- A request finds the records that pass its filters. -/
theorem query_finds {request : Request}
    (h : (store.collections.get? request.collection).isSome = true) :
    Query.Finds ⟨store.source, request⟩ (store.found request) request.select request.limit := by
  refine ⟨?_, first_query h, count_query h, ?_⟩
  · obtain ⟨records, hrecords⟩ := Option.isSome_iff_exists.mp h
    show store.fetch request = _
    unfold fetch found Store.records upToLimit
    cases request.limit with
    | none => simp [hrecords]
    | some n => simp [hrecords]
  · rw [exists_query h]
    cases store.found request <;> rfl

/-- What a chain asks of a collection of a store. -/
def chained (store : Store) (collection : String) (chain : QueryChain) : Query :=
  chain.on (store.source.query collection)

theorem chained_finds (h : (store.collections.get? collection).isSome = true)
    (chain : QueryChain) :
    (store.chained collection chain).Finds (chain.matching (store.records collection))
      chain.selection chain.lastLimit := by
  unfold chained
  rw [QueryChain.on_eq]
  exact query_finds h

/-- Every chain of calls on a collection of a store that was filled by insertions: what it answers,
that only the set of its conditions counts, and that a condition and its negation, added anywhere,
divide what it finds. -/
theorem chain_answers (start : Store) (inserts : List (String × Value)) {collection : String}
    (h : ((start.insertEach inserts).collections.get? collection).isSome = true)
    (chain : QueryChain) :
    let store := start.insertEach inserts
    let records := start.records collection ++ insertedInto collection inserts
    (store.chained collection chain).Finds (chain.matching records) chain.selection
        chain.lastLimit ∧
      (∀ other : QueryChain, (∀ f, f ∈ other.conditions ↔ f ∈ chain.conditions) →
        other.selection = chain.selection → other.lastLimit = chain.lastLimit →
          (store.chained collection other).Alike (store.chained collection chain)) ∧
      ∀ before after field value, chain = before ++ after →
        ∃ equal unequal,
          (store.chained collection (before ++ [.whereEq field value] ++ after)).count =
              .ok equal ∧
            (store.chained collection (before ++ [.whereNe field value] ++ after)).count =
              .ok unequal ∧
            (store.chained collection chain).count = .ok (equal + unequal) ∧
            (store.chained collection
              (before ++ [.whereEq field value, .whereNe field value] ++ after)).count = .ok 0 := by
  intro store records
  have hfinds : ∀ chain : QueryChain, (store.chained collection chain).Finds
      (chain.matching records) chain.selection chain.lastLimit := by
    intro chain
    have hchain := chained_finds h chain
    rwa [records_insertEach] at hchain
  refine ⟨hfinds chain, fun other hconditions hselect hlimit => ?_, ?_⟩
  · have hother := hfinds other
    rw [QueryChain.matching_congr hconditions, hselect, hlimit] at hother
    exact hother.alike (hfinds chain)
  · rintro before after field value rfl
    refine ⟨_, _, (hfinds _).count, (hfinds _).count, ?_, ?_⟩
    · rw [(hfinds _).count, QueryChain.matching_middle, QueryChain.matching_middle]
      congr 1
      -- the second condition is the negation of the first
      rw [← List.countP_eq_length_filter, ← List.countP_eq_length_filter,
        List.length_eq_countP_add_countP (fun record => (Filter.eq field value).accepts record)]
      simp [QueryChain.conditions, QueryCall.condition?, Filter.accepts]
    · rw [(hfinds _).count, QueryChain.matching_middle]
      simp [QueryChain.conditions, QueryCall.condition?, Filter.accepts]

/-- Posts and a user, inserted in turn; one post has no rank. -/
def postedRecords : List (String × Value) :=
  [("posts", .object [("id", .number 1), ("rank", .number 2), ("title", .string "a")]),
   ("users", .object [("id", .number 1)]),
   ("posts", .object [("id", .number 2), ("title", .string "b")]),
   ("posts", .object [("id", .number 3), ("rank", .number 2)])]

/-- Ranked posts by title, without a limit that leaves any. -/
def rankedPosts : QueryChain :=
  [.limit 2, .select ["id"], .whereNe "rank" .null, .populate true, .select ["title"], .limit 0]

theorem chain_answers_posts :
    ((empty.insertEach postedRecords).collections.get? "posts").isSome = true ∧
      ((empty.insertEach postedRecords).chained "posts" rankedPosts).all = .ok [] ∧
      ((empty.insertEach postedRecords).chained "posts" rankedPosts).first =
        .ok (some (.object [("title", .string "a")])) ∧
      ((empty.insertEach postedRecords).chained "posts" rankedPosts).count = .ok 2 ∧
      ((empty.insertEach postedRecords).chained "posts" rankedPosts).exists = .ok true := by
  have hposts : ((empty.insertEach postedRecords).collections.get? "posts").isSome = true := rfl
  obtain ⟨hfinds, -, -⟩ := chain_answers empty postedRecords hposts rankedPosts
  exact ⟨hposts, hfinds.all, hfinds.first, hfinds.count, hfinds.exists⟩

end Store

end ContentSchema
