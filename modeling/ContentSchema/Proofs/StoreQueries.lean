import ContentSchema.Proofs.EntryLaws
import ContentSchema.Query.Store

/-!
# Store queries — what a store answers

A query on a store finds the records of its collection that pass every filter, in the order of
their insertion.
-/

namespace ContentSchema.Store

variable {store : Store}

/-- The records of a collection; none of a collection that the store does not have. -/
def records (store : Store) (collection : String) : List Value :=
  (store.collections.get? collection).getD []

@[simp] theorem records_insert (store : Store) (collection : String) (record : Value) :
    (store.insert collection record).records collection = store.records collection ++ [record] := by
  unfold records insert add
  rw [Entries.get?_put_self]
  rfl

/-- Insert records one after the other. -/
def insertAll (store : Store) (collection : String) (records : List Value) : Store :=
  records.foldl (fun store record => store.insert collection record) store

theorem records_insertAll (store : Store) (collection : String) (records : List Value) :
    (store.insertAll collection records).records collection =
      store.records collection ++ records := by
  induction records generalizing store with
  | nil => exact (List.append_nil _).symm
  | cons record records ih =>
    show ((store.insert collection record).insertAll collection records).records collection = _
    rw [ih, records_insert, List.append_assoc]
    rfl

/-- The records of a request's collection that pass its filters. -/
def found (store : Store) (request : Request) : List Value :=
  (store.records request.collection).filter fun record => request.filters.all (·.accepts record)

/-- A projection has what the record has under the selected keys. -/
theorem get?_project {select : List String} {key : String} (h : key ∈ select) (record : Value) :
    (project record select).get? key = record.get? key := by
  have hselect : select.isEmpty = false :=
    List.isEmpty_eq_false_iff_exists_mem.mpr ⟨key, h⟩
  have hmem : ∀ w, (key, w) ∈ select.filterMap (fun name => (record.get? name).map (name, ·)) ↔
      record.get? key = some w := by
    intro w
    simp only [List.mem_filterMap, Option.map_eq_some_iff, Prod.mk.injEq]
    constructor
    · rintro ⟨name, -, _, hget, rfl, rfl⟩
      exact hget
    · exact fun hget => ⟨key, h, w, hget, rfl, rfl⟩
  unfold project
  rw [hselect, if_neg Bool.false_ne_true]
  show (Entries.sorted _).get? key = _
  cases hget : record.get? key with
  | some v =>
    refine Entries.get?_sorted ((hmem v).mpr hget) fun w hw => ?_
    exact Option.some.inj (((hmem w).mp hw).symm.trans hget)
  | none =>
    refine Option.eq_none_iff_forall_ne_some.mpr fun w hw => ?_
    have hw := (hmem w).mp (Entries.mem_sorted (Entries.mem_of_get? hw))
    rw [hget] at hw
    cases hw

/-- All matches, when they are not limited. -/
theorem all_query {request : Request}
    (h : (store.collections.get? request.collection).isSome = true)
    (hlimit : request.limit = none) :
    Query.all ⟨store.source, request⟩ =
      .ok ((store.found request).map (project · request.select)) := by
  obtain ⟨records, hrecords⟩ := Option.isSome_iff_exists.mp h
  unfold found Store.records
  rw [hrecords, Option.getD_some]
  show store.fetch request = _
  unfold fetch
  simp only [hrecords, hlimit]

/-- The number of matches. -/
theorem count_query {request : Request}
    (h : (store.collections.get? request.collection).isSome = true) :
    Query.count ⟨store.source, request⟩ = .ok (store.found request).length := by
  have hall : Query.all ⟨store.source, { request with limit := none }⟩ =
      .ok ((store.found request).map (project · request.select)) := all_query h rfl
  show (Query.all ⟨store.source, { request with limit := none }⟩).map List.length = _
  rw [hall]
  exact congrArg Except.ok (List.length_map _)

/-- The first match is asked for with a limit, which changes nothing. -/
theorem first_query {request : Request}
    (h : (store.collections.get? request.collection).isSome = true) :
    Query.first ⟨store.source, request⟩ =
      .ok ((store.found request).head?.map (project · request.select)) := by
  obtain ⟨records, hrecords⟩ := Option.isSome_iff_exists.mp h
  unfold found Store.records
  rw [hrecords, Option.getD_some]
  show (Except.map List.head? (store.fetch { request with limit := some 1 })) = _
  unfold fetch
  simp only [hrecords]
  cases records.filter fun record => request.filters.all (·.accepts record) <;> rfl

/-- Whether there is a match. -/
theorem exists_query {request : Request}
    (h : (store.collections.get? request.collection).isSome = true) :
    Query.exists ⟨store.source, request⟩ = .ok !(store.found request).isEmpty := by
  have hfirst : Query.first ⟨store.source, { request with select := ["id"] }⟩ =
      .ok ((store.found request).head?.map (project · ["id"])) := first_query h
  show (Query.first ⟨store.source, { request with select := ["id"] }⟩).map Option.isSome = _
  rw [hfirst]
  show Except.ok (Option.isSome ((store.found request).head?.map _)) = _
  cases store.found request <;> rfl

/-- A collection that the store does not have cannot be asked. -/
theorem exists_query_unknown {request : Request}
    (h : store.collections.get? request.collection = none) :
    Query.exists ⟨store.source, request⟩ = .error (.unknownCollection request.collection) := by
  show ((Except.map List.head? (store.fetch { request with select := ["id"], limit := some 1 })).map
    Option.isSome) = _
  unfold fetch
  simp only [h]
  rfl

/-! ### One condition -/

section

variable {collection : String} {select : List String} {f : Filter}

/-- A query on a collection with one condition. -/
def filtered (store : Store) (collection : String) (select : List String) (f : Filter) : Query :=
  ⟨store.source, { collection := collection, select := select, filters := [f] }⟩

theorem found_filtered :
    store.found (store.filtered collection select f).request =
      (store.records collection).filter f.accepts :=
  List.filter_congr fun record _ => Bool.and_true (f.accepts record)

variable (h : (store.collections.get? collection).isSome = true)
include h

theorem filtered_all :
    (store.filtered collection select f).all =
      .ok (((store.records collection).filter f.accepts).map (project · select)) := by
  rw [← found_filtered]
  exact all_query h rfl

theorem filtered_first :
    (store.filtered collection select f).first =
      .ok (((store.records collection).find? f.accepts).map (project · select)) := by
  rw [← List.head?_filter, ← found_filtered]
  exact first_query h

theorem filtered_exists :
    (store.filtered collection select f).exists =
      .ok ((store.records collection).any f.accepts) := by
  show (store.filtered collection ["id"] f).first.map Option.isSome = _
  rw [filtered_first h]
  refine congrArg Except.ok ?_
  rw [Option.isSome_map, Bool.eq_iff_iff, List.find?_isSome, List.any_eq_true]

theorem filtered_count :
    (store.filtered collection select f).count =
      .ok ((store.records collection).countP f.accepts) := by
  rw [List.countP_eq_length_filter, ← found_filtered]
  exact count_query h

end

end ContentSchema.Store
