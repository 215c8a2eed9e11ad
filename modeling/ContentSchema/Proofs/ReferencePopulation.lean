import Mathlib.Data.List.Find
import ContentSchema.Proofs.PopulationFuel
import ContentSchema.Proofs.ReferenceChecks

/-!
# Reference population — one reference against a list of references

Without following them, a relation answers with projections of stored records.  For one reference
it is the first record that answers to the id, compared as doubles (`Plan.ofId_eq`); for a list it
is, for every id, the first record with exactly that id (`Plan.ofIds_eq`).  The two agree on an id
when the first record that answers to it is one that has it (`populations_agree_iff`), as it is
below `2 ^ 53` (`Store.answering?_exact_of_small`).
-/

namespace ContentSchema

/-! ### Records by id -/

/-- Whether a record has this id. -/
def Value.hasId (id : Nat) (record : Value) : Bool :=
  (record.get? Kinds.idField).bind Value.id? == some id

namespace Store

/-- The first record of a collection that answers to an id. -/
def answering? (store : Store) (collection : String) (id : Nat) : Option Value :=
  (store.records collection).find? (Filter.byId id).accepts

/-- The first record of a collection that has an id. -/
def identified? (store : Store) (collection : String) (id : Nat) : Option Value :=
  (store.records collection).find? (Value.hasId id)

/-- The records of a collection have whole numbers for ids. -/
def HasIntegerIds (store : Store) (collection : String) : Prop :=
  ∀ record ∈ store.records collection, ∃ i bounded,
    record.get? Kinds.idField = some (.number (.integer i bounded))

end Store

theorem Value.same_ofInt_self (i : Int) : (Value.ofInt i).same (.ofInt i) = true :=
  Binary64.same_iff.mpr rfl

/-- A whole number has the id that it is. -/
theorem Value.hasId_integer {record : Value} {i : Int} {bounded : minSigned ≤ i ∧ i < unsignedEnd}
    (h : record.get? Kinds.idField = some (.number (.integer i bounded))) {id : Nat}
    (hid : 0 < id) : record.hasId id = true ↔ record.get? Kinds.idField = some (.ofInt id) := by
  have hsame : record.get? Kinds.idField = some (.ofInt id) ↔ i = id := by
    rw [h, Option.some_inj]
    constructor
    · intro heq
      have hnumber := Value.number.inj heq
      unfold Number.ofInt at hnumber
      split at hnumber
      · exact Number.integer.inj hnumber
      · cases hnumber
    · rintro rfl
      exact (Value.ofInt_of_bounded _ bounded).symm
  rw [hsame]
  unfold Value.hasId
  rw [h, Option.bind_some, beq_iff_eq, Value.id?]
  split
  · rw [Option.some_inj]
    omega
  · constructor
    · intro h
      cases h
    · omega

/-- A record answers to the id that it has. -/
theorem accepts_byId_self {record : Value} {id : Nat}
    (h : record.get? Kinds.idField = some (.ofInt id)) :
    (Filter.byId id).accepts record = true := by
  unfold Filter.byId Filter.accepts
  simp only [h, Option.getD_some]
  exact Value.same_ofInt_self id

namespace Store

variable {store : Store} {collection : String} {id : Nat}

/-- Where no record answers to an id, none has it. -/
theorem identified?_none (hintegers : store.HasIntegerIds collection) (hid : 0 < id)
    (h : store.answering? collection id = none) : store.identified? collection id = none := by
  refine List.find?_eq_none.mpr fun record hrecord hhas => ?_
  obtain ⟨i, bounded, hget⟩ := hintegers record hrecord
  exact List.find?_eq_none.mp h record hrecord
    (accepts_byId_self ((Value.hasId_integer hget hid).mp hhas))

/-- The first record that answers to an id is the first that has it, if it has it. -/
theorem identified?_some (hintegers : store.HasIntegerIds collection) (hid : 0 < id)
    {first : Value} (h : store.answering? collection id = some first)
    (hget : first.get? Kinds.idField = some (.ofInt id)) :
    store.identified? collection id = some first := by
  obtain ⟨-, before, after, hrecords, hbefore⟩ := List.find?_eq_some_iff_append.mp h
  refine List.find?_eq_some_iff_append.mpr ⟨?_, before, after, hrecords, fun record hrecord => ?_⟩
  · obtain ⟨i, bounded, hinteger⟩ := hintegers first (List.mem_of_find?_eq_some h)
    exact (Value.hasId_integer hinteger hid).mpr hget
  · have hmem : record ∈ store.records collection := by
      rw [hrecords]
      exact List.mem_append_left _ hrecord
    obtain ⟨i, bounded, hinteger⟩ := hintegers record hmem
    have hrefused := hbefore record hrecord
    cases hhas : record.hasId id with
    | false => rfl
    | true =>
      rw [accepts_byId_self ((Value.hasId_integer hinteger hid).mp hhas)] at hrefused
      cases hrefused

/-- Below `2 ^ 53` the first record that answers to an id has it. -/
theorem answering?_exact_of_small
    (hsmall : ∀ record ∈ store.records collection, ∃ i : Int, i.natAbs < powTwo 53 ∧
      record.get? Kinds.idField = some (.ofInt i))
    (hid : id < powTwo 53) {record : Value} (h : store.answering? collection id = some record) :
    record.get? Kinds.idField = some (.ofInt id) := by
  obtain ⟨i, hi, hget⟩ := hsmall record (List.mem_of_find?_eq_some h)
  rw [hget, (accepts_byId hi hid hget).mp (List.find?_some h)]

end Store

/-! ### Relations that are not followed -/

namespace Kinds

/-- The members of related records that are read, the id always. -/
def readMembers (fields : List String) : List String :=
  if fields.contains idField then fields else idField :: fields

theorem idField_mem_readMembers (fields : List String) : idField ∈ readMembers fields := by
  unfold readMembers
  split
  · next h => exact List.contains_iff_mem.mp h
  · exact List.mem_cons_self

end Kinds

/-- A field that refers to a collection of a store, reads these members and does not follow the
records. -/
structure PopulateContext.RefersTo (context : PopulateContext) (store : Store)
    (collection : String) (fields : List String) : Prop where
  source : context.source = some store.source
  named : context.options.string? "collection" = some collection
  held : (store.collections.get? collection).isSome = true
  reads : (context.options.strings? "fields").getD [] = fields
  unfollowed : context.options.flag "populate" = false

section

variable {context : PopulateContext} {store : Store} {collection : String} {fields : List String}

theorem wantedQuery_eq (h : context.RefersTo store collection fields) :
    Kinds.wantedQuery context.source context.options =
      .ok ⟨store.source, { collection := collection, select := Kinds.readMembers fields }⟩ := by
  unfold Kinds.wantedQuery
  simp only [h.source, h.named, h.reads, h.unfollowed]
  rfl

/-- One reference is replaced by the first record that answers to it. -/
theorem Plan.ofId_eq (h : context.RefersTo store collection fields) {v : Value} {id : Nat}
    (hv : v.id? = some id) :
    Plan.ofId context.source context.options v = .answer (.ok
      (((store.answering? collection id).map
        (Store.project · (Kinds.readMembers fields))).getD .null)) := by
  obtain ⟨select, hselect⟩ : ∃ select, Kinds.readMembers fields = select := ⟨_, rfl⟩
  have hquery : Query.whereEq ⟨store.source, { collection := collection, select := select }⟩
      Kinds.idField (.ofInt id) = store.filtered collection select (Filter.byId id) := rfl
  unfold Plan.ofId Store.answering?
  simp only [hv, wantedQuery_eq h, hselect, hquery]
  rw [Store.filtered_first h.held]
  cases (store.records collection).find? (Filter.byId id).accepts <;> rfl

/-- Of the records that answer to one of the ids, those that have one are found as among all. -/
theorem Plan.related_eq {records : List Value} {select : List String} {ids : List Nat}
    (hselect : Kinds.idField ∈ select)
    (hanswers : ∀ record ∈ records, ∀ id ∈ ids, record.hasId id = true →
      (Filter.byId id).accepts record = true) :
    Plan.related ((records.filter fun record => ids.any fun id =>
        (Filter.byId id).accepts record).map (Store.project · select)) ids =
      ids.filterMap fun id => (records.find? (Value.hasId id)).map (Store.project · select) := by
  refine List.filterMap_congr fun id hid => ?_
  have hproject : (Value.hasId id ∘ fun record => Store.project record select) =
      Value.hasId id := by
    funext record
    show Value.hasId id (Store.project record select) = _
    unfold Value.hasId
    rw [Store.get?_project hselect]
  show (List.map _ _).find? (Value.hasId id) = _
  rw [List.find?_map, hproject, List.find?_filter]
  refine congrArg _ (List.find?_congr fun record hrecord => ?_)
  cases hhas : record.hasId id with
  | false => simp
  | true =>
    have hany : (ids.any fun id => (Filter.byId id).accepts record) = true :=
      List.any_eq_true.mpr ⟨id, hid, hanswers record hrecord id hid hhas⟩
    simp [hany]

/-- A list of references is replaced by the first records that have them. -/
theorem Plan.ofIds_eq (h : context.RefersTo store collection fields)
    (hintegers : store.HasIntegerIds collection) {v : Value} {ids : List Nat}
    (hv : v.items.filterMap Value.id? = ids) (hids : ∀ id ∈ ids, 0 < id) :
    Plan.ofIds context.source context.options v = .answer (.ok (.list (ids.filterMap fun id =>
      (store.identified? collection id).map
        (Store.project · (Kinds.readMembers fields))))) := by
  cases ids with
  | nil =>
    unfold Plan.ofIds
    rw [hv]
    rfl
  | cons id ids =>
    obtain ⟨select, hselect⟩ : ∃ select, Kinds.readMembers fields = select := ⟨_, rfl⟩
    have hquery : Query.whereIn ⟨store.source, { collection := collection, select := select }⟩
        Kinds.idField ((id :: ids).map fun id : Nat => Value.ofInt id) =
          store.filtered collection select
            (.among Kinds.idField ((id :: ids).map fun id : Nat => Value.ofInt id)) := rfl
    have haccepts : (Filter.among Kinds.idField ((id :: ids).map
        fun id : Nat => Value.ofInt id)).accepts = fun record =>
          (id :: ids).any fun id => (Filter.byId id).accepts record :=
      funext (among_accepts (id :: ids))
    have hanswers : ∀ record ∈ store.records collection, ∀ n ∈ id :: ids,
        record.hasId n = true → (Filter.byId n).accepts record = true := by
      intro record hrecord n hn hhas
      obtain ⟨i, bounded, hget⟩ := hintegers record hrecord
      exact accepts_byId_self ((Value.hasId_integer hget (hids n hn)).mp hhas)
    have hmem : Kinds.idField ∈ select := hselect ▸ Kinds.idField_mem_readMembers fields
    unfold Plan.ofIds
    simp only [hv, wantedQuery_eq h, hselect, hquery]
    rw [Store.filtered_all h.held, haccepts]
    simp only [Plan.related_eq hmem hanswers]
    rfl

/-- A populator with some budget left answers as its kind does. -/
theorem callPopulator_answer {kind : FieldKind} {population : Population}
    (h : kind.definition.population = some population) {v answer : Value} {s : PopulationState}
    (hplan : Plan.ofKind kind context.source context.options v = .answer (.ok answer))
    (hleft : 0 < s.budget.remaining (Engine.populationKey context.collection context.path)) :
    (Engine.callPopulator context population v s).1 = answer := by
  rw [Engine.callPopulator_run]
  simp only
  rw [if_pos hleft, population_run h, hplan]
  rfl

variable {population : Population} {s : PopulationState}

theorem callPopulator_id (h : context.RefersTo store collection fields)
    (hpopulation : FieldKind.record.definition.population = some population)
    (hleft : 0 < s.budget.remaining (Engine.populationKey context.collection context.path))
    {v : Value} {id : Nat} (hv : v.id? = some id) :
    (Engine.callPopulator context population v s).1 =
      ((store.answering? collection id).map
        (Store.project · (Kinds.readMembers fields))).getD .null :=
  callPopulator_answer hpopulation (Plan.ofId_eq h hv) hleft

theorem callPopulator_ids (h : context.RefersTo store collection fields)
    (hpopulation : FieldKind.records.definition.population = some population)
    (hleft : 0 < s.budget.remaining (Engine.populationKey context.collection context.path))
    (hintegers : store.HasIntegerIds collection) {v : Value} {ids : List Nat}
    (hv : v.items.filterMap Value.id? = ids) (hids : ∀ id ∈ ids, 0 < id) :
    (Engine.callPopulator context population v s).1 = .list (ids.filterMap fun id =>
      (store.identified? collection id).map (Store.project · (Kinds.readMembers fields))) :=
  callPopulator_answer hpopulation (Plan.ofIds_eq h hintegers hv hids) hleft

theorem filterMap_singleton {α β : Type} (f : α → Option β) (a : α) :
    [a].filterMap f = (f a).toList := by
  rw [List.filterMap_cons]
  cases f a <;> rfl

theorem items_singleton {v : Value} {id : Nat} (h : v.id? = some id) :
    (Value.list [v]).items.filterMap Value.id? = [id] :=
  List.filterMap_cons_some h

/-! ### Agreement -/

/-- What is made of an id and of the list of it agree: the same record or none, and a record with
exactly that id. -/
structure PopulationsAgree (store : Store) (collection : String) (fields : List String) (id : Nat)
    (related listed : Value) : Prop where
  found : ∀ record, record ≠ .null → (related = record ↔ listed = .list [record])
  missing : related = .null ↔ listed = .list []
  stored : ∀ record, record ≠ .null → related = record ∨ listed = .list [record] →
    ∃ stored ∈ store.records collection, stored.get? Kinds.idField = some (.ofInt id) ∧
      record = Store.project stored (Kinds.readMembers fields)

theorem PopulationsAgree.none {id : Nat} :
    PopulationsAgree store collection fields id .null (.list []) where
  found _ hrecord := ⟨fun h => (hrecord h.symm).elim, nofun⟩
  missing := ⟨fun _ => rfl, fun _ => rfl⟩
  stored _ hrecord := fun h => h.elim (fun h => (hrecord h.symm).elim) nofun

theorem project_ne_null (stored : Value) (fields : List String) :
    Store.project stored (Kinds.readMembers fields) ≠ .null := by
  unfold Store.project
  rw [List.isEmpty_eq_false_iff_exists_mem.mpr ⟨_, Kinds.idField_mem_readMembers fields⟩]
  exact nofun

theorem PopulationsAgree.some {stored : Value} {id : Nat}
    (hstored : stored ∈ store.records collection)
    (hget : stored.get? Kinds.idField = some (.ofInt id)) :
    PopulationsAgree store collection fields id (Store.project stored (Kinds.readMembers fields))
      (.list [Store.project stored (Kinds.readMembers fields)]) where
  found record _ := by rw [Value.list.injEq, List.cons.injEq, and_iff_left rfl]
  missing := ⟨fun h => (project_ne_null stored fields h).elim, nofun⟩
  stored record _ h := by
    refine ⟨stored, hstored, hget, ?_⟩
    rcases h with h | h
    · exact h.symm
    · exact (List.cons.inj (Value.list.inj h)).1.symm

end

section

variable {one many : PopulateContext} {store : Store} {collection : String}
  {fields : List String} {single list : Population} {s t : PopulationState}

/-- What the populators of references make of an id, each within its budget: the first record that
answers to it as a double, and the first record that has it.  They agree exactly when the former has
the id too. -/
theorem populations_agree_iff (hone : one.RefersTo store collection fields)
    (hmany : many.RefersTo store collection fields)
    (hsingle : FieldKind.record.definition.population = some single)
    (hlist : FieldKind.records.definition.population = some list)
    (hs : 0 < s.budget.remaining (Engine.populationKey one.collection one.path))
    (ht : 0 < t.budget.remaining (Engine.populationKey many.collection many.path))
    (hintegers : store.HasIntegerIds collection) {id : Nat} (hid : 0 < id ∧ id < wordEnd) :
    let related := (Engine.callPopulator one single (.ofInt id) s).1
    let listed := (Engine.callPopulator many list (.list [.ofInt id]) t).1
    related = ((store.answering? collection id).map
        (Store.project · (Kinds.readMembers fields))).getD .null ∧
      listed = .list ((store.identified? collection id).map
        (Store.project · (Kinds.readMembers fields))).toList ∧
      (PopulationsAgree store collection fields id related listed ↔
        ∀ record, store.answering? collection id = some record →
          record.get? Kinds.idField = some (.ofInt id)) := by
  intro related listed
  have hrelated := callPopulator_id hone hsingle hs (Value.id?_ofInt hid)
  have hlisted := callPopulator_ids hmany hlist ht hintegers
    (items_singleton (Value.id?_ofInt hid)) (List.forall_mem_singleton.mpr hid.1)
  rw [filterMap_singleton] at hlisted
  refine ⟨hrelated, hlisted, ?_⟩
  show PopulationsAgree store collection fields id (Engine.callPopulator one single _ s).1
    (Engine.callPopulator many list _ t).1 ↔ _
  rw [hrelated, hlisted]
  cases hanswering : store.answering? collection id with
  | none =>
    rw [Store.identified?_none hintegers hid.1 hanswering]
    exact ⟨fun _ => nofun, fun _ => PopulationsAgree.none⟩
  | some first =>
    constructor
    · rintro ⟨-, -, hstored⟩ record hrecord
      obtain rfl := Option.some.inj hrecord
      obtain ⟨stored, -, hget, heq⟩ := hstored _ (project_ne_null first fields) (.inl rfl)
      have hmem := Kinds.idField_mem_readMembers fields
      rw [← hget, ← Store.get?_project hmem first, heq, Store.get?_project hmem]
    · intro hcondition
      have hget := hcondition first rfl
      rw [Store.identified?_some hintegers hid.1 hanswering hget]
      exact PopulationsAgree.some (List.mem_of_find?_eq_some hanswering) hget

end

/-- A field that refers to the users of a store and reads their ids. -/
def readingUsers (store : Store) (kind : FieldKind) : PopulateContext where
  path := Path.root.child "author"
  kind := kind
  options := .ofValues [("collection", .string "users"), ("fields", .list [.string "id"])]
  collection := none
  source := some store.source
  populateRecord _ record := pure (.ok record)

theorem integerIds_usersStore {ids : List Nat} (h : ∀ id ∈ ids, id < wordEnd) :
    (usersStore ids).HasIntegerIds "users" := by
  intro record hrecord
  obtain ⟨id, hid, hget⟩ := get?_usersStore hrecord
  have hbounds := bounded_natCast (h id hid)
  exact ⟨id, hbounds, hget.trans (congrArg some (Value.ofInt_of_bounded id hbounds))⟩

theorem readingUsers_refersTo (ids : List Nat) (kind : FieldKind) :
    (readingUsers (usersStore ids) kind).RefersTo (usersStore ids) "users" ["id"] :=
  ⟨rfl, rfl, rfl, rfl, rfl⟩

/-- A population that has called nothing yet. -/
def unspent : PopulationState := ⟨.ofLimit 1, .empty⟩

theorem unspent_remaining (key : String) : 0 < unspent.budget.remaining key := Nat.one_pos

/-- Two users, of whom the second is asked for. -/
theorem populations_agree_users :
    let store := usersStore [1, 2]
    let one := readingUsers store .record
    let many := readingUsers store .records
    ∃ single list, FieldKind.record.definition.population = some single ∧
      FieldKind.records.definition.population = some list ∧
      one.RefersTo store "users" ["id"] ∧ many.RefersTo store "users" ["id"] ∧
      store.HasIntegerIds "users" ∧
      (Engine.callPopulator one single (.ofInt 2) unspent).1 = .object [("id", .ofInt 2)] ∧
      (Engine.callPopulator many list (.list [.ofInt 2]) unspent).1 =
        .list [.object [("id", .ofInt 2)]] ∧
      PopulationsAgree store "users" ["id"] 2
        (Engine.callPopulator one single (.ofInt 2) unspent).1
        (Engine.callPopulator many list (.list [.ofInt 2]) unspent).1 := by
  intro store one many
  have hone : one.RefersTo store "users" ["id"] := readingUsers_refersTo [1, 2] .record
  have hmany : many.RefersTo store "users" ["id"] := readingUsers_refersTo [1, 2] .records
  have hintegers : store.HasIntegerIds "users" := integerIds_usersStore (by decide)
  have hsmall : ∀ id ∈ [1, 2], id < powTwo 53 := by decide
  have hids : ∀ record ∈ store.records "users", ∃ i : Int, i.natAbs < powTwo 53 ∧
      record.get? Kinds.idField = some (.ofInt i) := by
    intro record hrecord
    obtain ⟨id, hid, hget⟩ := get?_usersStore hrecord
    exact ⟨id, hsmall id hid, hget⟩
  refine ⟨_, _, rfl, rfl, hone, hmany, hintegers, ?_⟩
  have hid : 0 < 2 ∧ 2 < wordEnd := by decide
  obtain ⟨hrelated, hlisted, hagree⟩ := populations_agree_iff hone hmany rfl rfl
    (unspent_remaining _) (unspent_remaining _) hintegers hid
  refine ⟨hrelated.trans ?_, hlisted.trans ?_, hagree.mpr fun record h =>
    Store.answering?_exact_of_small hids (by decide) h⟩
  · decide +kernel
  · decide +kernel

/-- The user before is the same double as the one that is asked for. -/
theorem populations_disagree :
    let store := usersStore [9007199254740992]
    let one := readingUsers store .record
    let many := readingUsers store .records
    ∃ single list, FieldKind.record.definition.population = some single ∧
      FieldKind.records.definition.population = some list ∧
      one.RefersTo store "users" ["id"] ∧ many.RefersTo store "users" ["id"] ∧
      store.HasIntegerIds "users" ∧
      (Engine.callPopulator one single (.ofInt 9007199254740993) unspent).1 =
        .object [("id", .ofInt 9007199254740992)] ∧
      (Engine.callPopulator many list (.list [.ofInt 9007199254740993]) unspent).1 = .list [] ∧
      ¬ PopulationsAgree store "users" ["id"] 9007199254740993
        (Engine.callPopulator one single (.ofInt 9007199254740993) unspent).1
        (Engine.callPopulator many list (.list [.ofInt 9007199254740993]) unspent).1 := by
  intro store one many
  have hone : one.RefersTo store "users" ["id"] := readingUsers_refersTo _ .record
  have hmany : many.RefersTo store "users" ["id"] := readingUsers_refersTo _ .records
  have hintegers : store.HasIntegerIds "users" := integerIds_usersStore (by decide)
  refine ⟨_, _, rfl, rfl, hone, hmany, hintegers, ?_⟩
  have hid : (Value.ofInt 9007199254740993).id? = some 9007199254740993 := rfl
  have hrelated := (callPopulator_id hone rfl (unspent_remaining _) hid).trans
    (show _ = Value.object [("id", .ofInt 9007199254740992)] by decide +kernel)
  have hlisted := (callPopulator_ids hmany rfl (unspent_remaining _) hintegers
    (items_singleton hid) (by decide)).trans (show _ = Value.list [] by decide +kernel)
  refine ⟨hrelated, hlisted, fun hagree => ?_⟩
  have hnull := hagree.missing.mpr hlisted
  rw [hrelated] at hnull
  cases hnull

end ContentSchema
