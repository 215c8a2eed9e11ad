import Mathlib.Data.List.Nodup
import ContentSchema.Proofs.Basins
import ContentSchema.Proofs.Stages
import ContentSchema.Proofs.StoreQueries

/-!
# Reference checks — one reference against a list of references

The check of one reference asks whether a record answers to its id (`recordExistsCheck_ok_iff`).
The check of a list counts the records that answer to any of its ids and compares with the length
of the list (`recordsExistCheck_ok_iff`), which is the same question for all ids at once only if
every id has one record at most and every record answers to one id at most.  Ids are compared as
doubles, so the second condition is more than that the ids differ; below `2 ^ 53` they are told
apart (`tellsApart_of_small`).
-/

namespace ContentSchema

/-! ### Whole numbers as ids -/

theorem bounded_natCast {n : Nat} (h : n < wordEnd) :
    minSigned ≤ (n : Int) ∧ (n : Int) < unsignedEnd := by
  simp only [minSigned, unsignedEnd, wordEnd] at h ⊢
  omega

theorem Value.ofInt_of_bounded (i : Int) (h : minSigned ≤ i ∧ i < unsignedEnd) :
    Value.ofInt i = .number (.integer i h) :=
  congrArg Value.number (dif_pos h)

theorem Value.id?_ofInt {id : Nat} (h : 0 < id ∧ id < wordEnd) :
    (Value.ofInt id).id? = some id := by
  rw [Value.ofInt_of_bounded _ (bounded_natCast h.2)]
  exact if_pos (by omega)

/-! ### Counting matches -/

section

variable {α β : Type} {accepts : β → α → Bool} {as : List α} {bs : List β}

/-- What either test accepts, and again what both accept. -/
theorem countP_or_add_countP_and (p q : α → Bool) (as : List α) :
    as.countP (fun a => p a || q a) + as.countP (fun a => p a && q a) =
      as.countP p + as.countP q := by
  induction as with
  | nil => rfl
  | cons a as ih =>
    simp only [List.countP_cons]
    cases p a <;> cases q a <;> simp <;> omega

/-- What at most one of several tests accepts is counted by the tests together as often as by each
on its own. -/
theorem countP_any (hdistinct : bs.Nodup)
    (hapart : ∀ b ∈ bs, ∀ c ∈ bs, ∀ a ∈ as, accepts b a = true → accepts c a = true → b = c) :
    as.countP (fun a => bs.any (accepts · a)) = total (bs.map fun b => as.countP (accepts b)) := by
  induction bs with
  | nil => simp
  | cons b bs ih =>
    obtain ⟨hnew, hdistinct⟩ := List.nodup_cons.mp hdistinct
    have hrest := ih hdistinct fun c hc c' hc' =>
      hapart c (List.mem_cons_of_mem _ hc) c' (List.mem_cons_of_mem _ hc')
    have hboth : as.countP (fun a => accepts b a && bs.any (accepts · a)) = 0 := by
      refine List.countP_eq_zero.mpr fun a ha hboth => hnew ?_
      obtain ⟨hb, hany⟩ := Bool.and_eq_true_iff.mp hboth
      obtain ⟨c, hc, haccepts⟩ := List.any_eq_true.mp hany
      rw [hapart b List.mem_cons_self c (List.mem_cons_of_mem _ hc) a ha hb haccepts]
      exact hc
    have hsplit := countP_or_add_countP_and (accepts b) (fun a => bs.any (accepts · a)) as
    simp only [List.any_cons, List.map_cons, total_cons]
    omega

theorem total_le_length {ns : List Nat} (h : ∀ n ∈ ns, n ≤ 1) : total ns ≤ ns.length := by
  induction ns with
  | nil => exact Nat.le_refl 0
  | cons n ns ih =>
    obtain ⟨hn, hrest⟩ := List.forall_mem_cons.mp h
    have := ih hrest
    rw [total_cons, List.length_cons]
    omega

/-- Numbers no greater than one add up to how many they are exactly when each is one. -/
theorem total_eq_length {ns : List Nat} (h : ∀ n ∈ ns, n ≤ 1) :
    total ns = ns.length ↔ ∀ n ∈ ns, n = 1 := by
  induction ns with
  | nil => exact ⟨fun _ _ hn => (List.not_mem_nil hn).elim, fun _ => rfl⟩
  | cons n ns ih =>
    obtain ⟨hn, hrest⟩ := List.forall_mem_cons.mp h
    have hbound := total_le_length hrest
    have htail := ih hrest
    rw [List.forall_mem_cons, total_cons, List.length_cons]
    refine ⟨fun h => ⟨by omega, htail.mp (by omega)⟩, fun h => ?_⟩
    have := htail.mpr h.2
    omega

end

/-! ### Records that answer to an id -/

/-- The condition under which a record is the one with this id. -/
def Filter.byId (id : Nat) : Filter := .eq Kinds.idField (.ofInt id)

theorem among_accepts (ids : List Nat) (record : Value) :
    (Filter.among Kinds.idField (ids.map fun id : Nat => .ofInt id)).accepts record =
      ids.any fun id => (Filter.byId id).accepts record :=
  List.any_map

/-- Every id has one record at most, and every record answers to one of the ids at most. -/
structure TellsApart (records : List Value) (ids : List Nat) : Prop where
  single : ∀ id ∈ ids, records.countP (Filter.byId id).accepts ≤ 1
  apart : ∀ id ∈ ids, ∀ other ∈ ids, ∀ record ∈ records,
    (Filter.byId id).accepts record = true → (Filter.byId other).accepts record = true → id = other

theorem TellsApart.mono {records : List Value} {ids part : List Nat} (h : TellsApart records ids)
    (hpart : part ⊆ ids) : TellsApart records part :=
  ⟨fun id hid => h.single id (hpart hid),
    fun id hid other hother => h.apart id (hpart hid) other (hpart hother)⟩

/-- Where ids are told apart, as many records answer to different ids as there are exactly when one
answers to each. -/
theorem TellsApart.countP_eq_length {records : List Value} {ids : List Nat}
    (h : TellsApart records ids) (hdistinct : ids.Nodup) :
    records.countP (fun record => ids.any fun id => (Filter.byId id).accepts record) = ids.length ↔
      ∀ id ∈ ids, ∃ record ∈ records, (Filter.byId id).accepts record = true := by
  rw [countP_any hdistinct h.apart, ← List.length_map fun id =>
    records.countP (Filter.byId id).accepts, total_eq_length (List.forall_mem_map.mpr h.single),
    List.forall_mem_map]
  refine forall₂_congr fun id hid => ?_
  rw [← List.countP_pos_iff]
  have := h.single id hid
  omega

/-- Ids are told apart exactly when counting tells of every list of different ones whether a record
answers to each. -/
theorem tellsApart_iff {records : List Value} {ids : List Nat} :
    TellsApart records ids ↔ ∀ part : List Nat, part ⊆ ids → part.Nodup →
      (records.countP (fun record => part.any fun id => (Filter.byId id).accepts record) =
          part.length ↔
        ∀ id ∈ part, ∃ record ∈ records, (Filter.byId id).accepts record = true) := by
  refine ⟨fun h part hpart hdistinct => (h.mono hpart).countP_eq_length hdistinct, fun h => ?_⟩
  have hsingle : ∀ id ∈ ids, records.countP (Filter.byId id).accepts ≤ 1 := by
    intro id hid
    by_contra hmore
    have hexists := List.countP_pos_iff.mp (Nat.lt_trans Nat.zero_lt_one (Nat.not_le.mp hmore))
    have hcount := (h [id] (List.cons_subset.mpr ⟨hid, List.nil_subset _⟩)
      (List.nodup_singleton id)).mpr (List.forall_mem_singleton.mpr hexists)
    simp only [List.any_cons, List.any_nil, Bool.or_false, List.length_singleton] at hcount
    exact hmore hcount.le
  refine ⟨hsingle, fun id hid other hother record hrecord haccepts haccepts' => ?_⟩
  -- one record for two ids: both are there, but only it is counted
  by_contra hne
  have hcount := (h [id, other]
    (List.cons_subset.mpr ⟨hid, List.cons_subset.mpr ⟨hother, List.nil_subset _⟩⟩)
    (List.nodup_cons.mpr ⟨fun h => hne (List.mem_singleton.mp h), List.nodup_singleton _⟩)).mpr
    (List.forall_mem_cons.mpr ⟨⟨record, hrecord, haccepts⟩,
      List.forall_mem_singleton.mpr ⟨record, hrecord, haccepts'⟩⟩)
  have hboth : 0 < records.countP fun record =>
      (Filter.byId id).accepts record && (Filter.byId other).accepts record :=
    List.countP_pos_iff.mpr ⟨record, hrecord, Bool.and_eq_true_iff.mpr ⟨haccepts, haccepts'⟩⟩
  have hsplit := countP_or_add_countP_and (Filter.byId id).accepts (Filter.byId other).accepts
    records
  have hidOne := hsingle id hid
  have hotherOne := hsingle other hother
  simp only [List.any_cons, List.any_nil, Bool.or_false, List.length_cons, List.length_nil]
    at hcount
  omega

/-- A record with a whole number of up to 53 bits for an id answers to that one only. -/
theorem accepts_byId {record : Value} {i : Int} {id : Nat} (hi : i.natAbs < powTwo 53)
    (hid : id < powTwo 53) (h : record.get? Kinds.idField = some (.ofInt i)) :
    (Filter.byId id).accepts record = true ↔ i = id := by
  have haccepts : (Filter.byId id).accepts record =
      (Binary64.ofInt i).same (Binary64.ofInt id) := by
    unfold Filter.byId Filter.accepts
    simp only [h, Option.getD_some]
    show ((Number.ofInt i).toBinary64).same (Number.ofInt id).toBinary64 = _
    rw [Number.toBinary64_ofInt, Number.toBinary64_ofInt]
  rw [haccepts, Binary64.same_ofInt hi (by exact hid)]

/-- Below `2 ^ 53` ids that differ are told apart. -/
theorem tellsApart_of_small {records : List Value} {ids : List Nat}
    (hrecords : ∀ record ∈ records, ∃ i : Int, i.natAbs < powTwo 53 ∧
      record.get? Kinds.idField = some (.ofInt i))
    (hdistinct : (records.map (·.get? Kinds.idField)).Nodup) (hids : ∀ id ∈ ids, id < powTwo 53) :
    TellsApart records ids := by
  refine ⟨fun id hid => ?_, fun id hid other hother record hrecord hone htwo => ?_⟩
  · have hcount : records.countP (Filter.byId id).accepts ≤
        (records.map (·.get? Kinds.idField)).count (some (.ofInt id)) := by
      rw [List.count, List.countP_map]
      refine List.countP_mono_left fun record hrecord haccepts => ?_
      obtain ⟨i, hi, hget⟩ := hrecords record hrecord
      rw [(accepts_byId hi (hids id hid) hget).mp haccepts] at hget
      exact beq_iff_eq.mpr hget
    exact hcount.trans (List.nodup_iff_count_le_one.mp hdistinct _)
  · obtain ⟨i, hi, hget⟩ := hrecords record hrecord
    exact Int.ofNat_inj.mp (((accepts_byId hi (hids id hid) hget).mp hone).symm.trans
      ((accepts_byId hi (hids other hother) hget).mp htwo))

/-! ### The checks -/

/-- A field that refers to a collection of a store. -/
structure FieldContext.RefersTo (context : FieldContext) (store : Store) (collection : String) :
    Prop where
  source : context.source = some store.source
  named : context.options.string? "collection" = some collection
  held : (store.collections.get? collection).isSome = true

namespace Kinds

variable {context : FieldContext} {store : Store} {collection : String}

theorem relatedQuery?_eq (h : context.RefersTo store collection) :
    relatedQuery? context.source context.options = some (store.source.query collection) := by
  unfold relatedQuery?
  rw [h.source, h.named]
  rfl

theorem recordExistsCheck_run {v : Value} {id : Nat} {query : Query} (hv : v.id? = some id)
    (hquery : relatedQuery? context.source context.options = some query) :
    recordExistsCheck.run context v =
      match (query.whereEq idField (.ofInt id)).exists with
      | .ok true => .ok ()
      | .ok false => .error (.message recordNotFound)
      | .error e => .error (.query e) := by
  unfold recordExistsCheck
  dsimp only
  rewrite [hv, hquery]
  rfl

/-- A reference exists when a record answers to it. -/
theorem recordExistsCheck_ok_iff (h : context.RefersTo store collection) {id : Nat}
    (hid : 0 < id ∧ id < wordEnd) :
    recordExistsCheck.run context (.ofInt id) = .ok () ↔
      ∃ record ∈ store.records collection, (Filter.byId id).accepts record = true := by
  have hquery : (store.source.query collection).whereEq idField (.ofInt id) =
      store.filtered collection [] (Filter.byId id) := rfl
  rw [recordExistsCheck_run (Value.id?_ofInt hid) (relatedQuery?_eq h), hquery,
    Store.filtered_exists h.held, ← List.any_eq_true]
  cases (store.records collection).any (Filter.byId id).accepts with
  | true => exact ⟨fun _ => rfl, fun _ => rfl⟩
  | false => exact ⟨nofun, nofun⟩

theorem recordsExistCheck_run {v w : Value} {ws : List Value} {query : Query}
    (hv : v.items.filter (·.id?.isSome) = w :: ws)
    (hquery : relatedQuery? context.source context.options = some query) :
    recordsExistCheck.run context v =
      match (query.whereIn idField (w :: ws)).count with
      | .ok count => ensure (count == (w :: ws).length) recordNotFound
      | .error e => .error (.query e) := by
  unfold recordsExistCheck
  dsimp only
  rewrite [hv, hquery]
  rfl

/-- A list of references exists when as many records answer to one of them as there are. -/
theorem recordsExistCheck_ok_iff (h : context.RefersTo store collection) {ids : List Nat}
    (hids : ∀ id ∈ ids, 0 < id ∧ id < wordEnd) :
    recordsExistCheck.run context (.list (ids.map fun id : Nat => .ofInt id)) = .ok () ↔
      (store.records collection).countP (fun record => ids.any fun id =>
        (Filter.byId id).accepts record) = ids.length := by
  cases ids with
  | nil => exact ⟨fun _ => by simp, fun _ => rfl⟩
  | cons id ids =>
    obtain ⟨items, hitems⟩ : ∃ items, (id :: ids).map (fun id : Nat => Value.ofInt id) = items :=
      ⟨_, rfl⟩
    have hall : items.filter (·.id?.isSome) = items := by
      refine List.filter_eq_self.mpr fun v hv => ?_
      rw [← hitems] at hv
      obtain ⟨n, hn, rfl⟩ := List.mem_map.mp hv
      exact Option.isSome_iff_exists.mpr ⟨n, Value.id?_ofInt (hids n hn)⟩
    have hcons : items = .ofInt id :: ids.map fun id : Nat => Value.ofInt id := hitems.symm
    have hquery : (store.source.query collection).whereIn idField items =
        store.filtered collection [] (.among idField items) := rfl
    have hlength : items.length = (id :: ids).length := by rw [← hitems, List.length_map]
    have hcount : (store.records collection).countP (Filter.among idField items).accepts =
        (store.records collection).countP fun record =>
          (id :: ids).any fun id => (Filter.byId id).accepts record := by
      refine List.countP_congr fun record _ => ?_
      rw [← hitems, among_accepts]
    rw [hitems, ← hlength, ← hcount, recordsExistCheck_run (v := .list items) (hall.trans hcons)
      (relatedQuery?_eq h), ← hcons, hquery, Store.filtered_count h.held]
    simp only [ensure_ok, beq_iff_eq]

/-- The check of a list agrees with those of its ids, for every list of different ones of the ids,
exactly when the collection tells the ids apart. -/
theorem recordsExistCheck_agrees_iff {one many : FieldContext}
    (hone : one.RefersTo store collection) (hmany : many.RefersTo store collection)
    {ids : List Nat} (hids : ∀ id ∈ ids, 0 < id ∧ id < wordEnd) :
    (∀ part : List Nat, part ⊆ ids → part.Nodup →
      (recordsExistCheck.run many (.list (part.map fun id : Nat => .ofInt id)) = .ok () ↔
        ∀ id ∈ part, recordExistsCheck.run one (.ofInt id) = .ok ())) ↔
      TellsApart (store.records collection) ids := by
  rw [tellsApart_iff]
  refine forall₃_congr fun part hpart _ => ?_
  rw [recordsExistCheck_ok_iff hmany fun id hid => hids id (hpart hid)]
  refine iff_congr Iff.rfl (forall₂_congr fun id hid => ?_)
  exact recordExistsCheck_ok_iff hone (hids id (hpart hid))

end Kinds

/-- Users with these ids. -/
def usersStore (ids : List Nat) : Store :=
  ⟨[("users", ids.map fun id : Nat => .object [(Kinds.idField, .ofInt id)])]⟩

/-- A field that refers to the users of a store. -/
def userReference (store : Store) : FieldContext where
  path := Path.root.child "author"
  kind := .record
  options := .ofValues [("collection", .string "users")]
  default := .null
  operation := .create
  input := .object []
  collection := none
  batch := []
  source := some store.source

theorem get?_usersStore {ids : List Nat} {record : Value}
    (h : record ∈ (usersStore ids).records "users") :
    ∃ id ∈ ids, record.get? Kinds.idField = some (.ofInt (id : Nat)) := by
  obtain ⟨id, hid, rfl⟩ := List.mem_map.mp h
  exact ⟨id, hid, rfl⟩

theorem userReference_refersTo (ids : List Nat) :
    (userReference (usersStore ids)).RefersTo (usersStore ids) "users" :=
  ⟨rfl, rfl, rfl⟩

namespace Kinds

/-- Two users, and one that does not exist. -/
theorem recordsExistCheck_agrees_users :
    let context := userReference (usersStore [1, 2])
    context.RefersTo (usersStore [1, 2]) "users" ∧
      (∀ id ∈ [1, 2, 3], 0 < id ∧ id < wordEnd) ∧
      (∀ part : List Nat, part ⊆ [1, 2, 3] → part.Nodup →
        (recordsExistCheck.run context (.list (part.map fun id : Nat => .ofInt id)) = .ok () ↔
          ∀ id ∈ part, recordExistsCheck.run context (.ofInt id) = .ok ())) ∧
      recordsExistCheck.run context (.list [.ofInt 2, .ofInt 1]) = .ok () ∧
      recordsExistCheck.run context (.list [.ofInt 2, .ofInt 3]) =
        .error (.message recordNotFound) := by
  intro context
  have hrefers : context.RefersTo (usersStore [1, 2]) "users" := userReference_refersTo [1, 2]
  have hids : ∀ id ∈ [1, 2, 3], 0 < id ∧ id < wordEnd := by decide
  have hsmall : ∀ id ∈ [1, 2], id < powTwo 53 := by decide
  have happart : TellsApart ((usersStore [1, 2]).records "users") [1, 2, 3] := by
    refine tellsApart_of_small (fun record hrecord => ?_) (by decide) (by decide)
    obtain ⟨id, hid, hget⟩ := get?_usersStore hrecord
    exact ⟨id, hsmall id hid, hget⟩
  have hagrees := (recordsExistCheck_agrees_iff hrefers hrefers hids).mpr happart
  refine ⟨hrefers, hids, hagrees, ?_, ?_⟩
  · decide +kernel
  · decide +kernel

/-- An id has its record and is refused in a list, because it is the same double as the id after it,
which has a record too.  And where one id has two records, the second makes up for an id that has
none. -/
theorem recordsExistCheck_disagrees :
    let neighbours := userReference (usersStore [9007199254740992, 9007199254740993])
    let twins := userReference (usersStore [1, 1])
    (recordExistsCheck.run neighbours (.ofInt 9007199254740992) = .ok () ∧
      recordsExistCheck.run neighbours (.list [.ofInt 9007199254740992]) =
        .error (.message recordNotFound)) ∧
    (recordsExistCheck.run twins (.list [.ofInt 1, .ofInt 2]) = .ok () ∧
      recordExistsCheck.run twins (.ofInt 2) = .error (.message recordNotFound)) := by
  decide +kernel

end Kinds

end ContentSchema
