import ContentSchema.Proofs.ReferencePopulation
import ContentSchema.Proofs.StoredIds

/-!
# Id lists — how a list of references is stored, decoded and read

A list of references is stored as a text of texts.  Decoding takes that text apart as it was put
together, for items of any kind, and a list of ids comes back as it was (`idCodec_decodes`).

Reading replaces the ids of a list by the records that have them, one by one and in order
(`populateIds_iff`).  A double beyond 64 bits counts as the greatest id there is, so it is
replaced as well, by a record with another id, wherever one has that greatest id
(`populateIds_beyond`); all other items are replaced by a record with exactly their id or left out.
-/

namespace ContentSchema

/-! ### Decoding -/

namespace Kinds

theorem toId_ofInt {id : Nat} (h : 0 < id ∧ id < wordEnd) :
    toId (.string (storedText (.ofInt id))) = .ofInt id := by
  have hsome : (Value.ofInt id).id?.isSome = true :=
    Option.isSome_iff_exists.mpr ⟨id, Value.id?_ofInt h⟩
  rw [toId_storedText hsome, Value.ofInt_of_bounded _ (bounded_natCast h.2)]
  rfl

/-- The stored form of a list is a JSON text of the texts of its items, and each item is decoded
from its own text; positive integers come back as they were. -/
theorem idCodec_decodes (items : List Value) :
    (∃ stored, serializeIds (.list items) = .string stored ∧
        Json.parseValue? stored = some (.list (items.map fun v => .string (storedText v)))) ∧
      deserializeIds (serializeIds (.list items)) =
        .list (items.map fun v => toId (.string (storedText v))) ∧
      ∀ ids : List Nat, (∀ id ∈ ids, 0 < id ∧ id < wordEnd) →
        items = ids.map (fun id : Nat => .ofInt id) →
          deserializeIds (serializeIds (.list items)) = .list items := by
  refine ⟨⟨_, serializeIds_list items, ?_⟩, deserializeIds_serializeIds items, ?_⟩
  · rw [Json.parseValue?_texts, List.map_map]
    rfl
  · rintro ids hids rfl
    rw [deserializeIds_serializeIds, List.map_map]
    refine congrArg Value.list (List.map_congr_left fun id hid => ?_)
    rw [Function.comp_apply, toId_ofInt (hids id hid)]

/-- The least and the greatest id, stored as numerals between quotes. -/
theorem idCodec_decodes_ends :
    let ids := [1, 18446744073709551615]
    (∀ id ∈ ids, 0 < id ∧ id < wordEnd) ∧
      serializeIds (.list (ids.map fun id : Nat => .ofInt id)) =
        .string "[\"1\",\"18446744073709551615\"]" ∧
      deserializeIds (serializeIds (.list (ids.map fun id : Nat => .ofInt id))) =
        .list (ids.map fun id : Nat => .ofInt id) := by
  intro ids
  have hids : ∀ id ∈ ids, 0 < id ∧ id < wordEnd := by decide
  exact ⟨hids, by decide +kernel, (idCodec_decodes _).2.2 ids hids rfl⟩

/-- Quotes, backslashes, line breaks and white space around a numeral. -/
example : deserializeIds (serializeIds (.list [.string "a\"b\\\n", .string " 7 ", .bool true])) =
    .list [.string "a\"b\\\n", .ofInt 7, .string "true"] := by decide +kernel

end Kinds

/-! ### Positive integers -/

/-- A positive whole double is at least 1. -/
theorem Binary64.truncate_pos {x : Binary64} (hwhole : x.isWhole = true) (hpos : 0 < x.scaled) :
    0 < x.truncate := by
  unfold scaled at hpos
  unfold truncate
  cases hsign : x.negative with
  | true =>
    rw [hsign, if_pos rfl] at hpos
    omega
  | false =>
    rw [hsign, if_neg Bool.false_ne_true] at hpos
    simp only [Bool.false_eq_true, if_false]
    have hdvd : one ∣ x.units := Nat.dvd_of_mod_eq_zero (beq_iff_eq.mp hwhole)
    have hle : one ≤ x.units := Nat.le_of_dvd (by omega) hdvd
    exact_mod_cast Nat.div_pos hle one_pos

namespace Value

/-- The positive integer that a number is, however large. -/
def positive? : Value → Option Nat
  | .number (.integer i _) => if 0 < i then some i.toNat else none
  | .number (.real x) =>
    if x.isWhole ∧ 0 < x.scaled then some x.truncate.toNat else none
  | _ => none

theorem positive?_integer (i : Int) (bounded : minSigned ≤ i ∧ i < unsignedEnd) :
    (Value.number (.integer i bounded)).positive? = if 0 < i then some i.toNat else none := rfl

theorem positive?_real (x : Binary64) :
    (Value.number (.real x)).positive? =
      if x.isWhole ∧ 0 < x.scaled then some x.truncate.toNat else none := rfl

/-- The id of a positive integer is that integer, within 64 bits. -/
theorem id?_eq (v : Value) : v.id? = v.positive?.map (min · (wordEnd - 1)) := by
  cases v with
  | number n =>
    cases n with
    | integer i bounded =>
      rw [id?, positive?_integer]
      split
      · have hend : i < 18446744073709551616 := bounded.2
        have hmin : min i.toNat (wordEnd - 1) = i.toNat := by
          show min i.toNat 18446744073709551615 = i.toNat
          omega
        rw [Option.map_some, hmin]
      · rfl
    | real x =>
      rw [id?, positive?_real]
      split <;> rfl
  | _ => rfl

theorem id?_of_lt {v : Value} {n : Nat} (h : v.positive? = some n) (hn : n < wordEnd) :
    v.id? = some n := by
  rw [id?_eq, h, Option.map_some, Nat.min_eq_left (by omega)]

theorem id?_of_le {v : Value} {n : Nat} (h : v.positive? = some n) (hn : wordEnd ≤ n) :
    v.id? = some (wordEnd - 1) := by
  rw [id?_eq, h, Option.map_some, Nat.min_eq_right (by omega)]

theorem positive?_pos {v : Value} {n : Nat} (h : v.positive? = some n) : 0 < n := by
  cases v with
  | number m =>
    cases m with
    | integer i bounded =>
      rw [positive?_integer] at h
      obtain ⟨hi, rfl⟩ := Option.ite_some_none_eq_some.mp h
      omega
    | real x =>
      rw [positive?_real] at h
      obtain ⟨⟨hwhole, hscaled⟩, rfl⟩ := Option.ite_some_none_eq_some.mp h
      have hone := Binary64.truncate_pos hwhole hscaled
      omega
  | _ => cases h

theorem id?_pos {v : Value} {id : Nat} (h : v.id? = some id) : 0 < id := by
  rw [id?_eq] at h
  obtain ⟨n, hn, rfl⟩ := Option.map_eq_some_iff.mp h
  exact Nat.lt_min.mpr ⟨positive?_pos hn, by decide⟩

end Value

/-! ### Records by their exact ids -/

/-- Whether a record has exactly this positive integer for an id. -/
def Value.denotes (id : Nat) (record : Value) : Bool :=
  (record.get? Kinds.idField).bind Value.positive? == some id

namespace Store

variable {store : Store} {collection : String} {id : Nat}

/-- The first record of a collection with exactly this id. -/
def holder? (store : Store) (collection : String) (id : Nat) : Option Value :=
  (store.records collection).find? (Value.denotes id)

/-- Where ids are whole numbers of 64 bits, the id that is read of a record is its exact id. -/
theorem identified?_eq (hintegers : store.HasIntegerIds collection) :
    store.identified? collection id = store.holder? collection id := by
  refine List.find?_congr fun record hrecord => ?_
  obtain ⟨i, bounded, hget⟩ := hintegers record hrecord
  unfold Value.hasId Value.denotes
  rw [hget]
  rfl

theorem holder?_beyond (hintegers : store.HasIntegerIds collection) (hid : wordEnd ≤ id) :
    store.holder? collection id = none := by
  refine List.find?_eq_none.mpr fun record hrecord hdenotes => ?_
  obtain ⟨i, bounded, hget⟩ := hintegers record hrecord
  unfold Value.denotes at hdenotes
  rw [hget, Option.bind_some, beq_iff_eq, Value.positive?_integer] at hdenotes
  obtain ⟨-, hi⟩ := Option.ite_some_none_eq_some.mp hdenotes
  have hend : i < 18446744073709551616 := bounded.2
  have hbeyond : 18446744073709551616 ≤ id := hid
  omega

/-- What a list of references stands for: of its positive integers those that are ids of records, in
order, each replaced by the wanted members of the first record with exactly that id. -/
def referred (store : Store) (collection : String) (fields : List String) (v : Value) :
    List Value :=
  (v.items.filterMap Value.positive?).filterMap fun id =>
    (store.holder? collection id).map (Store.project · (Kinds.readMembers fields))

end Store

/-! ### Population -/

section

variable {α β : Type} {f g : α → Option β} {xs : List α}

theorem length_filterMap_le (h : ∀ x ∈ xs, g x = none ∨ g x = f x) :
    (xs.filterMap g).length ≤ (xs.filterMap f).length := by
  induction xs with
  | nil => exact Nat.le_refl 0
  | cons x xs ih =>
    obtain ⟨hx, hxs⟩ := List.forall_mem_cons.mp h
    have hrest := ih hxs
    rw [List.filterMap_cons, List.filterMap_cons]
    rcases hx with hnone | hsame
    · rw [hnone]
      cases f x with
      | none => exact hrest
      | some b => exact Nat.le_succ_of_le hrest
    · rw [hsame]
      cases f x with
      | none => exact hrest
      | some b => exact Nat.succ_le_succ hrest

/-- Where one choice only leaves out what another one makes, both make the same list exactly when
nothing is left out. -/
theorem filterMap_eq_iff (h : ∀ x ∈ xs, g x = none ∨ g x = f x) :
    xs.filterMap f = xs.filterMap g ↔ ∀ x ∈ xs, f x = g x := by
  refine ⟨fun heq => ?_, List.filterMap_congr⟩
  induction xs with
  | nil => exact List.forall_mem_nil _
  | cons x xs ih =>
    obtain ⟨hx, hxs⟩ := List.forall_mem_cons.mp h
    have hle := length_filterMap_le hxs
    have hhere : f x = g x := by
      rcases hx with hnone | hsame
      · rw [List.filterMap_cons, List.filterMap_cons, hnone] at heq
        cases hf : f x with
        | none => exact hnone.symm
        | some b =>
          -- the list of `f` has one entry more here, and no fewer behind
          rw [hf] at heq
          have hlength := congrArg List.length heq
          simp only [List.length_cons] at hlength
          omega
      · exact hsame.symm
    rw [List.filterMap_cons, List.filterMap_cons, hhere] at heq
    refine List.forall_mem_cons.mpr ⟨hhere, ih hxs ?_⟩
    cases hg : g x with
    | none =>
      rw [hg] at heq
      exact heq
    | some b =>
      rw [hg] at heq
      exact (List.cons.inj heq).2

end

section

variable {context : PopulateContext} {store : Store} {collection : String} {fields : List String}
  {population : Population} {s : PopulationState}

/-- A relation that answers without following records leaves the state as it is. -/
theorem callPopulator_keeps {kind : FieldKind} (h : kind.definition.population = some population)
    {v : Value} {result : Except FieldError Value}
    (hplan : Plan.ofKind kind context.source context.options v = .answer result)
    (hleft : 0 < s.budget.remaining (Engine.populationKey context.collection context.path)) :
    (Engine.callPopulator context population v s).2 =
      s.take (Engine.populationKey context.collection context.path) := by
  rw [Engine.callPopulator_run]
  simp only
  rw [if_pos hleft, population_run h, hplan]
  rfl

/-- A list of references is replaced by what it stands for, except that numbers beyond 64 bits are
taken for the greatest id. -/
theorem referred_eq_iff (hintegers : store.HasIntegerIds collection) (v : Value) :
    ((v.items.filterMap Value.id?).filterMap fun id => (store.holder? collection id).map
        (Store.project · (Kinds.readMembers fields))) = store.referred collection fields v ↔
      ∀ item ∈ v.items, ∀ n, item.positive? = some n → wordEnd ≤ n →
        store.holder? collection (wordEnd - 1) = none := by
  unfold Store.referred
  rw [List.filterMap_filterMap, List.filterMap_filterMap, filterMap_eq_iff]
  · refine forall₂_congr fun item _ => ?_
    cases hitem : item.positive? with
    | none => simp [Value.id?_eq, hitem]
    | some n =>
      rcases Nat.lt_or_ge n wordEnd with hn | hn
      · rw [Value.id?_of_lt hitem hn]
        refine iff_of_true rfl fun m hm hbeyond => ?_
        rw [Option.some.inj hm] at hn
        omega
      · rw [Value.id?_of_le hitem hn, Option.bind_some, Option.bind_some,
          Store.holder?_beyond hintegers hn, Option.map_none, Option.map_eq_none_iff]
        exact ⟨fun h _ _ _ => h, fun h => h n rfl hn⟩
  · intro item _
    cases hitem : item.positive? with
    | none => exact .inl rfl
    | some n =>
      rcases Nat.lt_or_ge n wordEnd with hn | hn
      · rw [Value.id?_of_lt hitem hn]
        exact .inr rfl
      · rw [Option.bind_some, Store.holder?_beyond hintegers hn]
        exact .inl rfl

/-- Reading replaces the ids of a list in order by the records that have them, and uses up one call;
this is what the list stands for unless it holds a number beyond 64 bits while some record has the
greatest id. -/
theorem populateIds_iff (h : context.RefersTo store collection fields)
    (hpopulation : FieldKind.records.definition.population = some population)
    (hleft : 0 < s.budget.remaining (Engine.populationKey context.collection context.path))
    (hintegers : store.HasIntegerIds collection) (v : Value) :
    let populated := Engine.callPopulator context population v s
    populated.1 = .list ((v.items.filterMap Value.id?).filterMap fun id =>
        (store.holder? collection id).map (Store.project · (Kinds.readMembers fields))) ∧
      populated.2 = s.take (Engine.populationKey context.collection context.path) ∧
      (populated.1 = .list (store.referred collection fields v) ↔
        ∀ item ∈ v.items, ∀ n, item.positive? = some n → wordEnd ≤ n →
          store.holder? collection (wordEnd - 1) = none) := by
  intro populated
  have hids : ∀ id ∈ v.items.filterMap Value.id?, 0 < id := by
    intro id hid
    obtain ⟨item, -, hitem⟩ := List.mem_filterMap.mp hid
    exact Value.id?_pos hitem
  have hplan := Plan.ofIds_eq h hintegers rfl hids
  have hanswer : populated.1 = _ := callPopulator_ids h hpopulation hleft hintegers rfl hids
  simp only [Store.identified?_eq hintegers] at hanswer
  refine ⟨hanswer, callPopulator_keeps hpopulation hplan hleft, ?_⟩
  rw [hanswer, Value.list.injEq]
  exact referred_eq_iff hintegers v

end

/-- Users asked for in another order than they are stored in, one of them twice, and one that does
not exist. -/
theorem populateIds_users :
    let store := usersStore [1, 2, 1]
    let context := readingUsers store .records
    let v := Value.list [.ofInt 2, .string "1", .ofInt 9, .ofInt 1, .ofInt 2]
    let user := fun id : Nat => Value.object [("id", .ofInt id)]
    ∃ population, FieldKind.records.definition.population = some population ∧
      context.RefersTo store "users" ["id"] ∧ store.HasIntegerIds "users" ∧
      0 < unspent.budget.remaining (Engine.populationKey context.collection context.path) ∧
      (Engine.callPopulator context population v unspent).1 = .list [user 2, user 1, user 2] ∧
      store.referred "users" ["id"] v = [user 2, user 1, user 2] := by
  intro store context v user
  have hrefers : context.RefersTo store "users" ["id"] := readingUsers_refersTo _ .records
  have hintegers : store.HasIntegerIds "users" := integerIds_usersStore (by decide)
  have hleft := unspent_remaining (Engine.populationKey context.collection context.path)
  have hreferred : store.referred "users" ["id"] v = [user 2, user 1, user 2] := by
    decide +kernel
  obtain ⟨-, -, hiff⟩ := populateIds_iff hrefers rfl hleft hintegers v
  refine ⟨_, rfl, hrefers, hintegers, hleft, ?_, hreferred⟩
  rw [← hreferred]
  refine hiff.mpr fun _ _ _ _ _ => ?_
  decide +kernel

/-- A number beyond 64 bits is no id of a user, and is replaced by the user with the greatest id. -/
theorem populateIds_beyond :
    let store := usersStore [18446744073709551615]
    let context := readingUsers store .records
    let v := Value.list [.ofInt 18446744073709551616]
    ∃ population, FieldKind.records.definition.population = some population ∧
      context.RefersTo store "users" ["id"] ∧ store.HasIntegerIds "users" ∧
      v.items.filterMap Value.positive? = [18446744073709551616] ∧
      (Engine.callPopulator context population v unspent).1 =
        .list [.object [("id", .ofInt 18446744073709551615)]] ∧
      store.referred "users" ["id"] v = [] := by
  intro store context v
  have hrefers : context.RefersTo store "users" ["id"] := readingUsers_refersTo _ .records
  have hintegers : store.HasIntegerIds "users" := integerIds_usersStore (by decide)
  have hids : v.items.filterMap Value.id? = [18446744073709551615] := by decide +kernel
  refine ⟨_, rfl, hrefers, hintegers, by decide +kernel, ?_, by decide +kernel⟩
  refine (callPopulator_ids hrefers rfl (unspent_remaining _) hintegers hids (by decide)).trans ?_
  decide +kernel

end ContentSchema
