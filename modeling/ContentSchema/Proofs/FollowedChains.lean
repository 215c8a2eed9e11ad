import Mathlib.Data.List.Iterate
import ContentSchema.Proofs.PopulationInvariants
import ContentSchema.Proofs.ReferencePopulation

/-!
# Followed chains — how deep a chain of records is read

Records that each name the next one in `next` are read as a chain, one record inside the other, as
long as the budget of the relation lasts (`Nests`).  All calls along the chain are counted under the
key of `next`, so the chain is as long as the budget when no population of a field before `next`
comes to that key: by induction on what is left of it, a call takes one, and the record it shows is
a chain for the rest.
-/

namespace ContentSchema

/-! ### Stored chains -/

/-- The relation that makes a chain. -/
def nextField : String := "next"

def nextPath : Path := Path.root.child nextField

namespace Store

/-- The record that another one names as the next: the first with that id. -/
def hop (store : Store) (collection : String) (record : Value) : Value :=
  ((store.records collection).find? fun r =>
    decide (r.get? Kinds.idField = record.get? nextField)).getD .null

/-- Records with whole numbers below `2 ^ 53` for ids, each of which names one of them as the
next. -/
structure Chained (store : Store) (collection : String) : Prop where
  ids : ∀ record ∈ store.records collection, ∃ id : Nat, 0 < id ∧ id < powTwo 53 ∧
    record.get? Kinds.idField = some (.ofInt id)
  next : ∀ record ∈ store.records collection, ∃ other ∈ store.records collection,
    record.get? nextField = other.get? Kinds.idField

variable {store : Store} {collection : String}

theorem Chained.isObject (h : store.Chained collection) {record : Value}
    (hrecord : record ∈ store.records collection) : record.isObject = true := by
  obtain ⟨_, -, -, hid⟩ := h.ids record hrecord
  cases record with
  | object ms => rfl
  | _ => cases hid

/-- The next record is stored, and it is the first that answers to its id. -/
theorem Chained.hop (h : store.Chained collection) {record : Value}
    (hrecord : record ∈ store.records collection) :
    ∃ id : Nat, 0 < id ∧ id < powTwo 53 ∧ record.get? nextField = some (.ofInt id) ∧
      store.hop collection record ∈ store.records collection ∧
      store.answering? collection id = some (store.hop collection record) := by
  obtain ⟨other, hother, hnext⟩ := h.next record hrecord
  obtain ⟨id, hpos, hsmall, hid⟩ := h.ids other hother
  have hget := hnext.trans hid
  have hfind : store.answering? collection id = (store.records collection).find? fun r =>
      decide (r.get? Kinds.idField = record.get? nextField) := by
    refine List.find?_congr fun r hr => ?_
    obtain ⟨i, -, hi, hri⟩ := h.ids r hr
    rw [Bool.eq_iff_iff, decide_eq_true_iff, hget]
    constructor
    · intro haccepts
      rw [hri, (accepts_byId (i := i) hi hsmall hri).mp haccepts]
    · exact accepts_byId_self
  have hfound : ((store.records collection).find? fun r =>
      decide (r.get? Kinds.idField = record.get? nextField)).isSome = true :=
    List.find?_isSome.mpr ⟨other, hother, decide_eq_true hnext.symm⟩
  obtain ⟨r, hr⟩ := Option.isSome_iff_exists.mp hfound
  have hhop : store.hop collection record = r := by
    unfold Store.hop
    rw [hr]
    rfl
  refine ⟨id, hpos, hsmall, hget, ?_, ?_⟩
  · rw [hhop]
    exact List.mem_of_find?_eq_some hr
  · rw [hfind, hr, hhop]

end Store

/-- A value is the records of a list, each inside the one before it in the place of `next` and the
same outside its relations, and then null. -/
inductive Nests (c : Catalog) (fields : Schema) : List Value → Value → Prop
  | null : Nests c fields [] .null
  | record {stored v inner : Value} {rest : List Value} (same : SameOffRelations c fields stored v)
      (next : v.get? nextField = some inner) (h : Nests c fields rest inner) :
      Nests c fields (stored :: rest) v

/-! ### The relation -/

/-- A relation that is followed into a collection and shows these members, `next` among them. -/
structure Declaration.ShowsNext (d : Declaration) (collection : String) (shown : List String) :
    Prop where
  kind : d.kind = .record
  collection : (Options.ofValues d.values).string? "collection" = some collection
  followed : (Options.ofValues d.values).flag "populate" = true
  fields : (Options.ofValues d.values).strings? "fields" = some shown
  next : nextField ∈ shown

section

variable {d : Declaration} {store : Store} {collection : String} {shown : List String}

theorem next_mem_readMembers (h : nextField ∈ shown) : nextField ∈ Kinds.readMembers shown := by
  unfold Kinds.readMembers
  split
  · exact h
  · exact List.mem_cons_of_mem _ h

/-- A query for records that are going to be populated. -/
def Store.followed (store : Store) (collection : String) (select : List String) : Query :=
  ⟨store.source, { collection := collection, select := select, populate := true }⟩

/-- The first record that answers to an id is asked for. -/
theorem Store.followed_first (hheld : (store.collections.get? collection).isSome = true)
    (select : List String) (id : Nat) :
    ((store.followed collection select).whereEq Kinds.idField (.ofInt id)).first =
      .ok ((store.answering? collection id).map (Store.project · select)) := by
  refine (Store.first_query hheld).trans ?_
  unfold Store.answering? Store.found
  rw [← List.head?_filter]
  congr 3
  exact List.filter_congr fun record _ => Bool.and_true _

/-- The relation follows the next record, as it is shown. -/
theorem Declaration.ShowsNext.plan (h : d.ShowsNext collection shown)
    (hstore : store.Chained collection) {o : Options} (ho : o.values = d.values)
    {record : Value} (hrecord : record ∈ store.records collection) {v : Value}
    (hv : record.get? nextField = some v) :
    Plan.ofKind d.kind (some store.source) o v =
      .follow collection
        [Store.project (store.hop collection record) (Kinds.readMembers shown)]
        fun populated => populated.headD .null := by
  obtain ⟨id, hpos, hsmall, hget, -, hanswering⟩ := hstore.hop hrecord
  have hheld : (store.collections.get? collection).isSome = true := by
    cases hheld : store.collections.get? collection with
    | some _ => rfl
    | none =>
      unfold Store.records at hrecord
      rw [hheld] at hrecord
      cases hrecord
  have hid : v.id? = some id := by
    rw [Option.some.inj (hv.symm.trans hget)]
    exact Value.id?_ofInt ⟨hpos, hsmall.trans (by decide)⟩
  have hquery : Kinds.wantedQuery (some store.source) (Options.ofValues d.values) =
      .ok (store.followed collection (Kinds.readMembers shown)) := by
    unfold Kinds.wantedQuery
    simp only [h.collection, h.fields, h.followed]
    rfl
  have hfirst := Store.followed_first hheld (Kinds.readMembers shown) id
  rw [hanswering] at hfirst
  rw [Plan.ofKind_ofValues _ _ ho, h.kind]
  unfold Plan.ofKind Plan.ofId
  simp only [hid, hquery, hfirst]
  rfl

end

/-! ### The key of a chain -/

/-- The key under which the calls along a chain are counted. -/
def chainKey (name : String) : String := Engine.populationKey (some name) nextPath

/-- The cache is sound, and so much is left for a chain. -/
structure ChainLeft (name : String) (left : Nat) (s : PopulationState) : Prop where
  sound : s.cache.Sound
  remaining : s.budget.remaining (chainKey name) = left

theorem ChainLeft.take {name : String} {left : Nat} {s : PopulationState}
    (h : ChainLeft name (left + 1) s) : ChainLeft name left (s.take (chainKey name)) := by
  refine ⟨h.sound, ?_⟩
  show (s.budget.take (chainKey name)).2.remaining (chainKey name) = left
  rw [DepthBudget.remaining_take, if_pos rfl, h.remaining]
  rfl

/-- Values that come to no relation under the key of the chain take nothing from it. -/
theorem guards_chainLeft {e : Engine} {D : PopulationTask → Prop}
    (h : Guards e (fun s => s.cache.Sound) D) {name : String}
    (bypassing : ∀ {collection path d v}, D (.field collection path d v) →
      d.additional.population ≠ some false → d.kind.isRelation →
        Engine.populationKey collection path ≠ chainKey name) (left : Nat) :
    Guards e (ChainLeft name left) D where
  sound _ hs := hs.sound
  resolve _ field d hs := ⟨(hs.sound.resolve field d).1, hs.remaining⟩
  closed := h.closed
  populator := h.populator
  take := by
    intro collection path d v hd hpopulated hrelation s hs
    have hkey := bypassing hd hpopulated hrelation
    refine ⟨hs.sound, ?_⟩
    show (s.budget.take _).2.remaining (chainKey name) = left
    rw [DepthBudget.remaining_take, if_neg hkey.symm]
    exact hs.remaining

/-! ### One record of a chain -/

/-- The value of one of these fields in a stored record. -/
inductive Store.Fills (store : Store) (name : String) (fields : Schema) : PopulationTask → Prop
  | field {record v : Value} {f : String × Declaration} (hrecord : record ∈ store.records name)
      (hf : f ∈ fields) (hv : (Path.root.child f.1).lookup record = some v) :
      Fills store name fields (.field (some name) (Path.root.child f.1) f.2 v)

theorem Store.Fills.mono {store : Store} {name : String} {fields fields' : Schema}
    {task : PopulationTask} (h : ∀ f ∈ fields, f ∈ fields') :
    store.Fills name fields task → store.Fills name fields' task := by
  rintro ⟨hrecord, hf, hv⟩
  exact .field hrecord (h _ hf) hv

/-- A collection whose records are a chain, in an engine over its store: `next` is a relation that
shows itself and does not ask to be left alone.  Nothing that a population of the stored records
comes to has a populator of its own, the options of what stands in them resolve, and no population
of a field before `next` comes to a relation under the key of the chain. -/
structure ReadsChain (e : Engine) (store : Store) (name : String) (collection : Collection)
    (shown : List String) (before : Schema) (d : Declaration) (after : Schema) : Prop where
  builtin : e.registry = .builtin
  cache : e.cache.Sound
  source : e.source = some store.source
  chained : store.Chained name
  registered : e.catalog.collection? name = some collection
  fields : collection.fields = before ++ (nextField, d) :: after
  names : (Entries.keys collection.fields).Nodup
  relation : d.ShowsNext name shown
  populated : d.additional.population ≠ some false
  populator : ∀ {collection' path d' v},
    PopulationTask.From e.Onward (store.Fills name collection.fields)
      (.field collection' path d' v) →
    d'.additional.population ≠ some false → d'.additional.populator = none
  resolves : ∀ {collection' path d' v},
    PopulationTask.From e.Inward (store.Fills name collection.fields)
      (.field collection' path d' v) →
    d'.additional.population ≠ some false → ∃ o, Registry.builtin.resolve "" d' = .ok o
  bypassing : ∀ {collection' path d' v},
    PopulationTask.From e.Onward (store.Fills name before) (.field collection' path d' v) →
    d'.additional.population ≠ some false → d'.kind.isRelation →
      Engine.populationKey collection' path ≠ chainKey name

namespace Engine

section

variable {populate : Member → Value → PopulationM (Except EngineError Value)}

theorem populateMembers_append (ms ns : List Member) (v : Value) (s : PopulationState) :
    populateMembers populate (ms ++ ns) v s =
      match populateMembers populate ms v s with
      | (.error err, t) => (.error err, t)
      | (.ok w, t) => populateMembers populate ns w t := by
  induction ms generalizing v s with
  | nil => rfl
  | cons m ms ih =>
    rw [List.cons_append]
    cases hu : m.relative.lookup v with
    | none =>
      rw [populateMembers, hu, populateMembers, hu]
      exact ih v s
    | some u =>
      rw [populateMembers_cons hu, populateMembers_cons hu]
      obtain ⟨⟨result, t⟩, hrun⟩ : ∃ r, populate m u s = r := ⟨_, rfl⟩
      rw [hrun]
      cases result with
      | error err => rfl
      | ok populated => exact ih _ t

/-- What is found after a run over the first members is found in a run over all. -/
theorem found_append {ms ns : List Member} {v w : Value} {s t : PopulationState}
    (hrun : populateMembers populate ms v s = (.ok w, t)) {m : Member} {u : Value}
    (hm : Found ns w m u) : Found (ms ++ ns) v m u := by
  induction ms generalizing v s with
  | nil =>
    cases hrun
    exact hm
  | cons n ms ih =>
    cases hn : n.relative.lookup v with
    | none =>
      unfold populateMembers at hrun
      rw [hn] at hrun
      exact .absent hn (ih hrun)
    | some x =>
      rw [populateMembers_cons hn] at hrun
      obtain ⟨⟨result, s'⟩, hhere⟩ : ∃ r, populate n x s = r := ⟨_, rfl⟩
      rw [hhere] at hrun
      cases result with
      | error err => cases hrun
      | ok y => exact .after hn (ih hrun)

/-- Populating other fields of a record leaves a member as it was. -/
theorem get?_populateMembers {fields : Schema} {key : String} (hkey : key ∉ Entries.keys fields)
    {v w : Value} {s t : PopulationState} (hv : v.isObject = true)
    (hrun : populateMembers populate (Member.ofSchema .root fields) v s = (.ok w, t)) :
    w.get? key = v.get? key := by
  have hkept : w.isObject = true ∧ w.get? key = v.get? key := by
    refine populateMembers_keeps (P := fun x => x.isObject = true ∧ x.get? key = v.get? key)
      (fun m _ hm x y _ _ hx _ _ => ?_) ⟨hv, rfl⟩ hrun
    obtain ⟨hobject, hget⟩ := hx
    obtain ⟨field, hfield, hrelative⟩ := Member.mem_ofSchema hm.mem
    have hne : field ≠ key := by
      rintro rfl
      exact hkey (List.mem_map.mpr ⟨_, hfield, rfl⟩)
    obtain ⟨ms, rfl⟩ := Value.isObject_iff.mp hobject
    rw [hrelative, Path.set_child_root]
    exact ⟨rfl, (Entries.get?_insert_of_ne hne y ms).trans hget⟩
  exact hkept.2

end

/-- The fuel of a population is more than two for each call that its budget has. -/
theorem lt_fieldFuel (e : Engine) (name : String) (m : Member) (v : Value) :
    2 * e.maxDepth < e.fieldFuel name m v := by
  obtain ⟨n, hn⟩ := Nat.exists_eq_succ_of_ne_zero (Path.weight_pos v).ne'
  have hkeys : 0 < (valueKeys e.catalog (some name) v.weight m.relative m.declaration v ++
      e.storedKeys).length := by
    rw [hn, valueKeys]
    exact Nat.succ_pos _
  have hlength := Nat.mul_le_mul_left e.maxDepth hkeys
  have hproduct := Nat.mul_le_mul (Nat.add_le_add_right hlength 1)
    (Nat.le_add_left 2 (v.weight + e.storedWeight))
  unfold fieldFuel populationFuel
  omega

end Engine

namespace ReadsChain

variable {e : Engine} {store : Store} {name : String} {collection : Collection}
  {shown : List String} {before after : Schema} {d : Declaration}

/-- The fields of the collection, each populated with some fuel. -/
def populate (e : Engine) (name : String) (fuel : Member → Value → Nat) (m : Member) (u : Value) :
    PopulationM (Except EngineError Value) :=
  e.populateValue (fuel m u) (some name) m.relative m.declaration u

section

variable (h : ReadsChain e store name collection shown before d after)
include h

theorem stored : e.Stored := fun _ hsource =>
  ⟨store, Option.some.inj (hsource.symm.trans h.source)⟩

theorem guards : Guards e (fun s => s.cache.Sound)
    (PopulationTask.From e.Onward (store.Fills name collection.fields)) :=
  Engine.guards_sound h.populator

theorem mem_before {f : String × Declaration} (hf : f ∈ before) : f ∈ collection.fields := by
  rw [h.fields]
  exact List.mem_append_left _ hf

theorem next_notMem : nextField ∉ Entries.keys before ∧ nextField ∉ Entries.keys after := by
  have hnames := h.names
  rw [h.fields, Entries.keys, List.map_append, List.map_cons, List.nodup_append] at hnames
  obtain ⟨-, hlater, hdisjoint⟩ := hnames
  exact ⟨fun hmem => hdisjoint nextField hmem nextField List.mem_cons_self rfl,
    (List.nodup_cons.mp hlater).1⟩

theorem ofSchema_fields : Member.ofSchema .root collection.fields =
    Member.ofSchema .root before ++ ⟨nextPath, d⟩ :: Member.ofSchema .root after := by
  rw [h.fields]
  exact List.map_append

/-- What is found in a part of a stored record stands in the record. -/
theorem fills {r record : Value} (hrecord : record ∈ store.records name) (hpart : PartOf r record)
    {m : Member} {u : Value} (hm : Found (Member.ofSchema .root collection.fields) r m u)
    {fields : Schema} (hmem : m ∈ Member.ofSchema .root fields) :
    store.Fills name fields (.field (some name) m.relative m.declaration u) := by
  obtain ⟨ms, rfl⟩ := Value.isObject_iff.mp hpart.isObject
  have hu : m.relative.lookup (.object ms) = some u :=
    ((MembersApart.ofSchema_object h.names ms).steady
      (Q := fun n x => n.relative.lookup (.object ms) = some x) fun _ _ _ hx => hx).found hm
  obtain ⟨field, hfield, hrelative⟩ := Member.mem_ofSchema hmem
  rw [hrelative] at hu ⊢
  exact .field (f := (field, m.declaration)) hrecord hfield (hpart.lookup field u hu)

/-- The fields before `next` take nothing from what is left for the chain. -/
theorem upholds_before (fuel : Member → Value → Nat) (left : Nat) {v : Value}
    (hfills : ∀ m u, Found (Member.ofSchema .root before) v m u →
      store.Fills name before (.field (some name) m.relative m.declaration u)) :
    Upholds (ChainLeft name left)
      (Engine.populateMembers (populate e name fuel) (Member.ofSchema .root before) v) := by
  have hguards : Guards e (fun s => s.cache.Sound)
      (PopulationTask.From e.Onward (store.Fills name before)) :=
    Engine.guards_sound fun hd =>
      h.populator (hd.mono (fun _ _ => id) fun _ => .mono fun _ => h.mem_before)
  exact .populateMembers fun m u hm =>
    ((guards_chainLeft hguards h.bypassing left).upholds h.builtin _).1 (.here (hfills m u hm))

/-- Fields of the collection are populated well, and keep the cache sound. -/
theorem exists_run {fields : Schema} (fuel : Member → Value → Nat) {v : Value}
    (hfills : ∀ m u, Found (Member.ofSchema .root fields) v m u →
      store.Fills name collection.fields (.field (some name) m.relative m.declaration u))
    {s : PopulationState} (hs : s.cache.Sound) :
    ∃ w t, Engine.populateMembers (populate e name fuel) (Member.ofSchema .root fields) v s =
      (.ok w, t) ∧ t.cache.Sound := by
  have hsound : ∀ m u, Found (Member.ofSchema .root fields) v m u →
      Upholds (fun s => s.cache.Sound) (populate e name fuel m u) := fun m u hm =>
    (h.guards.upholds h.builtin _).1 (.here (hfills m u hm))
  have hok : ∀ m u, Found (Member.ofSchema .root fields) v m u → ∀ t, t.cache.Sound →
      ∃ w, (populate e name fuel m u t).1 = .ok w := fun m u hm t ht =>
    Engine.populateValue_ok h.builtin h.guards h.resolves (fuel m u) (.here (hfills m u hm)) ht
  obtain ⟨w, hw⟩ := Engine.populateMembers_ok hok hsound hs
  exact ⟨w, _, Prod.ext hw rfl, Upholds.populateMembers hsound s hs⟩

/-- A part of a record of the collection is populated field by field: those before `next`, `next`
with what is left for the chain, and those after it. -/
theorem exists_level (fuel : Member → Value → Nat) {r record v : Value}
    (hrecord : record ∈ store.records name) (hpart : PartOf r record)
    (hv : r.get? nextField = some v) {left : Nat} {s : PopulationState}
    (hs : ChainLeft name left s) {P : Value → Prop}
    (hnext : ∀ t, ChainLeft name left t → ∃ inner u,
      e.populateValue (fuel ⟨nextPath, d⟩ v) (some name) nextPath d v t = (.ok inner, u) ∧
        u.cache.Sound ∧ P inner) :
    ∃ w t inner, Engine.populateMembers (populate e name fuel)
        (Member.ofSchema .root collection.fields) r s = (.ok w, t) ∧
      t.cache.Sound ∧ w.get? nextField = some inner ∧ P inner := by
  obtain ⟨hnextBefore, hnextAfter⟩ := h.next_notMem
  have hbefore : ∀ m u, Found (Member.ofSchema .root before) r m u →
      Found (Member.ofSchema .root collection.fields) r m u := fun m u hm => by
    rw [h.ofSchema_fields]
    exact hm.append _
  obtain ⟨w₁, s₁, hrun₁, -⟩ := h.exists_run fuel (fun m u hm =>
    h.fills hrecord hpart (hbefore m u hm) (hbefore m u hm).mem) hs.sound
  have hs₁ : ChainLeft name left s₁ := by
    have hkept := h.upholds_before fuel left (fun m u hm =>
      h.fills hrecord hpart (hbefore m u hm) hm.mem) s hs
    rwa [hrun₁] at hkept
  have hr := hpart.isObject
  have hw₁ : w₁.isObject = true :=
    Engine.isObject_populateMembers (fun m hm => Catalog.mem_ofSchema_ne hm) hr hrun₁
  have hv₁ : nextPath.lookup w₁ = some v := by
    rw [nextPath, lookup_object hw₁, Engine.get?_populateMembers hnextBefore hr hrun₁, hv]
  obtain ⟨inner, s₂, hinner, hs₂, hP⟩ := hnext s₁ hs₁
  have hafter : ∀ m u, Found (Member.ofSchema .root after) (nextPath.set inner w₁) m u →
      Found (Member.ofSchema .root collection.fields) r m u := fun m u hm => by
    rw [h.ofSchema_fields]
    exact Engine.found_append hrun₁ (.after hv₁ hm)
  obtain ⟨w, t, hrun₂, ht⟩ := h.exists_run fuel (fun m u hm =>
    h.fills hrecord hpart (hafter m u hm) (hafter m u hm).mem) hs₂
  obtain ⟨ms, rfl⟩ := Value.isObject_iff.mp hw₁
  have hset : nextPath.set inner (.object ms) = .object (Entries.insert nextField inner ms) :=
    Path.set_child_root nextField inner ms
  refine ⟨w, t, inner, ?_, ht, ?_, hP⟩
  · rw [h.ofSchema_fields, Engine.populateMembers_append, hrun₁]
    simp only
    rw [Engine.populateMembers_cons hv₁]
    have hhere : populate e name fuel ⟨nextPath, d⟩ v s₁ = (.ok inner, s₂) := hinner
    rw [hhere]
    exact hrun₂
  · rw [hset] at hrun₂
    rw [Engine.get?_populateMembers hnextAfter rfl hrun₂]
    exact Entries.get?_insert_self nextField inner ms

/-- A populated part of a record of the chain is the same outside its relations. -/
theorem same {fuel : Member → Value → Nat} {r record w : Value} {s t : PopulationState}
    (hrecord : record ∈ store.records name) (hpart : PartOf r record)
    (hrun : Engine.populateMembers (populate e name fuel)
      (Member.ofSchema .root collection.fields) r s = (.ok w, t)) :
    SameOffRelations e.catalog collection.fields r w := by
  have hplain : e.Plain (PopulationTask.From e.Inward (store.Fills name collection.fields)) :=
    ⟨.next, fun hd => h.populator hd.onward⟩
  exact (Engine.populateSchema_agreesOff h.builtin h.stored hplain
    (fun m u hm => .here (h.fills hrecord hpart hm hm.mem)) fuel hrun).sameOffRelations

/-- The relation goes to its populator with its own options. -/
theorem populateValue_next (fuel : Nat) {record v : Value} (hrecord : record ∈ store.records name)
    (hv : record.get? nextField = some v) {s : PopulationState} (hs : s.cache.Sound) :
    ∃ o cache population, o.values = d.values ∧ cache.Sound ∧
      d.kind.definition.population = some population ∧ population.terminal = .null ∧
      e.populateValue (fuel + 1) (some name) nextPath d v s =
        let context : PopulateContext :=
          ⟨nextPath, d.kind, o, some name, e.source, e.populateFieldsOf fuel⟩
        let called := Engine.callPopulator context population v { s with cache := cache }
        (.ok called.1, called.2) := by
  have hmem : (nextField, d) ∈ collection.fields := by
    rw [h.fields]
    exact List.mem_append_right _ List.mem_cons_self
  have hfills : store.Fills name collection.fields (.field (some name) nextPath d v) := by
    refine .field hrecord hmem ?_
    rw [lookup_object (h.chained.isObject hrecord), hv]
  obtain ⟨o, ho⟩ := h.resolves (.here hfills) h.populated
  obtain ⟨o', cache, hoptions, hvalues, hcache⟩ := hs.resolve_ok ho nextPath.name
  obtain ⟨population, hpop, hterminal⟩ : ∃ population,
      d.kind.definition.population = some population ∧ population.terminal = .null := by
    rw [h.relation.kind]
    exact ⟨_, rfl, rfl⟩
  refine ⟨o', cache, population, hvalues, hcache, hpop, hterminal, ?_⟩
  rw [Engine.populateValue_run h.builtin (h.populator (.here hfills)), if_neg h.populated, hoptions]
  simp only
  rw [Engine.members_relation e.catalog (.inl h.relation.kind), hpop]
  rfl

/-- A chain is read as long as its budget lasts: by induction on what is left. -/
theorem nests (left : Nat) {fuel : Nat} (hfuel : 2 * left < fuel) {record : Value}
    (hrecord : record ∈ store.records name) {v : Value} (hv : record.get? nextField = some v)
    {s : PopulationState} (hs : ChainLeft name left s) :
    ∃ inner t, e.populateValue fuel (some name) nextPath d v s = (.ok inner, t) ∧
      t.cache.Sound ∧ Nests e.catalog collection.fields
        ((List.iterate (store.hop name) (store.hop name record) left).map
          (Store.project · (Kinds.readMembers shown))) inner := by
  induction left generalizing fuel record v s with
  | zero =>
    obtain ⟨fuel, rfl⟩ := Nat.exists_eq_succ_of_ne_zero (Nat.ne_of_gt hfuel)
    obtain ⟨o, cache, population, -, hcache, -, hterminal, hrun⟩ :=
      h.populateValue_next fuel hrecord hv hs.sound
    have hspent : ¬ 0 < ({ s with cache := cache } : PopulationState).budget.remaining
        (Engine.populationKey (some name) nextPath) := Nat.not_lt.mpr (Nat.le_of_eq hs.remaining)
    simp only [Engine.callPopulator_run, if_neg hspent, hterminal] at hrun
    exact ⟨_, _, hrun, hcache, .null⟩
  | succ left ih =>
    obtain ⟨fuel, rfl⟩ : ∃ n, fuel = n + 1 + 1 := ⟨fuel - 2, by omega⟩
    obtain ⟨o, cache, population, hvalues, hcache, hpop, -, hrun⟩ :=
      h.populateValue_next (fuel + 1) hrecord hv hs.sound
    have hleft : ChainLeft name (left + 1) { s with cache := cache } := ⟨hcache, hs.remaining⟩
    have hcalled : 0 < ({ s with cache := cache } : PopulationState).budget.remaining
        (Engine.populationKey (some name) nextPath) := by
      have hremaining := hleft.remaining
      unfold chainKey at hremaining
      omega
    obtain ⟨id, -, -, -, hhop, -⟩ := h.chained.hop hrecord
    obtain ⟨_, -, -, hnext', -⟩ := h.chained.hop hhop
    have hpart : PartOf (Store.project (store.hop name record) (Kinds.readMembers shown))
        (store.hop name record) :=
      Store.partOf_project (List.ne_nil_of_mem (Kinds.idField_mem_readMembers shown))
    obtain ⟨w, t, inner, hlevel, ht, hget, hnests⟩ := h.exists_level (fun _ _ => fuel) hhop hpart
      ((Store.get?_project (next_mem_readMembers h.relation.next) _).trans hnext')
      hleft.take fun t ht => ih (by omega) hhop hnext' ht
    have hfollow : e.populateFieldsOf (fuel + 1) name
        (Store.project (store.hop name record) (Kinds.readMembers shown))
        (({ s with cache := cache } : PopulationState).take (chainKey name)) = (.ok w, t) := by
      rw [Engine.populateFieldsOf, Engine.collection, h.registered]
      simp only [Engine.populateFields_eq]
      exact hlevel
    have hplan : ((Plan.ofKind d.kind e.source o v).run (e.populateFieldsOf (fuel + 1))
        (({ s with cache := cache } : PopulationState).take (chainKey name))) = (.ok w, t) := by
      rw [h.source, h.relation.plan h.chained hvalues hrecord hv, Plan.run_follow,
        Plan.followAll_cons, hfollow]
      rfl
    simp only [Engine.callPopulator_run, if_pos hcalled, population_run hpop] at hrun
    rw [show Engine.populationKey (some name) nextPath = chainKey name from rfl, hplan] at hrun
    exact ⟨w, t, hrun, ht, .record (h.same hhop hpart hlevel) hget hnests⟩

/-- However long the budget, a record of a chain is read with exactly so many records inside it
along `next`: each is the one that so many hops in the store lead to, reduced to the members that
are shown and the same outside its relations, and behind the last is null. -/
theorem populateRecord_nests {record : Value} (hrecord : record ∈ store.records name) :
    ∃ result, (e.populateRecord name record).1 = .ok result ∧
      Nests e.catalog collection.fields
        (record :: (List.iterate (store.hop name) (store.hop name record) e.maxDepth).map
          (Store.project · (Kinds.readMembers shown))) result := by
  obtain ⟨id, -, -, hnext, -⟩ := h.chained.hop hrecord
  have hpart : PartOf record record := ⟨h.chained.isObject hrecord, fun _ _ h => h⟩
  obtain ⟨result, t, inner, hrun, -, hget, hnests⟩ := h.exists_level (e.fieldFuel name) hrecord
    hpart hnext (s := e.populationStart) ⟨h.cache, rfl⟩ fun t ht =>
      h.nests e.maxDepth (e.lt_fieldFuel name _ _) hrecord hnext ht
  refine ⟨result, ?_, .record (h.same hrecord hpart hrun) hget hnests⟩
  rw [Engine.populateRecord_run h.registered]
  exact congrArg Prod.fst hrun

end

end ReadsChain

/-! ### Nodes -/

/-- A node with the one after it, the one before it and an author. -/
def node (id next prev : Nat) : Value :=
  .object [("author", .ofInt 1), ("id", .ofInt id), ("next", .ofInt next), ("prev", .ofInt prev),
    ("title", .string "t")]

/-- Three nodes in a circle, and their author. -/
def nodeStore : Store :=
  ⟨[("nodes", [node 1 2 3, node 2 3 1, node 3 1 2]),
    ("users", [.object [("id", .ofInt 1), ("name", .string "Al")]])]⟩

/-- Nodes whose relation to the next one is declared between other fields. -/
def nodes (before : Schema) (next : Declaration) (after : Schema) : Collection where
  name := "nodes"
  fields := before ++ (nextField, next) :: after

def nodesEngine (before : Schema) (next : Declaration) (after : Schema) (maxDepth : Nat) : Engine :=
  ((Engine.ofCatalog ⟨[("nodes", nodes before next after)], []⟩).withSource
    nodeStore.source).withMaxDepth maxDepth

theorem chained_nodeStore : nodeStore.Chained "nodes" := by
  have hrecords : nodeStore.records "nodes" = [node 1 2 3, node 2 3 1, node 3 1 2] := rfl
  refine ⟨?_, ?_⟩
  · rw [hrecords, List.forall_mem_cons, List.forall_mem_cons, List.forall_mem_singleton]
    exact ⟨⟨1, by decide, by decide, rfl⟩, ⟨2, by decide, by decide, rfl⟩,
      ⟨3, by decide, by decide, rfl⟩⟩
  · rw [hrecords, List.forall_mem_cons, List.forall_mem_cons, List.forall_mem_singleton]
    exact ⟨⟨node 2 3 1, by simp, rfl⟩, ⟨node 3 1 2, by simp, rfl⟩, ⟨node 1 2 3, by simp, rfl⟩⟩

/-- A relation back to the nodes, shown with their own next ones and followed. -/
def nodeRelation : Declaration := relatedRecord "nodes" [nextField] true

theorem showsNext_nodeRelation : nodeRelation.ShowsNext "nodes" [nextField] :=
  ⟨rfl, rfl, rfl, rfl, List.mem_singleton_self _⟩

/-- Fields before `next`: a title, and a relation that no stored node has. -/
def fieldsAhead : Schema := [("title", .ofKind .text), ("related", nodeRelation)]

def fieldsBehind : Schema := [("prev", nodeRelation)]

section

variable {maxDepth : Nat} {collection : Option String} {path : Path} {d : Declaration} {v : Value}

theorem mem_fields_nodes : ∀ f ∈ (nodes fieldsAhead nodeRelation fieldsBehind).fields,
    f.2 ∈ [.ofKind .text, nodeRelation] := by
  simp [nodes, fieldsAhead, fieldsBehind]

theorem plain_nodes : ∀ d ∈ [.ofKind .text, nodeRelation], d.kind.isComposite = false ∧
    d.additional.populator = none ∧ ∃ o, Registry.builtin.resolve "" d = .ok o := by
  rw [List.forall_mem_cons, List.forall_mem_singleton]
  exact ⟨⟨rfl, rfl, _, rfl⟩, ⟨rfl, rfl, _, rfl⟩⟩

/-- A population of nodes comes to fields of nodes and to nothing else. -/
theorem onward_nodes (h : PopulationTask.From
    (nodesEngine fieldsAhead nodeRelation fieldsBehind maxDepth).Onward
    (nodeStore.Fills "nodes" (nodes fieldsAhead nodeRelation fieldsBehind).fields)
      (.field collection path d v)) : d ∈ [.ofKind .text, nodeRelation] := by
  refine h.induction (P := fun
    | .field _ _ d _ => d ∈ [.ofKind .text, nodeRelation]
    | _ => True) ?_ ?_
  · rintro _ ⟨-, hf, -⟩
    exact mem_fields_nodes _ hf
  · rintro _ _ hd ((⟨hcol, hm⟩ | ⟨-, hm⟩) | _)
    · obtain ⟨-, rfl⟩ := Prod.mk.inj (List.mem_singleton.mp (Entries.mem_of_get? hcol))
      obtain ⟨field, hfield, -⟩ := Member.mem_ofSchema hm.mem
      exact mem_fields_nodes _ hfield
    · have hmem := hm.mem
      rw [Catalog.members_leaf _ (plain_nodes _ hd).1] at hmem
      cases hmem
    · trivial

/-- A population of the fields before `next` comes to titles only. -/
theorem onward_fieldsAhead (h : PopulationTask.From
    (nodesEngine fieldsAhead nodeRelation fieldsBehind maxDepth).Onward
    (nodeStore.Fills "nodes" fieldsAhead) (.field collection path d v)) : d = .ofKind .text := by
  have hunrelated : ∀ record ∈ nodeStore.records "nodes",
      (Path.root.child "related").lookup record = none := by decide
  refine h.induction (P := fun
    | .field _ _ d _ => d = .ofKind .text
    | _ => False) ?_ ?_
  · rintro _ ⟨hrecord, hf, hv⟩
    rcases List.mem_cons.mp hf with rfl | hf
    · rfl
    · obtain rfl := List.mem_singleton.mp hf
      rw [hunrelated _ hrecord] at hv
      cases hv
  · rintro _ _ hd ((⟨_, _⟩ | ⟨-, hm⟩) | ⟨-, hplan, -⟩)
    · cases hd
    · obtain rfl : _ = _ := hd
      have hmem := hm.mem
      rw [Catalog.members_leaf _ rfl] at hmem
      cases hmem
    · obtain rfl : _ = _ := hd
      cases hplan

end

/-- No node is related to another one, so that relation may stand before `next`; the relation to the
node before stands behind it. -/
theorem readsChain_nodes (maxDepth : Nat) :
    ReadsChain (nodesEngine fieldsAhead nodeRelation fieldsBehind maxDepth) nodeStore "nodes"
      (nodes fieldsAhead nodeRelation fieldsBehind) [nextField] fieldsAhead nodeRelation
        fieldsBehind := by
  refine ⟨rfl, OptionCache.sound_empty, rfl, chained_nodeStore, rfl, rfl, by decide,
    showsNext_nodeRelation, nofun, fun hd _ => (plain_nodes _ (onward_nodes hd)).2.1,
    fun hd _ => (plain_nodes _ (onward_nodes hd.onward)).2.2, fun hd _ hrelation => ?_⟩
  rw [onward_fieldsAhead hd] at hrelation
  rcases hrelation with h | h <;> cases h

/-- With a budget of two, two nodes are read inside the first one. -/
theorem populateRecord_nests_nodes :
    let e := nodesEngine fieldsAhead nodeRelation fieldsBehind 2
    node 1 2 3 ∈ nodeStore.records "nodes" ∧
      ∃ result, (e.populateRecord "nodes" (node 1 2 3)).1 = .ok result ∧
        Nests e.catalog (nodes fieldsAhead nodeRelation fieldsBehind).fields
          [node 1 2 3, Store.project (node 2 3 1) ["id", "next"],
            Store.project (node 3 1 2) ["id", "next"]] result := by
  have hmem : node 1 2 3 ∈ nodeStore.records "nodes" := List.mem_cons_self
  exact ⟨hmem, (readsChain_nodes 2).populateRecord_nests hmem⟩

/-- The value at `next` of the first node as it is read; none when it cannot be populated. -/
def readNext (e : Engine) : Option Value :=
  (e.populateRecord "nodes" (node 1 2 3)).1.toOption.bind (Value.get? nextField)

/-- The node after the first one, reduced to its id and some members, with null for the next. -/
def nodeBehind (shown : List String) : Value :=
  nextPath.set .null
    (Store.project (nodeStore.hop "nodes" (node 1 2 3)) (Kinds.readMembers shown))

/-- A population of one's own that is never to be had. -/
def unavailable : Population where
  valueType := ⟨.object, "any", .text⟩
  terminal := .null
  run _ _ := return .error (.message "unavailable")

/-- With a budget of one, the next node is not read as it is stored, with null behind it: when a
field declared before `next` has used up the budget, when the options of another field do not
resolve, when the relation asks to be left alone or has a populator of its own, and when another
relation is shown with it. -/
theorem readNext_ne_nodeBehind :
    let author := relatedRecord "users" ["name"] false
    let withAuthor := relatedRecord "nodes" ["author", nextField] true
    let coloured := (Declaration.ofKind .text).option "colour" (.string "red")
    let hooked := { nodeRelation with additional := { populator := some unavailable } }
    nodeStore.Chained "nodes" ∧
      ((nodeStore.records "nodes").map (·.get? Kinds.idField)).Nodup ∧
      node 1 2 3 ∈ nodeStore.records "nodes" ∧
      nodeRelation.ShowsNext "nodes" [nextField] ∧
      readNext (nodesEngine [("prev", nodeRelation)] nodeRelation [] 1) ≠
        some (nodeBehind [nextField]) ∧
      readNext (nodesEngine [] nodeRelation [("title", coloured)] 1) ≠
        some (nodeBehind [nextField]) ∧
      nodeRelation.withoutPopulation.ShowsNext "nodes" [nextField] ∧
      readNext (nodesEngine [] nodeRelation.withoutPopulation [] 1) ≠
        some (nodeBehind [nextField]) ∧
      hooked.ShowsNext "nodes" [nextField] ∧
      readNext (nodesEngine [] hooked [] 1) ≠ some (nodeBehind [nextField]) ∧
      withAuthor.ShowsNext "nodes" ["author", nextField] ∧
      readNext (nodesEngine [] withAuthor [("author", author)] 1) ≠
        some (nodeBehind ["author", nextField]) := by
  exact ⟨chained_nodeStore, by decide +kernel, List.mem_cons_self, showsNext_nodeRelation,
    by decide +kernel, by decide +kernel, ⟨rfl, rfl, rfl, rfl, List.mem_singleton_self _⟩,
    by decide +kernel, ⟨rfl, rfl, rfl, rfl, List.mem_singleton_self _⟩, by decide +kernel,
    ⟨rfl, rfl, rfl, rfl, List.mem_cons_of_mem _ List.mem_cons_self⟩, by decide +kernel⟩

end ContentSchema
