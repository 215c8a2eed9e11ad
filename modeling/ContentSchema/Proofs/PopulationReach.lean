import ContentSchema.Proofs.Conformance
import ContentSchema.Proofs.InPlay
import ContentSchema.Proofs.PopulationRuns
import ContentSchema.Proofs.StoreQueries

/-!
# Population reach — what a population can come to

A population goes down into the members of a value and follows relations into stored records.  The
members that a value has do not meet (`members_apart`), so populating one of them leaves the others
as they were; and what a relation follows are parts of stored records (`plan_stored`).  So every
value that is come to is part of the first record or of a stored one, and its key is known
beforehand.
-/

namespace ContentSchema

/-! ### Members that do not meet -/

theorem Path.Diverge.append {base p q : List String} {v x : Value}
    (hx : Path.lookupSegments base v = some x) (h : Path.Diverge x p q) :
    Path.Diverge v (base ++ p) (base ++ q) := by
  induction base generalizing v with
  | nil =>
    rw [Option.some.inj hx]
    exact h
  | cons s base ih =>
    obtain ⟨y, hd, hy⟩ := Option.bind_eq_some_iff.mp hx
    exact .under hd (ih hy)

/-- No member that the value has meets a later one. -/
def MembersApart (v : Value) (ms : List Member) : Prop :=
  ms.Pairwise fun m n => ∀ x, m.relative.lookup v = some x → Path.Diverges v m.relative n.relative

/-- No block has two fields that name one index of a list. -/
def Catalog.IndicesApart (c : Catalog) : Prop :=
  ∀ key block, c.block? key = some block → (Entries.keys block.fields).Pairwise fun s t =>
    Text.readIndex? s = none ∨ Text.readIndex? s ≠ Text.readIndex? t

namespace MembersApart

variable {v : Value}

/-- Storing at a member is seen at no later one. -/
theorem set {m : Member} {ms : List Member} (h : MembersApart v (m :: ms)) {x : Value}
    (hx : m.relative.lookup v = some x) (w : Value) :
    (∀ n ∈ ms, n.relative.lookup (m.relative.set w v) = n.relative.lookup v) ∧
      MembersApart (m.relative.set w v) ms := by
  obtain ⟨hm, hms⟩ := List.pairwise_cons.mp h
  have hroom := Path.hasRoom_of_lookup hx
  have hlook : ∀ n ∈ ms, n.relative.lookup (m.relative.set w v) = n.relative.lookup v :=
    fun n hn => (hm n hn x hx).lookup_set hroom w
  refine ⟨hlook, hms.imp_of_mem fun {n k} hn hk hnk y hy => ?_⟩
  rw [hlook n hn] at hy
  exact (hnk y hy).set (hm n hn x hx) (hm k hk x hx) hroom w

/-- Members of a part, seen from the container. -/
theorem below {base : Path} {ms : List Member}
    (h : ∀ x, base.lookup v = some x → MembersApart x ms) :
    MembersApart v (ms.map (Member.below base)) := by
  cases hbase : base.lookup v with
  | none =>
    refine List.pairwise_of_forall_mem_list fun m hm n _ x hx => ?_
    obtain ⟨m', -, rfl⟩ := List.mem_map.mp hm
    rw [Member.below_relative, Path.lookup_append, hbase] at hx
    cases hx
  | some y =>
    refine List.pairwise_map.mpr ((h y hbase).imp fun {m n} hmn x hx => ?_)
    rw [Member.below_relative, Path.lookup_append, hbase] at hx
    exact Path.Diverge.append hbase (hmn x hx)

theorem ofSchema_object {schema : Schema} (h : (Entries.keys schema).Nodup) (ms : Entries Value) :
    MembersApart (.object ms) (Member.ofSchema .root schema) :=
  List.pairwise_map.mpr ((List.pairwise_map.mp h).imp fun hst _ _ => .here [] [] (.keys hst))

/-- The fields of a block that is given as a list. -/
theorem ofSchema_list {schema : Schema}
    (h : (Entries.keys schema).Pairwise fun s t =>
      Text.readIndex? s = none ∨ Text.readIndex? s ≠ Text.readIndex? t) (items : List Value) :
    MembersApart (.list items) (Member.ofSchema .root schema) := by
  refine List.pairwise_map.mpr ((List.pairwise_map.mp h).imp fun {e f} hst x hx => ?_)
  rw [Path.lookup_child_root] at hx
  refine .here [] [] (.indices (hst.resolve_left fun hnone => ?_))
  unfold Path.descend at hx
  rw [hnone] at hx
  cases hx

theorem ofItems {f : Value → List Member} {items : List Value}
    (h : ∀ x ∈ items, MembersApart x (f x)) :
    MembersApart (.list items) (Member.ofItems f items) := by
  refine List.pairwise_flatMap.mpr ⟨fun e he => ?_, ?_⟩
  · have hget := List.mem_zipIdx_iff_getElem?.mp he
    refine below fun x hx => ?_
    rw [Path.index_eq, Path.lookup_child_root, Path.descend_indexText, hget] at hx
    rw [← Option.some.inj hx]
    exact h e.1 (List.mem_of_getElem? hget)
  · refine (Places.pairwise_zipIdx items).imp fun {a b} hab m hm n hn x _ => ?_
    obtain ⟨m', -, rfl⟩ := List.mem_map.mp hm
    obtain ⟨n', -, rfl⟩ := List.mem_map.mp hn
    exact .here m'.relative.segments n'.relative.segments (Path.apart_indexText hab items)

end MembersApart

section

variable {c : Catalog} {fields : Schema} {d : Declaration}

theorem blockMembers_apart (hc : c.Distinct) (hi : c.IndicesApart) (v : Value) :
    MembersApart v (c.blockMembers .root v) := by
  induction v using Value.weightInduction with
  | step v ih =>
    cases v with
    | object ms =>
      cases hblock : c.blockOf? ms with
      | none =>
        rw [c.blockMembers_object_none hblock]
        exact List.Pairwise.nil
      | some block =>
        obtain ⟨name, -, hname⟩ := Option.bind_eq_some_iff.mp hblock
        obtain ⟨key, -, hkey⟩ := Option.bind_eq_some_iff.mp hname
        obtain ⟨hfields, hslots⟩ := hc key block hkey
        rw [c.blockMembers_object hblock]
        refine List.pairwise_append.mpr ⟨MembersApart.below fun fs _ => ?_, ?_, ?_⟩
        · cases fs with
          | object fs => exact .ofSchema_object hfields fs
          | list items => exact .ofSchema_list (hi key block hkey) items
          | _ =>
            refine List.pairwise_map.mpr (List.pairwise_of_forall fun e f x hx => ?_)
            cases hx
        · refine List.pairwise_flatMap.mpr
            ⟨fun slot _ => MembersApart.below fun items hitems => ?_, ?_⟩
          · by_cases hne : Catalog.slotItems ms slot = []
            · rw [hne]
              exact List.Pairwise.nil
            · have hlook := lookup_slotItems hne
              rw [hitems] at hlook
              rw [Option.some.inj hlook]
              exact .ofItems fun x hx => ih x (Catalog.weight_slotItems hx)
          · refine hslots.imp fun {s t} hst m hm n hn x _ => ?_
            obtain ⟨m', hm', rfl⟩ := List.mem_map.mp hm
            obtain ⟨n', -, rfl⟩ := List.mem_map.mp hn
            obtain ⟨i, y, _, hy, -, -⟩ := Member.mem_ofItems hm'
            obtain ⟨es, hes, -⟩ := lookup_slotPath
              (List.ne_nil_of_mem (List.mem_of_getElem? hy))
            exact .under hes (.here m'.relative.segments n'.relative.segments (.keys hst))
        · intro m hm n hn x _
          obtain ⟨m', -, rfl⟩ := List.mem_map.mp hm
          obtain ⟨slot, -, hn⟩ := List.mem_flatMap.mp hn
          obtain ⟨n', -, rfl⟩ := List.mem_map.mp hn
          exact .here m'.relative.segments (slot :: n'.relative.segments) (.keys (by decide))
    | _ =>
      rw [c.blockMembers_of_not_object .root rfl]
      exact List.Pairwise.nil

/-- Members that a value has do not meet. -/
theorem members_apart (hc : c.NamesApart fields) (hi : c.IndicesApart) (hd : c.InUse fields d)
    (v : Value) : MembersApart v (c.members d v) := by
  obtain ⟨hsubfields, hvariants⟩ := hc.nested d hd
  cases v with
  | list items =>
    rw [c.members_list d items]
    refine .ofItems fun x _ => ?_
    unfold Catalog.entryMembers
    split
    · split
      · next hx =>
        obtain ⟨ms, rfl⟩ := Value.isObject_iff.mp hx
        exact .ofSchema_object hsubfields ms
      · exact List.Pairwise.nil
    · split
      · next schema hschema =>
        obtain ⟨key, hkey⟩ := mem_variants_of_variantOf? hschema
        cases x with
        | object ms => exact .ofSchema_object (hvariants _ hkey) ms
        | _ => cases hschema
      · exact List.Pairwise.nil
    · exact blockMembers_apart hc.blocks hi x
    · exact List.Pairwise.nil
  | object ms =>
    rw [c.members_object d ms]
    split
    · exact .ofSchema_object hsubfields ms
    · exact List.Pairwise.nil
  | _ =>
    rw [c.members_eq_nil d rfl rfl]
    exact List.Pairwise.nil

end

/-! ### Keys within reach -/

theorem everywhere_valueKeys (c : Catalog) (collection : Option String) {fuel : Nat} (path : Path)
    (d : Declaration) {v : Value} (h : v.weight ≤ fuel) :
    Everywhere c (fun p _ _ => Engine.populationKey collection p ∈
      Engine.valueKeys c collection fuel path d v) path d v := by
  induction fuel generalizing path d v with
  | zero =>
    have := Path.weight_pos v
    omega
  | succ fuel ih =>
    unfold Engine.valueKeys
    refine .mk List.mem_cons_self fun m hm u hu => ?_
    have hlt := Catalog.weight_member hm hu
    refine (ih (path ++ m.relative) m.declaration (v := u) (by omega)).imp fun p _ _ hp => ?_
    refine List.mem_cons_of_mem _ (List.mem_flatMap.mpr ⟨m, hm, ?_⟩)
    rw [hu]
    exact hp

/-- A declared value within reach of a population: it stands in a registered collection, its keys
are known, and its weight is bounded. -/
structure Within (c : Catalog) (keys : List String) (collection : Option String) (path : Path)
    (d : Declaration) (v : Value) (bound : Nat) : Prop where
  inUse : ∃ name collection, c.collection? name = some collection ∧
    c.InUse collection.fields d
  keys : Everywhere c (fun p _ _ => Engine.populationKey collection p ∈ keys) path d v
  weight : v.weight ≤ bound

/-- Every declared value of a record is within reach. -/
def RecordWithin (c : Catalog) (keys : List String) (bound : Nat) (name : String)
    (record : Value) : Prop :=
  ∀ collection, c.collection? name = some collection → ∀ e ∈ collection.fields, ∀ v,
    (Path.root.child e.1).lookup record = some v →
      Within c keys name (Path.root.child e.1) e.2 v bound

section

variable {c : Catalog} {keys : List String} {bound : Nat} {collection : Option String}
  {path : Path} {d : Declaration} {v : Value}

theorem Within.member (h : Within c keys collection path d v (bound + 1)) {m : Member}
    (hm : m ∈ c.members d v) {u : Value} (hu : m.relative.lookup v = some u) :
    Within c keys collection (path ++ m.relative) m.declaration u bound := by
  obtain ⟨name, collection', hcol, hd⟩ := h.inUse
  refine ⟨⟨name, collection', hcol, hd.member hm⟩, h.keys.member hm hu, ?_⟩
  have hlt := Catalog.weight_member hm hu
  have := h.weight
  omega

/-- A record is within reach of its own keys. -/
theorem recordWithin_recordKeys {name : String} {record : Value} (h : record.weight ≤ bound)
    (hkeys : ∀ key ∈ Engine.recordKeys c name record, key ∈ keys) :
    RecordWithin c keys bound name record := by
  intro collection hcol e he v hv
  refine ⟨⟨name, collection, hcol, .field he⟩, ?_, ?_⟩
  · refine (everywhere_valueKeys c name (Path.root.child e.1) e.2 (Nat.le_refl v.weight)).imp
      fun p _ _ hp => hkeys _ ?_
    unfold Engine.recordKeys
    rw [hcol]
    refine List.mem_flatMap.mpr ⟨e, he, ?_⟩
    simp only [hv]
    exact hp
  · have hlt := Path.weight_lookup hv (List.cons_ne_nil e.1 [])
    omega

/-- A part of a record: an object of members that the record has. -/
structure PartOf (part record : Value) : Prop where
  isObject : part.isObject = true
  lookup : ∀ key v, (Path.root.child key).lookup part = some v →
    (Path.root.child key).lookup record = some v

/-- A part of a record is as much within reach. -/
theorem RecordWithin.of_partOf {name : String} {part record : Value}
    (h : RecordWithin c keys bound name record) (hpart : PartOf part record) :
    RecordWithin c keys bound name part :=
  fun collection hcol e he v hv => h collection hcol e he v (hpart.lookup e.1 v hv)

end

/-! ### Stored records -/

namespace Store

variable {store : Store}

/-- A projection keeps values where they are. -/
theorem lookup_project {record : Value} {select : List String} {key : String} {v : Value}
    (h : (Path.root.child key).lookup (project record select) = some v) :
    (Path.root.child key).lookup record = some v := by
  unfold project at h
  split at h
  · exact h
  · rw [Path.lookup_child_root, Path.descend_object] at h
    obtain ⟨name, -, hname⟩ := List.mem_filterMap.mp (Entries.mem_sorted (Entries.mem_of_get? h))
    obtain ⟨w, hw, heq⟩ := Option.map_eq_some_iff.mp hname
    obtain ⟨rfl, rfl⟩ := Prod.mk.inj heq
    rw [Path.lookup_child_root]
    cases record with
    | object ms => exact hw
    | _ => cases hw

/-- A projection to named members is part of the record. -/
theorem partOf_project {record : Value} {select : List String} (h : select ≠ []) :
    PartOf (project record select) record := by
  refine ⟨?_, fun key v => lookup_project⟩
  unfold project
  rw [if_neg (by simpa using h)]
  rfl

/-- What is fetched are projections of stored records. -/
theorem mem_fetch {request : Request} {records : List Value}
    (h : store.fetch request = .ok records) {record : Value} (hr : record ∈ records) :
    ∃ stored ∈ store.records request.collection, record = project stored request.select := by
  unfold fetch at h
  cases hcol : store.collections.get? request.collection with
  | none =>
    rw [hcol] at h
    cases h
  | some all =>
    rw [hcol] at h
    simp only at h
    rw [← Except.ok.inj h] at hr
    obtain ⟨stored, hstored, rfl⟩ := List.mem_map.mp hr
    refine ⟨stored, ?_, rfl⟩
    unfold Store.records
    rw [hcol]
    cases hlimit : request.limit with
    | none =>
      rw [hlimit] at hstored
      exact List.mem_of_mem_filter hstored
    | some n =>
      rw [hlimit] at hstored
      exact List.mem_of_mem_filter (List.mem_of_mem_take hstored)

end Store

/-- A source answers from a store. -/
def Engine.Stored (e : Engine) : Prop :=
  ∀ source, e.source = some source → ∃ store : Store, source = store.source

section

variable {e : Engine} {store : Store}

theorem storedRecords_eq (h : e.source = some store.source) (name : String) :
    e.storedRecords name = store.records name := by
  have hquery : (store.source.query name).all = store.fetch { collection := name } := rfl
  have hall : (fun record : Value =>
      ([] : List Filter).all fun f => f.accepts record) = fun _ => true := rfl
  have hwhole : (fun record : Value => Store.project record []) = id := rfl
  unfold Engine.storedRecords Store.records
  rw [h]
  simp only [hquery]
  unfold Store.fetch
  cases store.collections.get? name with
  | none => rfl
  | some records => simp only [hall, hwhole, List.filter_true, List.map_id, Option.getD_some]

/-- A stored record is within reach of the stored keys. -/
theorem recordWithin_stored {keys : List String} (hkeys : ∀ key ∈ e.storedKeys, key ∈ keys)
    {name : String} {stored : Value} (h : stored ∈ e.storedRecords name) :
    RecordWithin e.catalog keys e.storedWeight name stored := by
  intro collection hcol
  have hname : name ∈ e.catalog.collectionNames :=
    List.mem_map.mpr ⟨_, Entries.mem_of_get? hcol, rfl⟩
  refine recordWithin_recordKeys ?_ (fun key hkey => hkeys key ?_) collection hcol
  · exact (Path.weight_le_weightItems h).trans (le_total (List.mem_map.mpr ⟨name, hname, rfl⟩))
  · exact List.mem_flatMap.mpr ⟨name, hname, List.mem_flatMap.mpr ⟨stored, h, hkey⟩⟩

/-- A query for related records goes to the source of the engine and selects members. -/
theorem wantedQuery_ok {source : Option RecordSource} {o : Options} {query : Query}
    (h : Kinds.wantedQuery source o = .ok query) :
    source = some query.source ∧ query.request.select ≠ [] := by
  unfold Kinds.wantedQuery at h
  split at h
  · cases h
  · cases h
  · rw [← Except.ok.inj h]
    refine ⟨rfl, ?_⟩
    show (if _ then _ else _ : List String) ≠ []
    split
    · next hid => exact fun hnil => by rw [hnil] at hid; cases hid
    · exact List.cons_ne_nil _ _

theorem plan_ofQuery {query : Query} {records followed : List Value}
    {gather gather' : List Value → Value} {name : String}
    (h : Plan.ofQuery query records gather = .follow name followed gather') :
    name = query.request.collection ∧ followed = records := by
  unfold Plan.ofQuery at h
  split at h
  · obtain ⟨rfl, rfl, -⟩ := Plan.follow.inj h
    exact ⟨rfl, rfl⟩
  · cases h

/-- What a query of the engine fetches are parts of stored records. -/
theorem fetched_stored (hstored : e.Stored) {o : Options} {query : Query} {filter : Filter}
    {limit : Option Nat} {fetched : List Value} (hquery : Kinds.wantedQuery e.source o = .ok query)
    (hfetch : query.source.fetch { (query.filter filter).request with limit := limit } =
      .ok fetched) :
    ∀ record ∈ fetched, ∃ stored ∈ e.storedRecords query.request.collection,
      PartOf record stored := by
  intro record hrecord
  obtain ⟨hsource, hselect⟩ := wantedQuery_ok hquery
  obtain ⟨store, hstore⟩ := hstored _ hsource
  rw [hstore] at hfetch
  obtain ⟨stored, hmem, rfl⟩ := Store.mem_fetch hfetch hrecord
  refine ⟨stored, ?_, Store.partOf_project hselect⟩
  rw [storedRecords_eq (hstore ▸ hsource)]
  exact hmem

/-- The records that a relation follows are parts of stored ones. -/
theorem plan_stored (hstored : e.Stored) {kind : FieldKind} {o : Options} {v : Value}
    {name : String} {records : List Value} {gather : List Value → Value}
    (h : Plan.ofKind kind e.source o v = .follow name records gather) :
    ∀ record ∈ records, ∃ stored ∈ e.storedRecords name, PartOf record stored := by
  cases kind with
  | record =>
    unfold Plan.ofKind Plan.ofId at h
    simp only at h
    split at h
    · cases h
    · split at h
      · cases h
      · next query hquery =>
        split at h
        · cases h
        · cases h
        · next record hfirst =>
          obtain ⟨rfl, rfl⟩ := plan_ofQuery h
          obtain ⟨fetched, hfetch, hhead⟩ := Except.map_eq_ok_iff.mp hfirst
          intro r hr
          rw [List.mem_singleton.mp hr]
          exact fetched_stored hstored hquery hfetch record (List.mem_of_head? hhead)
  | records =>
    unfold Plan.ofKind Plan.ofIds at h
    simp only at h
    split at h
    · cases h
    · split at h
      · cases h
      · next query hquery =>
        split at h
        · cases h
        · next fetched hfetch =>
          obtain ⟨rfl, rfl⟩ := plan_ofQuery h
          intro r hr
          obtain ⟨id, -, hfind⟩ := List.mem_filterMap.mp hr
          exact fetched_stored hstored hquery hfetch r (List.mem_of_find?_eq_some hfind)
  | _ => cases h

end

end ContentSchema
