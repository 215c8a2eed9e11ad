import ContentSchema.Proofs.Batches
import ContentSchema.Proofs.Reprocessing
import ContentSchema.Proofs.SameValues
import ContentSchema.Proofs.StoreQueries

/-!
# Unique values — a store in which no value of a field stands twice

Records are submitted in batches, and a batch is inserted when nothing is reported about it.  A
check that reports nothing changes nothing, so the values that are compared are the values that are
inserted: each differs from those of the other records of its batch and from all stored ones
(`Engine.submitAll_unique`).
-/

namespace ContentSchema

/-! ### Keys that no field has -/

/-- Storing below one key leaves the others. -/
theorem Path.get?_set {p : Path} {segment : String} {rest : List String}
    (hp : p.segments = segment :: rest) {key : String} (hne : segment ≠ key) (w v : Value) :
    (p.set w v).get? key = v.get? key := by
  cases hset : setSegments? w p.segments v with
  | none =>
    unfold set set?
    rw [hset]
    rfl
  | some v' =>
    rw [set_eq hset]
    rw [hp] at hset
    obtain ⟨x, hx⟩ := exists_store?_of_setSegments? hset
    cases v with
    | object ms =>
      rw [store?_object] at hx
      rw [← Option.some.inj hx]
      exact Entries.get?_insert_of_ne hne x ms
    | list items =>
      obtain ⟨i, -, -, rfl⟩ := store?_list_eq_some hx
      rfl
    | _ => cases hx

section

variable {c : PassContext} {collection : Collection} {key : String}

/-- What stands at a key survives whatever is stored below other keys. -/
theorem frame_get? (key : String) (value : Option Value) :
    Frame (fun s => s.record.get? key = value)
      (fun p => ∃ segment rest, p.segments = segment :: rest ∧ segment ≠ key) fun _ => True where
  resolve _ _ h := h
  store w hp h := by
    obtain ⟨segment, rest, hp, hne⟩ := hp
    exact (Path.get?_set hp hne w _).trans h
  report _ _ h := h

/-- The first pass adds no key that is not declared. -/
theorem sanitizeRecord_get?_none (hc : c.registry = .builtin)
    (hkey : collection.declares key = false) {s t : PassState} {accepted : Bool}
    (h : c.sanitizeRecord collection s = .ok accepted t) (hs : s.record.get? key = none) :
    t.record.get? key = none := by
  cases hobject : s.record.isObject with
  | false =>
    rw [PassContext.sanitizeRecord_other collection hobject] at h
    obtain ⟨-, rfl⟩ := EStateM.Result.ok.inj h
    exact hs
  | true =>
    obtain ⟨ms, hms⟩ := Value.isObject_iff.mp hobject
    rw [PassContext.sanitizeRecord_object collection hms] at h
    rw [hms] at hs
    refine Maintains.ok (P := fun s => s.record.get? key = none)
      (.bind (.forM fun x hx => ?_) fun _ => .pure true) ?_ h
    · obtain ⟨name, hname, hpath⟩ := PassContext.mem_fieldsFor hx
      refine .sanitize (frame_get? key none) hc _
        (fun q => ⟨⟨name, q.segments, ?_, ?_⟩, trivial⟩) _
      · rw [hpath]
        rfl
      · rintro rfl
        have hdeclared : collection.declares name = true := Entries.contains_of_mem hname
        rw [hkey] at hdeclared
        cases hdeclared
    · show Entries.get? key (prune .root (PassContext.ownKey collection) ms).1 = none
      unfold prune
      rw [Entries.get?_filter]
      split
      · exact hs
      · rfl

end

/-! ### A check that reports nothing -/

section

variable {c : PassContext} {collection : Collection} {fields : Schema} {d : Declaration}
  {path : Path} {s s' : PassState}

/-- The constraint on unique values holds at a field, if it is flagged. -/
def UniqueAt (c : PassContext) (record : Value) (path : Path) (d : Declaration) : Prop :=
  d.additional.unique = true → ∀ v, path.lookup record = some v →
    checkUnique (c.fieldAt record path d) v = .ok ()

theorem check_unique (hc : c.registry = .builtin)
    (hx : ∀ d, c.catalog.InUse fields d → d.additional.logic = none)
    {fuel : Nat} (hd : c.catalog.InUse fields d) (h : c.check fuel path d s = .ok () s') :
    Judges s s' False (0 < fuel → UniqueAt c s.record path d) := by
  refine ⟨fun he => ?_, False.elim⟩
  induction fuel generalizing path d s s' with
  | zero =>
    obtain ⟨-, rfl⟩ := EStateM.Result.ok.inj h
    exact ⟨he, rfl, fun hfuel => (Nat.lt_irrefl 0 hfuel).elim⟩
  | succ fuel ih =>
    obtain ⟨o, cache, -, hends⟩ := PassContext.check_ends hc h
    cases hends with
    | absent hvalue =>
      refine ⟨he, rfl, fun _ _ v hv => ?_⟩
      cases hvalue.symm.trans hv
    | reset _ hverdict => exact (verdict_ne_reset (hx d hd) _ hverdict).elim
    | @refuse v w message _ _ =>
      have hempty : (s.errors.insert path message).isEmpty = true := he
      rw [ErrorMap.isEmpty_insert] at hempty
      cases hempty
    | @accept v _ hvalue hverdict hmembers =>
      have hloop := Judges.forM (s := { s with cache := cache }) (r := s.record)
        (I := fun _ => True) (P := fun _ => False) (Q := fun _ => True)
        (fun _ _ => trivial)
        (fun m : Member => .check hc fuel (path ++ m.relative) m.declaration)
        (fun m hm t t' _ _ hrun _ => ⟨fun he => by
          obtain ⟨hempty, hrec, -⟩ := ih (hd.member hm) hrun he
          exact ⟨hempty, hrec, trivial⟩, False.elim⟩)
        rfl trivial hmembers (.refl s'.cache)
      obtain ⟨hempty, hrec, -⟩ := hloop.sound he
      refine ⟨hempty, hrec, fun _ hflag w hw => ?_⟩
      obtain rfl := Option.some.inj (hvalue.symm.trans hw)
      exact (judge_ok.mp ((verdict_spec c path d o s.record v).2.2 hverdict)).2.1 hflag

/-- A check of a record that reports nothing has changed nothing, and found the values of unique
fields nowhere else. -/
theorem checkRecord_unique (hc : c.registry = .builtin)
    (hx : ∀ d, c.catalog.InUse collection.fields d → d.additional.logic = none)
    (h : c.checkRecord collection s = .ok () s') (he : s'.errors.isEmpty = true) :
    s.errors.isEmpty = true ∧ s'.record = s.record ∧
      ∀ x ∈ c.fieldsFor collection s.record, UniqueAt c s.record x.1 x.2 := by
  rw [PassContext.checkRecord_run] at h
  have hloop := Judges.forM (r := s.record) (I := fun _ => True) (P := fun _ => False)
    (Q := fun x : Path × Declaration => UniqueAt c s.record x.1 x.2) (fun _ _ => trivial)
    (fun x : Path × Declaration => .check hc _ x.1 x.2)
    (fun x hmem t t' ht _ hrun _ => ⟨fun he => by
      obtain ⟨hempty, hrec, hunique⟩ :=
        (check_unique hc hx (PassContext.inUse_fieldsFor hmem) hrun).sound he
      rw [ht] at hunique
      exact ⟨hempty, hrec, hunique (Nat.succ_pos _)⟩, False.elim⟩)
    rfl trivial h (.refl s'.cache)
  exact hloop.sound he

end

/-! ### Columns -/

/-- The values that records hold at a key, null left out. -/
def column (field : String) (records : List Value) : List Value :=
  records.filterMap fun record => (record.get? field).filter (!·.isNull)

theorem column_append (field : String) (records others : List Value) :
    column field (records ++ others) = column field records ++ column field others :=
  List.filterMap_append

theorem mem_column {field : String} {records : List Value} {v : Value} :
    v ∈ column field records ↔ ∃ r ∈ records, r.get? field = some v ∧ v.isNull = false := by
  unfold column
  simp only [List.mem_filterMap, Option.filter_eq_some_iff, Bool.not_eq_eq_eq_not, Bool.not_true]

/-- No value of a field stands twice. -/
def UniqueColumn (field : String) (records : List Value) : Prop :=
  ∀ (i j : Nat) (v w : Value), i ≠ j → (column field records)[i]? = some v →
    (column field records)[j]? = some w → v.same w = false

/-- Either order of two values will do. -/
theorem uniqueColumn_iff {field : String} {records : List Value} :
    UniqueColumn field records ↔
      (column field records).Pairwise fun v w => v.same w = false := by
  unfold UniqueColumn
  rw [List.pairwise_iff_getElem]
  constructor
  · intro h i j hi hj hij
    exact h i j _ _ (by omega) (List.getElem?_eq_getElem hi) (List.getElem?_eq_getElem hj)
  · intro h i j v w hne hv hw
    obtain ⟨hi, rfl⟩ := List.getElem?_eq_some_iff.mp hv
    obtain ⟨hj, rfl⟩ := List.getElem?_eq_some_iff.mp hw
    rcases Nat.lt_or_gt_of_ne hne with hij | hij
    · exact h i j hi hj hij
    · rw [Value.same_comm]
      exact h j i hj hi hij

/-- A value that passes the constraint differs from those of the other records of the batch and
from all stored ones. -/
theorem checkUnique_ok {context : FieldContext} {v : Value} {store : Store} {name : String}
    (hdepth : context.path.depth = 1) (hv : v.isNull = false) (hid : context.recordId? = none)
    (hsource : context.source = some store.source) (hname : context.collection = some name)
    (h : checkUnique context v = .ok ()) :
    (∀ r ∈ context.batch, ∀ w, r.get? context.name = some w → w.same v = false) ∧
      ∀ r ∈ store.records name, ∀ w, r.get? context.name = some w → w.same v = false := by
  unfold checkUnique at h
  simp only [hv, hdepth, Bool.false_or, bne_self_eq_false, Bool.false_eq_true, if_false, hsource,
    hname, hid] at h
  cases hbatch : context.batch.any fun record => (record.get? context.name).any (·.same v) with
  | true =>
    simp only [hbatch, if_true] at h
    cases h
  | false =>
    obtain ⟨request, hrequest⟩ : ∃ request : Request, request =
      { collection := name, filters := [.eq context.name v] } := ⟨_, rfl⟩
    have hquery : (store.source.query name).whereEq context.name v =
        ⟨store.source, request⟩ := by
      rw [hrequest]
      rfl
    simp only [hbatch, Bool.false_eq_true, if_false, hquery] at h
    refine ⟨fun r hr w hw => ?_, fun r hr w hw => ?_⟩
    · have hnone := List.any_eq_false.mp hbatch r hr
      rw [hw] at hnone
      exact Bool.eq_false_iff.mpr hnone
    · cases hknown : store.collections.get? request.collection with
      | none =>
        rw [Store.exists_query_unknown hknown] at h
        cases h
      | some records =>
        rw [Store.exists_query (by rw [hknown]; rfl)] at h
        cases hempty : (store.found request).isEmpty with
        | false =>
          rw [hempty] at h
          cases h
        | true =>
          have hfound := List.filter_eq_nil_iff.mp (List.isEmpty_iff.mp hempty) r
            (by rw [hrequest]; exact hr)
          rw [hrequest] at hfound
          simp only [List.all_cons, List.all_nil, Bool.and_true, Filter.accepts, hw,
            Option.getD_some] at hfound
          exact Bool.eq_false_iff.mpr hfound

namespace Engine

/-! ### Batches -/

section

variable {c : PassContext} {collection : Collection} {final : OptionCache} {record : Value}
  {x : Sanitized} {y : Value × ErrorMap}

/-- Something that is no object is reported. -/
theorem FirstRun.accepted (h : FirstRun c collection final record x)
    (he : x.errors.isEmpty = true) : x.accepted = true := by
  obtain ⟨cache, cache', hrun, -⟩ := h
  cases hobject : record.isObject with
  | false =>
    rw [PassContext.sanitizeRecord_other collection hobject] at hrun
    obtain ⟨-, hstate⟩ := EStateM.Result.ok.inj hrun
    have herrors := congrArg PassState.errors hstate
    simp only at herrors
    rw [← herrors, ErrorMap.isEmpty_insert] at he
    cases he
  | true =>
    obtain ⟨ms, rfl⟩ := Value.isObject_iff.mp hobject
    rw [PassContext.sanitizeRecord_object collection rfl] at hrun
    obtain ⟨⟨⟩, t, -, hpure⟩ := bind_ok.mp hrun
    exact (EStateM.Result.ok.inj hpure).1.symm

/-- A record that nothing is reported about stays as the first pass left it, and the values of its
unique fields pass the constraint. -/
theorem SecondRun.unique (hc : c.registry = .builtin)
    (hlogic : ∀ d, c.catalog.InUse collection.fields d → d.additional.logic = none)
    {c' : PassContext} (hfirst : FirstRun c' collection final record x)
    (h : SecondRun c collection final x y) (he : y.2.isEmpty = true) :
    y.1 = x.record ∧ ∀ e ∈ c.fieldsFor collection x.record, UniqueAt c x.record e.1 e.2 := by
  obtain ⟨cache, cache', hrun, -⟩ := h
  have hgrown := (growing_secondPass hc collection x.accepted).ok hrun
  rw [hfirst.accepted (hgrown.errors he)] at hrun
  exact (checkRecord_unique hc hlogic hrun he).2

variable {e : Engine} {name : String} {field : String} {d : Declaration} {store : Store}
  {records : List Value}

/-- In a batch that nothing is reported about, a value of a unique field differs from those of the
other records and from all stored ones. -/
theorem processBatch_values (hreg : e.registry = .builtin) (hsource : e.source = some store.source)
    (hcol : e.catalog.collection? name = some collection)
    (hlogic : ∀ d, e.catalog.InUse collection.fields d → d.additional.logic = none)
    (hid : collection.declares Kinds.idField = false) (hd : (field, d) ∈ collection.fields)
    (hunique : d.additional.unique = true)
    (hrecords : ∀ record ∈ records, record.get? Kinds.idField = none) {errors : ErrorMap}
    (h : (e.processBatch name records .create).result = .ok errors)
    (he : errors.isEmpty = true) {i : Nat} {r v : Value}
    (hr : (e.processBatch name records .create).records[i]? = some r)
    (hv : r.get? field = some v) (hnull : v.isNull = false) :
    (∀ s ∈ (e.processBatch name records .create).records.eraseIdx i, ∀ w,
        s.get? field = some w → w.same v = false) ∧
      ∀ s ∈ store.records name, ∀ w, s.get? field = some w → w.same v = false := by
  obtain ⟨xs, ys, hxs, hys, hfirst, hsecond, hleft, hmerged⟩ :=
    processBatch_ok hreg hcol h rfl
  rw [hmerged, ErrorMap.isEmpty_mergeAll] at he
  have hclean : ∀ j x y, xs[j]? = some x → ys[j]? = some y → y.1 = x.record ∧
      ∀ f ∈ (e.passContext .create name ((xs.map (·.record)).eraseIdx j)).fieldsFor collection
        x.record, UniqueAt (e.passContext .create name ((xs.map (·.record)).eraseIdx j)) x.record
          f.1 f.2 := by
    intro j x y hx hy
    obtain ⟨hj, -⟩ := List.getElem?_eq_some_iff.mp hx
    exact SecondRun.unique hreg hlogic
      (hfirst j _ x (List.getElem?_eq_getElem (hxs ▸ hj)) hx) (hsecond j x y hx hy)
      (he.2 _ (List.mem_map_of_mem (List.mem_of_getElem? hy)))
  -- the records are those that were compared
  have hsame : ys.map (·.1) = xs.map (·.record) := by
    refine List.ext_getElem (by rw [List.length_map, List.length_map, hys, hxs]) fun j hj hj' => ?_
    rw [List.length_map] at hj hj'
    rw [List.getElem_map, List.getElem_map]
    exact (hclean j _ _ (List.getElem?_eq_getElem hj') (List.getElem?_eq_getElem hj)).1
  rw [hleft, hsame] at hr ⊢
  rw [List.getElem?_map, Option.map_eq_some_iff] at hr
  obtain ⟨x, hx, rfl⟩ := hr
  obtain ⟨hi, -⟩ := List.getElem?_eq_some_iff.mp hx
  obtain ⟨-, hat⟩ := hclean i x _ hx (List.getElem?_eq_getElem (hys.trans hxs.symm ▸ hi))
  have hnone : x.record.get? Kinds.idField = none := by
    have hrecord := List.getElem?_eq_getElem (hxs ▸ hi : i < records.length)
    obtain ⟨cache, cache', hrun, -⟩ := hfirst i _ x hrecord hx
    exact sanitizeRecord_get?_none hreg hid hrun (hrecords _ (List.mem_of_getElem? hrecord))
  refine checkUnique_ok rfl hnull ?_ hsource rfl
    (hat _ (PassContext.mem_fieldsFor_create rfl hd _) hunique v (lookup_field hv))
  show (x.record.get? Kinds.idField).filter (!·.isNull) = none
  rw [hnone]
  rfl

/-- Inserting a batch that nothing is reported about leaves the values of a unique field apart. -/
theorem processBatch_unique (hreg : e.registry = .builtin) (hsource : e.source = some store.source)
    (hcol : e.catalog.collection? name = some collection)
    (hlogic : ∀ d, e.catalog.InUse collection.fields d → d.additional.logic = none)
    (hid : collection.declares Kinds.idField = false) (hd : (field, d) ∈ collection.fields)
    (hunique : d.additional.unique = true)
    (hrecords : ∀ record ∈ records, record.get? Kinds.idField = none) {errors : ErrorMap}
    (h : (e.processBatch name records .create).result = .ok errors)
    (he : errors.isEmpty = true) (hstore : UniqueColumn field (store.records name)) :
    UniqueColumn field
      (store.records name ++ (e.processBatch name records .create).records) := by
  obtain ⟨left, hleft⟩ : ∃ left, (e.processBatch name records .create).records = left := ⟨_, rfl⟩
  have hvalues : ∀ {i r v}, left[i]? = some r → r.get? field = some v → v.isNull = false →
      (∀ s ∈ left.eraseIdx i, ∀ w, s.get? field = some w → w.same v = false) ∧
        ∀ s ∈ store.records name, ∀ w, s.get? field = some w → w.same v = false := by
    intro i r v hr hv hnull
    have hpair := processBatch_values hreg hsource hcol hlogic hid hd hunique hrecords h he
      (i := i) (r := r) (v := v)
    rw [hleft] at hpair
    exact hpair hr hv hnull
  rw [hleft]
  rw [uniqueColumn_iff] at hstore ⊢
  rw [column_append]
  refine List.pairwise_append.mpr ⟨hstore, ?_, fun w hw v hv => ?_⟩
  · unfold column
    refine List.pairwise_filterMap.mpr (List.pairwise_iff_getElem.mpr fun i j hi hj hij => ?_)
    intro w hw v hv
    obtain ⟨hw, -⟩ := Option.filter_eq_some_iff.mp hw
    obtain ⟨hv, hnull⟩ := Option.filter_eq_some_iff.mp hv
    refine (hvalues (List.getElem?_eq_getElem hj) hv (by simpa using hnull)).1 left[i] ?_ w hw
    exact List.mem_eraseIdx_iff_getElem.mpr ⟨i, hi, by omega, rfl⟩
  · obtain ⟨s, hs, hw, -⟩ := mem_column.mp hw
    obtain ⟨r, hr, hv, hnull⟩ := mem_column.mp hv
    obtain ⟨i, hi, rfl⟩ := List.getElem_of_mem hr
    exact (hvalues (List.getElem?_eq_getElem hi) hv hnull).2 s hs w hw

end

/-! ### Runs -/

/-- Process new records against a store, and insert what comes of them when nothing is reported. -/
def submit (e : Engine) (name : String) (store : Store) (records : List Value) : Engine × Store :=
  let processed := (e.withSource store.source).processBatch name records .create
  match processed.result with
  | .ok errors =>
    (processed.engine, if errors.isEmpty then store.insertAll name processed.records else store)
  | .error _ => (processed.engine, store)

/-- Submit batches one after the other. -/
def submitAll (e : Engine) (name : String) (store : Store) (batches : List (List Value)) :
    Engine × Store :=
  batches.foldl (fun state records => state.1.submit name state.2 records) (e, store)

section

variable {e : Engine} {name : String} {collection : Collection} {field : String}
  {d : Declaration} {store : Store}

/-- Submitting changes neither the kinds nor the catalog. -/
theorem submit_engine (e : Engine) (name : String) (store : Store) (records : List Value) :
    (e.submit name store records).1.registry = e.registry ∧
      (e.submit name store records).1.catalog = e.catalog := by
  have hengine := engine_processBatch (e := e.withSource store.source) name records .create
  unfold submit
  simp only
  split <;> (rw [hengine]; exact ⟨rfl, rfl⟩)

/-- One batch leaves the values of a unique field apart. -/
theorem submit_unique (hreg : e.registry = .builtin)
    (hcol : e.catalog.collection? name = some collection)
    (hlogic : ∀ d, e.catalog.InUse collection.fields d → d.additional.logic = none)
    (hid : collection.declares Kinds.idField = false) (hd : (field, d) ∈ collection.fields)
    (hunique : d.additional.unique = true) {records : List Value}
    (hrecords : ∀ record ∈ records, record.get? Kinds.idField = none)
    (hstore : UniqueColumn field (store.records name)) :
    UniqueColumn field ((e.submit name store records).2.records name) := by
  unfold submit
  simp only
  split
  · next errors hresult =>
    split
    · next he =>
      rw [Store.records_insertAll]
      exact processBatch_unique (e := e.withSource store.source) hreg rfl hcol hlogic hid hd
        hunique hrecords hresult he hstore
    · exact hstore
  · exact hstore

/-- However many batches are submitted, no two stored values of a unique field are the same. -/
theorem submitAll_unique (hreg : e.registry = .builtin)
    (hcol : e.catalog.collection? name = some collection)
    (hlogic : ∀ d, e.catalog.InUse collection.fields d → d.additional.logic = none)
    (hid : collection.declares Kinds.idField = false) (hd : (field, d) ∈ collection.fields)
    (hunique : d.additional.unique = true)
    (hstore : UniqueColumn field (store.records name)) {batches : List (List Value)}
    (hbatches : ∀ records ∈ batches, ∀ record ∈ records, record.get? Kinds.idField = none) :
    UniqueColumn field ((e.submitAll name store batches).2.records name) := by
  induction batches generalizing e store with
  | nil => exact hstore
  | cons records batches ih =>
    obtain ⟨hrecords, hbatches⟩ := List.forall_mem_cons.mp hbatches
    obtain ⟨hregistry, hcatalog⟩ := submit_engine e name store records
    refine ih (e := (e.submit name store records).1) (hregistry.trans hreg) (hcatalog ▸ hcol)
      (hcatalog ▸ hlogic) ?_ hbatches
    exact submit_unique hreg hcol hlogic hid hd hunique hrecords hstore

end

end Engine

/-! ### An instance -/

/-- Users, told apart by their names. -/
def users : Collection where
  name := "users"
  fields := [("name", (Declaration.ofKind .text).unique)]

def user (name : String) : Value := .object [("name", .string name)]

def usersCatalog : Catalog := ⟨[("users", users)], []⟩

/-- The first batch is inserted, the second repeats a stored name and the third one of its own. -/
def userBatches : List (List Value) :=
  [[user "Bo ", user "Cy", .object []], [user "Di", user " Bo"], [user "Ed", user "Ed"]]

theorem inUse_users {d : Declaration} (h : usersCatalog.InUse users.fields d) :
    d = (Declaration.ofKind .text).unique := by
  replace h := h.inPlay
  induction h with
  | field h => exact (Prod.mk.inj (List.mem_singleton.mp h)).2
  | blockField hb => cases hb
  | subfield _ h ih =>
    rw [ih] at h
    cases h
  | variant _ h _ ih =>
    rw [ih] at h
    cases h

theorem submitAll_unique_users :
    let store : Store := ⟨[("users", [user "Al"])]⟩
    column "name" (((Engine.ofCatalog usersCatalog).submitAll "users" store
        userBatches).2.records "users") =
          [.string "Al", .string "Bo", .string "Cy", .string ""] ∧
      UniqueColumn "name" (((Engine.ofCatalog usersCatalog).submitAll "users" store
        userBatches).2.records "users") := by
  intro store
  have hcol : usersCatalog.collection? "users" = some users := rfl
  refine ⟨by decide +kernel, Engine.submitAll_unique rfl hcol (fun d hd => ?_) rfl
    List.mem_cons_self rfl (uniqueColumn_iff.mpr (List.pairwise_singleton _ _)) ?_⟩
  · rw [inUse_users hd]
    rfl
  · decide +kernel

end ContentSchema
