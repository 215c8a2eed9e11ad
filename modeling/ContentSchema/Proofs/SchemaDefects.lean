import ContentSchema.Proofs.CacheCoherence
import ContentSchema.Proofs.Dependencies

/-!
# Schema defects — errors that no record causes or avoids

Options are resolved through the cache wherever a pass comes by, but a declaration that resolves
resolves with everything nested in it.  As long as the cache tells the declarations of a collection
apart, a field that resolves therefore never ends a pass, and the first one that does not ends the
first pass, whatever the record holds (`Engine.processRecord_defect`).  Declarations that share a
key can hide a defect from one record and show it to the next
(`Engine.processRecord_hides_defect`).
-/

namespace ContentSchema

/-! ### Resolving, step by step -/

namespace Registry

variable {r : Registry}

theorem resolve_ok_iff {name : String} {d : Declaration} {o : Options} :
    r.resolve name d = .ok o ↔
      (∃ definition, r.get d.kind = .ok definition ∧
        definition.resolveValues name d.options = .ok o.values) ∧
      r.resolveSchema d.subfields = .ok o.subfields ∧
      r.resolveVariants d.variants = .ok o.variants := by
  obtain ⟨kind, options, subfields, variants, additional⟩ := d
  obtain ⟨values, fields, choices⟩ := o
  rw [resolve]
  cases hget : r.get kind with
  | error e => simp
  | ok definition =>
    cases hvalues : definition.resolveValues name options with
    | error e => simp [hvalues]
    | ok values' =>
      cases hfields : r.resolveSchema subfields with
      | error e => simp [hvalues]
      | ok fields' =>
        cases hchoices : r.resolveVariants variants with
        | error e => simp [hvalues]
        | ok choices' => simp [hvalues]

theorem resolveSchema_cons_iff {name : String} {d : Declaration} {rest : Schema}
    {os : Entries Options} :
    r.resolveSchema ((name, d) :: rest) = .ok os ↔
      ∃ o others, r.resolve name d = .ok o ∧ r.resolveSchema rest = .ok others ∧
        (name, o) :: others = os := by
  rw [resolveSchema]
  cases hd : r.resolve name d with
  | error e => simp
  | ok o =>
    cases hrest : r.resolveSchema rest with
    | error e => simp
    | ok others => simp

theorem resolveVariants_cons_iff {key : String} {schema : Schema} {rest : List (String × Schema)}
    {os : Entries (Entries Options)} :
    r.resolveVariants ((key, schema) :: rest) = .ok os ↔
      ∃ fields others, r.resolveSchema schema = .ok fields ∧ r.resolveVariants rest = .ok others ∧
        (key, fields) :: others = os := by
  rw [resolveVariants]
  cases hschema : r.resolveSchema schema with
  | error e => simp
  | ok fields =>
    cases hrest : r.resolveVariants rest with
    | error e => simp
    | ok others => simp

/-! ### What resolves with a declaration -/

theorem resolve_of_resolveSchema {schema : Schema} {os : List (String × Options)}
    (h : r.resolveSchema schema = .ok os) : ∀ f ∈ schema, ∃ o, r.resolve f.1 f.2 = .ok o := by
  induction schema generalizing os with
  | nil => exact fun _ hf => nomatch hf
  | cons f schema ih =>
    obtain ⟨o, others, hd, hrest, -⟩ := resolveSchema_cons_iff.mp h
    exact List.forall_mem_cons.mpr ⟨⟨o, hd⟩, ih hrest⟩

theorem resolveSchema_of_resolveVariants {variants : List (String × Schema)}
    {os : List (String × List (String × Options))} (h : r.resolveVariants variants = .ok os) :
    ∀ e ∈ variants, ∃ o, r.resolveSchema e.2 = .ok o := by
  induction variants generalizing os with
  | nil => exact fun _ he => nomatch he
  | cons e variants ih =>
    obtain ⟨fields, others, hschema, hrest, -⟩ := resolveVariants_cons_iff.mp h
    exact List.forall_mem_cons.mpr ⟨⟨fields, hschema⟩, ih hrest⟩

/-- A declaration resolves with what is nested in it. -/
theorem resolve_nested {name : String} {d : Declaration} {o : Options}
    (h : r.resolve name d = .ok o) :
    (∀ f ∈ d.subfields, ∃ o, r.resolve f.1 f.2 = .ok o) ∧
      ∀ e ∈ d.variants, ∀ f ∈ e.2, ∃ o, r.resolve f.1 f.2 = .ok o := by
  obtain ⟨-, hsubfields, hvariants⟩ := resolve_ok_iff.mp h
  refine ⟨resolve_of_resolveSchema hsubfields, fun e he => ?_⟩
  obtain ⟨os, hos⟩ := resolveSchema_of_resolveVariants hvariants e he
  exact resolve_of_resolveSchema hos

end Registry

/-- The catalog has no say in the members of any value but those of blocks. -/
theorem Catalog.members_of_ne_blocks (c : Catalog) {d : Declaration} (hd : d.kind ≠ .blocks)
    (v : Value) : c.members d v = Catalog.empty.members d v := by
  unfold Catalog.members
  cases hk : d.kind with
  | blocks => exact (hd hk).elim
  | _ => rfl

/-- A declaration resolves with the members of its values, under whatever names. -/
theorem Registry.resolve_member {d : Declaration} {name : String} {o : Options}
    (h : Registry.builtin.resolve name d = .ok o) {v : Value} {m : Member}
    (hm : m ∈ Catalog.empty.members d v) (name' : String) :
    ∃ o, Registry.builtin.resolve name' m.declaration = .ok o := by
  have hschema : ∀ {schema : Schema},
      (∀ f ∈ schema, ∃ o, Registry.builtin.resolve f.1 f.2 = .ok o) →
      ∀ m ∈ Member.ofSchema .root schema,
        ∃ o, Registry.builtin.resolve name' m.declaration = .ok o := by
    intro schema hresolves m hm
    obtain ⟨key, hkey, -⟩ := Member.mem_ofSchema hm
    obtain ⟨o, ho⟩ := hresolves _ hkey
    exact ⟨o, resolve_name ho name'⟩
  obtain ⟨hsubfields, hvariants⟩ := Registry.resolve_nested h
  exact Catalog.forall_members (c := Catalog.empty)
    (M := fun m => ∃ o, Registry.builtin.resolve name' m.declaration = .ok o)
    (fun _ _ h => h) (fun _ _ h => nomatch h) (hschema hsubfields)
    (fun e he => hschema (hvariants e he)) v m hm

/-! ### Runs that end well -/

section

variable {α β : Type} {I : OptionCache → Prop}

/-- From a state whose cache satisfies `I` the run ends well, and with such a cache. -/
def Succeeds (I : OptionCache → Prop) (m : PassM α) : Prop :=
  ∀ s : PassState, I s.cache → ∃ a t, m s = .ok a t ∧ I t.cache

namespace Succeeds

theorem pure (a : α) : Succeeds I (pure a) := fun s hs => ⟨a, s, rfl, hs⟩

theorem get : Succeeds I (get : PassM PassState) := fun s hs => ⟨s, s, rfl, hs⟩

theorem setField (path : Path) (v : Value) : Succeeds I (setField path v) :=
  fun _ hs => ⟨(), _, rfl, hs⟩

theorem reportProblem (problem : Problem) : Succeeds I (reportProblem problem) :=
  fun _ hs => ⟨(), _, rfl, hs⟩

theorem bind {m : PassM α} {f : α → PassM β} (hm : Succeeds I m) (hf : ∀ a, Succeeds I (f a)) :
    Succeeds I (m >>= f) := by
  intro s hs
  obtain ⟨a, t, hrun, ht⟩ := hm s hs
  rw [bind_run hrun]
  exact hf a t ht

theorem forM {f : α → PassM Unit} {xs : List α} (hf : ∀ x ∈ xs, Succeeds I (f x)) :
    Succeeds I (xs.forM f) := by
  induction xs with
  | nil => exact pure ()
  | cons x xs ih =>
    obtain ⟨hx, hxs⟩ := List.forall_mem_cons.mp hf
    exact bind hx fun _ => ih hxs

variable {c : PassContext}

theorem shapeField (path : Path) (d : Declaration) (o : Options) :
    Succeeds I (c.shapeField path d o) := by
  unfold PassContext.shapeField
  refine bind get fun s => ?_
  split
  · exact pure _
  · exact bind (setField _ _) fun _ => bind (forM fun _ _ => reportProblem _) fun _ => pure _

theorem sanitizePresent {descend : Path → Declaration → PassM Unit} {path : Path} {d : Declaration}
    (hdescend : ∀ v, ∀ m ∈ c.catalog.members d v,
      Succeeds I (descend (path ++ m.relative) m.declaration))
    (definition : Definition) (o : Options) (v : Value) :
    Succeeds I (c.sanitizePresent descend path d definition o v) := by
  unfold PassContext.sanitizePresent
  refine bind get fun s => bind (setField _ _) fun _ => ?_
  split
  · refine bind (shapeField _ _ _) fun valid => ?_
    split
    · exact bind get fun s => forM (hdescend _)
    · exact setField _ _
  · exact pure _

variable {D : Declaration → Prop} (hc : c.registry = .builtin)
  (hnested : ∀ d, D d → ∀ v, ∀ m ∈ c.catalog.members d v, D m.declaration)
  (hanswers : ∀ d, D d → ∀ cache : OptionCache, I cache → ∀ name,
    ∃ o cache', cache.resolve .builtin name d = (.ok o, cache') ∧ I cache')

include hc hnested hanswers

/-- The first pass ends well where options are answered. -/
theorem sanitize (fuel : Nat) (path : Path) {d : Declaration} (hd : D d) :
    Succeeds I (c.sanitize fuel path d) := by
  induction fuel generalizing path d with
  | zero => exact pure ()
  | succ fuel ih =>
    intro s hs
    obtain ⟨o, cache, hresolve, hcache⟩ := hanswers d hd s.cache hs path.name
    have hpresent : ∀ v, Succeeds I
        (c.sanitizePresent (c.sanitize fuel) path d d.kind.definition o v) := fun v =>
      sanitizePresent (fun w m hm => ih (path ++ m.relative) (hnested d hd w m hm)) _ o v
    rw [PassContext.sanitize_run hc, hresolve]
    simp only
    split
    · exact hpresent _ _ hcache
    · split
      · exact hpresent _ _ hcache
      · exact ⟨(), _, rfl, hcache⟩

/-- The second pass ends well where, besides, no verdict stops it. -/
theorem check (hgoes : ∀ d, D d → ∀ path o record v e, c.verdict path d o record v ≠ .stop e)
    (fuel : Nat) (path : Path) {d : Declaration} (hd : D d) :
    Succeeds I (c.check fuel path d) := by
  induction fuel generalizing path d with
  | zero => exact pure ()
  | succ fuel ih =>
    intro s hs
    obtain ⟨o, cache, hresolve, hcache⟩ := hanswers d hd s.cache hs path.name
    rw [PassContext.check_run hc, hresolve]
    simp only
    split
    · exact ⟨(), _, rfl, hcache⟩
    · split
      · next hverdict => exact (hgoes d hd _ _ _ _ _ hverdict).elim
      · exact ⟨(), _, rfl, hcache⟩
      · exact ⟨(), _, rfl, hcache⟩
      · split
        · exact forM (fun m hm => ih (path ++ m.relative) (hnested d hd _ m hm)) _ hcache
        · exact ⟨(), _, rfl, hcache⟩

end Succeeds

/-- A loop ends where a step fails that follows steps that end well. -/
theorem forM_stops {f : α → PassM Unit} {before after : List α} {x : α} {e : EngineError}
    (hbefore : ∀ y ∈ before, Succeeds I (f y))
    (hx : ∀ s : PassState, I s.cache → ∃ t, f x s = .error e t) {s : PassState} (hs : I s.cache) :
    ∃ t, (before ++ x :: after).forM f s = .error e t := by
  induction before generalizing s with
  | nil =>
    obtain ⟨t, ht⟩ := hx s hs
    exact ⟨t, bind_run_error ht⟩
  | cons y before ih =>
    obtain ⟨hy, hrest⟩ := List.forall_mem_cons.mp hbefore
    obtain ⟨⟨⟩, t, hrun, ht⟩ := hy s hs
    rw [List.cons_append, forM_cons, bind_run hrun]
    exact ih hrest ht

end

/-! ### Records -/

/-- A declaration among the fields of a collection or nested in one of them. -/
def Collection.Contains (collection : Collection) : Declaration → Prop :=
  Catalog.empty.InPlay collection.fields

/-- What is wrong with the options of a declaration that is used as the property `name`. -/
def Registry.defect? (r : Registry) (name : String) (d : Declaration) : Option SchemaError :=
  match r.resolve name d with
  | .ok _ => none
  | .error defect => some defect

theorem Registry.defect?_eq_none_iff {r : Registry} {name : String} {d : Declaration} :
    r.defect? name d = none ↔ ∃ o, r.resolve name d = .ok o := by
  unfold defect?
  cases r.resolve name d <;> simp

theorem Registry.defect?_eq_some_iff {r : Registry} {name : String} {d : Declaration}
    {defect : SchemaError} : r.defect? name d = some defect ↔ r.resolve name d = .error defect := by
  unfold defect?
  cases r.resolve name d <;> simp

/-- The first defect among the fields of a collection, in the order of their declaration. -/
def Collection.defect? (collection : Collection) : Option SchemaError :=
  collection.fields.findSome? fun f => Registry.builtin.defect? f.1 f.2

/-- Nothing but its options can end a pass at a declaration: it has no conditions and no validators
of its own, and its members do not depend on a catalog. -/
structure Declaration.Quiet (d : Declaration) : Prop where
  kind : d.kind ≠ .blocks
  logic : d.additional.logic = none
  validators : d.additional.validators = []

/-- The pass goes on from a quiet declaration. -/
theorem Declaration.Quiet.verdict_ne {d : Declaration} (hd : d.Quiet) {c : PassContext}
    (path : Path) (o : Options) (record v : Value) (e : EngineError) :
    c.verdict path d o record v ≠ .stop e := by
  intro h
  rcases verdict_stop h with ⟨l, -, hl, -, -⟩ | ⟨l, hl, -, -⟩
  · rw [hd.logic] at hl
    cases hl
  · rw [hd.validators] at hl
    cases hl

section

variable {c : PassContext} {collection : Collection} {s : PassState}

/-- All fields take part unless a record is updated. -/
theorem PassContext.fieldsFor_of_ne_update (hop : c.operation ≠ .update) (record : Value) :
    c.fieldsFor collection record =
      collection.fields.map fun (name, d) => (Path.root.child name, d) := by
  refine List.filter_eq_self.mpr fun x _ => ?_
  simp [hop]

/-- The first pass ends at a declaration whose options are refused. -/
theorem PassContext.sanitize_defect (hc : c.registry = .builtin) {fuel : Nat} {path : Path}
    {d : Declaration} {defect : SchemaError}
    (h : (s.cache.resolve .builtin path.name d).1 = .error defect) :
    ∃ t, c.sanitize (fuel + 1) path d s = .error (.schema defect) t := by
  obtain ⟨⟨result, cache⟩, hp⟩ : ∃ p, s.cache.resolve .builtin path.name d = p := ⟨_, rfl⟩
  rw [hp] at h
  obtain rfl : result = .error defect := h
  rw [sanitize_run hc, hp]
  exact ⟨_, rfl⟩

variable (hc : c.registry = .builtin)
  (hquiet : ∀ d, collection.Contains d → d.Quiet)
  (hkeys : OptionCache.KeysApart .builtin (collection.Contains))

include hc hquiet hkeys

/-- Both passes end well at a declaration that resolves. -/
theorem succeeds_of_resolve {d : Declaration} (hd : collection.Contains d)
    {name : String} {o : Options} (ho : Registry.builtin.resolve name d = .ok o) (fuel : Nat)
    (path : Path) :
    Succeeds (·.Coherent .builtin collection.Contains) (c.sanitize fuel path d) ∧
      Succeeds (·.Coherent .builtin collection.Contains) (c.check fuel path d) := by
  let D := fun d => collection.Contains d ∧ ∃ name o, Registry.builtin.resolve name d = .ok o
  have hnested : ∀ d, D d → ∀ v, ∀ m ∈ c.catalog.members d v, D m.declaration := by
    rintro d ⟨hd, name, o, ho⟩ v m hm
    rw [c.catalog.members_of_ne_blocks (hquiet d hd).kind] at hm
    exact ⟨hd.member hm, name, Registry.resolve_member ho hm name⟩
  have hanswers : ∀ d, D d → ∀ cache : OptionCache, cache.Coherent .builtin collection.Contains →
      ∀ name, ∃ o cache', cache.resolve .builtin name d = (.ok o, cache') ∧
        cache'.Coherent .builtin collection.Contains := by
    rintro d ⟨hd, first, o, ho⟩ cache hcache name
    obtain ⟨hanswer, hnext⟩ := hcache.resolve hkeys hd name
    rw [resolve_name ho name] at hanswer
    exact ⟨o, _, Prod.ext hanswer rfl, hnext⟩
  have hgoes : ∀ d, D d → ∀ path o record v e, c.verdict path d o record v ≠ .stop e :=
    fun d hd => (hquiet d hd.1).verdict_ne
  exact ⟨.sanitize hc hnested hanswers fuel path ⟨hd, name, o, ho⟩,
    .check hc hnested hanswers hgoes fuel path ⟨hd, name, o, ho⟩⟩

/-- Where every field resolves, both passes end well. -/
theorem passes_succeed
    (hresolves : ∀ f ∈ collection.fields, ∃ o, Registry.builtin.resolve f.1 f.2 = .ok o) :
    Succeeds (·.Coherent .builtin collection.Contains) (c.sanitizeRecord collection) ∧
      Succeeds (·.Coherent .builtin collection.Contains) (c.checkRecord collection) := by
  have hfields : ∀ r, ∀ x ∈ c.fieldsFor collection r, ∀ fuel,
      Succeeds (·.Coherent .builtin collection.Contains) (c.sanitize fuel x.1 x.2) ∧
        Succeeds (·.Coherent .builtin collection.Contains) (c.check fuel x.1 x.2) := by
    intro r x hx fuel
    obtain ⟨name, hname, -⟩ := PassContext.mem_fieldsFor hx
    obtain ⟨o, ho⟩ := hresolves _ hname
    exact succeeds_of_resolve hc hquiet hkeys (.field hname) ho fuel x.1
  constructor
  · intro s hs
    cases hobject : s.record.isObject with
    | false =>
      rw [PassContext.sanitizeRecord_other collection hobject]
      exact ⟨false, _, rfl, hs⟩
    | true =>
      obtain ⟨ms, hms⟩ := Value.isObject_iff.mp hobject
      rw [PassContext.sanitizeRecord_object collection hms]
      exact Succeeds.bind (.forM fun x hx => (hfields _ x hx _).1) (fun _ => .pure true) _ hs
  · unfold PassContext.checkRecord
    exact .bind .get fun s => .forM fun x hx => (hfields _ x hx _).2

/-- The first pass over an object ends at the first field that does not resolve. -/
theorem sanitizeRecord_stops (hop : c.operation ≠ .update) {before after : Schema} {name : String}
    {d : Declaration} {defect : SchemaError}
    (hfields : collection.fields = before ++ (name, d) :: after)
    (hbefore : ∀ f ∈ before, ∃ o, Registry.builtin.resolve f.1 f.2 = .ok o)
    (hd : Registry.builtin.resolve name d = .error defect) (hobject : s.record.isObject = true)
    (hs : s.cache.Coherent .builtin collection.Contains) :
    ∃ t, c.sanitizeRecord collection s = .error (.schema defect) t := by
  have hmem : ∀ f ∈ before ++ [(name, d)], collection.Contains f.2 := by
    intro f hf
    have hf : (f.1, f.2) ∈ collection.fields := by
      rw [hfields]
      simp only [List.mem_append, List.mem_cons] at hf ⊢
      tauto
    exact .field hf
  obtain ⟨ms, hms⟩ := Value.isObject_iff.mp hobject
  obtain ⟨kept, hkept⟩ : ∃ kept, prune .root (PassContext.ownKey collection) ms = kept := ⟨_, rfl⟩
  obtain ⟨u, hu⟩ : ∃ u : PassState, u = ⟨.object kept.1, s.errors.report kept.2, s.cache⟩ :=
    ⟨_, rfl⟩
  have hloop : ∃ t, (c.fieldsFor collection (.object kept.1)).forM
      (fun x => c.sanitize (PassContext.fuelAt (.object ms) x.1) x.1 x.2) u =
        .error (.schema defect) t := by
    rw [PassContext.fieldsFor_of_ne_update hop, hfields, List.map_append, List.map_cons]
    refine forM_stops (I := (·.Coherent .builtin collection.Contains)) (fun x hx => ?_)
      (fun t ht => ?_) (hu ▸ hs)
    · obtain ⟨f, hf, rfl⟩ := List.mem_map.mp hx
      obtain ⟨o, ho⟩ := hbefore f hf
      exact (succeeds_of_resolve hc hquiet hkeys (hmem f (List.mem_append_left _ hf)) ho _ _).1
    · have hanswer := (ht.resolve hkeys (hmem (name, d) (by simp)) name).1
      rw [hd] at hanswer
      exact PassContext.sanitize_defect hc hanswer
  obtain ⟨t, ht⟩ := hloop
  rw [PassContext.sanitizeRecord_object collection hms]
  simp only [hkept, ← hu]
  exact ⟨t, bind_run_error ht⟩

end

namespace Engine

variable {e : Engine} {name : String} {collection : Collection}

/-- A record of fields that resolve is processed to the end. -/
theorem processRecord_succeeds (hreg : e.registry = .builtin)
    (hcol : e.catalog.collection? name = some collection)
    (hquiet : ∀ d, collection.Contains d → d.Quiet)
    (hkeys : OptionCache.KeysApart .builtin collection.Contains)
    (hcache : e.cache.Coherent .builtin collection.Contains)
    (hresolves : ∀ f ∈ collection.fields, ∃ o, Registry.builtin.resolve f.1 f.2 = .ok o)
    (record : Value) (operation : Operation) (batch : List Value) :
    ∃ errors, (e.processRecord name record operation batch).result = .ok errors := by
  obtain ⟨hfirst, hsecond⟩ := passes_succeed (c := e.passContext operation name batch)
    hreg hquiet hkeys hresolves
  have hpass : Succeeds (·.Coherent .builtin collection.Contains) (do
      if ← (e.passContext operation name batch).sanitizeRecord collection then
        (e.passContext operation name batch).checkRecord collection) := by
    refine hfirst.bind fun accepted => ?_
    cases accepted with
    | true => exact hsecond
    | false => exact .pure ()
  obtain ⟨a, t, hrun, -⟩ := hpass ⟨record, .empty, e.cache⟩ hcache
  rw [processRecord_run hcol]
  unfold processed runPass
  simp only [hrun]
  exact ⟨t.errors, rfl⟩

/-- An object is processed up to the first field that does not resolve. -/
theorem processRecord_fails (hreg : e.registry = .builtin)
    (hcol : e.catalog.collection? name = some collection)
    (hquiet : ∀ d, collection.Contains d → d.Quiet)
    (hkeys : OptionCache.KeysApart .builtin collection.Contains)
    (hcache : e.cache.Coherent .builtin collection.Contains) {record : Value}
    (hobject : record.isObject = true) {operation : Operation} (hop : operation ≠ .update)
    (batch : List Value) {defect : SchemaError} (hdefect : collection.defect? = some defect) :
    (e.processRecord name record operation batch).result = .error (.schema defect) := by
  obtain ⟨before, ⟨field, d⟩, after, hfields, hd, hbefore⟩ :=
    List.findSome?_eq_some_iff.mp hdefect
  obtain ⟨t, hfirst⟩ := sanitizeRecord_stops (c := e.passContext operation name batch)
    (s := ⟨record, .empty, e.cache⟩) hreg hquiet hkeys hop hfields
    (fun f hf => Registry.defect?_eq_none_iff.mp (hbefore f hf))
    (Registry.defect?_eq_some_iff.mp hd) hobject hcache
  rw [processRecord_run hcol]
  unfold processed runPass
  simp only [bind_run_error hfirst]
  rfl

/-- Without blocks, conditions and validators of its own, and with a cache that tells its
declarations apart, processing an object fails exactly when a field of the collection does not
resolve, whatever the object holds, and then with the defect of the first such field. -/
theorem processRecord_defect (hreg : e.registry = .builtin)
    (hcol : e.catalog.collection? name = some collection)
    (hquiet : ∀ d, collection.Contains d → d.Quiet)
    (hkeys : OptionCache.KeysApart .builtin collection.Contains)
    (hcache : e.cache.Coherent .builtin collection.Contains) {record : Value}
    (hobject : record.isObject = true) {operation : Operation} (hop : operation ≠ .update)
    (batch : List Value) :
    ((∃ err, (e.processRecord name record operation batch).result = .error err) ↔
        ∃ f ∈ collection.fields, ∃ defect, Registry.builtin.resolve f.1 f.2 = .error defect) ∧
      ∀ err, (e.processRecord name record operation batch).result = .error err ↔
        ∃ defect, collection.defect? = some defect ∧ err = .schema defect := by
  cases hdefect : collection.defect? with
  | none =>
    have hresolves : ∀ f ∈ collection.fields, ∃ o, Registry.builtin.resolve f.1 f.2 = .ok o :=
      fun f hf => Registry.defect?_eq_none_iff.mp (List.findSome?_eq_none_iff.mp hdefect f hf)
    obtain ⟨errors, hok⟩ := processRecord_succeeds hreg hcol hquiet hkeys hcache hresolves record
      operation batch
    rw [hok]
    refine ⟨⟨nofun, ?_⟩, fun err => ⟨nofun, nofun⟩⟩
    rintro ⟨f, hf, defect, hfails⟩
    obtain ⟨o, ho⟩ := hresolves f hf
    rw [ho] at hfails
    cases hfails
  | some defect =>
    obtain ⟨f, hf, hd⟩ := List.exists_of_findSome?_eq_some hdefect
    rw [processRecord_fails hreg hcol hquiet hkeys hcache hobject hop batch hdefect]
    refine ⟨⟨fun _ => ⟨f, hf, defect, Registry.defect?_eq_some_iff.mp hd⟩, fun _ => ⟨_, rfl⟩⟩,
      fun err => ⟨fun h => ⟨defect, rfl, (Except.error.inj h).symm⟩, ?_⟩⟩
    rintro ⟨defect', h, rfl⟩
    rw [Option.some.inj h]

end Engine

/-! ### Instances -/

open OptionCache (colouredText oneColoured twoColoured)

/-- A sleeve with a coloured title. -/
def sleeveField : Declaration :=
  { kind := .object, subfields := [("artist", .ofKind .text), ("title", colouredText)] }

def albums : Collection where
  name := "albums"
  fields := [("label", .ofKind .text), ("sleeve", sleeveField), ("note", colouredText)]

theorem contains_albums {d : Declaration} (h : albums.Contains d) :
    d.Quiet ∧ d.isLegible = true := by
  have hall : ∀ d ∈ [Declaration.ofKind .text, sleeveField, colouredText],
      d.Quiet ∧ d.isLegible = true := by
    simp only [List.forall_mem_cons]
    exact ⟨⟨⟨nofun, rfl, rfl⟩, rfl⟩, ⟨⟨nofun, rfl, rfl⟩, rfl⟩, ⟨⟨nofun, rfl, rfl⟩, rfl⟩, nofun⟩
  refine hall d (Catalog.InPlay.among ?_ ?_ ?_ h)
  · simp [albums]
  · exact fun _ _ h => nomatch h
  · simp [sleeveField, colouredText, Declaration.option, Declaration.ofKind, -Prod.forall]

theorem processRecord_defect_albums :
    let e := Engine.ofCatalog ⟨[("albums", albums)], []⟩
    albums.defect? = some (.unknownOption "text" "title" "colour") ∧
      (e.processRecord "albums" (.object [("sleeve", .null)]) .read []).result =
        .error (.schema (.unknownOption "text" "title" "colour")) := by
  intro e
  have hcol : e.catalog.collection? "albums" = some albums := rfl
  have hkeys : OptionCache.KeysApart .builtin albums.Contains := by
    intro d hd d' hd' hkey name o ho
    rw [← Registry.resolve_of_cacheKey (contains_albums hd).2 (contains_albums hd').2 hkey]
    exact ho
  have hdefect : albums.defect? = some (.unknownOption "text" "title" "colour") := rfl
  have hobject : (Value.object [("sleeve", .null)]).isObject = true := rfl
  have hop : Operation.read ≠ .update := by decide
  obtain ⟨-, herror⟩ := Engine.processRecord_defect (e := e) rfl hcol
    (fun d hd => (contains_albums hd).1) hkeys (OptionCache.coherent_empty _ _) hobject hop []
  exact ⟨hdefect, (herror _).mpr ⟨_, hdefect, rfl⟩⟩

/-- A page with rows of one field. -/
def pageField : Declaration := { kind := .object, subfields := [("rows", oneColoured)] }

def boards : Collection where
  name := "boards"
  fields := [("page", pageField), ("rows", twoColoured)]

/-- A record with a page hides the defect of the rows, which a record without one shows. -/
theorem Engine.processRecord_hides_defect :
    let e := Engine.ofCatalog ⟨[("boards", boards)], []⟩
    (∀ d, boards.Contains d → d.Quiet ∧ d.additional.sanitizers = []) ∧
      boards.defect? = some (.unknownOption "text" "a" "colour") ∧
      (e.processRecord "boards" (.object [("page", .object [])]) .create []).result =
        .ok .empty ∧
      (e.processRecord "boards" (.object []) .create []).result =
        .error (.schema (.unknownOption "text" "a" "colour")) := by
  intro e
  refine ⟨fun d hd => ?_, rfl, rfl, rfl⟩
  have hall : ∀ d ∈ [pageField, oneColoured, twoColoured, colouredText, .ofKind .number],
      d.Quiet ∧ d.additional.sanitizers = [] := by
    rw [List.forall_mem_cons, List.forall_mem_cons, List.forall_mem_cons, List.forall_mem_cons,
      List.forall_mem_singleton]
    exact ⟨⟨⟨nofun, rfl, rfl⟩, rfl⟩, ⟨⟨nofun, rfl, rfl⟩, rfl⟩, ⟨⟨nofun, rfl, rfl⟩, rfl⟩,
      ⟨⟨nofun, rfl, rfl⟩, rfl⟩, ⟨nofun, rfl, rfl⟩, rfl⟩
  refine hall d (Catalog.InPlay.among ?_ ?_ ?_ hd)
  · simp [boards]
  · exact fun _ _ h => nomatch h
  · simp [pageField, oneColoured, twoColoured, colouredText, Declaration.subfield,
      Declaration.option, Declaration.ofKind, Entries.put, -Prod.forall]

end ContentSchema
