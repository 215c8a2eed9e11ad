import ContentSchema.Proofs.StableValues

/-!
# Reprocessing — when a record that was accepted stays as it is the second time

A record that was accepted is not always accepted as it is once more: a field without a value takes
its default, and defaults are neither cleaned nor filled in, so the next run finds something to do.
`Stable` says that there is nothing left to do for a value.  Processing the outcome of an accepted
run again gives no errors and the same record exactly when all its values are stable, at every depth
(`Engine.processRecord_again_iff`).
-/

namespace ContentSchema

/-- A value with nothing left to do: its containers are as declared, all of its members have values,
and it need be neither trimmed nor rounded. -/
structure Stable (c : Catalog) (d : Declaration) (v : Value) : Prop where
  fits : Fits c false false d v
  filled : ∀ m ∈ c.members d v, (m.relative.lookup v).isSome = true
  polished : Polished d v

/-- Every value of a record that is reached through declared fields is stable. -/
def StableRecord (c : Catalog) (fields : Schema) (record : Value) : Prop :=
  ∀ field d, (field, d) ∈ fields → ∀ v, record.get? field = some v →
    Everywhere c (fun _ d v => Stable c d v) (Path.root.child field) d v

/-! ### Runs that change nothing -/

/-- A value of the state `s` that both passes leave as it is, with options that are kept. -/
structure Repeats (c : PassContext) (s : PassState) (path : Path) (d : Declaration) (v : Value) :
    Prop where
  fits : Fits c.catalog false false d v
  settled : Settled c.catalog d v
  accepts : Accepts c s.record path d v
  kept : s.cache.Keeps path d

section

variable {c : PassContext} {fields : Schema} {d : Declaration} {path : Path} {v : Value}
  {s : PassState}

/-- The members of a repeating value have values of their own, which repeat. -/
theorem Everywhere.repeats (h : Everywhere c.catalog (Repeats c s) path d v)
    (hv : path.lookup s.record = some v) {m : Member} (hm : m ∈ c.catalog.members d v) :
    ∃ u, (path ++ m.relative).lookup s.record = some u ∧
      Everywhere c.catalog (Repeats c s) (path ++ m.relative) m.declaration u := by
  obtain ⟨u, hu⟩ := Option.isSome_iff_exists.mp (h.here.settled.2 m hm)
  refine ⟨u, ?_, h.member hm hu⟩
  rw [Path.lookup_append, hv]
  exact hu

theorem sanitize_same (hc : c.registry = .builtin) (hp : c.catalog.Plain fields) (fuel : Nat)
    (hd : c.catalog.InUse fields d) (hs : s.cache.Sound) (hv : path.lookup s.record = some v)
    (h : Everywhere c.catalog (Repeats c s) path d v) : c.sanitize fuel path d s = .ok () s := by
  induction fuel generalizing path d v with
  | zero => rfl
  | succ fuel ih =>
    obtain ⟨hfits, ⟨hclean, -⟩, -, hkept⟩ := h.here
    obtain ⟨o, hget⟩ := Option.isSome_iff_exists.mp hkept
    obtain ⟨hres, ho⟩ := hs.get? hget
    rw [PassContext.sanitize_run hc, OptionCache.resolve_of_get? hget]
    simp only [hv]
    rw [PassContext.sanitizePresent_run _ (Path.hasRoom_of_lookup hv),
      cleaned_eq (hp.sanitizers d hd) ho, hclean, composite_definition]
    cases hcomp : d.kind.isComposite with
    | false =>
      simp only [Bool.false_eq_true, if_false]
      rw [Path.set_of_lookup hv]
    | true =>
      have hr := reshapes_shape hp.keyed (fun hk => allowedBlocks_of_resolves hk hres ho) path v
      have hproblems := hr.clean.mpr (hr.loosen hfits)
      simp only [if_true]
      rw [if_pos (hr.valid hproblems), hr.same hfits, hproblems, ErrorMap.report_nil,
        Path.set_of_lookup hv]
      refine forM_same fun m hm => ?_
      obtain ⟨u, hu, hrep⟩ := h.repeats hv hm
      exact ih (hd.member hm) hu hrep

theorem check_same (hc : c.registry = .builtin) (hx : c.catalog.Unconditional fields) (fuel : Nat)
    (hd : c.catalog.InUse fields d) (hs : s.cache.Sound) (hv : path.lookup s.record = some v)
    (h : Everywhere c.catalog (Repeats c s) path d v) : c.check fuel path d s = .ok () s := by
  induction fuel generalizing path d v with
  | zero => rfl
  | succ fuel ih =>
    obtain ⟨-, -, haccepts, hkept⟩ := h.here
    obtain ⟨o, hget⟩ := Option.isSome_iff_exists.mp hkept
    obtain ⟨-, ho⟩ := hs.get? hget
    obtain ⟨hlogic, hvalidators⟩ := hx d hd
    rw [PassContext.check_run hc, OptionCache.resolve_of_get? hget]
    simp only [hv, (verdict_accept hlogic hvalidators ho).mpr haccepts]
    split
    · refine forM_same fun m hm => ?_
      obtain ⟨u, hu, hrep⟩ := h.repeats hv hm
      exact ih (hd.member hm) hu hrep
    · rfl

end

/-- A record whose fields all have values that repeat comes out as it went in. -/
theorem Engine.processRecord_same {e : Engine} (hreg : e.registry = .builtin) {name : String}
    {collection : Collection} (hcol : e.catalog.collection? name = some collection)
    (hp : e.catalog.Plain collection.fields) (hx : e.catalog.Unconditional collection.fields)
    (hs : e.cache.Sound) {ms : Entries Value} {operation : Operation} {batch : List Value}
    (hkeys : KeysWithin (PassContext.ownKey collection) ms)
    (h : ∀ x ∈ (e.passContext operation name batch).fieldsFor collection (.object ms),
      ∃ v, x.1.lookup (.object ms) = some v ∧ Everywhere e.catalog
        (Repeats (e.passContext operation name batch) ⟨.object ms, .empty, e.cache⟩) x.1 x.2 v) :
    e.processRecord name (.object ms) operation batch = ⟨.ok .empty, .object ms, e⟩ := by
  obtain ⟨c, hc⟩ : ∃ c, e.passContext operation name batch = c := ⟨_, rfl⟩
  have hreg' : c.registry = .builtin := by
    rw [← hc]
    exact hreg
  have hcat : c.catalog = e.catalog := by rw [← hc]; rfl
  rw [hc, ← hcat] at h
  rw [← hcat] at hp hx
  have hkept : prune .root (PassContext.ownKey collection) ms = (ms, []) :=
    Prod.ext (List.filter_eq_self.mpr hkeys) (prune_problems.mpr hkeys)
  have hsanitize : c.sanitizeRecord collection ⟨.object ms, .empty, e.cache⟩ =
      .ok true ⟨.object ms, .empty, e.cache⟩ := by
    rw [PassContext.sanitizeRecord_object collection rfl, hkept]
    refine bind_run (forM_same fun x hx => ?_)
    obtain ⟨v, hv, hrep⟩ := h x hx
    exact sanitize_same hreg' hp _ (PassContext.inUse_fieldsFor hx) hs hv hrep
  have hcheck : c.checkRecord collection ⟨.object ms, .empty, e.cache⟩ =
      .ok () ⟨.object ms, .empty, e.cache⟩ := by
    rw [PassContext.checkRecord_run]
    refine forM_same fun x hmem => ?_
    obtain ⟨v, hv, hrep⟩ := h x hmem
    exact check_same hreg' hx _ (PassContext.inUse_fieldsFor hmem) hs hv hrep
  have hrun : (c.sanitizeRecord collection >>= fun accepted =>
      if accepted then c.checkRecord collection else pure () : PassM Unit)
        ⟨.object ms, .empty, e.cache⟩ = .ok () ⟨.object ms, .empty, e.cache⟩ := by
    rw [bind_run hsanitize]
    exact hcheck
  unfold processRecord
  rw [collection_run hcol]
  simp only [hc]
  unfold processed runPass
  rw [hrun]
  rfl

/-! ### Accepted runs -/

/-- What a run without errors did to a record: the first pass took `ms` to `left`, which the second
one accepted and left as it is. -/
structure AcceptedRun (e : Engine) (c : PassContext) (collection : Collection)
    (ms left : Entries Value) (cache : OptionCache) : Prop where
  sound : cache.Sound
  first : ∃ s₁, s₁.record = .object left ∧
    RecordStep c collection ms ⟨.object ms, .empty, e.cache⟩ s₁
  keys : KeysWithin (PassContext.ownKey collection) left
  tidy : TidyRecord c collection ms
  accepted : ∀ x ∈ c.fieldsFor collection (.object ms), ∀ v, x.1.lookup (.object left) = some v →
    Everywhere c.catalog
      (fun path d v => Accepts c (.object left) path d v ∧ cache.Keeps path d) x.1 x.2 v

section

variable {e : Engine} {name : String} {collection : Collection} {operation : Operation}
  {batch : List Value} {errors : ErrorMap}

/-- A run without errors was given an object. -/
theorem Engine.processRecord_accepted (hreg : e.registry = .builtin)
    (hcol : e.catalog.collection? name = some collection)
    (hp : e.catalog.Plain collection.fields) (hx : e.catalog.Unconditional collection.fields)
    (hnames : (Entries.keys collection.fields).Nodup) (hs : e.cache.Sound) {record : Value}
    (h : (e.processRecord name record operation batch).result = .ok errors)
    (hempty : errors.isEmpty = true) :
    ∃ ms left cache, record = .object ms ∧
      e.processRecord name record operation batch =
        ⟨.ok .empty, .object left, { e with cache := cache }⟩ ∧
      AcceptedRun e (e.passContext operation name batch) collection ms left cache := by
  obtain ⟨accepted, s₁, s₂, h₁, h₂, hrun, rfl⟩ := processRecord_ok hcol h
  obtain ⟨c, hc⟩ : ∃ c, e.passContext operation name batch = c := ⟨_, rfl⟩
  have hreg' : c.registry = .builtin := by
    rw [← hc]
    exact hreg
  have hcat : c.catalog = e.catalog := by
    rw [← hc]
    rfl
  rw [hc] at h₁ h₂ ⊢
  rw [← hcat] at hp hx
  have hnone : s₂.errors = .empty := by
    obtain ⟨record, ⟨entries⟩, cache⟩ := s₂
    rw [show entries = [] from List.isEmpty_iff.mp hempty]
    rfl
  cases hobject : record.isObject with
  | false =>
    rw [PassContext.sanitizeRecord_other collection hobject] at h₁
    obtain ⟨rfl, rfl⟩ := EStateM.Result.ok.inj h₁
    obtain ⟨-, rfl⟩ := EStateM.Result.ok.inj h₂
    have hinsert : (ErrorMap.insert .empty .root Message.invalidInputType).isEmpty = true := hempty
    rw [ErrorMap.isEmpty_insert] at hinsert
    cases hinsert
  | true =>
    obtain ⟨ms, rfl⟩ := Value.isObject_iff.mp hobject
    obtain ⟨rfl, hfirst⟩ := sanitizeRecord_step hreg' hp hnames hs rfl h₁
    have hgrown := (Growing.checkRecord hreg' collection).ok h₂
    have hjudges := checkRecord_judges hreg' hx hfirst.sound h₂
    obtain ⟨hclear, hsame, hQ⟩ := hjudges.sound hempty
    obtain ⟨left, hleft, hkeys⟩ := hfirst.keys
    refine ⟨ms, left, s₂.cache, rfl, ?_, ⟨hgrown.cache.sound hfirst.sound,
      ⟨s₁, hleft, hfirst⟩, hkeys, (hfirst.clear.mp hclear).2, ?_⟩⟩
    · rw [hrun, hnone, hsame, hleft]
    · rw [hfirst.same, hleft] at hQ
      exact hQ

end

/-! ### The second run -/

section

variable {c c' : PassContext} {d : Declaration} {path : Path} {record v : Value}

theorem Accepts.runs (h : Accepts c record path d v) :
    ∀ l ∈ d.kind.definition.validators, l.run (c.fieldAt record path d) v = .ok () := by
  intro l hl
  refine h.validators l hl ?_
  rw [(validators_builtin d.kind l hl).1]
  exact OperationFilter.applies_any _

/-- An accepted value is no text that would have to be opened. -/
theorem Accepts.opened (h : Accepts c record path d v) : d.opened v = v := by
  cases hd : d.kind.isComposite with
  | false => exact opened_leaf hd v
  | true =>
    have hrun : runValidators (c.fieldAt record path d) v (d.kind.definition.validators ++ []) =
        .ok () := by
      rw [List.append_nil]
      exact runValidators_ok.mpr fun l hl _ => h.runs l hl
    exact opened_of_container (container_of_runValidators hd hrun)

/-- Without constraints on stored records only the source matters to a judgement. -/
theorem Accepts.congr (h : Accepts c record path d v) (hsource : c.source = c'.source)
    (hunique : d.additional.unique = false) (himmutable : d.additional.immutable = false) :
    Accepts c' record path d v := by
  refine ⟨fun l hl _ => ?_, fun h => ?_, fun h => ?_⟩
  · have hvalues : (c.fieldAt record path d).options.values =
        (c'.fieldAt record path d).options.values := rfl
    rw [← (validators_builtin d.kind l hl).2 hvalues hsource v]
    exact h.runs l hl
  · rw [hunique] at h
    cases h
  · rw [himmutable] at h
    cases h

end

section

variable {e : Engine} {c : PassContext} {collection : Collection} {ms left : Entries Value}
  {cache : OptionCache}

/-- On creation every declared field takes part. -/
theorem PassContext.mem_fieldsFor_create (hc : c.operation = .create) {field : String}
    {d : Declaration} (hd : (field, d) ∈ collection.fields) (record : Value) :
    (Path.root.child field, d) ∈ c.fieldsFor collection record := by
  refine mem_fieldsFor_of hd fun h => ?_
  rw [hc] at h
  cases h

theorem lookup_field {field : String} {record v : Value} (h : record.get? field = some v) :
    (Path.root.child field).lookup record = some v := by
  rw [Path.lookup_child_root]
  cases record with
  | object ms => exact h
  | _ => cases h

/-- A run that changed nothing found a stable record. -/
theorem AcceptedRun.stable (h : AcceptedRun e c collection ms ms cache)
    (hc : c.operation = .create) : StableRecord c.catalog collection.fields (.object ms) := by
  intro field d hd v hv
  have hx := PassContext.mem_fieldsFor_create hc hd (.object ms)
  have hlook := lookup_field hv
  obtain ⟨s₁, hs₁, hfirst⟩ := h.first
  obtain ⟨w, hw, hsan⟩ := hfirst.fields _ hx
  rw [hs₁, hlook] at hw
  obtain rfl := Option.some.inj hw
  have huse : c.catalog.InUse collection.fields d := .field hd
  have haccepted := h.accepted _ hx v hlook
  have hsettled := hsan.settled hlook (h.tidy.2 _ hx v hlook)
    (haccepted.mono huse fun _ _ _ _ h => h.1.opened)
  refine (hsettled.and haccepted).mono huse fun path d v _ h => ?_
  obtain ⟨⟨hfits, hclean, hfilled⟩, haccepts, -⟩ := h
  exact ⟨hfits, hfilled, (clean_eq_iff haccepts.runs).mp hclean⟩

/-- What an accepted run left repeats when it is stable. -/
theorem AcceptedRun.repeats (h : AcceptedRun e c collection ms left cache) (c' : PassContext)
    (hc : c.operation = .create) (hsource : c.source = c'.source) (hcat : c'.catalog = c.catalog)
    (hfree : ∀ d, c.catalog.InUse collection.fields d →
      d.additional.unique = false ∧ d.additional.immutable = false)
    (hstable : StableRecord c.catalog collection.fields (.object left)) {x : Path × Declaration}
    (hx : x ∈ c'.fieldsFor collection (.object left)) :
    ∃ v, x.1.lookup (.object left) = some v ∧
      Everywhere c'.catalog (Repeats c' ⟨.object left, .empty, cache⟩) x.1 x.2 v := by
  obtain ⟨field, hfield, hpath⟩ := PassContext.mem_fieldsFor hx
  have hmem : x ∈ c.fieldsFor collection (.object ms) := by
    have hcreate := PassContext.mem_fieldsFor_create hc hfield (.object ms)
    rw [← hpath] at hcreate
    exact hcreate
  obtain ⟨s₁, hs₁, hfirst⟩ := h.first
  obtain ⟨v, hv, -⟩ := hfirst.fields x hmem
  rw [hs₁] at hv
  have hget : (Value.object left).get? field = some v := by
    rw [hpath, Path.lookup_child_root] at hv
    exact hv
  have huse : c.catalog.InUse collection.fields x.2 := .field hfield
  have hvalue := hstable field x.2 hfield v hget
  rw [← hpath] at hvalue
  refine ⟨v, hv, ?_⟩
  rw [hcat]
  refine (hvalue.and (h.accepted x hmem v hv)).mono huse fun path d v hd h => ?_
  obtain ⟨⟨hfits, hfilled, hpolished⟩, haccepts, hkept⟩ := h
  obtain ⟨hunique, himmutable⟩ := hfree d hd
  have hclean := (clean_eq_iff haccepts.runs).mpr hpolished
  exact ⟨hcat ▸ hfits, hcat ▸ ⟨hclean, hfilled⟩, haccepts.congr hsource hunique himmutable, hkept⟩

end

/-- What a run without errors left is left alone by another one exactly when it is stable.  Where
fields in use keep clear of the key that names a variant, the containers are always in order; what
can be missing then are values of members, trimming and rounding. -/
theorem Engine.processRecord_again_iff {e : Engine} (hreg : e.registry = .builtin)
    (hcat : e.catalog.Registered) (hcache : e.cache.Sound) {name : String}
    {collection : Collection} (hcol : e.catalog.collection? name = some collection)
    (hnames : e.catalog.NamesApart collection.fields)
    (hplain : ∀ d, e.catalog.InUse collection.fields d → d.additional.sanitizers = [] ∧
      d.additional.validators = [] ∧ d.additional.logic = none ∧ d.additional.unique = false ∧
      d.additional.immutable = false)
    {record : Value} {batch : List Value} {errors : ErrorMap}
    (h : (e.processRecord name record .create batch).result = .ok errors)
    (hempty : errors.isEmpty = true) (batch' : List Value) :
    let first := e.processRecord name record .create batch
    let second := first.engine.processRecord name first.records .create batch'
    ((second.result = .ok .empty ∧ second.records = first.records) ↔
        StableRecord e.catalog collection.fields first.records) ∧
      (e.catalog.KeepsVariants collection.fields → ∀ field d, (field, d) ∈ collection.fields →
        ∀ v, first.records.get? field = some v →
          Everywhere e.catalog (fun _ d v => Fits e.catalog false false d v)
            (Path.root.child field) d v) := by
  intro first second
  have hp : e.catalog.Plain collection.fields :=
    ⟨hcat.keyed, hnames.blocks, hnames.nested, fun d hd => (hplain d hd).1⟩
  have hx : e.catalog.Unconditional collection.fields :=
    fun d hd => ⟨(hplain d hd).2.2.1, (hplain d hd).2.1⟩
  obtain ⟨ms, left, cache, rfl, hfirst, hrun⟩ :=
    processRecord_accepted hreg hcol hp hx hnames.top hcache h hempty
  have hsecond : second =
      Engine.processRecord { e with cache := cache } name (.object left) .create batch' := by
    show first.engine.processRecord name first.records .create batch' = _
    rw [show first = _ from hfirst]
  have hrecords : first.records = .object left := by rw [show first = _ from hfirst]
  rw [hsecond, hrecords]
  refine ⟨⟨fun ⟨hok, hsame⟩ => ?_, fun hstable => ?_⟩, fun hk field d hd v hv => ?_⟩
  · obtain ⟨ms', left', cache', hms', hagain, hrun'⟩ :=
      processRecord_accepted (e := { e with cache := cache }) hreg hcol hp hx hnames.top
        hrun.sound hok rfl
    rw [hagain] at hsame
    obtain rfl := Value.object.inj hms'
    obtain rfl := Value.object.inj hsame
    exact hrun'.stable rfl
  · have hsame : Engine.processRecord { e with cache := cache } name (.object left) .create batch' =
        ⟨.ok .empty, .object left, { e with cache := cache }⟩ :=
      processRecord_same (e := { e with cache := cache }) hreg hcol hp hx hrun.sound hrun.keys
        fun x hmem => hrun.repeats (e.passContext .create name batch') rfl rfl rfl
          (fun d hd => (hplain d hd).2.2.2) hstable hmem
    rw [hsame]
    exact ⟨rfl, rfl⟩
  · have hmem := PassContext.mem_fieldsFor_create
      (c := e.passContext .create name batch) rfl hd (.object ms)
    obtain ⟨s₁, hs₁, hstep⟩ := hrun.first
    obtain ⟨w, hw, hsan⟩ := hstep.fields _ hmem
    rw [hs₁, lookup_field hv] at hw
    rw [Option.some.inj hw]
    exact hsan.strict hk fun u hu => hrun.tidy.2 _ hmem u hu

theorem processRecord_again_letter :
    ((Engine.ofCatalog pagesCatalog).processRecord "pages" (.object letter) .create []).result =
        .ok .empty ∧
      StableRecord pagesCatalog pages.fields (.object letter) := by
  have hcol : pagesCatalog.collection? "pages" = some pages := rfl
  have hplain : ∀ d, pagesCatalog.InUse pages.fields d → d.additional.sanitizers = [] ∧
      d.additional.validators = [] ∧ d.additional.logic = none ∧ d.additional.unique = false ∧
      d.additional.immutable = false := by
    intro d hd
    rcases inUse_pages hd with rfl | rfl <;> exact ⟨rfl, rfl, rfl, rfl, rfl⟩
  have hresult : ((Engine.ofCatalog pagesCatalog).processRecord "pages" (.object letter) .create
      []).result = .ok .empty := rfl
  obtain ⟨hiff, -⟩ := Engine.processRecord_again_iff rfl registered_pages OptionCache.sound_empty
    hcol namesApart_pages hplain hresult rfl []
  exact ⟨hresult, hiff.mp ⟨rfl, rfl⟩⟩

/-! ### A record that grows -/

/-- Posts with an object that has one field. -/
def posts : Collection where
  name := "posts"
  fields := [("meta", { kind := .object, subfields := [("title", .ofKind .text)] })]

/-- The object is missing at first, so it takes its default; only then is there something to fill
in. -/
theorem processRecord_grows :
    let e := Engine.ofCatalog ⟨[("posts", posts)], []⟩
    let first := e.processRecord "posts" (.object []) .create []
    let second := first.engine.processRecord "posts" first.records .create []
    first.result = .ok .empty ∧ first.records = .object [("meta", .object [])] ∧
      second.result = .ok .empty ∧
      second.records = .object [("meta", .object [("title", .string "")])] ∧
      second.records ≠ first.records := by
  intro e first second
  have hfirst : first.records = .object [("meta", .object [])] := rfl
  have hsecond : second.records = .object [("meta", .object [("title", .string "")])] := rfl
  refine ⟨rfl, hfirst, rfl, hsecond, ?_⟩
  rw [hsecond, hfirst]
  simp

end ContentSchema
