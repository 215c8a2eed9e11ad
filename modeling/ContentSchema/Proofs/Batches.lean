import ContentSchema.Proofs.BatchErrors
import ContentSchema.Proofs.CacheCoherence
import ContentSchema.Proofs.Conformance
import ContentSchema.Proofs.Lockstep
import Mathlib.Data.List.Forall2

/-!
# Batches — a batch is its records one by one

A batch sanitizes every record before it checks any, with one cache for all of them.  The order
makes no difference: each record comes out as it does when it is processed on its own, with the
others as the first pass leaves them for its batch, and the messages of the batch are those of its
records in order, each below the index of its record (`Engine.processBatch_refines`).  Nor does the
cache, as long as no validator that a declaration adds can tell the options apart that are kept
under one key.  One that can may refuse in a batch what it lets pass alone, since a record before
has left the options of another declaration there (`Engine.processBatch_mixes_options`).
-/

namespace ContentSchema

/-! ### Options under one key -/

/-- Options that a declaration with this key resolves to.  Declarations that differ in their nested
fields can share a key, since names of fields may contain the punctuation of keys. -/
def ResolvedUnder (key : String) (o : Options) : Prop :=
  ∃ name d, d.cacheKey = key ∧ Registry.builtin.resolve name d = .ok o

/-- The validator cannot tell the options apart that are kept under one key.  It cannot if it reads
option values only, or if only one declaration has the key. -/
def Validator.Steady (l : Validator) (key : String) : Prop :=
  ∀ {o o' : Options}, ResolvedUnder key o → ResolvedUnder key o' →
    ∀ (context : FieldContext) (v : Value),
      l.run { context with options := o } v = l.run { context with options := o' } v

theorem ResolvedUnder.values {key : String} {o o' : Options} (h : ResolvedUnder key o)
    (h' : ResolvedUnder key o') : o.values = o'.values := by
  obtain ⟨name, d, hkey, hres⟩ := h
  obtain ⟨name', d', hkey', hres'⟩ := h'
  obtain ⟨hkind, hoptions⟩ := Declaration.cacheKey_injective (hkey.trans hkey'.symm)
  rw [(values_of_resolve hres).2, (values_of_resolve hres').2]
  unfold Declaration.values
  rw [hkind, hoptions]

namespace OptionCache

theorem Sound.resolvedUnder {cache : OptionCache} (h : cache.Sound) {key name : String}
    {o : Options} (hget : cache.get? (key, name) = some o) : ResolvedUnder key o := by
  obtain ⟨name', d, hkey, hres⟩ := h _ (mem_of_get? hget)
  exact ⟨name', d, (Prod.mk.inj hkey).1.symm, hres⟩

theorem Sound.resolve_resolvedUnder {cache : OptionCache} (h : cache.Sound) {d : Declaration}
    {name : String} {o : Options} (hres : Registry.builtin.resolve name d = .ok o) :
    ∃ o', (cache.resolve .builtin name d).1 = .ok o' ∧ ResolvedUnder d.cacheKey o' := by
  cases hget : cache.get? (d.cacheKey, name) with
  | some o' => exact ⟨o', by rw [resolve_of_get? hget], h.resolvedUnder hget⟩
  | none => exact ⟨o, (resolve_of_get?_none hget).trans hres, name, d, rfl, hres⟩

end OptionCache

namespace Guide

section

variable (c : Catalog) (fields : Schema) (final : OptionCache)
  (hs : ∀ d, c.InUse fields d → d.additional.sanitizers = [])

/-- A guide for caches that keep what the final one keeps. -/
def ofGrown : Guide where
  catalog := c
  fields := fields
  same _ o o' := o = o'
  final := final
  refl _ _ := rfl
  values h := by rw [h]
  sanitizers := hs
  validators _ _ _ _ _ _ h _ _ := by rw [h]

theorem linked_ofGrown {cache : OptionCache} (h : final.Grown cache) :
    (ofGrown c fields final hs).Linked cache := by
  intro d _ name o hget
  exact ⟨o, by rw [OptionCache.resolve_of_get? (h.kept hget)], rfl⟩

/-- A guide for sound caches. -/
def ofSound (hv : ∀ d, c.InUse fields d → ∀ l ∈ d.additional.validators, l.Steady d.cacheKey) :
    Guide where
  catalog := c
  fields := fields
  same key o o' := o = o' ∨ (ResolvedUnder key o ∧ ResolvedUnder key o')
  final := final
  refl _ _ := .inl rfl
  values := by
    rintro key o o' (rfl | ⟨h, h'⟩)
    · rfl
    · exact h.values h'
  sanitizers := hs
  validators := by
    rintro d hd l hl o o' (rfl | ⟨h, h'⟩) context v
    · rfl
    · exact hv d hd l hl h h' context v

theorem linked_ofSound
    (hv : ∀ d, c.InUse fields d → ∀ l ∈ d.additional.validators, l.Steady d.cacheKey)
    (hres : ∀ d, c.InUse fields d → ∃ name o, Registry.builtin.resolve name d = .ok o)
    {cache : OptionCache} (hfinal : final.Sound) (h : cache.Sound) :
    (ofSound c fields final hs hv).Linked cache := by
  intro d hd name o hget
  obtain ⟨name', p, hp⟩ := hres d hd
  obtain ⟨o', ho', hunder⟩ := h.resolve_resolvedUnder (resolve_name hp name)
  exact ⟨o', ho', .inr ⟨hfinal.resolvedUnder hget, hunder⟩⟩

include hs in
/-- A guide from the last cache of a batch to one that keeps as much, or to any other sound one when
no validator tells options under one key apart. -/
theorem exists_linked {cache : OptionCache}
    (h : final.Grown cache ∨ final.Sound ∧ cache.Sound ∧ ∀ d, c.InUse fields d →
      (∃ name o, Registry.builtin.resolve name d = .ok o) ∧
        ∀ l ∈ d.additional.validators, l.Steady d.cacheKey) :
    ∃ g : Guide, c = g.catalog ∧ g.fields = fields ∧ g.final = final ∧ g.Linked cache := by
  rcases h with hgrown | ⟨hfinal, hsound, hall⟩
  · exact ⟨_, rfl, rfl, rfl, linked_ofGrown c fields final hs hgrown⟩
  · exact ⟨_, rfl, rfl, rfl, linked_ofSound c fields final hs (fun d hd => (hall d hd).2)
      (fun d hd => (hall d hd).1) hfinal hsound⟩

end

end Guide

/-! ### The two runs of a record in a batch -/

namespace Engine

/-- The first pass of the context took a record to `x`, on the way to the cache `final`. -/
def FirstRun (c : PassContext) (collection : Collection) (final : OptionCache) (record : Value)
    (x : Sanitized) : Prop :=
  ∃ cache cache', c.sanitizeRecord collection ⟨record, .empty, cache⟩ =
    .ok x.accepted ⟨x.record, x.errors, cache'⟩ ∧ cache'.Grown final

/-- The second pass over a record, which has to be an object. -/
def secondPass (c : PassContext) (collection : Collection) (accepted : Bool) : PassM Unit :=
  if accepted then c.checkRecord collection else pure ()

/-- The second pass of the context took `x` to the record `y.1` with the messages `y.2`, on the way
to the cache `final`. -/
def SecondRun (c : PassContext) (collection : Collection) (final : OptionCache) (x : Sanitized)
    (y : Value × ErrorMap) : Prop :=
  ∃ cache cache', secondPass c collection x.accepted ⟨x.record, x.errors, cache⟩ =
    .ok () ⟨y.1, y.2, cache'⟩ ∧ cache'.Grown final

/-- A record as the first pass leaves it on its own. -/
def sanitizedRecord (e : Engine) (name : String) (collection : Collection) (operation : Operation)
    (record : Value) : Value :=
  (e.runPass ((e.passContext operation name).sanitizeRecord collection) record .empty).2.record

section

variable {e : Engine} {name : String} {collection : Collection} {operation : Operation}
  {final : OptionCache} {record : Value} {others : List Value} {g : Guide} {c : PassContext}
  {x : Sanitized} {y : Value × ErrorMap}

theorem growing_secondPass (hc : c.registry = .builtin) (collection : Collection)
    (accepted : Bool) : Growing (secondPass c collection accepted) := by
  cases accepted with
  | true => exact .checkRecord hc collection
  | false => exact .pure ()

theorem follows_secondPass (hc : c.registry = .builtin) (hcat : c.catalog = g.catalog)
    (hfields : g.fields = collection.fields) (accepted : Bool) :
    g.Follows Eq (secondPass c collection accepted) (secondPass c collection accepted) := by
  cases accepted with
  | true => exact .checkRecord hc hcat hfields
  | false => exact .pure rfl

theorem FirstRun.distinct (hc : c.registry = .builtin)
    (h : FirstRun c collection final record x) : x.errors.Distinct := by
  obtain ⟨cache, cache', hrun, -⟩ := h
  exact ((Growing.sanitizeRecord hc collection).ok hrun).distinct ErrorMap.distinct_empty

theorem SecondRun.distinct (hc : c.registry = .builtin) (hx : x.errors.Distinct)
    (h : SecondRun c collection final x y) : y.2.Distinct := by
  obtain ⟨cache, cache', hrun, -⟩ := h
  exact ((growing_secondPass hc collection x.accepted).ok hrun).distinct hx

/-- A record of a batch, with whatever siblings, is sanitized as on its own. -/
theorem sanitizedRecord_of_run (hc : c.registry = .builtin) (hcat : c.catalog = g.catalog)
    (hfields : g.fields = collection.fields) (hlinked : g.Linked e.cache)
    (hfirst : FirstRun c collection g.final record x)
    (hcontext : e.passContext operation name = { c with batch := [] }) :
    e.sanitizedRecord name collection operation record = x.record := by
  obtain ⟨cache, cache', hrun, hgrown⟩ := hfirst
  obtain ⟨accepted, t, ht, -, halike⟩ :=
    (Guide.Follows.sanitizeRecord hc hcat hfields []).run (t := ⟨record, .empty, e.cache⟩)
      hrun hgrown ⟨rfl, rfl, hlinked⟩
  unfold sanitizedRecord runPass
  rw [hcontext, ht]
  exact halike.record.symm

/-- The two runs of a record in a batch make one run of the record on its own. -/
theorem processRecord_of_runs (hcol : e.catalog.collection? name = some collection)
    (hc : c.registry = .builtin) (hcat : c.catalog = g.catalog)
    (hfields : g.fields = collection.fields) (hlinked : g.Linked e.cache)
    (hfirst : FirstRun c collection g.final record x)
    (hsecond : SecondRun { c with batch := others } collection g.final x y)
    (hcontext : e.passContext operation name others = { c with batch := others }) :
    (e.processRecord name record operation others).result = .ok y.2 ∧
      (e.processRecord name record operation others).records = y.1 := by
  obtain ⟨cache, cache', hrun, hgrown⟩ := hfirst
  obtain ⟨cache₂, cache₂', hrun₂, hgrown₂⟩ := hsecond
  obtain ⟨accepted, t, ht, rfl, halike⟩ :=
    (Guide.Follows.sanitizeRecord hc hcat hfields others).run (t := ⟨record, .empty, e.cache⟩)
      hrun hgrown ⟨rfl, rfl, hlinked⟩
  obtain ⟨⟨⟩, u, hu, -, halike₂⟩ :=
    (follows_secondPass (c := { c with batch := others }) hc hcat hfields x.accepted).run
      hrun₂ hgrown₂ ⟨halike.record, halike.errors, halike.linked⟩
  have hall : (PassContext.sanitizeRecord { c with batch := others } collection >>= fun accepted =>
      secondPass { c with batch := others } collection accepted) ⟨record, .empty, e.cache⟩ =
        .ok () u := by
    rw [bind_run ht]
    exact hu
  have hprocess : e.processRecord name record operation others =
      ⟨.ok u.errors, u.record, { e with cache := u.cache }⟩ := by
    unfold processRecord
    rw [collection_run hcol]
    simp only [hcontext]
    unfold processed runPass
    unfold secondPass at hall
    rw [hall]
    rfl
  rw [hprocess]
  exact ⟨congrArg Except.ok halike₂.errors.symm, halike₂.record.symm⟩

/-! ### The two loops of a batch -/

theorem runPass_ok {α : Type} {pass : PassM α} {errors : ErrorMap} {a : α} {state : PassState}
    (h : e.runPass pass record errors = (.ok a, state)) :
    pass ⟨record, errors, e.cache⟩ = .ok a state := by
  unfold runPass at h
  cases hrun : pass ⟨record, errors, e.cache⟩ with
  | error err t =>
    rw [hrun] at h
    cases (Prod.mk.inj h).1
  | ok b t =>
    rw [hrun] at h
    obtain ⟨hb, ht⟩ := Prod.mk.inj h
    rw [Except.ok.inj hb, ht]

/-- The loop of the first pass sanitizes every record. -/
theorem sanitizeBatch_ok (hreg : e.registry = .builtin) {records : List (Value × List Value)}
    {xs : List Sanitized} {left : List Value} {later : Engine}
    (h : e.sanitizeBatch name collection operation records = (.ok xs, left, later))
    (hfinal : later.cache.Grown final) :
    left = xs.map (·.record) ∧ later = { e with cache := later.cache } ∧
      List.Forall₂ (fun r x => FirstRun (e.passContext operation name r.2) collection final r.1 x)
        records xs := by
  induction records generalizing e xs left with
  | nil =>
    obtain ⟨hxs, hleft, rfl⟩ := Prod.mk.inj h |>.imp id Prod.mk.inj
    obtain rfl := Except.ok.inj hxs
    exact ⟨hleft.symm, rfl, .nil⟩
  | cons r rest ih =>
    obtain ⟨record, batch⟩ := r
    unfold sanitizeBatch at h
    obtain ⟨⟨result, state⟩, hp⟩ : ∃ p, e.runPass
      ((e.passContext operation name batch).sanitizeRecord collection) record .empty = p := ⟨_, rfl⟩
    simp only [hp] at h
    cases result with
    | error err => cases (Prod.mk.inj h).1
    | ok accepted =>
      obtain ⟨⟨others, left', later'⟩, hrest⟩ : ∃ p, Engine.sanitizeBatch
        { e with cache := state.cache } name collection operation rest = p := ⟨_, rfl⟩
      have hgrown := grown_sanitizeBatch (e := { e with cache := state.cache }) hreg name collection
        operation rest
      simp only [hrest] at h hgrown
      obtain ⟨hxs, hleft, rfl⟩ := Prod.mk.inj h |>.imp id Prod.mk.inj
      cases others with
      | error err => cases hxs
      | ok ys =>
        obtain rfl := Except.ok.inj hxs
        obtain ⟨hys, hlater, hall⟩ := ih (e := { e with cache := state.cache }) hreg hrest
        refine ⟨?_, hlater, .cons ?_ hall⟩
        · rw [← hleft, hys]
          rfl
        · exact ⟨e.cache, state.cache, runPass_ok hp, hgrown.1.trans hfinal⟩

/-- The loop of the second pass checks every sanitized record and collects the messages. -/
theorem checkBatch_ok (hreg : e.registry = .builtin) {i : Nat} {errors merged : ErrorMap}
    {xs : List (Sanitized × List Value)}
    (h : (e.checkBatch name collection operation i errors xs).result = .ok merged)
    (hfinal : (e.checkBatch name collection operation i errors xs).engine.cache.Grown final) :
    ∃ ys : List (Value × ErrorMap),
      (e.checkBatch name collection operation i errors xs).records = ys.map (·.1) ∧
      merged = ErrorMap.mergeAll i errors (ys.map (·.2)) ∧
      List.Forall₂ (fun x y => SecondRun (e.passContext operation name x.2) collection final x.1 y)
        xs ys := by
  induction xs generalizing e i errors with
  | nil => exact ⟨[], rfl, (Except.ok.inj h).symm, .nil⟩
  | cons x rest ih =>
    obtain ⟨sanitized, batch⟩ := x
    unfold checkBatch at h hfinal ⊢
    obtain ⟨⟨result, state⟩, hp⟩ : ∃ p, e.runPass
      (secondPass (e.passContext operation name batch) collection sanitized.accepted)
      sanitized.record sanitized.errors = p := ⟨_, rfl⟩
    have hp' := hp
    unfold secondPass at hp'
    simp only [hp'] at h hfinal ⊢
    cases result with
    | error err => cases h
    | ok =>
      have hgrown := grown_checkBatch (e := { e with cache := state.cache }) hreg name collection
        operation (i + 1) (errors.merge (Nat.repr i) state.errors) rest
      obtain ⟨ys, hrecords, hmerged, hall⟩ :=
        ih (e := { e with cache := state.cache }) hreg h hfinal
      refine ⟨(state.record, state.errors) :: ys, ?_, hmerged, .cons ?_ hall⟩
      · simp only
        rw [hrecords]
        rfl
      · exact ⟨e.cache, state.cache, runPass_ok hp, hgrown.trans hfinal⟩

/-! ### Batches -/

theorem length_siblings (records : List Value) : (siblings records).length = records.length := by
  unfold siblings
  rw [List.length_map, List.length_range]

theorem getElem?_siblings {records : List Value} {i : Nat} (hi : i < records.length) :
    (siblings records)[i]? = some (records.eraseIdx i) := by
  unfold siblings
  rw [List.getElem?_map, List.getElem?_range hi]
  rfl

/-- What relates a list with siblings to another one relates entry to entry. -/
theorem forall₂_siblings {α β : Type} {R : α × List Value → β → Prop} {as : List α} {bs : List β}
    {records : List Value} (hlength : as.length = records.length)
    (h : List.Forall₂ R (as.zip (siblings records)) bs) :
    bs.length = as.length ∧
      ∀ i a b, as[i]? = some a → bs[i]? = some b → R (a, records.eraseIdx i) b := by
  obtain ⟨hzip, hget⟩ := List.forall₂_iff_get.mp h
  rw [List.length_zip, length_siblings, hlength, Nat.min_self, ← hlength] at hzip
  refine ⟨hzip.symm, fun i a b ha hb => ?_⟩
  obtain ⟨hi, rfl⟩ := List.getElem?_eq_some_iff.mp ha
  obtain ⟨hi', rfl⟩ := List.getElem?_eq_some_iff.mp hb
  have hlt : i < (siblings records).length := by
    rw [length_siblings]
    omega
  have hsibling := getElem?_siblings (hlength ▸ hi)
  rw [List.getElem?_eq_getElem hlt] at hsibling
  have hpair := hget i (by rw [List.length_zip]; omega) hi'
  simp only [List.get_eq_getElem, List.getElem_zip] at hpair
  rw [Option.some.inj hsibling] at hpair
  exact hpair

/-- A batch that is processed to the end took every record through its two runs. -/
theorem processBatch_ok (hreg : e.registry = .builtin)
    (hcol : e.catalog.collection? name = some collection) {records : List Value}
    {errors : ErrorMap} (h : (e.processBatch name records operation).result = .ok errors)
    (hfinal : (e.processBatch name records operation).engine.cache = final) :
    ∃ (xs : List Sanitized) (ys : List (Value × ErrorMap)),
      xs.length = records.length ∧ ys.length = records.length ∧
      (∀ i record x, records[i]? = some record → xs[i]? = some x →
        FirstRun (e.passContext operation name (records.eraseIdx i)) collection final record x) ∧
      (∀ i x y, xs[i]? = some x → ys[i]? = some y →
        SecondRun (e.passContext operation name ((xs.map (·.record)).eraseIdx i)) collection final
          x y) ∧
      (e.processBatch name records operation).records = ys.map (·.1) ∧
      errors = ErrorMap.mergeAll 0 .empty (ys.map (·.2)) := by
  unfold processBatch at h hfinal ⊢
  rw [collection_run hcol] at h hfinal ⊢
  simp only at h hfinal ⊢
  obtain ⟨⟨result, left, later⟩, hp⟩ : ∃ p, e.sanitizeBatch name collection operation
    (records.zip (siblings records)) = p := ⟨_, rfl⟩
  rw [hp] at h hfinal ⊢
  cases result with
  | error err => cases h
  | ok xs =>
    simp only at h hfinal ⊢
    have hgrown := grown_sanitizeBatch hreg name collection operation
      (records.zip (siblings records))
    rw [hp] at hgrown
    have hlast := grown_checkBatch hgrown.2 name collection operation 0 .empty
      (xs.zip (siblings left))
    rw [hfinal] at hlast
    obtain ⟨rfl, hlater, hfirst⟩ := sanitizeBatch_ok hreg hp hlast
    have hown := OptionCache.Grown.refl final
    rw [← hfinal] at hown
    obtain ⟨ys, hrecords, hmerged, hsecond⟩ := checkBatch_ok hgrown.2 h hown
    obtain ⟨hxs, hfirst⟩ := forall₂_siblings rfl hfirst
    obtain ⟨hys, hsecond⟩ := forall₂_siblings (by rw [List.length_map]) hsecond
    have hcontext : ∀ batch, later.passContext operation name batch =
        e.passContext operation name batch := by
      intro batch
      rw [hlater]
      rfl
    refine ⟨xs, ys, hxs, hys.trans hxs, fun i record x hr hx => hfirst i record x hr hx,
      fun i x y hx hy => ?_, hrecords, hmerged⟩
    rw [← hcontext, ← hfinal]
    exact hsecond i x y hx hy

end

/-- What a batch makes of its records is what each of them becomes on its own, with the others as
the first pass leaves them for its batch.  The engine `e'` that takes the records one by one may
have kept other options than the batch: it is enough that it keeps those of the batch, or that the
options in both caches were resolved, all declarations in use resolve, and no validator tells
options under one key apart. -/
theorem processBatch_refines {e e' : Engine} (hreg : e.registry = .builtin)
    (hregistry : e'.registry = e.registry) (hcatalog : e'.catalog = e.catalog)
    (hsource : e'.source = e.source) {name : String} {collection : Collection}
    (hcol : e.catalog.collection? name = some collection)
    (hplain : ∀ d, e.catalog.InUse collection.fields d → d.additional.sanitizers = [])
    {records : List Value} {operation : Operation} {errors : ErrorMap}
    (h : (e.processBatch name records operation).result = .ok errors)
    (hcache : (e.processBatch name records operation).engine.cache.Grown e'.cache ∨
      e.cache.Sound ∧ e'.cache.Sound ∧ ∀ d, e.catalog.InUse collection.fields d →
        (∃ name o, Registry.builtin.resolve name d = .ok o) ∧
          ∀ l ∈ d.additional.validators, l.Steady d.cacheKey) :
    let left := records.map (e'.sanitizedRecord name collection operation)
    let singles := records.mapIdx fun i record =>
      e'.processRecord name record operation (left.eraseIdx i)
    ∃ maps : List ErrorMap, singles.map (·.result) = maps.map .ok ∧
      (e.processBatch name records operation).records = singles.map (·.records) ∧
      errors.entries = ErrorMap.inOrder 0 maps := by
  intro left singles
  have hsound := (grown_processBatch hreg name records operation).sound
  obtain ⟨final, hfinal⟩ : ∃ f, (e.processBatch name records operation).engine.cache = f := ⟨_, rfl⟩
  rw [hfinal] at hcache hsound
  obtain ⟨g, hcat, hfields, rfl, hlinked⟩ := Guide.exists_linked e.catalog collection.fields final
    hplain (hcache.imp_right fun hall => ⟨hsound hall.1, hall.2⟩)
  obtain ⟨xs, ys, hxs, hys, hfirst, hsecond, hrecords, hmerged⟩ :=
    processBatch_ok hreg hcol h hfinal
  have hcontext : ∀ others, e'.passContext operation name others =
      e.passContext operation name others := by
    intro others
    unfold passContext
    rw [hregistry, hcatalog, hsource]
  have hleft : left = xs.map (·.record) := by
    refine List.ext_getElem (by rw [List.length_map, List.length_map, hxs]) fun i hi hi' => ?_
    rw [List.length_map] at hi hi'
    rw [List.getElem_map, List.getElem_map]
    refine sanitizedRecord_of_run hreg hcat hfields hlinked
      (hfirst i _ _ (List.getElem?_eq_getElem hi) (List.getElem?_eq_getElem hi')) ?_
    rw [hcontext]
    rfl
  have hsingle : ∀ i record y, records[i]? = some record → ys[i]? = some y →
      (e'.processRecord name record operation (left.eraseIdx i)).result = .ok y.2 ∧
        (e'.processRecord name record operation (left.eraseIdx i)).records = y.1 := by
    intro i record y hr hy
    obtain ⟨hi, -⟩ := List.getElem?_eq_some_iff.mp hr
    have hx := List.getElem?_eq_getElem (hxs ▸ hi : i < xs.length)
    have hsecond := hsecond i _ y hx hy
    rw [← hleft] at hsecond
    exact processRecord_of_runs (hcatalog ▸ hcol) hreg hcat hfields hlinked
      (hfirst i record _ hr hx) hsecond (hcontext _)
  have hdistinct : ∀ m ∈ ys.map (·.2), m.Distinct := by
    intro m hm
    obtain ⟨y, hy, rfl⟩ := List.mem_map.mp hm
    obtain ⟨i, hi, rfl⟩ := List.getElem_of_mem hy
    have hr := List.getElem?_eq_getElem (hys ▸ hi : i < records.length)
    have hx := List.getElem?_eq_getElem (hxs.trans hys.symm ▸ hi : i < xs.length)
    exact (hsecond i _ _ hx (List.getElem?_eq_getElem hi)).distinct hreg
      ((hfirst i _ _ hr hx).distinct hreg)
  refine ⟨ys.map (·.2), ?_, ?_, ?_⟩
  · refine List.ext_getElem (by simp [singles, hys]) fun i hi hi' => ?_
    simp only [List.length_map] at hi'
    simp only [singles, List.getElem_map, List.getElem_mapIdx]
    exact (hsingle i _ _ (List.getElem?_eq_getElem (hys ▸ hi')) (List.getElem?_eq_getElem hi')).1
  · rw [hrecords]
    refine List.ext_getElem (by simp [singles, hys]) fun i hi hi' => ?_
    simp only [List.length_map] at hi
    simp only [singles, List.getElem_map, List.getElem_mapIdx]
    exact (hsingle i _ _ (List.getElem?_eq_getElem (hys ▸ hi)) (List.getElem?_eq_getElem hi)).2.symm
  · rw [hmerged]
    exact ErrorMap.mergeAll_entries 0 hdistinct

end Engine

/-- A draft and something that is no record, processed together. -/
def mixed : List Value := [.object draft, .bool true]

theorem processBatch_refines_mixed :
    let e := Engine.ofCatalog pagesCatalog
    let left := mixed.map (e.sanitizedRecord "pages" pages .create)
    let singles := mixed.mapIdx fun i record =>
      e.processRecord "pages" record .create (left.eraseIdx i)
    (e.processBatch "pages" mixed .create).result =
        .ok ⟨[("0.body.0.fields.junk", Message.unrecognizedField),
          ("0.body.1", Message.invalidInputType), ("1", Message.invalidInputType)]⟩ ∧
      ∃ maps : List ErrorMap, singles.map (·.result) = maps.map .ok ∧
        (e.processBatch "pages" mixed .create).records = singles.map (·.records) ∧
        [("0.body.0.fields.junk", Message.unrecognizedField),
          ("0.body.1", Message.invalidInputType), ("1", Message.invalidInputType)] =
            ErrorMap.inOrder 0 maps := by
  intro e left singles
  have hcol : pagesCatalog.collection? "pages" = some pages := rfl
  have hresult : (e.processBatch "pages" mixed .create).result =
      .ok ⟨[("0.body.0.fields.junk", Message.unrecognizedField),
        ("0.body.1", Message.invalidInputType), ("1", Message.invalidInputType)]⟩ := rfl
  refine ⟨hresult, Engine.processBatch_refines rfl rfl rfl rfl hcol (fun d hd => ?_) hresult
    (.inr ⟨OptionCache.sound_empty, OptionCache.sound_empty, fun d hd => ⟨?_, fun l hl => ?_⟩⟩)⟩
  · rcases inUse_pages hd with rfl | rfl <;> rfl
  · rcases inUse_pages hd with rfl | rfl <;> exact ⟨"", _, rfl⟩
  · rcases inUse_pages hd with rfl | rfl <;> cases hl

/-- A page with rows of one field, and rows of two fields, which are watched. -/
def desks : Collection where
  name := "desks"
  fields := [("page", { kind := .object, subfields := [("rows", OptionCache.oneField)] }),
    ("rows", OptionCache.twoFields.watched)]

/-- A record with the rows of its page, and one without. -/
def deskRecords : List Value :=
  [.object [("page", .object [("rows", .list [])])], .object []]

/-- The second record of a batch gets the options that the first one left for the rows of its page,
and they are refused.  On its own it gets those of its own rows.  All declarations resolve. -/
theorem Engine.processBatch_mixes_options :
    let e := Engine.ofCatalog ⟨[("desks", desks)], []⟩
    let left := deskRecords.map (e.sanitizedRecord "desks" desks .create)
    (∀ d, e.catalog.InUse desks.fields d → d.additional.sanitizers = [] ∧
      ∃ o, Registry.builtin.resolve "" d = .ok o) ∧
    (e.processBatch "desks" deskRecords .create).result =
      .ok ⟨[("0.rows", "options of other fields"), ("1.rows", "options of other fields")]⟩ ∧
    (e.processRecord "desks" (.object []) .create (left.eraseIdx 1)).result = .ok .empty := by
  intro e left
  refine ⟨fun d hd => ?_, by decide +kernel, by decide +kernel⟩
  have hall : ∀ d ∈ [{ kind := .object, subfields := [("rows", OptionCache.oneField)] },
      OptionCache.oneField, OptionCache.twoFields.watched, .ofKind .text, .ofKind .number],
      d.additional.sanitizers = [] ∧ ∃ o, Registry.builtin.resolve "" d = .ok o := by
    rw [List.forall_mem_cons, List.forall_mem_cons, List.forall_mem_cons, List.forall_mem_cons,
      List.forall_mem_singleton]
    exact ⟨⟨rfl, _, rfl⟩, ⟨rfl, _, rfl⟩, ⟨rfl, _, rfl⟩, ⟨rfl, _, rfl⟩, rfl, _, rfl⟩
  refine hall d (hd.inPlay.among ?_ ?_ ?_)
  · simp [desks]
  · exact fun _ _ h => nomatch h
  · simp [OptionCache.oneField, OptionCache.twoFields, Declaration.watched, Declaration.subfield,
      Declaration.ofKind, Entries.put, -Prod.forall]

end ContentSchema
