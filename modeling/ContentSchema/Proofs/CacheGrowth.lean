import ContentSchema.Proofs.PassFrames

/-!
# Cache growth — processing keeps every resolved option, and the cache sound

However a pass ends, the option cache keeps what it kept before and stays sound, and no error goes
away.  The passes are followed operation by operation; the engine inherits the fact for fields,
records and batches.
-/

namespace ContentSchema

namespace OptionCache

/-- The later cache keeps what the earlier one kept, and is sound if that one was. -/
structure Grown (earlier later : OptionCache) : Prop where
  kept : ∀ {key : String × String} {o : Options}, earlier.get? key = some o →
    later.get? key = some o
  sound : earlier.Sound → later.Sound

variable {a b c : OptionCache}

theorem Grown.refl (a : OptionCache) : Grown a a := ⟨id, id⟩

theorem Grown.trans (hab : Grown a b) (hbc : Grown b c) : Grown a c :=
  ⟨fun h => hbc.kept (hab.kept h), fun h => hbc.sound (hab.sound h)⟩

theorem get?_add (cache : OptionCache) (key key' : String × String) (o : Options) :
    (cache.add key o).get? key' =
      (cache.get? key').or (if key' = key then some o else none) := by
  show (cache.entries ++ [(key, o)]).lookup key' = _
  rw [List.lookup_append]
  congr 1
  by_cases h : key' = key
  · rw [if_pos h, List.lookup_cons, beq_iff_eq.mpr h]
  · rw [if_neg h, List.lookup_cons, beq_eq_false_iff_ne.mpr h]
    rfl

theorem grown_resolve (cache : OptionCache) (name : String) (d : Declaration) :
    Grown cache (cache.resolve .builtin name d).2 := by
  refine ⟨fun {key o} h => ?_, fun h => (h.resolve name d).1⟩
  unfold resolve
  cases hget : cache.get? (d.cacheKey, name) with
  | some o' =>
    simp only [hget]
    exact h
  | none =>
    simp only [hget]
    cases Registry.builtin.resolve name d with
    | error e => exact h
    | ok o' =>
      show (cache.add _ o').get? key = some o
      rw [get?_add, h]
      rfl

/-- What was resolved is kept. -/
theorem get?_resolve {cache : OptionCache} {r : Registry} {name : String} {d : Declaration}
    {o : Options} (h : (cache.resolve r name d).1 = .ok o) :
    (cache.resolve r name d).2.get? (d.cacheKey, name) = some o := by
  unfold resolve at h ⊢
  cases hget : cache.get? (d.cacheKey, name) with
  | some o' =>
    simp only [hget] at h ⊢
    rw [Except.ok.inj h]
  | none =>
    simp only [hget] at h ⊢
    cases hres : r.resolve name d with
    | error e =>
      rw [hres] at h
      cases h
    | ok o' =>
      rw [hres] at h
      show (cache.add _ o').get? _ = some o
      rw [get?_add, hget, if_pos rfl, Except.ok.inj h]
      rfl

/-- What is kept is the answer. -/
theorem resolve_of_get? {cache : OptionCache} {r : Registry} {name : String} {d : Declaration}
    {o : Options} (h : cache.get? (d.cacheKey, name) = some o) :
    cache.resolve r name d = (.ok o, cache) := by
  unfold resolve
  simp only [h]

/-- What is not kept is resolved. -/
theorem resolve_of_get?_none {cache : OptionCache} {r : Registry} {name : String}
    {d : Declaration} (h : cache.get? (d.cacheKey, name) = none) :
    (cache.resolve r name d).1 = r.resolve name d := by
  unfold resolve
  simp only [h]
  cases r.resolve name d <;> rfl

end OptionCache

/-! ### Passes -/

/-- A later state: the cache grew, no error went away, and every path still has one message. -/
structure PassState.Grown (s t : PassState) : Prop where
  cache : s.cache.Grown t.cache
  errors : t.errors.isEmpty = true → s.errors.isEmpty = true
  distinct : s.errors.Distinct → t.errors.Distinct

theorem PassState.Grown.refl (s : PassState) : s.Grown s := ⟨.refl s.cache, id, id⟩

theorem PassState.Grown.trans {s t u : PassState} (hst : s.Grown t) (htu : t.Grown u) :
    s.Grown u :=
  ⟨hst.cache.trans htu.cache, fun h => hst.errors (htu.errors h),
    fun h => htu.distinct (hst.distinct h)⟩

/-- Being later than a state survives everything a pass does. -/
theorem PassState.Grown.frame (s : PassState) : Frame s.Grown (fun _ => True) fun _ => True where
  resolve name d h := ⟨h.cache.trans (OptionCache.grown_resolve _ name d), h.errors, h.distinct⟩
  store w _ h := ⟨h.cache, h.errors, h.distinct⟩
  report := by
    intro t p message _ h
    refine ⟨h.cache, fun he => ?_, fun hs => (h.distinct hs).add p.text message⟩
    have hempty : (t.errors.insert p message).isEmpty = true := he
    rw [ErrorMap.isEmpty_insert] at hempty
    cases hempty

/-- Whatever comes of it, the run ends in a later state. -/
def Growing {α : Type} (m : PassM α) : Prop :=
  ∀ s : PassState, s.Grown (PassState.after (m s))

theorem growing_of_maintains {α : Type} {m : PassM α} (h : ∀ s : PassState, Maintains s.Grown m) :
    Growing m := fun s => h s s (.refl s)

theorem Growing.maintains {α : Type} {m : PassM α} (h : Growing m) (s : PassState) :
    Maintains s.Grown m := fun t ht => ht.trans (h t)

namespace Growing

variable {α β : Type}

theorem ok {m : PassM α} (h : Growing m) {a : α} {s t : PassState} (hrun : m s = .ok a t) :
    s.Grown t := by
  have hgrown := h s
  rw [hrun] at hgrown
  exact hgrown

theorem pure (a : α) : Growing (pure a) := growing_of_maintains fun _ => .pure a

theorem throw (e : EngineError) : Growing (throw e : PassM α) :=
  growing_of_maintains fun _ => .throw e

theorem get : Growing (get : PassM PassState) := growing_of_maintains fun _ => .get

theorem bind {m : PassM α} {f : α → PassM β} (hm : Growing m) (hf : ∀ a, Growing (f a)) :
    Growing (m >>= f) :=
  growing_of_maintains fun s => .bind (hm.maintains s) fun a => (hf a).maintains s

theorem forM {f : α → PassM Unit} (hf : ∀ x, Growing (f x)) (xs : List α) :
    Growing (xs.forM f) :=
  growing_of_maintains fun s => .forM fun x _ => (hf x).maintains s

theorem setField (path : Path) (v : Value) : Growing (setField path v) :=
  growing_of_maintains fun s => .setField (PassState.Grown.frame s) trivial v

theorem reportProblem (problem : Problem) : Growing (reportProblem problem) :=
  growing_of_maintains fun s => .reportProblem (PassState.Grown.frame s) trivial

variable {c : PassContext}

theorem options (hc : c.registry = .builtin) (name : String) (d : Declaration) :
    Growing (c.options name d) :=
  growing_of_maintains fun s => .options (PassState.Grown.frame s) hc name d

theorem sanitize (hc : c.registry = .builtin) (fuel : Nat) (path : Path) (d : Declaration) :
    Growing (c.sanitize fuel path d) :=
  growing_of_maintains fun s => .sanitize (PassState.Grown.frame s) hc fuel
    (fun _ => ⟨trivial, trivial⟩) d

theorem check (hc : c.registry = .builtin) (fuel : Nat) (path : Path) (d : Declaration) :
    Growing (c.check fuel path d) :=
  growing_of_maintains fun s =>
    .check (PassState.Grown.frame s) hc fuel (fun _ => ⟨trivial, trivial⟩) d

theorem sanitizeRecord (hc : c.registry = .builtin) (collection : Collection) :
    Growing (c.sanitizeRecord collection) := by
  intro s
  cases hs : s.record.isObject with
  | false =>
    rw [PassContext.sanitizeRecord_other collection hs]
    exact reportProblem (.root, Message.invalidInputType) s
  | true =>
    obtain ⟨ms, hms⟩ := Value.isObject_iff.mp hs
    rw [PassContext.sanitizeRecord_object collection hms]
    obtain ⟨⟨kept, problems⟩, hprune⟩ :
      ∃ p, prune .root (PassContext.ownKey collection) ms = p := ⟨_, rfl⟩
    rw [hprune]
    have hfields : Growing ((c.fieldsFor collection (.object kept)).forM fun x =>
        c.sanitize (PassContext.fuelAt (.object ms) x.1) x.1 x.2) :=
      forM (fun x => sanitize hc _ _ _) _
    have hrun := bind hfields (fun _ => pure true)
      ⟨.object kept, s.errors.report problems, s.cache⟩
    exact ⟨hrun.cache, fun h => ((ErrorMap.isEmpty_report _ _).mp (hrun.errors h)).1,
      fun h => hrun.distinct (h.report problems)⟩

theorem checkRecord (hc : c.registry = .builtin) (collection : Collection) :
    Growing (c.checkRecord collection) := by
  unfold PassContext.checkRecord
  exact bind get fun s => forM (fun _ => check hc _ _ _) _

end Growing

/-! ### Engines -/

namespace Engine

variable {e : Engine}

theorem growing_runPass {α : Type} {pass : PassM α} (h : Growing pass) (record : Value)
    (errors : ErrorMap) : e.cache.Grown (e.runPass pass record errors).2.cache := by
  have hs := (h ⟨record, errors, e.cache⟩).cache
  unfold runPass
  split
  · next hrun =>
    rw [hrun] at hs
    exact hs
  · next hrun =>
    rw [hrun] at hs
    exact hs

theorem grown_process (hreg : e.registry = .builtin) (path : Path) (d : Declaration)
    (record : Value) (operation : Operation) :
    e.cache.Grown (e.process path d record operation).engine.cache :=
  growing_runPass
    (.bind (.sanitize hreg _ _ _) fun _ => .bind .get fun _ => .check hreg _ _ _) _ _

theorem grown_processRecord (hreg : e.registry = .builtin) (name : String) (record : Value)
    (operation : Operation) (batch : List Value) :
    e.cache.Grown (e.processRecord name record operation batch).engine.cache := by
  unfold processRecord
  split
  · exact .refl e.cache
  · next collection _ =>
    refine growing_runPass (.bind (.sanitizeRecord hreg collection) fun accepted => ?_) _ _
    cases accepted with
    | true => exact .checkRecord hreg collection
    | false => exact .pure ()

theorem grown_sanitizeBatch (hreg : e.registry = .builtin) (name : String)
    (collection : Collection) (operation : Operation) (records : List (Value × List Value)) :
    e.cache.Grown (e.sanitizeBatch name collection operation records).2.2.cache ∧
      (e.sanitizeBatch name collection operation records).2.2.registry = .builtin := by
  induction records generalizing e with
  | nil => exact ⟨.refl e.cache, hreg⟩
  | cons r rest ih =>
    obtain ⟨record, batch⟩ := r
    have hrun := growing_runPass (e := e)
      (.sanitizeRecord (c := e.passContext operation name batch) hreg collection) record .empty
    obtain ⟨⟨result, state⟩, hp⟩ : ∃ p, e.runPass
      ((e.passContext operation name batch).sanitizeRecord collection) record .empty = p := ⟨_, rfl⟩
    rw [hp] at hrun
    unfold sanitizeBatch
    simp only [hp]
    cases result with
    | error err => exact ⟨hrun, hreg⟩
    | ok accepted =>
      have hrest := ih (e := { e with cache := state.cache }) hreg
      exact ⟨hrun.trans hrest.1, hrest.2⟩

theorem grown_checkBatch (hreg : e.registry = .builtin) (name : String)
    (collection : Collection) (operation : Operation) (i : Nat) (errors : ErrorMap)
    (records : List (Sanitized × List Value)) :
    e.cache.Grown (e.checkBatch name collection operation i errors records).engine.cache := by
  induction records generalizing e i errors with
  | nil => exact .refl e.cache
  | cons r rest ih =>
    obtain ⟨sanitized, batch⟩ := r
    have hpass : Growing (if sanitized.accepted then
        (e.passContext operation name batch).checkRecord collection else pure () : PassM Unit) := by
      cases sanitized.accepted with
      | true => exact .checkRecord hreg collection
      | false => exact .pure ()
    have hrun := growing_runPass (e := e) hpass sanitized.record sanitized.errors
    obtain ⟨⟨result, state⟩, hp⟩ : ∃ p, e.runPass (if sanitized.accepted then
        (e.passContext operation name batch).checkRecord collection else pure () : PassM Unit)
      sanitized.record sanitized.errors = p := ⟨_, rfl⟩
    rw [hp] at hrun
    unfold checkBatch
    simp only [hp]
    cases result with
    | error err => exact hrun
    | ok => exact hrun.trans (ih (e := { e with cache := state.cache }) hreg _ _)

theorem grown_processBatch (hreg : e.registry = .builtin) (name : String) (records : List Value)
    (operation : Operation) :
    e.cache.Grown (e.processBatch name records operation).engine.cache := by
  unfold processBatch
  split
  · exact .refl e.cache
  · next collection _ =>
    have hbatch := grown_sanitizeBatch hreg name collection operation
      (records.zip (siblings records))
    split
    · next hrun =>
      rw [hrun] at hbatch
      exact hbatch.1
    · next hrun =>
      rw [hrun] at hbatch
      exact hbatch.1.trans (grown_checkBatch hbatch.2 name collection operation 0 .empty _)

/-! ### Engines in use -/

/-- A batch changes nothing of the engine but its cache. -/
theorem engine_sanitizeBatch (name : String) (collection : Collection) (operation : Operation)
    (records : List (Value × List Value)) :
    (e.sanitizeBatch name collection operation records).2.2 =
      { e with cache := (e.sanitizeBatch name collection operation records).2.2.cache } := by
  induction records generalizing e with
  | nil => rfl
  | cons r rest ih =>
    obtain ⟨record, batch⟩ := r
    unfold sanitizeBatch
    obtain ⟨⟨result, state⟩, hp⟩ : ∃ p, e.runPass
      ((e.passContext operation name batch).sanitizeRecord collection) record .empty = p := ⟨_, rfl⟩
    simp only [hp]
    cases result with
    | error err => rfl
    | ok accepted => exact ih (e := { e with cache := state.cache })

theorem engine_checkBatch (name : String) (collection : Collection) (operation : Operation)
    (i : Nat) (errors : ErrorMap) (records : List (Sanitized × List Value)) :
    (e.checkBatch name collection operation i errors records).engine = { e with
      cache := (e.checkBatch name collection operation i errors records).engine.cache } := by
  induction records generalizing e i errors with
  | nil => rfl
  | cons r rest ih =>
    obtain ⟨sanitized, batch⟩ := r
    unfold checkBatch
    obtain ⟨⟨result, state⟩, hp⟩ : ∃ p, e.runPass (if sanitized.accepted then
        (e.passContext operation name batch).checkRecord collection else pure () : PassM Unit)
      sanitized.record sanitized.errors = p := ⟨_, rfl⟩
    simp only [hp]
    cases result with
    | error err => rfl
    | ok => exact ih (e := { e with cache := state.cache }) _ _

theorem engine_processBatch (name : String) (records : List Value) (operation : Operation) :
    (e.processBatch name records operation).engine =
      { e with cache := (e.processBatch name records operation).engine.cache } := by
  unfold processBatch
  split
  · rfl
  · next collection _ =>
    have hbatch := engine_sanitizeBatch (e := e) name collection operation
      (records.zip (siblings records))
    split
    · next hrun =>
      rw [hrun] at hbatch
      exact hbatch
    · next hrun =>
      rw [hrun] at hbatch
      simp only at hbatch ⊢
      rw [hbatch]
      exact engine_checkBatch ..

end Engine

/-- An engine over the built-in kinds that was set up, reloaded and put to work, in any order. -/
inductive Engine.InUse : Engine → Prop
  | ofCatalog (catalog : Catalog) : InUse (.ofCatalog catalog)
  | withSource {e : Engine} (h : InUse e) (source : RecordSource) : InUse (e.withSource source)
  | withMaxDepth {e : Engine} (h : InUse e) (maxDepth : Nat) : InUse (e.withMaxDepth maxDepth)
  | reload {e : Engine} (h : InUse e) (catalog : Catalog) : InUse (e.reload catalog)
  | invalidate {e : Engine} (h : InUse e) : InUse e.invalidate
  | resolveOptions {e : Engine} (h : InUse e) (name : String) (d : Declaration) :
      InUse (e.resolveOptions name d).2
  | process {e : Engine} (h : InUse e) (path : Path) (d : Declaration) (record : Value)
      (operation : Operation) : InUse (e.process path d record operation).engine
  | processRecord {e : Engine} (h : InUse e) (name : String) (record : Value)
      (operation : Operation) (batch : List Value) :
      InUse (e.processRecord name record operation batch).engine
  | processBatch {e : Engine} (h : InUse e) (name : String) (records : List Value)
      (operation : Operation) : InUse (e.processBatch name records operation).engine

/-- What an engine in use has kept is sound. -/
theorem Engine.InUse.sound {e : Engine} (h : InUse e) :
    e.registry = .builtin ∧ e.cache.Sound := by
  induction h with
  | ofCatalog catalog => exact ⟨rfl, OptionCache.sound_empty⟩
  | withSource _ source ih => exact ih
  | withMaxDepth _ maxDepth ih => exact ih
  | reload _ catalog ih => exact ⟨ih.1, OptionCache.sound_invalidate _⟩
  | invalidate _ ih => exact ⟨ih.1, OptionCache.sound_invalidate _⟩
  | @resolveOptions e _ name d ih =>
    have hgrown := OptionCache.grown_resolve e.cache name d
    rw [← ih.1] at hgrown
    exact ⟨ih.1, hgrown.sound ih.2⟩
  | process _ path d record operation ih =>
    exact ⟨ih.1, (grown_process ih.1 path d record operation).sound ih.2⟩
  | @processRecord e _ name record operation batch ih =>
    refine ⟨?_, (grown_processRecord ih.1 name record operation batch).sound ih.2⟩
    unfold Engine.processRecord
    split <;> exact ih.1
  | processBatch _ name records operation ih =>
    refine ⟨?_, (grown_processBatch ih.1 name records operation).sound ih.2⟩
    rw [engine_processBatch]
    exact ih.1

end ContentSchema
