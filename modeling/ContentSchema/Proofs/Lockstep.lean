import ContentSchema.Proofs.CacheGrowth
import ContentSchema.Proofs.InPlay

/-!
# Lockstep — two runs of a pass that differ in their caches only

What a pass does depends on the cache through the options it answers with, and on the other records
of the batch in the second pass only.  A run that ends well is therefore followed step by step by a
run of the same pass from a state with another cache, as long as that cache answers alike for every
declaration that the first run resolved.  `Guide` is what the two runs share, `Alike` relates their
states, and `Follows` says that a run is followed; it is proved operation by operation.
-/

namespace ContentSchema

/-! ### Options through a cache -/

namespace OptionCache

/-- Resolving touches no other key. -/
theorem get?_resolve_of_ne {cache : OptionCache} {name : String} {d : Declaration}
    {key : String × String} (hkey : key ≠ (d.cacheKey, name)) :
    (cache.resolve .builtin name d).2.get? key = cache.get? key := by
  unfold resolve
  cases hget : cache.get? (d.cacheKey, name) with
  | some o => simp only [hget]
  | none =>
    simp only [hget]
    cases Registry.builtin.resolve name d with
    | error e => rfl
    | ok o =>
      show (cache.add _ o).get? key = _
      rw [get?_add, if_neg hkey, Option.or_none]

end OptionCache

theorem definition_builtin {c : PassContext} (hc : c.registry = .builtin) (k : FieldKind) :
    c.definition k = pure k.definition := by
  unfold PassContext.definition
  rw [hc, get_builtin]

/-- What two runs in lockstep share: what is in use, when options that are kept under one key stand
for each other, and the cache that the first run is on its way to. -/
structure Guide where
  catalog : Catalog
  fields : Schema
  same : String → Options → Options → Prop
  final : OptionCache
  refl : ∀ key o, same key o o
  values : ∀ {key : String} {o o' : Options}, same key o o' → o.values = o'.values
  sanitizers : ∀ d, catalog.InUse fields d → d.additional.sanitizers = []
  /-- No validator tells options that stand for each other apart. -/
  validators : ∀ d, catalog.InUse fields d → ∀ l ∈ d.additional.validators,
    ∀ {o o' : Options}, same d.cacheKey o o' → ∀ (context : FieldContext) (v : Value),
      l.run { context with options := o } v = l.run { context with options := o' } v

namespace Guide

variable {g : Guide}

/-- A cache that answers like the final one wherever that one has an answer. -/
def Linked (g : Guide) (cache : OptionCache) : Prop :=
  ∀ d, g.catalog.InUse g.fields d → ∀ name o, g.final.get? (d.cacheKey, name) = some o →
    ∃ o', (cache.resolve .builtin name d).1 = .ok o' ∧ g.same d.cacheKey o o'

/-- Resolving what the first run resolved keeps a cache linked. -/
theorem Linked.resolve {cache : OptionCache} (h : g.Linked cache) {d : Declaration}
    (hd : g.catalog.InUse g.fields d) {name : String} {o : Options}
    (hget : g.final.get? (d.cacheKey, name) = some o) :
    g.Linked (cache.resolve .builtin name d).2 := by
  obtain ⟨o', hres, ho⟩ := h d hd name o hget
  intro e he name' p hp
  obtain ⟨p', hres', hp'⟩ := h e he name' p hp
  cases hcache : cache.get? (e.cacheKey, name') with
  | some q =>
    have hkept := (OptionCache.grown_resolve cache name d).kept hcache
    rw [OptionCache.resolve_of_get? hcache] at hres'
    rw [OptionCache.resolve_of_get? hkept]
    exact ⟨p', hres', hp'⟩
  | none =>
    by_cases hkey : (e.cacheKey, name') = (d.cacheKey, name)
    · have hanswer := OptionCache.get?_resolve hres
      rw [← hkey] at hanswer hget
      rw [hp] at hget
      rw [OptionCache.resolve_of_get? hanswer, Option.some.inj hget, (Prod.mk.inj hkey).1]
      exact ⟨o', rfl, ho⟩
    · have hnone : (cache.resolve .builtin name d).2.get? (e.cacheKey, name') = cache.get? _ :=
        OptionCache.get?_resolve_of_ne hkey
      rw [hcache] at hnone
      rw [OptionCache.resolve_of_get?_none hcache] at hres'
      rw [OptionCache.resolve_of_get?_none hnone]
      exact ⟨p', hres', hp'⟩

/-- States that differ in their caches, the second of which is linked. -/
structure Alike (g : Guide) (s t : PassState) : Prop where
  record : s.record = t.record
  errors : s.errors = t.errors
  linked : g.Linked t.cache

/-- A run of `m` that ends well, on its way to the final cache, is followed by one of `m'`; `Q`
relates the answers. -/
structure Follows {α : Type} (g : Guide) (Q : α → α → Prop) (m m' : PassM α) : Prop where
  growing : Growing m
  run : ∀ {s s' t : PassState} {a : α}, m s = .ok a s' → s'.cache.Grown g.final → g.Alike s t →
    ∃ b t', m' t = .ok b t' ∧ Q a b ∧ g.Alike s' t'

namespace Follows

variable {α β : Type} {Q : α → α → Prop} {Q' : β → β → Prop}

theorem pure {a b : α} (h : Q a b) : g.Follows Q (pure a) (pure b) := by
  refine ⟨.pure a, fun {s s' t a'} hrun _ hst => ?_⟩
  obtain ⟨rfl, rfl⟩ := EStateM.Result.ok.inj hrun
  exact ⟨b, t, rfl, h, hst⟩

theorem throw (e : EngineError) (m' : PassM α) : g.Follows Q (throw e) m' :=
  ⟨.throw e, fun hrun => nomatch hrun⟩

theorem bind {m m' : PassM α} {f f' : α → PassM β} (hm : g.Follows Q m m') (hQ : ∀ a, Q a a)
    (hf : ∀ a b, Q a b → g.Follows Q' (f a) (f' b)) : g.Follows Q' (m >>= f) (m' >>= f') := by
  refine ⟨.bind hm.growing fun a => (hf a a (hQ a)).growing, fun {s s' t b} hrun hfinal hst => ?_⟩
  obtain ⟨a, u, ha, hb⟩ := bind_ok.mp hrun
  have hgrown := (hf a a (hQ a)).growing.ok hb
  obtain ⟨a', u', ha', haa', hu⟩ := hm.run ha (hgrown.cache.trans hfinal) hst
  obtain ⟨b', t', hb', hbb', ht⟩ := (hf a a' haa').run hb hfinal hu
  exact ⟨b', t', by rw [bind_run ha', hb'], hbb', ht⟩

/-- One operation after another when the first has nothing to answer. -/
theorem seq {m m' : PassM Unit} {f f' : Unit → PassM β} (hm : g.Follows Eq m m')
    (hf : g.Follows Q' (f ()) (f' ())) : g.Follows Q' (m >>= f) (m' >>= f') :=
  bind hm (fun _ => rfl) fun _ _ _ => hf

/-- The state is read for its record. -/
theorem get {f f' : PassState → PassM β}
    (hf : ∀ s t, s.record = t.record → g.Follows Q' (f s) (f' t)) :
    g.Follows Q' (get >>= f) (get >>= f') := by
  refine bind (Q := fun s t => s.record = t.record) ⟨.get, fun {s s' t a} hrun _ hst => ?_⟩
    (fun _ => rfl) hf
  obtain ⟨rfl, rfl⟩ := EStateM.Result.ok.inj hrun
  exact ⟨t, t, rfl, hst.record, hst⟩

theorem forM {f f' : α → PassM Unit} {xs : List α} (h : ∀ x ∈ xs, g.Follows Eq (f x) (f' x)) :
    g.Follows Eq (xs.forM f) (xs.forM f') := by
  induction xs with
  | nil => exact pure rfl
  | cons x xs ih =>
    exact seq (h x List.mem_cons_self) (ih fun y hy => h y (List.mem_cons_of_mem _ hy))

theorem setField (path : Path) (v : Value) :
    g.Follows Eq (setField path v) (setField path v) := by
  refine ⟨.setField path v, fun {s s' t a} hrun _ hst => ?_⟩
  obtain ⟨rfl, rfl⟩ := EStateM.Result.ok.inj hrun
  exact ⟨(), { t with record := path.set v t.record }, rfl, rfl,
    congrArg (path.set v) hst.record, hst.errors, hst.linked⟩

theorem reportProblem (problem : Problem) :
    g.Follows Eq (reportProblem problem) (reportProblem problem) := by
  refine ⟨.reportProblem problem, fun {s s' t a} hrun _ hst => ?_⟩
  obtain ⟨rfl, rfl⟩ := EStateM.Result.ok.inj hrun
  exact ⟨(), { t with errors := t.errors.insert problem.1 problem.2 }, rfl, rfl, hst.record,
    congrArg (·.insert problem.1 problem.2) hst.errors, hst.linked⟩

/-! ### Stages -/

variable {c c' : PassContext} {d : Declaration} {o o' : Options}

theorem options (hc : c.registry = .builtin) (hc' : c'.registry = .builtin)
    (hd : g.catalog.InUse g.fields d) (name : String) :
    g.Follows (g.same d.cacheKey) (c.options name d) (c'.options name d) := by
  refine ⟨.options hc name d, fun {s s' t o} hrun hfinal hst => ?_⟩
  rw [PassContext.options_run, hc] at hrun
  have hanswer : ∀ {o}, (s.cache.resolve .builtin name d).1 = .ok o →
      (s.cache.resolve .builtin name d).2.get? (d.cacheKey, name) = some o :=
    OptionCache.get?_resolve
  obtain ⟨⟨result, cache⟩, hp⟩ : ∃ p, s.cache.resolve .builtin name d = p := ⟨_, rfl⟩
  rw [hp] at hrun hanswer
  cases result with
  | error e => cases hrun
  | ok o =>
    obtain ⟨rfl, rfl⟩ := EStateM.Result.ok.inj hrun
    have hget := hfinal.kept (hanswer rfl)
    obtain ⟨o', hres, ho⟩ := hst.linked d hd name o hget
    have hlinked := hst.linked.resolve hd hget
    obtain ⟨⟨result', cache'⟩, hp'⟩ : ∃ p, t.cache.resolve .builtin name d = p := ⟨_, rfl⟩
    rw [hp'] at hres hlinked
    have hresult : result' = .ok o' := hres
    refine ⟨o', { t with cache := cache' }, ?_, ho, hst.record, hst.errors, hlinked⟩
    rw [PassContext.options_run, hc', hp', hresult]

theorem shapeField (hcat : c.catalog = c'.catalog) (ho : o.values = o'.values) (path : Path)
    (d : Declaration) : g.Follows Eq (c.shapeField path d o) (c'.shapeField path d o') := by
  have hshape : ∀ v, c.catalog.shape d o path v = c'.catalog.shape d o' path v := by
    intro v
    rw [hcat, Options.eq_ofValues ho]
    rfl
  unfold PassContext.shapeField
  refine get fun s t hst => ?_
  rw [hst]
  split
  · exact pure rfl
  · next v _ =>
    rw [hshape]
    exact seq (setField path _) (seq (forM fun problem _ => reportProblem problem) (pure rfl))

/-- The other records of the batch do not matter to the first pass. -/
theorem sanitizePresent (hcat : c.catalog = g.catalog) (hd : g.catalog.InUse g.fields d)
    (ho : o.values = o'.values) (batch : List Value)
    {descend descend' : Path → Declaration → PassM Unit}
    (h : ∀ path e, g.catalog.InUse g.fields e → g.Follows Eq (descend path e) (descend' path e))
    (path : Path) (v : Value) :
    g.Follows Eq (c.sanitizePresent descend path d d.kind.definition o v)
      (PassContext.sanitizePresent { c with batch := batch } descend' path d d.kind.definition o'
        v) := by
  unfold PassContext.sanitizePresent
  refine get fun s t hst => ?_
  have hclean : sanitizeValue (c.fieldContext path d.kind.definition o s.record)
      (d.kind.definition.sanitizers ++ d.additional.sanitizers) v =
        sanitizeValue (PassContext.fieldContext { c with batch := batch } path d.kind.definition o'
          t.record) (d.kind.definition.sanitizers ++ d.additional.sanitizers) v := by
    rw [g.sanitizers d hd, List.append_nil]
    exact sanitizeValue_builtin d.kind ho v
  simp only [hclean]
  refine seq (setField path _) ?_
  split
  · refine bind (shapeField rfl ho path d) (fun _ => rfl) fun valid _ hvalid => ?_
    rw [← hvalid]
    split
    · refine get fun s t hst => ?_
      rw [hst]
      refine forM fun m hm => h _ _ ?_
      rw [hcat] at hm
      exact hd.member hm
    · rw [default_values d.kind ho]
      exact setField path _
  · exact pure rfl

theorem sanitize (hc : c.registry = .builtin) (hcat : c.catalog = g.catalog) (batch : List Value)
    (fuel : Nat) (path : Path) (hd : g.catalog.InUse g.fields d) :
    g.Follows Eq (c.sanitize fuel path d)
      (PassContext.sanitize { c with batch := batch } fuel path d) := by
  induction fuel generalizing path d with
  | zero => exact pure rfl
  | succ fuel ih =>
    unfold PassContext.sanitize
    rw [definition_builtin hc, definition_builtin (c := { c with batch := batch }) hc, pure_bind,
      pure_bind]
    refine bind (options hc hc hd _) (g.refl _) fun o o' ho => get fun s t hst => ?_
    have hvalues := g.values ho
    have hpresent := sanitizePresent hcat hd hvalues batch (fun path e he => ih path he) path
    have hflag : o.flag "required" = o'.flag "required" := by
      unfold Options.flag Options.get
      rw [hvalues]
    rw [hst]
    split
    · rw [hflag]
      split
      · exact hpresent .null
      · rw [default_values d.kind hvalues]
        exact setField path _
    · exact hpresent _

/-- Options that stand for each other make no difference to a judgement. -/
theorem judge_same (hd : g.catalog.InUse g.fields d) (ho : g.same d.cacheKey o o')
    (context : FieldContext) (v : Value) :
    judge { context with options := o } d.kind.definition d.additional v =
      judge { context with options := o' } d.kind.definition d.additional v := by
  have hrun : ∀ l ∈ d.kind.definition.validators ++ d.additional.validators,
      l.run { context with options := o } v = l.run { context with options := o' } v := by
    intro l hl
    rcases List.mem_append.mp hl with hl | hl
    · have hvalues : (FieldContext.options { context with options := o }).values =
          (FieldContext.options { context with options := o' }).values := g.values ho
      exact (validators_builtin d.kind l hl).2 hvalues rfl v
    · exact g.validators d hd l hl ho context v
  have hall : ∀ ls : List Validator, (∀ l ∈ ls,
      l.run { context with options := o } v = l.run { context with options := o' } v) →
        runValidators { context with options := o } v ls =
          runValidators { context with options := o' } v ls := by
    intro ls hls
    induction ls with
    | nil => rfl
    | cons l ls ih =>
      unfold runValidators
      rw [hls l List.mem_cons_self, ih fun l hl => hls l (List.mem_cons_of_mem _ hl)]
  unfold judge
  rw [hall _ hrun]
  rfl

theorem check (hc : c.registry = .builtin) (hcat : c.catalog = g.catalog) (fuel : Nat) (path : Path)
    (hd : g.catalog.InUse g.fields d) :
    g.Follows Eq (c.check fuel path d) (c.check fuel path d) := by
  induction fuel generalizing path d with
  | zero => exact pure rfl
  | succ fuel ih =>
    unfold PassContext.check
    rw [definition_builtin hc, pure_bind]
    refine bind (options hc hc hd _) (g.refl _) fun o o' ho => get fun s t hst => ?_
    have hvalues := g.values ho
    have hdefault := default_values d.kind hvalues
    simp only
    rw [hst]
    split
    · exact pure rfl
    · next v _ =>
      have hcontext : c.fieldContext path d.kind.definition o' t.record =
          { c.fieldContext path d.kind.definition o t.record with options := o' } := by
        unfold PassContext.fieldContext
        rw [hdefault]
      have hmatcher : d.kind.definition.matcher (c.fieldContext path d.kind.definition o t.record) =
          d.kind.definition.matcher (c.fieldContext path d.kind.definition o' t.record) := by
        rw [hcontext, matcher_builtin]
        rfl
      have hjudge : judge (c.fieldContext path d.kind.definition o t.record) d.kind.definition
          d.additional v = judge (c.fieldContext path d.kind.definition o' t.record)
            d.kind.definition d.additional v := by
        rw [hcontext]
        exact judge_same hd ho (c.fieldContext path d.kind.definition o t.record) v
      rw [hmatcher, hjudge, hdefault]
      split
      · exact throw _ _
      · exact setField path _
      · split
        · exact throw _ _
        · exact seq (reportProblem _) (setField path _)
        · split
          · refine forM fun m hm => ih _ ?_
            rw [hcat] at hm
            exact hd.member hm
          · exact pure rfl

/-! ### Records -/

theorem sanitizeRecord (hc : c.registry = .builtin) (hcat : c.catalog = g.catalog)
    {collection : Collection} (hfields : g.fields = collection.fields) (batch : List Value) :
    g.Follows Eq (c.sanitizeRecord collection)
      (PassContext.sanitizeRecord { c with batch := batch } collection) := by
  refine ⟨.sanitizeRecord hc collection, fun {s s' t accepted} hrun hfinal hst => ?_⟩
  cases hs : s.record.isObject with
  | false =>
    rw [PassContext.sanitizeRecord_other collection hs] at hrun
    obtain ⟨rfl, rfl⟩ := EStateM.Result.ok.inj hrun
    rw [hst.record] at hs
    exact ⟨false, _, PassContext.sanitizeRecord_other collection hs, rfl, hst.record,
      congrArg (·.insert .root Message.invalidInputType) hst.errors, hst.linked⟩
  | true =>
    obtain ⟨ms, hms⟩ := Value.isObject_iff.mp hs
    rw [PassContext.sanitizeRecord_object collection hms] at hrun
    rw [hst.record] at hms
    rw [PassContext.sanitizeRecord_object collection hms]
    obtain ⟨⟨kept, problems⟩, hprune⟩ :
      ∃ p, prune .root (PassContext.ownKey collection) ms = p := ⟨_, rfl⟩
    rw [hprune] at hrun ⊢
    have hloop : g.Follows Eq
        ((c.fieldsFor collection (.object kept)).forM
          fun x => c.sanitize (PassContext.fuelAt (.object ms) x.1) x.1 x.2)
        ((c.fieldsFor collection (.object kept)).forM fun x => PassContext.sanitize
          { c with batch := batch } (PassContext.fuelAt (.object ms) x.1) x.1 x.2) :=
      forM fun x hx => sanitize hc hcat batch _ _ (by
        have huse := PassContext.inUse_fieldsFor hx
        rw [hcat, ← hfields] at huse
        exact huse)
    exact (seq hloop (pure (a := true) (b := true) rfl)).run hrun hfinal
      ⟨rfl, congrArg (·.report problems) hst.errors, hst.linked⟩

theorem checkRecord (hc : c.registry = .builtin) (hcat : c.catalog = g.catalog)
    {collection : Collection} (hfields : g.fields = collection.fields) :
    g.Follows Eq (c.checkRecord collection) (c.checkRecord collection) := by
  unfold PassContext.checkRecord
  refine get fun s t hst => ?_
  rw [hst]
  refine forM fun x hx => check hc hcat _ _ ?_
  have huse := PassContext.inUse_fieldsFor hx
  rw [hcat, ← hfields] at huse
  exact huse

end Follows

end Guide

end ContentSchema
