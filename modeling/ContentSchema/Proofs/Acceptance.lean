import ContentSchema.Proofs.Conformance

/-!
# Acceptance — a record is accepted exactly when everything in it is

`Accepts c record path d v` is the judgement of one field on its own: the validators of its kind
that apply, and the two constraints on stored records.  A record without conditional logic gets no
errors exactly when the first pass found it tidy and every value the first pass left is accepted,
at every depth; the second pass then changes nothing
(`Engine.processRecord_accepts_iff`).
-/

namespace ContentSchema

/-- What the stages of the field at `path` of `record` see. -/
def PassContext.fieldAt (c : PassContext) (record : Value) (path : Path) (d : Declaration) :
    FieldContext :=
  c.fieldContext path d.kind.definition d.ownOptions record

/-- The value of a field passes the checks that apply to the operation. -/
structure Accepts (c : PassContext) (record : Value) (path : Path) (d : Declaration) (v : Value) :
    Prop where
  validators : ∀ l ∈ d.kind.definition.validators, l.filter.applies c.operation = true →
    l.run (c.fieldAt record path d) v = .ok ()
  unique : d.additional.unique = true → checkUnique (c.fieldAt record path d) v = .ok ()
  immutable : d.additional.immutable = true → c.operation = .update →
    checkImmutable (c.fieldAt record path d) v = .ok ()

/-! ### Judgements -/

section

variable {c : PassContext} {d : Declaration} {o : Options} {path : Path} {record v : Value}

theorem judge_ok {context : FieldContext} {definition : Definition} {additional : Additional}
    {v : Value} :
    judge context definition additional v = .ok () ↔
      runValidators context v (definition.validators ++ additional.validators) = .ok () ∧
        (additional.unique = true → checkUnique context v = .ok ()) ∧
        (additional.immutable = true → context.operation = .update →
          checkImmutable context v = .ok ()) := by
  obtain ⟨unique, immutable, logic, population, populator, sanitizers, validators⟩ := additional
  unfold judge
  simp only
  cases runValidators context v (definition.validators ++ validators) with
  | error e => simp [bind, Except.bind]
  | ok =>
    cases unique <;> cases immutable <;> cases hop : context.operation <;>
      cases checkUnique context v <;> simp [bind, Except.bind, pure, Except.pure]

/-- The judgement of a field, whose options come from the cache, is its judgement on its own. -/
theorem judge_accepts (hx : d.additional.validators = []) (ho : o.values = d.values) :
    judge (c.fieldContext path d.kind.definition o record) d.kind.definition d.additional v =
        .ok () ↔ Accepts c record path d v := by
  rw [judge_ok, hx, List.append_nil, runValidators_ok]
  have hvalues : (c.fieldContext path d.kind.definition o record).options.values =
      (c.fieldAt record path d).options.values := ho
  have hrun : ∀ l ∈ d.kind.definition.validators,
      l.run (c.fieldContext path d.kind.definition o record) v =
        l.run (c.fieldAt record path d) v :=
    fun l hl => (validators_builtin d.kind l hl).2 hvalues rfl v
  constructor
  · rintro ⟨hvalid, hunique, himmutable⟩
    exact ⟨fun l hl hop => hrun l hl ▸ hvalid l hl hop, hunique, himmutable⟩
  · rintro ⟨hvalid, hunique, himmutable⟩
    exact ⟨fun l hl hop => (hrun l hl).trans (hvalid l hl hop), hunique, himmutable⟩

/-- Without conditions a value is accepted or refused, unless the engine fails. -/
theorem verdict_accept (hl : d.additional.logic = none) (hx : d.additional.validators = [])
    (ho : o.values = d.values) :
    c.verdict path d o record v = .accept ↔ Accepts c record path d v := by
  rw [← judge_accepts hx ho]
  refine ⟨(verdict_spec c path d o record v).2.2, fun h => ?_⟩
  unfold PassContext.verdict
  rw [hl]
  show Verdict.ofJudgement _ (judge _ _ _ _) = _
  rw [h]
  rfl

theorem verdict_ne_reset (hl : d.additional.logic = none) (w : Value) :
    c.verdict path d o record v ≠ .reset w := by
  unfold PassContext.verdict
  rw [hl]
  show Verdict.ofJudgement _ (judge _ _ _ _) ≠ _
  cases judge (c.fieldContext path d.kind.definition o record) d.kind.definition d.additional v with
  | ok => exact nofun
  | error e => cases e <;> exact nofun

end

/-! ### The second pass -/

/-- The cache keeps options for the field at a path. -/
def OptionCache.Keeps (cache : OptionCache) (path : Path) (d : Declaration) : Prop :=
  (cache.get? (d.cacheKey, path.name)).isSome = true

theorem keeps_of_resolve {cache cache' final : OptionCache} {path : Path} {d : Declaration}
    {o : Options} (h : cache.resolve .builtin path.name d = (.ok o, cache'))
    (hfinal : cache'.Grown final) : final.Keeps path d := by
  have hget := OptionCache.get?_resolve (congrArg Prod.fst h)
  rw [h] at hget
  unfold OptionCache.Keeps
  rw [hfinal.kept hget]
  rfl

/-- What is in use has neither conditions nor validators of its own. -/
def Catalog.Unconditional (c : Catalog) (fields : Schema) : Prop :=
  ∀ d, c.InUse fields d → d.additional.logic = none ∧ d.additional.validators = []

section

variable {c : PassContext} {fields : Schema} {d : Declaration} {path : Path} {s s' : PassState}
  {final : OptionCache}

/-- A run of the second pass from `s` to `s'` judges what `P` describes: without errors in the end
it has changed nothing and `P` holds as `Q`, and with `P` it changes nothing. -/
structure Judges (s s' : PassState) (P Q : Prop) : Prop where
  sound : s'.errors.isEmpty = true → s.errors.isEmpty = true ∧ s'.record = s.record ∧ Q
  complete : P → s'.record = s.record ∧ s'.errors = s.errors

/-- A loop over the record `r` judges what its steps judge, as long as the cache is `I`. -/
theorem Judges.forM {I : OptionCache → Prop} (hI : ∀ {a b : OptionCache}, a.Grown b → I a → I b)
    {α : Type} {f : α → PassM Unit} {xs : List α} {P Q : α → Prop} {r : Value}
    (hgrow : ∀ x, Growing (f x))
    (hstep : ∀ x ∈ xs, ∀ t t' : PassState, t.record = r → I t.cache → f x t = .ok () t' →
      t'.cache.Grown final → Judges t t' (P x) (Q x))
    (hr : s.record = r) (hs : I s.cache) (h : xs.forM f s = .ok () s')
    (hfinal : s'.cache.Grown final) : Judges s s' (∀ x ∈ xs, P x) (∀ x ∈ xs, Q x) := by
  induction xs generalizing s with
  | nil =>
    obtain ⟨-, rfl⟩ := EStateM.Result.ok.inj h
    exact ⟨fun he => ⟨he, rfl, List.forall_mem_nil _⟩, fun _ => ⟨rfl, rfl⟩⟩
  | cons x xs ih =>
    obtain ⟨t, hx, h⟩ := forM_cons_ok.mp h
    have hst : s.Grown t := (hgrow x).ok hx
    have hts : t.Grown s' := (Growing.forM hgrow xs).ok h
    have hhead := hstep x List.mem_cons_self s t hr hs hx (hts.cache.trans hfinal)
    have htail := ih (s := t) (fun y hy => hstep y (List.mem_cons_of_mem _ hy))
    refine ⟨fun he => ?_, fun hP => ?_⟩
    · obtain ⟨hempty, hrec, hQ⟩ := hhead.sound (hts.errors he)
      obtain ⟨-, hrec', hQs⟩ := (htail (hrec.trans hr) (hI hst.cache hs) h).sound he
      exact ⟨hempty, hrec'.trans hrec, List.forall_mem_cons.mpr ⟨hQ, hQs⟩⟩
    · obtain ⟨hPx, hPs⟩ := List.forall_mem_cons.mp hP
      obtain ⟨hrec, herr⟩ := hhead.complete hPx
      obtain ⟨hrec', herr'⟩ := (htail (hrec.trans hr) (hI hst.cache hs) h).complete hPs
      exact ⟨hrec'.trans hrec, herr'.trans herr⟩

/-- Every run of the second pass on a field, with fuel for its value. -/
theorem check_judges (hc : c.registry = .builtin) (hx : c.catalog.Unconditional fields)
    {fuel : Nat} (hd : c.catalog.InUse fields d) (hs : s.cache.Sound) (hfuel : 0 < fuel)
    (hweight : ∀ v, path.lookup s.record = some v → v.weight < fuel)
    (h : c.check fuel path d s = .ok () s') (hfinal : s'.cache.Grown final) :
    Judges s s'
      (∀ v, path.lookup s.record = some v → Everywhere c.catalog (Accepts c s.record) path d v)
      (∀ v, path.lookup s.record = some v → Everywhere c.catalog
        (fun path d v => Accepts c s.record path d v ∧ final.Keeps path d) path d v) := by
  induction fuel generalizing path d s s' with
  | zero => exact (Nat.lt_irrefl 0 hfuel).elim
  | succ fuel ih =>
    obtain ⟨o, cache, hoptions, hends⟩ := PassContext.check_ends hc h
    obtain ⟨hsound, -, ho⟩ := hs.of_resolve hoptions
    obtain ⟨hl, hv⟩ := hx d hd
    have haccept : ∀ v, c.verdict path d o s.record v = .accept ↔ Accepts c s.record path d v :=
      fun v => verdict_accept hl hv ho
    cases hends with
    | absent hvalue =>
      refine ⟨fun he => ⟨he, rfl, fun v hv => ?_⟩, fun _ => ⟨rfl, rfl⟩⟩
      cases hvalue.symm.trans hv
    | reset _ hverdict => exact (verdict_ne_reset hl _ hverdict).elim
    | @refuse v w message hvalue hverdict =>
      refine ⟨fun he => ?_, fun hP => ?_⟩
      · have hempty : (s.errors.insert path message).isEmpty = true := he
        rw [ErrorMap.isEmpty_insert] at hempty
        cases hempty
      · rw [(haccept v).mpr (hP v hvalue).here] at hverdict
        cases hverdict
    | @accept v _ hvalue hverdict hmembers =>
      have hgrow : ∀ m : Member, Growing (c.check fuel (path ++ m.relative) m.declaration) :=
        fun m => .check hc fuel _ _
      have hgrown := (Growing.forM hgrow (c.catalog.members d v)).ok hmembers
      have hkeeps : final.Keeps path d :=
        keeps_of_resolve hoptions (hgrown.cache.trans hfinal)
      have hmember : ∀ m : Member,
          (path ++ m.relative).lookup s.record = m.relative.lookup v := fun m => by
        rw [Path.lookup_append, hvalue, Option.bind_some]
      have hloop := Judges.forM (s := { s with cache := cache }) (r := s.record)
        (·.sound) hgrow (fun m hm t t' ht hsound' hrun hfinal' => by
          have hstep := ih (hd.member hm) hsound'
            (by have := Path.weight_pos v; have := hweight v hvalue; omega)
            (fun u hu => by
              rw [ht, hmember m] at hu
              have hlt := Catalog.weight_member hm hu
              have := hweight v hvalue
              omega) hrun hfinal'
          rw [ht, hmember m] at hstep
          exact hstep)
        rfl hsound hmembers hfinal
      refine ⟨fun he => ?_, fun hP => ?_⟩
      · obtain ⟨hempty, hrec, hQ⟩ := hloop.sound he
        refine ⟨hempty, hrec, fun w hw => ?_⟩
        obtain rfl := Option.some.inj (hvalue.symm.trans hw)
        exact .mk ⟨(haccept v).mp hverdict, hkeeps⟩ hQ
      · exact hloop.complete fun m hm u hu => (hP v hvalue).member hm hu

end

/-! ### Records -/

/-- The first pass has nothing to say about a record with these members: every key is declared or
the id, and all containers are as declared at every depth. -/
def TidyRecord (c : PassContext) (collection : Collection) (ms : Entries Value) : Prop :=
  KeysWithin (PassContext.ownKey collection) ms ∧
    ∀ x ∈ c.fieldsFor collection (.object ms), ∀ v, x.1.lookup (.object ms) = some v →
      Tidy c.catalog x.2 v

/-- Every value of a record that is reached through the fields taking part is accepted. -/
def AcceptedRecord (c : PassContext) (collection : Collection) (record : Value) : Prop :=
  ∀ x ∈ c.fieldsFor collection record, ∀ v, x.1.lookup record = some v →
    Everywhere c.catalog (Accepts c record) x.1 x.2 v

theorem checkRecord_judges {c : PassContext} {collection : Collection} {s s' : PassState}
    (hc : c.registry = .builtin) (hx : c.catalog.Unconditional collection.fields)
    (hs : s.cache.Sound) (h : c.checkRecord collection s = .ok () s') :
    Judges s s' (AcceptedRecord c collection s.record)
      (∀ x ∈ c.fieldsFor collection s.record, ∀ v, x.1.lookup s.record = some v →
        Everywhere c.catalog
          (fun path d v => Accepts c s.record path d v ∧ s'.cache.Keeps path d) x.1 x.2 v) := by
  rw [PassContext.checkRecord_run] at h
  refine Judges.forM (·.sound) (fun x => .check hc _ x.1 x.2)
    (fun x hmem t t' ht hsound hrun hfinal => ?_) rfl hs h (.refl s'.cache)
  have hstep := check_judges hc hx (PassContext.inUse_fieldsFor hmem) hsound (Nat.succ_pos _)
    (fun v hv => PassContext.weight_lt_fuelAt (ht ▸ hv)) hrun hfinal
  rw [ht] at hstep
  exact hstep

/-- A record that is processed to the end has no errors exactly when it was tidy and all that the
first pass left of it is accepted; it then stays as the first pass left it. -/
theorem Engine.processRecord_accepts_iff {e : Engine} (hreg : e.registry = .builtin)
    (hcat : e.catalog.Registered) (hcache : e.cache.Sound) {name : String}
    {collection : Collection} (hcol : e.catalog.collection? name = some collection)
    (hnames : e.catalog.NamesApart collection.fields)
    (hplain : ∀ d, e.catalog.InUse collection.fields d → d.additional.sanitizers = [] ∧
      d.additional.validators = [] ∧ d.additional.logic = none)
    {ms : Entries Value} {operation : Operation} {batch : List Value} {errors : ErrorMap}
    (h : (e.processRecord name (.object ms) operation batch).result = .ok errors) :
    let c := e.passContext operation name batch
    ∃ s₁, c.sanitizeRecord collection ⟨.object ms, .empty, e.cache⟩ = .ok true s₁ ∧
      (errors.isEmpty = true ↔
        TidyRecord c collection ms ∧ AcceptedRecord c collection s₁.record) ∧
      (errors.isEmpty = true →
        (e.processRecord name (.object ms) operation batch).records = s₁.record) := by
  intro c
  obtain ⟨accepted, s₁, s₂, h₁, h₂, hrun, rfl⟩ := processRecord_ok hcol h
  have hp : c.catalog.Plain collection.fields :=
    ⟨hcat.keyed, hnames.blocks, hnames.nested, fun d hd => (hplain d hd).1⟩
  obtain ⟨rfl, hfirst⟩ := sanitizeRecord_step (c := c) hreg hp hnames.top hcache rfl h₁
  have hjudges := checkRecord_judges (c := c) hreg
    (fun d hd => ⟨(hplain d hd).2.2, (hplain d hd).2.1⟩) hfirst.sound h₂
  have hclear := hfirst.clear
  simp only [show ErrorMap.empty.isEmpty = true from rfl, true_and] at hclear
  refine ⟨s₁, h₁, ⟨fun he => ?_, fun ⟨htidy, haccepted⟩ => ?_⟩, fun he => ?_⟩
  · obtain ⟨hempty, -, hQ⟩ := hjudges.sound he
    refine ⟨hclear.mp hempty, fun x hx v hv => ?_⟩
    exact (hQ x hx v hv).mono (PassContext.inUse_fieldsFor hx) fun _ _ _ _ h => h.1
  · rw [(hjudges.complete haccepted).2]
    exact hclear.mpr htidy
  · rw [hrun]
    exact (hjudges.sound he).2.1

/-- A page without problems. -/
def letter : Entries Value :=
  [("body", .list [.object [("fields", .object [("title", .string "A")]),
    ("name", .string "hero")]])]

theorem processRecord_accepts_letter :
    ((Engine.ofCatalog pagesCatalog).processRecord "pages" (.object letter) .create []).result =
        .ok .empty ∧
      TidyRecord ((Engine.ofCatalog pagesCatalog).passContext .create "pages" []) pages letter ∧
      AcceptedRecord ((Engine.ofCatalog pagesCatalog).passContext .create "pages" []) pages
        (.object letter) := by
  have hcol : pagesCatalog.collection? "pages" = some pages := rfl
  have hplain : ∀ d, pagesCatalog.InUse pages.fields d → d.additional.sanitizers = [] ∧
      d.additional.validators = [] ∧ d.additional.logic = none := by
    intro d hd
    rcases inUse_pages hd with rfl | rfl <;> exact ⟨rfl, rfl, rfl⟩
  have hresult : ((Engine.ofCatalog pagesCatalog).processRecord "pages" (.object letter) .create
      []).result = .ok .empty := rfl
  have hrecord : ((Engine.ofCatalog pagesCatalog).processRecord "pages" (.object letter) .create
      []).records = .object letter := rfl
  obtain ⟨s₁, -, hiff, hsame⟩ := Engine.processRecord_accepts_iff rfl registered_pages
    OptionCache.sound_empty hcol namesApart_pages hplain hresult
  have hs₁ : s₁.record = .object letter := (hsame rfl).symm.trans hrecord
  refine ⟨hresult, ?_⟩
  rw [← hs₁]
  exact hiff.mp rfl

end ContentSchema
