import ContentSchema.Proofs.DecodedWeight
import ContentSchema.Proofs.MemberLaws
import ContentSchema.Proofs.PassRuns

/-!
# Stages — what the stages of the built-in kinds look at

Sanitizers, defaults, keywords and validators of the built-in kinds see option values, and
validators the record source besides; nothing else of the context matters to them.  The stages of
a declaration without sanitizers of its own are therefore functions of the declaration:
`Declaration.clean`, `Declaration.fallback` and `Declaration.opened` for composite kinds.  What the
passes can do at a place is said once, in `PassContext.SanitizeEnds` and `PassContext.CheckEnds`.
-/

namespace ContentSchema

/-! ### Option values -/

theorem Options.eq_ofValues {o : Options} {values : Entries Value} (h : o.values = values) :
    o = ⟨values, o.subfields, o.variants⟩ := by
  obtain ⟨_, _, _⟩ := o
  rw [← h]

/-- A sanitizer of a built-in kind sees the values of the options and nothing else. -/
theorem sanitizers_builtin (k : FieldKind) : ∀ s ∈ k.definition.sanitizers, s.filter = {} ∧
    ∀ {context context' : FieldContext}, context.options.values = context'.options.values →
      ∀ v, s.run context v = s.run context' v := by
  cases k <;>
    · intro s hs
      change s ∈ List.cons _ _ at hs
      repeat
        rcases List.mem_cons.mp hs with rfl | hs
        · refine ⟨rfl, fun {context context'} h v => ?_⟩
          obtain ⟨_, _, ⟨_, _, _⟩, _, _, _, _, _, _⟩ := context
          obtain ⟨_, _, ⟨_, _, _⟩, _, _, _, _, _, _⟩ := context'
          simp only at h
          subst h
          rfl
      cases hs

/-- A validator of a built-in kind sees the values of the options and the record source. -/
theorem validators_builtin (k : FieldKind) : ∀ l ∈ k.definition.validators, l.filter = {} ∧
    ∀ {context context' : FieldContext}, context.options.values = context'.options.values →
      context.source = context'.source → ∀ v, l.run context v = l.run context' v := by
  cases k <;>
    · intro l hl
      change l ∈ List.cons _ _ at hl
      repeat
        rcases List.mem_cons.mp hl with rfl | hl
        · refine ⟨rfl, fun {context context'} h hsource v => ?_⟩
          obtain ⟨_, _, ⟨_, _, _⟩, _, _, _, _, _, _⟩ := context
          obtain ⟨_, _, ⟨_, _, _⟩, _, _, _, _, _, _⟩ := context'
          simp only at h hsource
          subst h hsource
          rfl
      cases hl

theorem default_values (k : FieldKind) {o o' : Options} (h : o.values = o'.values) :
    k.definition.default o = k.definition.default o' := by
  rw [Options.eq_ofValues h]
  cases k <;> rfl

theorem keywords_values (k : FieldKind) {o o' : Options} (h : o.values = o'.values) (v : Value) :
    k.definition.keywords o v = k.definition.keywords o' v := by
  rw [Options.eq_ofValues h]
  cases k <;> rfl

theorem OperationFilter.applies_any (operation : Operation) :
    OperationFilter.applies {} operation = true := by
  cases operation <;> rfl

theorem sanitizeValue_builtin (k : FieldKind) {context context' : FieldContext}
    (h : context.options.values = context'.options.values) (v : Value) :
    sanitizeValue context k.definition.sanitizers v =
      sanitizeValue context' k.definition.sanitizers v := by
  have hall := sanitizers_builtin k
  have hfilter : ∀ operation : Operation,
      (k.definition.sanitizers.filter fun s => s.filter.applies operation) =
        k.definition.sanitizers := by
    intro operation
    refine List.filter_eq_self.mpr fun s hs => ?_
    rw [(hall s hs).1]
    exact OperationFilter.applies_any operation
  unfold sanitizeValue
  rw [hfilter, hfilter]
  clear hfilter
  generalize k.definition.sanitizers = sanitizers at hall
  induction sanitizers generalizing v with
  | nil => rfl
  | cons s rest ih =>
    rw [List.foldl_cons, List.foldl_cons, (hall s List.mem_cons_self).2 h v]
    exact ih _ fun t ht => hall t (List.mem_cons_of_mem _ ht)

/-! ### Sanitizing -/

namespace Declaration

/-- What the stages of a declaration see on their own, apart from a record. -/
def context (d : Declaration) : FieldContext where
  path := .root
  kind := d.kind
  options := d.ownOptions
  default := d.kind.definition.default d.ownOptions
  operation := .create
  input := .null
  collection := none
  batch := []
  source := none

/-- The value after the sanitizers of the kind. -/
def clean (d : Declaration) (v : Value) : Value :=
  sanitizeValue d.context d.kind.definition.sanitizers v

/-- The value that a field falls back to. -/
def fallback (d : Declaration) : Value := d.kind.definition.default d.ownOptions

/-- Whether a value is the container that a composite kind asks for. -/
def container (d : Declaration) (v : Value) : Bool :=
  if d.kind = .object then v.isObject else v.isList

/-- The container that a text holds for a composite kind; any other value as it is. -/
def opened (d : Declaration) (v : Value) : Value :=
  if d.kind.isComposite then Json.decodeText d.container v else v

end Declaration

section

variable {c : PassContext} {d : Declaration} {o : Options}

theorem composite_definition (k : FieldKind) : k.definition.composite = k.isComposite := by
  cases k <;> rfl

theorem cleaned_eq (hs : d.additional.sanitizers = []) (ho : o.values = d.values) (path : Path)
    (record v : Value) : c.cleaned path d o record v = d.clean v := by
  unfold PassContext.cleaned Declaration.clean
  rw [hs, List.append_nil]
  exact sanitizeValue_builtin d.kind ho v

theorem default_eq (ho : o.values = d.values) : d.kind.definition.default o = d.fallback :=
  default_values d.kind ho

theorem clean_composite (hd : d.kind.isComposite = true) (v : Value) : d.clean v = d.opened v := by
  obtain ⟨kind, options, subfields, variants, additional⟩ := d
  cases kind <;> first | rfl | cases hd

theorem opened_leaf (hd : d.kind.isComposite = false) (v : Value) : d.opened v = v := by
  unfold Declaration.opened
  rw [hd]
  rfl

theorem weight_opened (d : Declaration) (v : Value) : (d.opened v).weight ≤ v.weight := by
  unfold Declaration.opened
  split
  · exact Json.weight_decodeText d.container v
  · exact Nat.le_refl _

/-- Null and containers are not texts, so opening leaves them. -/
theorem opened_of_container {v : Value} (h : v = .null ∨ d.container v = true) :
    d.opened v = v := by
  unfold Declaration.opened
  split
  · rcases h with rfl | h
    · rfl
    · unfold Declaration.container at h
      cases v with
      | string s =>
        split at h <;> cases h
      | _ => rfl
  · rfl

theorem fallback_object (hd : d.kind = .object) : d.fallback = .object [] := by
  unfold Declaration.fallback
  rw [hd]
  rfl

theorem fallback_list (hd : d.kind.isComposite = true) (hk : d.kind ≠ .object) :
    d.fallback = .list [] := by
  obtain ⟨kind, options, subfields, variants, additional⟩ := d
  cases kind <;> first | rfl | exact absurd rfl hk | cases hd

theorem container_fallback (hd : d.kind.isComposite = true) : d.container d.fallback = true := by
  unfold Declaration.container
  split
  · next hk =>
    rw [fallback_object hk]
    rfl
  · next hk =>
    rw [fallback_list hd hk]
    rfl

end

/-! ### Judging -/

theorem runValidators_append {context : FieldContext} {v : Value} {as bs : List Validator}
    (h : runValidators context v (as ++ bs) = .ok ()) : runValidators context v as = .ok () := by
  induction as with
  | nil => rfl
  | cons a as ih =>
    rw [List.cons_append] at h
    unfold runValidators at h ⊢
    split
    · next ha =>
      rw [if_pos ha] at h
      cases hrun : a.run context v with
      | error e =>
        rw [hrun] at h
        cases h
      | ok =>
        rw [hrun] at h
        exact ih h
    · next ha =>
      rw [if_neg ha] at h
      exact ih h

/-- Values pass exactly when every validator of the operation lets them pass. -/
theorem runValidators_ok {context : FieldContext} {v : Value} {ls : List Validator} :
    runValidators context v ls = .ok () ↔
      ∀ l ∈ ls, l.filter.applies context.operation = true → l.run context v = .ok () := by
  induction ls with
  | nil => simp [runValidators]
  | cons l ls ih =>
    rw [List.forall_mem_cons, ← ih]
    cases hl : l.filter.applies context.operation with
    | false => simp [runValidators, hl]
    | true => cases hrun : l.run context v <;> simp [runValidators, hl, hrun]

namespace Kinds

theorem ensure_ok {holds : Bool} {message : String} :
    ensure holds message = .ok () ↔ holds = true := by
  cases holds with
  | true => exact ⟨fun _ => rfl, fun _ => rfl⟩
  | false => exact ⟨nofun, nofun⟩

theorem ensure_error {holds : Bool} {message : String} :
    ensure holds message = .error (.message message) ↔ holds = false := by
  cases holds with
  | true => exact ⟨nofun, nofun⟩
  | false => exact ⟨fun _ => rfl, fun _ => rfl⟩

/-- A value that passes the check of its type is null or of that type. -/
theorem typeCheck_ok {accept : Value → Bool} {context : FieldContext} {v : Value}
    (h : (typeCheck accept).run context v = .ok ()) : v = .null ∨ accept v = true := by
  have hensure : ensure (v.isNull || accept v) Message.invalidInputType = .ok () := h
  rcases Bool.or_eq_true _ _ ▸ ensure_ok.mp hensure with hnull | haccept
  · cases v with
    | null => exact .inl rfl
    | _ => cases hnull
  · exact .inr haccept

end Kinds

/-- A composite value that passes its validators is null or a container of the right type. -/
theorem container_of_runValidators {d : Declaration} (hd : d.kind.isComposite = true)
    {context : FieldContext} {v : Value} {extra : List Validator}
    (h : runValidators context v (d.kind.definition.validators ++ extra) = .ok ()) :
    v = .null ∨ d.container v = true := by
  have hall := runValidators_ok.mp (runValidators_append h)
  have htype : Kinds.typeCheck d.container ∈ d.kind.definition.validators := by
    obtain ⟨kind, options, subfields, variants, additional⟩ := d
    cases kind <;> first
      | exact List.mem_cons_of_mem _ List.mem_cons_self
      | cases hd
  exact Kinds.typeCheck_ok (hall _ htype (OperationFilter.applies_any _))

theorem judge_validators {context : FieldContext} {definition : Definition}
    {additional : Additional} {v : Value}
    (h : judge context definition additional v = .ok ()) :
    runValidators context v (definition.validators ++ additional.validators) = .ok () := by
  unfold judge at h
  cases hrun : runValidators context v (definition.validators ++ additional.validators) with
  | ok => rfl
  | error e =>
    rw [hrun] at h
    cases h

theorem container_of_judge {d : Declaration} (hd : d.kind.isComposite = true)
    {context : FieldContext} {v : Value}
    (h : judge context d.kind.definition d.additional v = .ok ()) :
    v = .null ∨ d.container v = true :=
  container_of_runValidators hd (judge_validators h)

/-! ### Verdicts -/

theorem matcher_builtin (k : FieldKind) : k.definition.matcher = defaultMatcher := by
  cases k <;> rfl

/-- Where conditions fail the field takes its default. -/
theorem skip_builtin {k : FieldKind} {context : FieldContext} {logic : Option Logic} {w : Value}
    (h : logic.mapM (k.definition.matcher context) = .ok (some (.skip w))) :
    w = context.default := by
  rw [matcher_builtin] at h
  cases logic with
  | none => cases h
  | some l =>
    have hmap : (defaultMatcher context l).map some = .ok (some (.skip w)) := h
    unfold defaultMatcher at hmap
    cases hl : l.matches? context.input context.path with
    | error e =>
      rw [hl] at hmap
      cases hmap
    | ok holds =>
      rw [hl] at hmap
      cases holds with
      | true => cases hmap
      | false =>
        injection hmap with hmap
        injection hmap with hmap
        injection hmap with hmap
        exact hmap.symm

/-- Whatever takes the place of a value is the default, and what is accepted passed its checks. -/
theorem verdict_spec (c : PassContext) (path : Path) (d : Declaration) (o : Options)
    (record v : Value) :
    (∀ w, c.verdict path d o record v = .reset w → w = d.kind.definition.default o) ∧
      (∀ message w, c.verdict path d o record v = .refuse message w →
        w = d.kind.definition.default o) ∧
      (c.verdict path d o record v = .accept →
        judge (c.fieldContext path d.kind.definition o record) d.kind.definition d.additional v =
          .ok ()) := by
  have hjudge : ∀ (fallback : Value) (result : Except FieldError Unit),
      (∀ w, Verdict.ofJudgement fallback result = .reset w → w = fallback) ∧
        (∀ message w, Verdict.ofJudgement fallback result = .refuse message w → w = fallback) ∧
        (Verdict.ofJudgement fallback result = .accept → result = .ok ()) := by
    intro fallback result
    cases result with
    | ok => exact ⟨nofun, nofun, fun _ => rfl⟩
    | error e =>
      cases e with
      | engine e => exact ⟨nofun, nofun, nofun⟩
      | _ => exact ⟨nofun, fun _ _ h => (Verdict.refuse.inj h).2.symm, nofun⟩
  unfold PassContext.verdict
  simp only
  cases hlogic : d.additional.logic.mapM (d.kind.definition.matcher
      (c.fieldContext path d.kind.definition o record)) with
  | error e => exact ⟨nofun, nofun, nofun⟩
  | ok outcome =>
    cases outcome with
    | none => exact hjudge _ _
    | some outcome =>
      cases outcome with
      | proceed => exact hjudge _ _
      | skip value =>
        refine ⟨fun w hw => ?_, nofun, nofun⟩
        rw [← Verdict.reset.inj hw]
        exact skip_builtin hlogic

section

variable {c : PassContext} {path : Path} {d : Declaration} {o : Options} {record v w : Value}

theorem eq_fallback_of_reset (ho : o.values = d.values)
    (h : c.verdict path d o record v = .reset w) : w = d.fallback :=
  ((verdict_spec c path d o record v).1 w h).trans (default_eq ho)

theorem eq_fallback_of_refuse (ho : o.values = d.values) {message : String}
    (h : c.verdict path d o record v = .refuse message w) : w = d.fallback :=
  ((verdict_spec c path d o record v).2.1 message w h).trans (default_eq ho)

end

/-! ### The passes at a place -/

namespace PassContext

variable {c : PassContext} {fuel : Nat} {path : Path} {d : Declaration} {s s' : PassState}

/-- How the first pass ends at a place where a field has the options `o`, with `cache` from then
on: it sanitizes the value, or null in the place of a required one, or stores the default. -/
inductive SanitizeEnds (c : PassContext) (fuel : Nat) (path : Path) (d : Declaration) (o : Options)
    (cache : OptionCache) (s : PassState) : PassState → Prop
  | present {v : Value} {s' : PassState} (hvalue : path.lookup s.record = some v)
      (hrun : c.sanitizePresent (c.sanitize fuel) path d d.kind.definition o v
        { s with cache := cache } = .ok () s') :
      SanitizeEnds c fuel path d o cache s s'
  | required {s' : PassState} (hvalue : path.lookup s.record = none)
      (hrequired : (d.kind.definition.required && o.flag "required") = true)
      (hrun : c.sanitizePresent (c.sanitize fuel) path d d.kind.definition o .null
        { s with cache := cache } = .ok () s') :
      SanitizeEnds c fuel path d o cache s s'
  | absent (hvalue : path.lookup s.record = none)
      (hoptional : (d.kind.definition.required && o.flag "required") = false) :
      SanitizeEnds c fuel path d o cache s
        { s with record := path.set (d.kind.definition.default o) s.record, cache := cache }

theorem sanitize_ends (hc : c.registry = .builtin)
    (h : c.sanitize (fuel + 1) path d s = .ok () s') :
    ∃ o cache, s.cache.resolve .builtin path.name d = (.ok o, cache) ∧
      c.SanitizeEnds fuel path d o cache s s' := by
  rw [sanitize_run hc] at h
  obtain ⟨⟨result, cache⟩, hp⟩ : ∃ p, s.cache.resolve .builtin path.name d = p := ⟨_, rfl⟩
  rw [hp] at h
  cases result with
  | error e => cases h
  | ok o =>
    refine ⟨o, cache, hp, ?_⟩
    simp only at h
    split at h
    · next v hvalue => exact .present hvalue h
    · next hvalue =>
      split at h
      · next hrequired => exact .required hvalue hrequired h
      · next hoptional =>
        obtain ⟨-, rfl⟩ := EStateM.Result.ok.inj h
        exact .absent hvalue (Bool.not_eq_true _ ▸ hoptional)

/-- How the second pass ends at a place where a field has the options `o`, with `cache` from then
on: there is no value, something else takes the place of the value, with or without a report, or
the value is accepted and its members are checked. -/
inductive CheckEnds (c : PassContext) (fuel : Nat) (path : Path) (d : Declaration) (o : Options)
    (cache : OptionCache) (s : PassState) : PassState → Prop
  | absent (hvalue : path.lookup s.record = none) :
      CheckEnds c fuel path d o cache s { s with cache := cache }
  | reset {v w : Value} (hvalue : path.lookup s.record = some v)
      (hverdict : c.verdict path d o s.record v = .reset w) :
      CheckEnds c fuel path d o cache s { s with record := path.set w s.record, cache := cache }
  | refuse {v w : Value} {message : String} (hvalue : path.lookup s.record = some v)
      (hverdict : c.verdict path d o s.record v = .refuse message w) :
      CheckEnds c fuel path d o cache s ⟨path.set w s.record, s.errors.insert path message, cache⟩
  | accept {v : Value} {s' : PassState} (hvalue : path.lookup s.record = some v)
      (hverdict : c.verdict path d o s.record v = .accept)
      (hmembers : (c.catalog.members d v).forM
        (fun m => c.check fuel (path ++ m.relative) m.declaration) { s with cache := cache } =
          .ok () s') :
      CheckEnds c fuel path d o cache s s'

theorem check_ends (hc : c.registry = .builtin) (h : c.check (fuel + 1) path d s = .ok () s') :
    ∃ o cache, s.cache.resolve .builtin path.name d = (.ok o, cache) ∧
      c.CheckEnds fuel path d o cache s s' := by
  rw [check_run hc] at h
  obtain ⟨⟨result, cache⟩, hp⟩ : ∃ p, s.cache.resolve .builtin path.name d = p := ⟨_, rfl⟩
  rw [hp] at h
  cases result with
  | error e => cases h
  | ok o =>
    refine ⟨o, cache, hp, ?_⟩
    simp only at h
    split at h
    · next hvalue =>
      obtain ⟨-, rfl⟩ := EStateM.Result.ok.inj h
      exact .absent hvalue
    · next v hvalue =>
      split at h
      · cases h
      · next w hverdict =>
        obtain ⟨-, rfl⟩ := EStateM.Result.ok.inj h
        exact .reset hvalue hverdict
      · next message w hverdict =>
        obtain ⟨-, rfl⟩ := EStateM.Result.ok.inj h
        exact .refuse hvalue hverdict
      · next hverdict =>
        refine .accept hvalue hverdict ?_
        split at h
        · exact h
        · next hleaf =>
          rw [composite_definition, Bool.not_eq_true] at hleaf
          rw [c.catalog.members_leaf hleaf]
          exact h

end PassContext

end ContentSchema
