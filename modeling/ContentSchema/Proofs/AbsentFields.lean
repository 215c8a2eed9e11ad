import ContentSchema.Proofs.RequiredFields

/-!
# Absent fields — an optional field that is left out takes its default

The first pass stores the default of a field that the record lacks, unless the field is required,
and does not look any further (`sanitize_absent`).  The second pass may hide the field or refuse its
value, but all it can put in the place of the default is the default, and the members of a default
have no values to be treated (`check_fallback`).  So the default is what the field comes out with,
whatever else its declaration asks for (`Engine.processRecord_absent`).
-/

namespace ContentSchema

/-! ### The option `required` -/

/-- An option that is not supplied has its default. -/
theorem get?_resolveRest_unsupplied {d : Definition} {name option : String}
    {supplied : Entries Value} {default : Value} (hnone : Entries.get? option supplied = none)
    {specs : List (String × OptionSpec)}
    (hspecs : ∀ e ∈ specs, e.1 = option → ∀ resolved name, e.2.default resolved name = default)
    {resolved values : Entries Value}
    (hresolved : ∀ v, Entries.get? option resolved = some v → v = default)
    (h : d.resolveRest name supplied specs resolved = .ok values) :
    ∀ v, Entries.get? option values = some v → v = default := by
  induction specs generalizing resolved with
  | nil =>
    rw [← Except.ok.inj h]
    exact hresolved
  | cons e specs ih =>
    obtain ⟨key, spec⟩ := e
    obtain ⟨hspec, hspecs⟩ := List.forall_mem_cons.mp hspecs
    have hother : key ≠ option → ∀ w v, Entries.get? option (resolved.insert key w) = some v →
        v = default := by
      intro hkey w v hv
      rw [Entries.get?_insert_of_ne hkey] at hv
      exact hresolved v hv
    unfold Definition.resolveRest at h
    split at h
    · next w hw =>
      have hkey : key ≠ option := by
        rintro rfl
        rw [hnone] at hw
        cases hw
      split at h
      · exact ih hspecs (hother hkey w) h
      · cases h
    · split at h
      · cases h
      · refine ih hspecs ?_ h
        by_cases hkey : key = option
        · intro v hv
          rw [hkey, Entries.get?_insert_self] at hv
          rw [← Option.some.inj hv]
          exact hspec hkey resolved name
        · exact hother hkey _

theorem get?_resolveValues_unsupplied {d : Definition} {name option : String}
    {supplied : Entries Value} {default : Value} (hnone : Entries.get? option supplied = none)
    (hspecs : ∀ e ∈ d.options, e.1 = option → ∀ resolved name, e.2.default resolved name = default)
    {values : Entries Value} (h : d.resolveValues name supplied = .ok values) :
    ∀ v, Entries.get? option values = some v → v = default := by
  unfold Definition.resolveValues at h
  split at h
  · cases h
  · exact get?_resolveRest_unsupplied hnone hspecs (by simp) h

/-- Nothing is required unless a declaration says so. -/
theorem default_required (k : FieldKind) : ∀ e ∈ k.definition.options, e.1 = "required" →
    ∀ resolved name, e.2.default resolved name = .bool false := by
  cases k <;>
    · intro e he
      change e ∈ List.cons _ _ at he
      repeat
        rcases List.mem_cons.mp he with rfl | he
        · first
          | exact fun _ _ _ => rfl
          | exact fun hname => absurd hname (by decide)
      cases he

/-- A field may do without a value: its kind never asks for one, or its declaration does not. -/
def Declaration.Optional (d : Declaration) : Prop :=
  d.kind.definition.required = false ∨ d.isRequired = false

theorem Declaration.Optional.flag {d : Declaration} (h : d.Optional) (hresolves : d.Resolves)
    {o : Options} (ho : o.values = d.values) :
    (d.kind.definition.required && o.flag "required") = false := by
  rcases h with h | h
  · rw [h, Bool.false_and]
  · suffices hflag : o.flag "required" = false by rw [hflag, Bool.and_false]
    obtain ⟨values, hv⟩ := hresolves
    rw [values_of_resolveValues hv] at ho
    unfold Declaration.isRequired at h
    unfold Options.flag Options.get
    rw [ho]
    cases hsupplied : Entries.get? "required" d.options with
    | some w =>
      rw [hsupplied] at h
      rw [(get?_resolveValues hsupplied hv).2]
      exact h
    | none =>
      cases hget : Entries.get? "required" values with
      | none => rfl
      | some w =>
        rw [get?_resolveValues_unsupplied hsupplied (default_required d.kind) hv w hget]
        rfl

/-! ### One field -/

section

variable {c : PassContext} {s s' : PassState} {path : Path} {d : Declaration}

/-- The first pass stores the default where an optional field has no value. -/
theorem sanitize_absent (hc : c.registry = .builtin) (hsound : s.cache.Sound) (hd : d.Optional)
    (habsent : path.lookup s.record = none) {fuel : Nat}
    (h : c.sanitize (fuel + 1) path d s = .ok () s') :
    d.Resolves ∧ s'.record = path.set d.fallback s.record := by
  obtain ⟨o, cache, hoptions, hends⟩ := PassContext.sanitize_ends hc h
  obtain ⟨-, hresolves, ho⟩ := hsound.of_resolve hoptions
  cases hends with
  | present hvalue => cases habsent.symm.trans hvalue
  | required _ hrequired => cases (hd.flag hresolves ho).symm.trans hrequired
  | absent =>
    rw [default_eq ho]
    exact ⟨hresolves, rfl⟩

/-- The second pass leaves a record alone where there is no value. -/
theorem check_absent (hc : c.registry = .builtin) (habsent : path.lookup s.record = none)
    {fuel : Nat} (h : c.check fuel path d s = .ok () s') : s'.record = s.record := by
  cases fuel with
  | zero =>
    obtain ⟨-, rfl⟩ := EStateM.Result.ok.inj h
    rfl
  | succ fuel =>
    obtain ⟨o, cache, -, hends⟩ := PassContext.check_ends hc h
    cases hends with
    | absent => rfl
    | reset hvalue => cases habsent.symm.trans hvalue
    | refuse hvalue => cases habsent.symm.trans hvalue
    | accept hvalue => cases habsent.symm.trans hvalue

theorem checkMembers_absent (hc : c.registry = .builtin) {ms : List Member} {fuel : Nat}
    (habsent : ∀ m ∈ ms, (path ++ m.relative).lookup s.record = none)
    (h : ms.forM (fun m => c.check fuel (path ++ m.relative) m.declaration) s = .ok () s') :
    s'.record = s.record := by
  induction ms generalizing s with
  | nil =>
    obtain ⟨-, rfl⟩ := EStateM.Result.ok.inj h
    rfl
  | cons m ms ih =>
    obtain ⟨hm, hms⟩ := List.forall_mem_cons.mp habsent
    obtain ⟨t, hhere, hrest⟩ := forM_cons_ok.mp h
    have ht := check_absent hc hm hhere
    rw [← ht]
    refine ih (fun n hn => ?_) hrest
    rw [ht]
    exact hms n hn

/-- The second pass leaves a record alone where it finds the default of a field. -/
theorem check_fallback (hc : c.registry = .builtin) (hsound : s.cache.Sound)
    (hvalue : path.lookup s.record = some d.fallback) {fuel : Nat}
    (h : c.check fuel path d s = .ok () s') : s'.record = s.record := by
  cases fuel with
  | zero =>
    obtain ⟨-, rfl⟩ := EStateM.Result.ok.inj h
    rfl
  | succ fuel =>
    obtain ⟨o, cache, hoptions, hends⟩ := PassContext.check_ends hc h
    obtain ⟨-, -, ho⟩ := hsound.of_resolve hoptions
    have hstays : path.set d.fallback s.record = s.record := Path.set_of_lookup hvalue
    cases hends with
    | absent => rfl
    | reset hv hverdict =>
      obtain rfl := Option.some.inj (hvalue.symm.trans hv)
      rw [eq_fallback_of_reset ho hverdict, hstays]
    | refuse hv hverdict =>
      obtain rfl := Option.some.inj (hvalue.symm.trans hv)
      rw [eq_fallback_of_refuse ho hverdict, hstays]
    | accept hv _ hmembers =>
      obtain rfl := Option.some.inj (hvalue.symm.trans hv)
      refine checkMembers_absent hc (s := { s with cache := cache }) (fun m hm => ?_) hmembers
      rw [Path.lookup_append, hvalue]
      exact lookup_fallback hm

end

/-! ### Both passes -/

section

variable {c : PassContext} {collection : Collection} {s s' : PassState} {field : String}
  {d : Declaration}

/-- The first pass gives its default to an optional field that a record lacks, unless the record is
updated. -/
theorem sanitizeRecord_default (hc : c.registry = .builtin)
    (hnames : (Entries.keys collection.fields).Nodup) (hsound : s.cache.Sound)
    (hd : (field, d) ∈ collection.fields) (hoptional : d.Optional) (hop : c.operation ≠ .update)
    (habsent : s.record.get? field = none) (h : c.sanitizeRecord collection s = .ok true s') :
    d.Resolves ∧ s'.record.get? field = some d.fallback := by
  obtain ⟨-, hloop⟩ := sanitizeRecord_loop h
  obtain ⟨t, t', hhere, hcut⟩ := PassContext.forM_fieldsFor_cut hnames
    (fun x => confined_sanitize hc _ x.1 x.2)
    (PassContext.mem_fieldsFor_of hd fun hup => absurd hup hop) hloop
  have hobject := (hcut _ fun e _ _ => .object e.1).1 rfl
  have htsound := (hcut _ fun e _ _ => .sound e.1).1 hsound
  have hnone : t.record.get? field = none := by
    refine (hcut _ fun e _ hne => .get? hne _).1 ?_
    rw [get?_pruned, habsent, ite_self]
  obtain ⟨hresolves, hset⟩ :=
    sanitize_absent hc htsound hoptional ((lookup_object hobject field).trans hnone) hhere
  refine ⟨hresolves, (hcut _ fun e _ hne => .get? hne _).2 ?_⟩
  obtain ⟨ms, hms⟩ := Value.isObject_iff.mp hobject
  rw [hset, hms, Path.set_child_root]
  exact Entries.get?_insert_self field d.fallback ms

/-- The second pass leaves a field alone that has its default. -/
theorem checkRecord_default (hc : c.registry = .builtin)
    (hnames : (Entries.keys collection.fields).Nodup) (hobject : s.record.isObject = true)
    (hsound : s.cache.Sound) (hd : (field, d) ∈ collection.fields)
    (hvalue : s.record.get? field = some d.fallback)
    (h : c.checkRecord collection s = .ok () s') : s'.record.get? field = some d.fallback := by
  have hx : (Path.root.child field, d) ∈ c.fieldsFor collection s.record := by
    refine PassContext.mem_fieldsFor_of hd fun _ => ?_
    rw [lookup_object hobject, hvalue]
    rfl
  obtain ⟨t, hcomes⟩ := exists_comesTo hx h
  obtain ⟨t', hcheck, hafter⟩ := hcomes.rest hc hnames h
  have ht := hcomes.arrives hc hnames (fun e _ _ => .object e.1) hobject
  have htsound := hcomes.arrives hc hnames (fun e _ _ => .sound e.1) hsound
  have htvalue := hcomes.arrives hc hnames (fun e _ hne => .get? hne (some d.fallback)) hvalue
  have hsame := check_fallback hc htsound ((lookup_object ht field).trans htvalue) hcheck
  refine hafter (fun s => s.record.get? field = some d.fallback) (fun e _ hne => .get? hne _) ?_
  rw [hsame]
  exact htvalue

end

/-! ### Records -/

/-- A field that may do without a value, and that a record lacks when it is created or read, comes
out with the default that its kind computes from the values of its options, whatever conditions,
constraints and further stages it has and whatever the other fields hold. -/
theorem Engine.processRecord_absent {e : Engine} (hreg : e.registry = .builtin)
    (hcache : e.cache.Sound) {name : String} {collection : Collection}
    (hcol : e.catalog.collection? name = some collection)
    (hnames : (Entries.keys collection.fields).Nodup) {record : Value}
    (hobject : record.isObject = true) {operation : Operation} (hop : operation ≠ .update)
    {batch : List Value} {errors : ErrorMap}
    (h : (e.processRecord name record operation batch).result = .ok errors)
    {field : String} {d : Declaration} (hd : (field, d) ∈ collection.fields)
    (hoptional : d.Optional) (habsent : record.get? field = none) :
    ∃ values, d.kind.definition.resolveValues field d.options = .ok values ∧
      (e.processRecord name record operation batch).records.get? field =
        some (d.kind.definition.default (.ofValues values)) ∧
      ∀ o, Registry.builtin.resolve field d = .ok o →
        d.kind.definition.default o = d.kind.definition.default (.ofValues values) := by
  obtain ⟨accepted, s₁, s₂, h₁, h₂, hprocessed, -⟩ := processRecord_ok hcol h
  obtain rfl := accepted_of_isObject (s := ⟨record, .empty, e.cache⟩) hobject h₁
  have hreg' : (e.passContext operation name batch).registry = .builtin := hreg
  obtain ⟨⟨values, hvalues⟩, hfirst⟩ := sanitizeRecord_default
    (s := ⟨record, .empty, e.cache⟩) hreg' hnames hcache hd hoptional hop habsent h₁
  have hobject₁ := sanitizeRecord_framed hreg' h₁ (fun f _ => FramedOff.object f.1) rfl
  have hsound₁ := sanitizeRecord_framed hreg' h₁ (fun f _ => FramedOff.sound f.1) hcache
  have hfinal := checkRecord_default hreg' hnames hobject₁ hsound₁ hd hfirst h₂
  have hown : d.values = values := Declaration.values_of_resolveValues hvalues
  have hfallback : d.fallback = d.kind.definition.default (.ofValues values) := by
    rw [← hown]
    rfl
  refine ⟨values, resolveValues_name hvalues field, ?_, fun o ho => ?_⟩
  · rw [hprocessed, ← hfallback]
    exact hfinal
  · rw [← hfallback, default_eq (values_of_resolve ho).2]

/-! ### An instance -/

/-- A validator that lets nothing pass. -/
def refusing : Validator where
  run _ _ := .error (.message "Refused")

/-- A summary that falls back to a text, is never shown, and may not repeat. -/
def summaryField : Declaration :=
  { (Declaration.ofKind .text).option "default" (.string "none yet") with
    additional := { unique := true, validators := [refusing] } }

def digests : Collection where
  name := "digests"
  fields := [("summary", summaryField),
    ("parts", (Declaration.ofKind .object).subfield "lead" (.ofKind .text))]

theorem processRecord_absent_digest :
    let e := Engine.ofCatalog ⟨[("digests", digests)], []⟩
    (e.processRecord "digests" (.object []) .create []).result =
        .ok ⟨[("summary", "Refused")]⟩ ∧
      summaryField.Optional ∧
      ∃ values, summaryField.kind.definition.resolveValues "summary" summaryField.options =
          .ok values ∧
        (e.processRecord "digests" (.object []) .create []).records.get? "summary" =
          some (summaryField.kind.definition.default (.ofValues values)) := by
  intro e
  have hcol : e.catalog.collection? "digests" = some digests := rfl
  have hresult : (e.processRecord "digests" (.object []) .create []).result =
      .ok ⟨[("summary", "Refused")]⟩ := rfl
  have hoptional : summaryField.Optional := .inr rfl
  obtain ⟨values, hvalues, hfinal, -⟩ := Engine.processRecord_absent rfl OptionCache.sound_empty
    hcol (by decide) rfl (by decide) hresult List.mem_cons_self hoptional rfl
  exact ⟨hresult, hoptional, values, hvalues, hfinal⟩

end ContentSchema
