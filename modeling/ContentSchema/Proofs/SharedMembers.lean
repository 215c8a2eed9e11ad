import ContentSchema.Proofs.Sweeps

/-!
# Shared members — both passes go through the same members

Each pass reads the members of a value off the record as it finds it.  The second pass comes to
values as the first left them (`Reaches.finds`), and the first left them the members that it went
through (`sanitizeRecord_sweeps`).  So the two go through the same members
(`Engine.processRecord_visits`): what is validated was sanitized, and what was sanitized in a value
that is accepted is validated (`Reaches.goes_on`).
-/

namespace ContentSchema

/-! ### Members that the second pass goes through -/

/-- The second pass accepts the value of a composite place, and goes through its members. -/
structure Visit.Enters (a : Visit) (c : PassContext) (v : Value) : Prop where
  fuel : 0 < a.fuel
  composite : a.declaration.kind.isComposite = true
  value : a.path.lookup a.state.record = some v
  accepted : ∃ o, (a.state.cache.resolve c.registry a.path.name a.declaration).1 = .ok o ∧
    c.verdict a.path a.declaration o a.state.record v = .accept

section

variable {c : PassContext} {collection : Collection} {s s' : PassState} {a b : Visit}
  {v x : Value} {P : Path → Declaration → Value → Prop}

namespace PassContext.Leads

/-- The pass comes to what was there in the beginning, where no members meet, and with fuel for
it. -/
theorem finds (hc : c.registry = .builtin)
    (hP : ∀ path d v, P path d v → MembersApart v (c.catalog.members d v)) (h : c.Leads a b)
    (ha : ∀ v, a.path.lookup a.state.record = some v →
      v.weight < a.fuel ∧ Everywhere c.catalog P a.path a.declaration v)
    (hx : b.path.lookup b.state.record = some x) :
    x.weight < b.fuel ∧ Everywhere c.catalog P b.path b.declaration x := by
  induction h with
  | here a => exact ha x hx
  | @member fuel path d s t o cache v before after m b hoptions hvalue haccept hmembers hbefore
      hbelow ih =>
    obtain ⟨hweight, hall⟩ := ha v hvalue
    have huntangled : Untangled c.catalog path d v := hall.imp hP
    obtain ⟨hplace, -⟩ :=
      huntangled.finds (s := { s with cache := cache }) hc hvalue hmembers hbefore
    have hm : m ∈ c.catalog.members d v := hmembers ▸ List.mem_append_cons_self
    refine ih (fun w hw => ?_) hx
    have hw : m.relative.lookup v = some w := hplace.symm.trans hw
    have hlight := Catalog.weight_member hm hw
    exact ⟨by simp only at hweight ⊢; omega, hall.member hm hw⟩

end PassContext.Leads

/-- What the pass does with a value that it enters is what it does with its members, in order. -/
theorem Visit.Enters.run (h : a.Enters c v) (hc : c.registry = .builtin) :
    c.check a.fuel a.path a.declaration a.state = (c.catalog.members a.declaration v).forM
      (fun m => c.check (a.fuel - 1) (a.path ++ m.relative) m.declaration)
      { a.state with cache := (a.state.cache.resolve c.registry a.path.name a.declaration).2 } := by
  obtain ⟨fuel, path, d, s⟩ := a
  obtain ⟨hpos, hcomposite, hvalue, o, hoptions, haccept⟩ := h
  obtain ⟨fuel, rfl⟩ := Nat.exists_eq_succ_of_ne_zero hpos.ne'
  obtain ⟨⟨result, cache⟩, hp⟩ : ∃ p, s.cache.resolve c.registry path.name d = p := ⟨_, rfl⟩
  obtain rfl : result = .ok o := (congrArg Prod.fst hp).symm.trans hoptions
  simp only at hvalue haccept hcomposite
  rw [PassContext.check_run hc, ← hc, hp]
  simp only [hvalue, haccept, composite_definition, hcomposite, if_true]
  rfl

/-- From a value that it enters the pass comes to every member, with the value that it has. -/
theorem Visit.Enters.leads (h : a.Enters c v) (hc : c.registry = .builtin)
    (hapart : MembersApart v (c.catalog.members a.declaration v))
    (hrun : a.run c a.state = .ok () s') {m : Member}
    (hm : m ∈ c.catalog.members a.declaration v) :
    ∃ t, c.Leads a ⟨a.fuel - 1, a.path ++ m.relative, m.declaration, t⟩ ∧
      (a.path ++ m.relative).lookup t.record = m.relative.lookup v := by
  unfold Visit.run at hrun
  rw [h.run hc] at hrun
  obtain ⟨before, after, hmembers⟩ := List.append_of_mem hm
  rw [hmembers] at hrun hapart
  obtain ⟨t, -, hbefore, -, -⟩ := forM_cut hrun
  obtain ⟨fuel, path, d, s⟩ := a
  obtain ⟨hpos, -, hvalue, o, hoptions, haccept⟩ := h
  obtain ⟨fuel, rfl⟩ := Nat.exists_eq_succ_of_ne_zero hpos.ne'
  refine ⟨t, .member (Prod.ext hoptions rfl) hvalue haccept hmembers hbefore (.here _), ?_⟩
  obtain ⟨u, hu, -, hsame⟩ := checkMembers_others
    (s := { s with cache := (s.cache.resolve c.registry path.name d).2 }) hc hvalue hapart hbefore
  rw [Path.lookup_append, hu, Option.bind_some, hsame m List.mem_cons_self]

/-! ### Records -/

/-- The pass finds a field that takes part as it was in the beginning, with fuel for it. -/
theorem PassContext.ComesTo.untouched (hc : c.registry = .builtin)
    (hnames : (Entries.keys collection.fields).Nodup) (hobject : s.record.isObject = true)
    (hs : ∀ x ∈ c.fieldsFor collection s.record, ∀ v, x.1.lookup s.record = some v →
      Everywhere c.catalog P x.1 x.2 v) {field : String} {d : Declaration} {t : PassState}
    (h : c.ComesTo collection s (Path.root.child field, d) t)
    (hv : (Path.root.child field).lookup t.record = some v) :
    v.weight < PassContext.fuelAt s.record (Path.root.child field) ∧
      Everywhere c.catalog P (Path.root.child field) d v := by
  rw [h.lookup_same hc hnames hobject] at hv
  obtain ⟨before, after, hlist, -⟩ := h
  exact ⟨PassContext.weight_lt_fuelAt hv, hs _ (hlist ▸ List.mem_append_cons_self) v hv⟩

namespace PassContext.Reaches

variable (hc : c.registry = .builtin) (hnames : (Entries.keys collection.fields).Nodup)
  (hP : ∀ path d v, P path d v → MembersApart v (c.catalog.members d v))
  (hobject : s.record.isObject = true)
  (hs : ∀ x ∈ c.fieldsFor collection s.record, ∀ v, x.1.lookup s.record = some v →
    Everywhere c.catalog P x.1 x.2 v)
include hc hnames hP hobject hs

/-- What holds everywhere in the fields that take part holds of what the pass comes to. -/
theorem finds (h : c.Reaches collection s a) (hx : a.path.lookup a.state.record = some x) :
    x.weight < a.fuel ∧ Everywhere c.catalog P a.path a.declaration x := by
  obtain ⟨field, d, t, -, hcomes, hleads⟩ := h.field
  exact hleads.finds hc hP (fun v hv => hcomes.untouched hc hnames hobject hs hv) hx

/-- From a value that it enters the pass comes to every member, with the value that it has. -/
theorem goes_on (h : c.Reaches collection s a) (henters : a.Enters c v)
    (hrun : c.checkRecord collection s = .ok () s') {m : Member}
    (hm : m ∈ c.catalog.members a.declaration v) :
    ∃ t, c.Reaches collection s ⟨a.fuel - 1, a.path ++ m.relative, m.declaration, t⟩ ∧
      (a.path ++ m.relative).lookup t.record = m.relative.lookup v := by
  have hapart := hP _ _ _ (h.finds hc hnames hP hobject hs henters.value).2.here
  obtain ⟨field, d, u, -, hcomes, hleads⟩ := h.field
  obtain ⟨u', hhere, -⟩ := hcomes.rest hc hnames hrun
  obtain ⟨t', ht', -⟩ := hleads.stays hc
    (fun v hv => (hcomes.untouched hc hnames hobject hs hv).2.imp hP) henters.value hhere
  obtain ⟨t, hbelow, hplace⟩ := henters.leads hc hapart ht' hm
  exact ⟨t, ⟨_, u, hcomes, hleads.trans hbelow⟩, hplace⟩

end PassContext.Reaches

end

/-- Both passes go through the same members.  To each place with a value that the second pass comes
to the first came too, once and for the same declaration, and after what it did there itself it
sanitized members one after the other.  If the second pass goes on to the members of the value and
checks one after the other, then those that the first sanitized are the ones among them that have
values, in the same order, and the second comes to each of these.

No variant may have a field in the place of the key that tells its fields, and no composite
declaration sanitizers of its own: the fuel of a pass is for the values that it is given. -/
theorem Engine.processRecord_visits {e : Engine} (hreg : e.registry = .builtin)
    (hcat : e.catalog.Registered) {name : String} {collection : Collection}
    (hcol : e.catalog.collection? name = some collection)
    (hnames : e.catalog.NamesApart collection.fields)
    (hvariants : ∀ d, e.catalog.InUse collection.fields d → d.kind = .structured → d.KeepsVariant)
    (hsanitizers : ∀ d, e.catalog.InUse collection.fields d → d.kind.isComposite = true →
      d.additional.sanitizers = [])
    {record : Value} {operation : Operation} {batch : List Value} {errors : ErrorMap}
    (h : (e.processRecord name record operation batch).result = .ok errors) :
    let c := e.passContext operation name batch
    let start : PassState := ⟨record, .empty, e.cache⟩
    ∃ s, c.sanitizeRecord collection start = .ok record.isObject s ∧
      (record.isObject = true → ∀ a v, c.Reaches collection s a →
        a.path.lookup a.state.record = some v →
          ∃ b goes t, OnlyVisit (c.Cleans collection start) a.path a.declaration b ∧
            c.sanitizeHere b.path b.declaration b.state = .ok goes t ∧
            c.sanitize b.fuel b.path b.declaration b.state = (b.sanitized c).forM
              (fun m => c.sanitize (b.fuel - 1) (b.path ++ m.relative) m.declaration) t ∧
            (a.Enters c v →
              c.check a.fuel a.path a.declaration a.state =
                (c.catalog.members a.declaration v).forM
                  (fun m => c.check (a.fuel - 1) (a.path ++ m.relative) m.declaration)
                  { a.state with
                    cache := (a.state.cache.resolve c.registry a.path.name a.declaration).2 } ∧
              b.sanitized c = c.catalog.presentMembers a.declaration v ∧
              ∀ m ∈ b.sanitized c, 1 < a.fuel ∧ ∃ t,
                c.Reaches collection s ⟨a.fuel - 1, a.path ++ m.relative, m.declaration, t⟩ ∧
                  ((a.path ++ m.relative).lookup t.record).isSome = true)) := by
  intro c start
  obtain ⟨accepted, s₁, s₂, h₁, h₂, -, -⟩ := processRecord_ok hcol h
  have hc : c.registry = .builtin := hreg
  cases hobject : record.isObject with
  | false => exact ⟨_, PassContext.sanitizeRecord_other (s := start) collection hobject, nofun⟩
  | true =>
    obtain rfl := accepted_of_isObject (s := start) hobject h₁
    have hkeeps : c.catalog.KeepsMembers collection.fields :=
      ⟨hcat.keyed, hnames, hvariants, hsanitizers⟩
    have hobject₁ : s₁.record.isObject = true := (sanitizeRecord_fields hc h₁).1
    have hswept : ∀ x ∈ c.fieldsFor collection s₁.record, ∀ v, x.1.lookup s₁.record = some v →
        Everywhere c.catalog (SweptOnce c (c.Cleans collection start)) x.1 x.2 v := by
      intro x hx v hv
      obtain ⟨w, hw, hall⟩ := sanitizeRecord_sweeps hc hkeeps h₁ hx
      obtain rfl := Option.some.inj (hw.symm.trans hv)
      exact hall
    -- where members do not meet, the second pass comes to values as the first left them
    have hapart : ∀ path d v, SweptOnce c (c.Cleans collection start) path d v →
        MembersApart v (c.catalog.members d v) := fun _ _ _ h => h.apart
    refine ⟨s₁, h₁, fun _ a v ha hv => ?_⟩
    obtain ⟨-, hall⟩ := ha.finds hc hnames.top hapart hobject₁ hswept hv
    obtain ⟨b, hb, hsame⟩ := hall.here.visit
    obtain ⟨t', hends⟩ := hb.comes.run h₁
    obtain ⟨goes, t, hgoes, hrun⟩ := Visit.exists_sanitized_run hb.fuel hends
    refine ⟨b, goes, t, hb, hgoes, hrun, fun henters =>
      ⟨henters.run hc, hsame, fun m hm => ?_⟩⟩
    rw [hsame, Catalog.mem_presentMembers] at hm
    obtain ⟨hm, u, hu⟩ := hm
    obtain ⟨t, ht, hplace⟩ := ha.goes_on hc hnames.top hapart hobject₁ hswept henters h₂ hm
    -- there is fuel for the member, since there is for its value
    have hfound := hplace.trans hu
    obtain ⟨hweight, -⟩ := ht.finds hc hnames.top hapart hobject₁ hswept hfound
    simp only at hweight
    exact ⟨by omega, t, ht, by rw [hfound]; rfl⟩

/-! ### An instance -/

/-- A text whose words are joined by dashes. -/
def labelField : Declaration where
  kind := .text
  additional :=
    { sanitizers := [Kinds.change fun v =>
        match v with
        | .string s => .string (Kinds.slugify s)
        | v => v] }

def partsField : Declaration := { kind := .repeater, subfields := [("label", labelField)] }

/-- Steps are notes or lists of parts. -/
def stepsField : Declaration where
  kind := .structured
  variants := [("note", [("line", .ofKind .text)]), ("list", [("parts", partsField)])]

def guides : Collection where
  name := "guides"
  fields := [("steps", stepsField)]

def guidesCatalog : Catalog := ⟨[("guides", guides)], []⟩

/-- A list of one part without a label and with a key that is unknown, and a note without a line. -/
def guide : Value :=
  .object [("steps", .list [.object [("$key", .string "list"), ("junk", .null),
    ("parts", .list [.object []])], .object [("$key", .string "note")]])]

/-- What the first pass makes of its steps. -/
def cleanSteps : Value :=
  .list [.object [("$key", .string "list"),
      ("parts", .list [.object [("label", .string "")]])],
    .object [("$key", .string "note"), ("line", .string "")]]

theorem registered_guides : guidesCatalog.Registered := by
  have hcollection : Catalog.empty.registerCollection guides = .ok guidesCatalog := rfl
  exact .collection .empty hcollection

theorem inUse_guides {d : Declaration} (hd : guidesCatalog.InUse guides.fields d) :
    d ∈ [stepsField, partsField, .ofKind .text, labelField] := by
  refine hd.inPlay.among ?_ ?_ ?_
  · simp [guides]
  · exact fun _ _ h => nomatch h
  · simp [stepsField, partsField, labelField, Declaration.ofKind, -Prod.forall]

theorem namesApart_guides : guidesCatalog.NamesApart guides.fields := by
  refine ⟨nofun, by decide, fun d hd => ?_⟩
  have hall : ∀ d ∈ [stepsField, partsField, .ofKind .text, labelField], d.Distinct := by
    rw [List.forall_mem_cons, List.forall_mem_cons, List.forall_mem_cons, List.forall_mem_singleton]
    exact ⟨⟨by decide, by decide⟩, ⟨by decide, List.forall_mem_nil _⟩,
      ⟨by decide, List.forall_mem_nil _⟩, ⟨by decide, List.forall_mem_nil _⟩⟩
  exact hall d (inUse_guides hd)

/-- The second pass goes through the members of these steps. -/
theorem enters_steps {s : PassState} (hs : s.cache.Sound)
    (hrecord : s.record = .object [("steps", cleanSteps)]) :
    let path := Path.root.child "steps"
    Visit.Enters ⟨PassContext.fuelAt s.record path, path, stepsField, s⟩
      ((Engine.ofCatalog guidesCatalog).passContext .create "guides" []) cleanSteps := by
  intro path
  obtain ⟨o, hresolves⟩ : ∃ o, Registry.builtin.resolve "steps" stepsField = .ok o := ⟨_, rfl⟩
  obtain ⟨o', ho'⟩ := OptionCache.exists_resolve hresolves s.cache
  have hvalues := ((hs.resolve "steps" stepsField).2 o' ho').2
  refine ⟨Nat.succ_pos _, rfl, by rw [hrecord]; rfl, o', ho', ?_⟩
  rw [verdict_accept rfl rfl hvalues, hrecord]
  exact (judge_accepts (o := stepsField.ownOptions) rfl rfl).mp rfl

/-- Both passes go from the steps to the parts of the first one and to the line of the second, which
was not given.  What else is done to labels does not matter. -/
theorem processRecord_visits_guide :
    let e := Engine.ofCatalog guidesCatalog
    let c := e.passContext .create "guides" []
    let start : PassState := ⟨guide, .empty, e.cache⟩
    let path := Path.root.child "steps"
    ∃ s b, c.sanitizeRecord guides start = .ok true s ∧
      OnlyVisit (c.Cleans guides start) path stepsField b ∧
      (b.sanitized c).map (fun m => m.relative.text) = ["0.parts", "1.line"] ∧
      ∀ m ∈ b.sanitized c, ∃ a, c.Reaches guides s a ∧ a.path = path ++ m.relative ∧
        a.declaration = m.declaration ∧ (a.path.lookup a.state.record).isSome = true := by
  intro e c start path
  have hresult : (e.processRecord "guides" guide .create []).result =
      .ok ⟨[("steps.0.junk", "Unrecognized field name")]⟩ := by decide +kernel
  have hvariants : ∀ d ∈ [stepsField, partsField, .ofKind .text, labelField], d.KeepsVariant := by
    unfold Declaration.KeepsVariant
    decide
  have hsanitizers : ∀ d ∈ [stepsField, partsField, .ofKind .text, labelField],
      d.kind.isComposite = true → d.additional.sanitizers = [] := by
    simp [stepsField, partsField, labelField, Declaration.ofKind, FieldKind.isComposite]
  obtain ⟨s, hs, hvisits⟩ := Engine.processRecord_visits (e := e) rfl registered_guides rfl
    namesApart_guides (fun d hd _ => hvariants d (inUse_guides hd))
    (fun d hd => hsanitizers d (inUse_guides hd)) hresult
  have hs : c.sanitizeRecord guides start = .ok true s := hs
  have hrecord : (PassState.after (c.sanitizeRecord guides start)).record =
      .object [("steps", cleanSteps)] := by decide +kernel
  rw [hs] at hrecord
  have hsound : s.cache.Sound := sanitizeRecord_framed (P := fun s => s.cache.Sound) rfl hs
    (fun f _ => .sound f.1) OptionCache.sound_empty
  have henters := enters_steps hsound hrecord
  have hsteps : c.Reaches guides s ⟨PassContext.fuelAt s.record path, path, stepsField, s⟩ :=
    ⟨(path, stepsField), s, ⟨[], [], rfl, rfl⟩, .here _⟩
  obtain ⟨b, -, -, hb, -, -, henter⟩ := hvisits rfl _ _ hsteps henters.value
  obtain ⟨-, hsame, hchecked⟩ := henter henters
  have hpresent : (guidesCatalog.presentMembers stepsField cleanSteps).map
      (fun m => m.relative.text) = ["0.parts", "1.line"] := by decide +kernel
  refine ⟨s, b, hs, hb, ?_, fun m hm => ?_⟩
  · rw [hsame]
    exact hpresent
  · obtain ⟨-, t, ht, hfound⟩ := hchecked m hm
    exact ⟨_, ht, rfl, rfl, hfound⟩

end ContentSchema
