import ContentSchema.Proofs.FieldLocality
import ContentSchema.Proofs.StableValues

/-!
# Required fields — when a value that is not filled in is reported

The second pass reports a required field whose value is empty, but it judges the value that the
first pass left.  Sanitizers and shaping leave empty values empty (`clean_of_isEmpty`,
`shape_of_isEmpty`) and a missing one becomes null, so that the field is reported.  The one
exception is an empty object of a field with subfields: its members are filled in first, and what
the second pass sees is not empty any more (`Declaration.FillsIn`).  The message stands at the
field, unless an earlier message inside a field whose name the path continues has the same key
(`Engine.processRecord_required_iff`).
-/

namespace ContentSchema

/-! ### Empty values -/

theorem Value.isEmpty_iff {v : Value} :
    v.isEmpty = true ↔ v = .null ∨ v = .string "" ∨ v = .list [] ∨ v = .object [] := by
  cases v <;> simp [Value.isEmpty]

/-- The kinds that have an option `required`, which are all but the checkbox. -/
theorem required_definition (k : FieldKind) :
    k.definition.required = true ↔ k ≠ .checkbox := by
  cases k <;> decide

namespace Declaration

variable {d : Declaration} {v : Value}

/-- Sanitizers leave empty values empty. -/
theorem clean_of_isEmpty (hd : d.kind.definition.required = true) (hv : v.isEmpty = true) :
    d.clean v = v := by
  obtain ⟨kind, options, subfields, variants, additional⟩ := d
  have hkind : kind ≠ .checkbox := (required_definition kind).mp hd
  rcases Value.isEmpty_iff.mp hv with rfl | rfl | rfl | rfl
  · exact clean_null _
  · cases kind with
    | checkbox => exact (hkind rfl).elim
    | text =>
      show (if _ then Value.string (Text.trim "") else .string "") = .string ""
      split <;> rfl
    | _ => rfl
  · cases kind with
    | checkbox => exact (hkind rfl).elim
    | _ => rfl
  · cases kind with
    | checkbox => exact (hkind rfl).elim
    | _ => rfl

/-- Empty values are in shape. -/
theorem shape_of_isEmpty (c : Catalog) (d : Declaration) (o : Options) (base : Path)
    (hv : v.isEmpty = true) : c.shape d o base v = ⟨v, [], true⟩ := by
  obtain ⟨kind, options, subfields, variants, additional⟩ := d
  rcases Value.isEmpty_iff.mp hv with rfl | rfl | rfl | rfl
  · cases kind <;> rfl
  · cases kind <;> rfl
  · cases kind with
    | blocks =>
      show (c.shapeBlocks (o.strings? "allowed-blocks") base 0 []).map Value.list = _
      rw [Catalog.shapeBlocks]
      rfl
    | _ => rfl
  · cases kind <;> rfl

/-- An empty object whose members are filled in with those of the declaration. -/
def FillsIn (d : Declaration) (v : Value) : Prop :=
  d.kind = .object ∧ d.subfields ≠ [] ∧ v = .object []

/-- Any other empty value has no members. -/
theorem members_of_isEmpty (c : Catalog) (hv : v.isEmpty = true) (hfills : ¬ d.FillsIn v) :
    c.members d v = [] := by
  rcases Value.isEmpty_iff.mp hv with rfl | rfl | rfl | rfl
  · exact c.members_eq_nil d rfl rfl
  · exact c.members_eq_nil d rfl rfl
  · rw [c.members_list]
    rfl
  · rw [c.members_object]
    by_cases hk : d.kind = .object
    · have hnone : d.subfields = [] := not_not.mp fun hne => hfills ⟨hk, hne, rfl⟩
      rw [if_pos hk, hnone]
      rfl
    · rw [if_neg hk]

end Declaration

/-! ### The option -/

/-- An option that is supplied keeps the supplied value. -/
theorem get?_resolveRest {d : Definition} {name option : String} {supplied : Entries Value}
    {value : Value} (hsupplied : Entries.get? option supplied = some value)
    {specs : List (String × OptionSpec)} {resolved values : Entries Value}
    (h : d.resolveRest name supplied specs resolved = .ok values)
    (hhere : Entries.get? option resolved = some value ∨ Entries.contains option specs = true) :
    Entries.get? option values = some value := by
  induction specs generalizing resolved with
  | nil =>
    rw [← Except.ok.inj h]
    rcases hhere with hhere | hhere
    · exact hhere
    · cases hhere
  | cons e specs ih =>
    obtain ⟨key, spec⟩ := e
    unfold Definition.resolveRest at h
    by_cases hkey : key = option
    · subst hkey
      simp only [hsupplied] at h
      split at h
      · exact ih h (.inl (Entries.get?_insert_self ..))
      · cases h
    · have hlater : ∀ w, Entries.get? option (resolved.insert key w) = some value ∨
          Entries.contains option specs = true := by
        intro w
        rw [Entries.get?_insert_of_ne hkey]
        refine hhere.imp_right fun hcontains => ?_
        rwa [Entries.contains_eq, Entries.get?_cons, if_neg hkey] at hcontains
      split at h
      · split at h
        · exact ih h (hlater _)
        · cases h
      · split at h
        · cases h
        · exact ih h (hlater _)

/-- Options that resolve are options of the kind, and keep their supplied values. -/
theorem get?_resolveValues {d : Definition} {name option : String} {supplied : Entries Value}
    {value : Value} (hsupplied : Entries.get? option supplied = some value)
    {values : Entries Value} (h : d.resolveValues name supplied = .ok values) :
    Entries.contains option d.options = true ∧ Entries.get? option values = some value := by
  unfold Definition.resolveValues at h
  split at h
  · cases h
  · next hunknown =>
    have hkey : option ∈ Entries.keys supplied :=
      Entries.contains_iff_mem_keys.mp (Entries.contains_iff.mpr ⟨value, hsupplied⟩)
    have hcontains : Entries.contains option d.options = true := by
      simpa using List.find?_eq_none.mp hunknown _ hkey
    exact ⟨hcontains, get?_resolveRest hsupplied h (.inr hcontains)⟩

/-- A declaration that asks for a value is of a kind that may, and its options say so. -/
theorem required_of_resolves {d : Declaration} (h : d.Resolves) (hrequired : d.isRequired = true)
    {o : Options} (ho : o.values = d.values) :
    d.kind.definition.required = true ∧ o.flag "required" = true := by
  obtain ⟨values, hv⟩ := h
  rw [Declaration.values_of_resolveValues hv] at ho
  have hsupplied : Entries.get? "required" d.options = some (.bool true) := by
    unfold Declaration.isRequired at hrequired
    cases hget : Entries.get? "required" d.options with
    | none => simp [hget] at hrequired
    | some v => cases v <;> simp_all [Value.bool?]
  obtain ⟨hcontains, hvalue⟩ := get?_resolveValues hsupplied hv
  refine ⟨hcontains, ?_⟩
  unfold Options.flag Options.get
  rw [ho, hvalue]
  rfl

/-! ### Judgements of empty values -/

/-- The check of a kind that has the option `required` comes first. -/
theorem validators_required {k : FieldKind} (hk : k.definition.required = true) :
    ∃ rest, k.definition.validators = Kinds.requiredCheck :: rest := by
  cases k with
  | checkbox => cases hk
  | _ => exact ⟨_, rfl⟩

/-- Without conditions the judgement decides. -/
theorem verdict_unconditional {c : PassContext} {d : Declaration} {path : Path} {o : Options}
    {record v : Value} (hlogic : d.additional.logic = none) :
    c.verdict path d o record v = .ofJudgement (d.kind.definition.default o)
      (judge (c.fieldContext path d.kind.definition o record) d.kind.definition d.additional
        v) := by
  unfold PassContext.verdict
  rw [hlogic]
  rfl

/-- The second pass refuses the empty value of a required field. -/
theorem verdict_required {c : PassContext} {d : Declaration} {path : Path} {o : Options}
    {record v : Value} (hlogic : d.additional.logic = none)
    (hkind : d.kind.definition.required = true) (hflag : o.flag "required" = true)
    (hv : v.isEmpty = true) :
    c.verdict path d o record v = .refuse Message.required (d.kind.definition.default o) := by
  obtain ⟨rest, hvalidators⟩ := validators_required hkind
  have hcheck : Kinds.requiredCheck.run (c.fieldContext path d.kind.definition o record) v =
      .error (.message Message.required) := by
    show Kinds.ensure (!(o.flag "required" && v.isEmpty)) _ = _
    rw [hflag, hv]
    rfl
  have happlies : ∀ operation, Kinds.requiredCheck.filter.applies operation = true :=
    OperationFilter.applies_any
  have hrun : runValidators (c.fieldContext path d.kind.definition o record) v
      (d.kind.definition.validators ++ d.additional.validators) =
        .error (.message Message.required) := by
    simp only [hvalidators, List.cons_append, runValidators, happlies, if_true, hcheck]
  rw [verdict_unconditional hlogic]
  unfold judge
  rw [hrun]
  rfl

/-- A judgement that does not ask for a value. -/
def Satisfied (judgement : Except FieldError Unit) : Prop :=
  ∀ e, judgement = .error e → e.messageText ≠ Message.required

namespace Satisfied

theorem ok : Satisfied (.ok ()) := nofun

theorem message {text : String} (h : text ≠ Message.required) :
    Satisfied (.error (.message text)) := by
  intro e he
  rw [← Except.error.inj he]
  exact h

theorem ne_required {start rest : String} (h : start.toList.head? ≠ none)
    (hstart : start.toList.head? ≠ Message.required.toList.head?) :
    start ++ rest ≠ Message.required := by
  intro htext
  have hhead := congrArg (fun s => s.toList.head?) htext
  simp only [String.toList_append, List.head?_append] at hhead
  obtain ⟨c, hc⟩ := Option.ne_none_iff_exists'.mp h
  rw [hc, Option.some_or] at hhead
  exact hstart (hc.trans hhead)

/-- The failure of a record source says so. -/
theorem query (e : QueryError) : Satisfied (.error (.query e)) := by
  intro e' he
  rw [← Except.error.inj he]
  cases e with
  | unknownCollection name => exact ne_required (by decide) (by decide)
  | source detail => exact ne_required (by decide) (by decide)

theorem bind {m : Except FieldError Unit} {f : Unit → Except FieldError Unit} (hm : Satisfied m)
    (hf : Satisfied (f ())) : Satisfied (m >>= f) := by
  cases m with
  | ok a => exact hf
  | error e => exact fun e' h => hm e' h

theorem checkUnique (context : FieldContext) (v : Value) : Satisfied (checkUnique context v) := by
  unfold ContentSchema.checkUnique
  simp only
  repeat' first | exact ok | exact message (by decide) | exact query _ | split

theorem checkImmutable (context : FieldContext) (v : Value) :
    Satisfied (checkImmutable context v) := by
  unfold ContentSchema.checkImmutable
  simp only
  repeat' first | exact ok | exact message (by decide) | exact query _ | split

/-- An object that is not empty is not asked for. -/
theorem judge {context : FieldContext} {additional : Additional} {ms : Entries Value}
    (hms : ms ≠ []) (hvalidators : additional.validators = []) :
    Satisfied (judge context FieldKind.object.definition additional (.object ms)) := by
  have hfilled : (Value.object ms).isEmpty = false := by
    cases ms with
    | nil => exact (hms rfl).elim
    | cons m ms => rfl
  have hrun : runValidators context (.object ms) FieldKind.object.definition.validators =
      .ok () := by
    refine runValidators_ok.mpr fun l hl _ => ?_
    rcases List.mem_cons.mp hl with rfl | hl
    · show Kinds.ensure (!(context.options.flag "required" && (Value.object ms).isEmpty)) _ = _
      rw [hfilled, Bool.and_false]
      rfl
    · rw [List.mem_singleton.mp hl]
      rfl
  unfold ContentSchema.judge
  rw [hvalidators, List.append_nil, hrun]
  refine bind ok ?_
  extract_lets constraint
  have hrest : Satisfied (constraint ()) := by
    unfold constraint
    split
    · exact checkImmutable _ _
    · exact ok
  split
  · exact bind (checkUnique _ _) hrest
  · exact hrest

end Satisfied

/-! ### The first pass -/

section FirstPass

variable {c : PassContext} {s s' : PassState} {field : String} {d : Declaration} {v : Value}

/-- A required field that is empty or missing keeps its empty value, or has null, until its members
are sanitized. -/
theorem sanitize_required (hc : c.registry = .builtin) (hsound : s.cache.Sound)
    (hobject : s.record.isObject = true) (hrequired : d.isRequired = true)
    (hs : d.additional.sanitizers = []) (hvalue : (s.record.get? field).getD .null = v)
    (hempty : v.isEmpty = true) {fuel : Nat}
    (h : c.sanitize (fuel + 1) (Path.root.child field) d s = .ok () s') :
    ∃ cache, (c.catalog.members d v).forM
        (fun m => c.sanitize fuel (Path.root.child field ++ m.relative) m.declaration)
        ⟨(Path.root.child field).set v s.record, s.errors, cache⟩ = .ok () s' := by
  have hroom : (Path.root.child field).HasRoom s.record := by
    obtain ⟨ms, hms⟩ := Value.isObject_iff.mp hobject
    exact hms ▸ Path.room_singleton field ms
  obtain ⟨o, cache, hoptions, hends⟩ := PassContext.sanitize_ends hc h
  obtain ⟨-, hresolves, ho⟩ := hsound.of_resolve hoptions
  obtain ⟨hkind, hflag⟩ := required_of_resolves hresolves hrequired ho
  have hpresent : c.sanitizePresent (c.sanitize fuel) (Path.root.child field) d
      d.kind.definition o v { s with cache := cache } = .ok () s' := by
    cases hends with
    | present hu hrun =>
      rw [lookup_object hobject] at hu
      rw [hu] at hvalue
      exact hvalue ▸ hrun
    | required hnone _ hrun =>
      rw [lookup_object hobject] at hnone
      rw [hnone] at hvalue
      exact hvalue ▸ hrun
    | absent _ hoptional => rw [hkind, hflag] at hoptional; cases hoptional
  have hclean : c.cleaned (Path.root.child field) d o s.record v = v := by
    rw [cleaned_eq hs ho, Declaration.clean_of_isEmpty hkind hempty]
  rw [PassContext.sanitizePresent_run (s := { s with cache := cache }) _ hroom] at hpresent
  simp only [hclean, Declaration.shape_of_isEmpty c.catalog d o _ hempty, composite_definition,
    if_true] at hpresent
  refine ⟨cache, ?_⟩
  cases hcomp : d.kind.isComposite with
  | true =>
    rw [if_pos hcomp] at hpresent
    exact hpresent
  | false =>
    rw [if_neg (by rw [hcomp]; decide)] at hpresent
    rw [c.catalog.members_leaf hcomp]
    exact hpresent

/-- A field that holds an object with members. -/
def Filled (field : String) (s : PassState) : Prop :=
  s.record.isObject = true ∧ ∃ ms, s.record.get? field = some (.object ms) ∧ ms ≠ []

theorem insert_ne_nil {α : Type} (key : String) (x : α) (es : Entries α) :
    Entries.insert key x es ≠ [] := by
  intro hnil
  have hself := Entries.get?_insert_self key x es
  rw [hnil] at hself
  cases hself

/-- The object keeps members whatever is stored inside it. -/
theorem frame_filled (field : String) :
    Frame (Filled field) (fun p => ∃ q, q.segments ≠ [] ∧ p = Path.root.child field ++ q)
      fun _ => True where
  resolve _ _ h := h
  store := by
    rintro s _ w ⟨q, hq, rfl⟩ ⟨hobject, ms, hms, hne⟩
    refine ⟨Path.isObject_set (List.cons_ne_nil _ _) w hobject, ?_⟩
    rw [get?_set_below hobject, if_neg hq, hms, Option.map_some]
    rcases Path.set_object hq w ms with hsame | ⟨key, x, hset⟩
    · exact ⟨ms, congrArg some hsame, hne⟩
    · exact ⟨_, congrArg some hset, insert_ne_nil key x ms⟩
  report _ _ h := h

/-- Sanitizing the members of an empty object fills it. -/
theorem sanitize_fills (hc : c.registry = .builtin) (hobject : s.record.isObject = true)
    (hvalue : s.record.get? field = some (.object [])) {schema : Schema} (hschema : schema ≠ [])
    {fuel : Nat}
    (h : (Member.ofSchema .root schema).forM
      (fun m => c.sanitize (fuel + 1) (Path.root.child field ++ m.relative) m.declaration) s =
        .ok () s') : Filled field s' := by
  obtain ⟨⟨key, d⟩, rest, rfl⟩ := List.exists_cons_of_ne_nil hschema
  obtain ⟨t, hfirst, hrest⟩ := forM_cons_ok.mp h
  change c.sanitize (fuel + 1) (Path.root.child field ++ Path.root.child key) d s = .ok () t
    at hfirst
  have hframe : ∀ m ∈ Member.ofSchema .root ((key, d) :: rest), Frame (Filled field)
      (Path.root.child field ++ m.relative).Under (Path.root.child field ++ m.relative).Under := by
    intro m hm
    refine (frame_filled field).mono ?_ fun _ _ => trivial
    rintro _ ⟨q, rfl⟩
    refine ⟨m.relative ++ q, fun hnil => ?_, Path.append_assoc _ _ _⟩
    exact Catalog.mem_ofSchema_ne hm (List.append_eq_nil_iff.mp hnil).1
  have ht : Filled field t := by
    have hroom : (Path.root.child field ++ Path.root.child key).HasRoom s.record :=
      (Path.hasRoom_append ((lookup_object hobject field).trans hvalue)).mpr
        (Path.room_singleton key [])
    have hhere : Frame (Filled field) (Path.root.child field ++ Path.root.child key).Under
        (Path.root.child field ++ Path.root.child key).Under :=
      hframe ⟨Path.root.child key, d⟩ List.mem_cons_self
    have hne : (Path.root.child key).segments ≠ [] := List.cons_ne_nil _ _
    refine sanitize_stores hc hhere hroom (fun w _ _ => ?_) hfirst
    refine ⟨Path.isObject_set (List.cons_ne_nil _ _) w hobject, ?_⟩
    rw [get?_set_below hobject, if_neg hne, hvalue, Option.map_some, Path.set_child_root]
    exact ⟨_, rfl, insert_ne_nil key w []⟩
  refine Maintains.ok (.forM fun m hm => ?_) ht hrest
  exact .sanitize (hframe m (List.mem_cons_of_mem _ hm)) hc (fuel + 1)
    (fun q => ⟨⟨q, rfl⟩, ⟨q, rfl⟩⟩) m.declaration

/-- What is inside a member of a field reads differently from the field. -/
theorem text_member_ne {cat : Catalog} {m : Member} (hm : m ∈ cat.members d v) (q : Path) :
    (Path.root.child field ++ m.relative ++ q).text ≠ field := by
  obtain ⟨segment, rest, hsegments⟩ := List.exists_cons_of_ne_nil (Catalog.members_ne hm)
  have hpath : (Path.root.child field ++ m.relative ++ q).text =
      Text.join "." (field :: segment :: (rest ++ q.segments)) := by
    show Text.join "." (field :: (m.relative.segments ++ q.segments)) = _
    rw [hsegments]
    rfl
  intro htext
  rw [hpath, Text.join_cons_cons] at htext
  have hlength := congrArg String.length htext
  simp only [String.length_append] at hlength
  have hdot : ".".length = 1 := rfl
  omega

namespace FramedOff

variable {name other : String}

/-- The message of a field survives what is done in another one, unless the name of the field goes
on after the other name. -/
theorem message (h : ¬ KeyAt other name) (m : Option String) :
    FramedOff (fun s => s.errors.get? name = m) other := by
  refine (frame_errors m).mono (fun _ _ => trivial) fun p hp htext => h ?_
  obtain ⟨rest, hrest⟩ := hp.segments
  obtain ⟨segments⟩ := p
  obtain rfl : segments = other :: rest := hrest
  rw [← htext]
  exact keyAt_text other rest

/-- What is reported at a key stays reported. -/
theorem reported (key other : String) :
    FramedOff (fun s => s.errors.contains key = true) other where
  resolve _ _ h := h
  store _ _ h := h
  report := by
    intro s p m _ h
    show ((s.errors.add p.text m).get? key).isSome = true
    rw [ErrorMap.get?_add, Option.isSome_or]
    exact Bool.or_eq_true_iff.mpr (.inl h)

end FramedOff

theorem get?_report_of_not {problems : List Problem} {key : String}
    (h : ∀ p ∈ problems, p.1.text ≠ key) (errors : ErrorMap) :
    (errors.report problems).get? key = errors.get? key := by
  have hnone : Entries.get? key (problems.map fun p => (p.1.text, p.2)) = none := by
    refine Entries.get?_eq_none_iff.mpr fun hkey => ?_
    obtain ⟨e, he, rfl⟩ := List.mem_map.mp hkey
    obtain ⟨p, hp, rfl⟩ := List.mem_map.mp he
    exact h p hp rfl
  rw [ErrorMap.get?_report, hnone, Option.or_none]

/-- What is dropped from a record is not reported at a field. -/
theorem get?_pruned_errors {collection : Collection} (hd : (field, d) ∈ collection.fields)
    (hs : s.errors = .empty) : (s.pruned collection).errors.get? field = none := by
  refine (get?_report_of_not (fun p hp => ?_) s.errors).trans (by rw [hs]; rfl)
  obtain ⟨m, hm, rfl⟩ := List.mem_map.mp hp
  intro htext
  have hkey : m.1 = field := htext
  have hown := (List.mem_filter.mp hm).2
  rw [hkey, ownKey_of_mem hd] at hown
  cases hown

/-- The first pass leaves the empty value of a required field, or fills it, and reports nothing at
the field itself. -/
theorem sanitizeRecord_required {collection : Collection} (hc : c.registry = .builtin)
    (hnames : (Entries.keys collection.fields).Nodup) (hd : (field, d) ∈ collection.fields)
    (hsound : s.cache.Sound) (herrors : s.errors = .empty) (hrequired : d.isRequired = true)
    (hs : d.additional.sanitizers = []) (hvalue : (s.record.get? field).getD .null = v)
    (hempty : v.isEmpty = true)
    (hpart : c.operation = .update → (s.record.get? field).isSome = true)
    (h : c.sanitizeRecord collection s = .ok true s') :
    (¬ d.FillsIn v → s'.record.get? field = some v) ∧ (d.FillsIn v → Filled field s') ∧
      ((∀ f ∈ collection.fields, f.1 ≠ field → ¬ KeyAt f.1 field) →
        s'.errors.get? field = none) := by
  obtain ⟨hobject, hloop⟩ := sanitizeRecord_loop h
  have hpruned : (s.pruned collection).record.get? field = s.record.get? field := by
    rw [get?_pruned, if_pos (ownKey_of_mem hd)]
  have hx : (Path.root.child field, d) ∈ c.fieldsFor collection (s.pruned collection).record := by
    refine PassContext.mem_fieldsFor_of hd fun hop => ?_
    rw [lookup_object rfl, hpruned]
    exact hpart hop
  obtain ⟨t, t', hhere, hcut⟩ := PassContext.forM_fieldsFor_cut hnames
    (fun x => confined_sanitize hc _ x.1 x.2) hx hloop
  have ht := (hcut _ fun e _ _ => .object e.1).1 rfl
  have htsound := (hcut _ fun e _ _ => .sound e.1).1 hsound
  have htvalue := (hcut _ fun e _ hne => .get? hne _).1 hpruned
  obtain ⟨cache, hmembers⟩ := sanitize_required hc htsound ht hrequired hs
    ((congrArg (Option.getD · Value.null) htvalue).trans hvalue) hempty hhere
  have hset : ((Path.root.child field).set v t.record).isObject = true ∧
      ((Path.root.child field).set v t.record).get? field = some v := by
    obtain ⟨ms, hms⟩ := Value.isObject_iff.mp ht
    rw [hms, Path.set_child_root]
    exact ⟨rfl, Entries.get?_insert_self field v ms⟩
  refine ⟨fun hfills => ?_, fun hfills => ?_, fun hfree => ?_⟩
  · rw [Declaration.members_of_isEmpty _ hempty hfills] at hmembers
    obtain ⟨-, rfl⟩ := EStateM.Result.ok.inj hmembers
    exact (hcut _ fun e _ hne => .get? hne _).2 hset.2
  · obtain ⟨hkind, hsubfields, rfl⟩ := hfills
    rw [c.catalog.members_object, if_pos hkind] at hmembers
    have hfilled : Filled field t' := sanitize_fills hc hset.1 hset.2 hsubfields hmembers
    refine ⟨(hcut _ fun e _ _ => .object e.1).2 hfilled.1, ?_⟩
    obtain ⟨ms, hms, hne⟩ := hfilled.2
    exact ⟨ms, (hcut _ fun e _ hne => .get? hne _).2 hms, hne⟩
  · have hothers : ∀ f ∈ collection.fields, f.1 ≠ field →
        FramedOff (fun s => s.errors.get? field = none) f.1 :=
      fun f hf hne => .message (hfree f hf hne) none
    have hstart := get?_pruned_errors hd herrors
    have hreported : t'.errors.get? field = none := by
      refine Maintains.ok (P := fun s => s.errors.get? field = none) (.forM fun m hm => ?_)
        (s := ⟨_, t.errors, cache⟩) ((hcut _ hothers).1 hstart) hmembers
      exact .sanitize (frame_errors none) hc _ (fun q => ⟨trivial, text_member_ne hm q⟩)
        m.declaration
    exact (hcut _ hothers).2 hreported

end FirstPass

/-! ### The second pass -/

section SecondPass

variable {c : PassContext} {collection : Collection} {s s' : PassState} {field : String}
  {d : Declaration} {v : Value}

/-- What the second pass makes of a required field it finds. -/
theorem exists_finds (hc : c.registry = .builtin)
    (hnames : (Entries.keys collection.fields).Nodup) (hobject : s.record.isObject = true)
    (hsound : s.cache.Sound) (hd : (field, d) ∈ collection.fields)
    (hrequired : d.isRequired = true) (hv : s.record.get? field = some v)
    (hrun : c.checkRecord collection s = .ok () s') :
    ∃ t o, c.Finds collection s (Path.root.child field, d) t o v ∧
      d.kind.definition.required = true ∧ o.flag "required" = true := by
  have hx : (Path.root.child field, d) ∈ c.fieldsFor collection s.record := by
    refine PassContext.mem_fieldsFor_of hd fun _ => ?_
    rw [lookup_object hobject, hv]
    rfl
  obtain ⟨t, hcomes⟩ := exists_comesTo hx hrun
  obtain ⟨o, u, hfinds, ho, hu⟩ := hcomes.finds hc hnames hobject hsound
    (by rw [hv]; rfl) hrun
  obtain rfl : v = u := Option.some.inj (hv.symm.trans hu)
  have hoptions := hfinds.options
  rw [hc] at hoptions
  have htsound := hcomes.arrives hc hnames (fun e _ _ => .sound e.1) hsound
  obtain ⟨hresolves, -⟩ := (htsound.resolve (Path.root.child field).name d).2 o hoptions
  exact ⟨t, o, hfinds, required_of_resolves hresolves hrequired ho⟩

/-- A required field that is empty is reported, with its message unless the key is taken. -/
theorem checkRecord_required (hc : c.registry = .builtin)
    (hnames : (Entries.keys collection.fields).Nodup) (hobject : s.record.isObject = true)
    (hsound : s.cache.Sound) (hd : (field, d) ∈ collection.fields)
    (hrequired : d.isRequired = true) (hlogic : d.additional.logic = none)
    (hv : s.record.get? field = some v) (hempty : v.isEmpty = true)
    (hrun : c.checkRecord collection s = .ok () s') :
    s'.errors.contains field = true ∧
      ((∀ f ∈ collection.fields, f.1 ≠ field → ¬ KeyAt f.1 field) →
        s.errors.get? field = none → s'.errors.get? field = some Message.required) := by
  obtain ⟨t, o, hfinds, hkind, hflag⟩ :=
    exists_finds hc hnames hobject hsound hd hrequired hv hrun
  obtain ⟨t', hcheck, hafter⟩ := hfinds.comes.rest hc hnames hrun
  obtain ⟨cache, hrefuse⟩ := hfinds.check hc _
  rw [verdict_required hlogic hkind hflag hempty] at hrefuse
  obtain ⟨-, rfl⟩ := EStateM.Result.ok.inj (hcheck.symm.trans hrefuse)
  constructor
  · refine hafter (fun s => s.errors.contains field = true) (fun f _ _ => .reported field f.1) ?_
    exact t.errors.contains_add field Message.required
  · intro hfree hnone
    have hothers : ∀ m, ∀ f ∈ collection.fields, f.1 ≠ field →
        FramedOff (fun s => s.errors.get? field = m) f.1 :=
      fun m f hf hne => .message (hfree f hf hne) m
    have ht := hfinds.comes.arrives hc hnames (hothers none) hnone
    refine hafter _ (hothers _) (ErrorMap.get?_add_self t.errors field Message.required ?_)
    show (t.errors.get? field).isSome = false
    rw [ht]
    rfl

/-- A required object that has been filled in is not reported as missing. -/
theorem checkRecord_filled (hc : c.registry = .builtin)
    (hnames : (Entries.keys collection.fields).Nodup) (hsound : s.cache.Sound)
    (hd : (field, d) ∈ collection.fields) (hrequired : d.isRequired = true)
    (hlogic : d.additional.logic = none) (hvalidators : d.additional.validators = [])
    (hkind : d.kind = .object) (hfilled : Filled field s)
    (hrun : c.checkRecord collection s = .ok () s')
    (hfree : ∀ f ∈ collection.fields, f.1 ≠ field → ¬ KeyAt f.1 field)
    (hnone : s.errors.get? field = none) : s'.errors.get? field ≠ some Message.required := by
  obtain ⟨hobject, ms, hms, hne⟩ := hfilled
  obtain ⟨t, o, hfinds, -⟩ := exists_finds hc hnames hobject hsound hd hrequired hms hrun
  obtain ⟨t', hcheck, hafter⟩ := hfinds.comes.rest hc hnames hrun
  obtain ⟨cache, hverdict⟩ := hfinds.check hc
    ((((Path.root.child field).lookup s.record).getD .null).weight + 1023)
  have hrun' := hcheck.symm.trans hverdict
  have hothers : ∀ m, ∀ f ∈ collection.fields, f.1 ≠ field →
      FramedOff (fun s => s.errors.get? field = m) f.1 :=
    fun m f hf hne => .message (hfree f hf hne) m
  have ht := hfinds.comes.arrives hc hnames (hothers none) hnone
  have hsatisfied : Satisfied (judge (c.fieldContext (Path.root.child field) d.kind.definition o
      t.record) d.kind.definition d.additional (.object ms)) := by
    rw [hkind]
    exact .judge hne hvalidators
  rw [hafter _ (hothers _) rfl]
  rw [verdict_unconditional hlogic] at hrun'
  cases hjudge : judge (c.fieldContext (Path.root.child field) d.kind.definition o t.record)
      d.kind.definition d.additional (.object ms) with
  | error e =>
    have hmessage := hsatisfied e hjudge
    rw [hjudge] at hrun'
    have hrefused : t'.errors = t.errors.add field e.messageText := by
      cases e with
      | engine e => cases hrun'
      | _ =>
        obtain ⟨-, rfl⟩ := EStateM.Result.ok.inj hrun'
        rfl
    rw [hrefused, ErrorMap.get?_add_self]
    · exact fun h => hmessage (Option.some.inj h)
    · show (t.errors.get? field).isSome = false
      rw [ht]
      rfl
  | ok =>
    -- the members of the object are reported below the field
    rw [hjudge, hkind] at hrun'
    have hmembers : t'.errors.get? field = none := by
      refine Maintains.ok (P := fun s => s.errors.get? field = none) (.forM fun m hm => ?_)
        (s := { t with cache := cache }) ht hrun'.symm
      exact .check (frame_errors none) hc _ (fun q => ⟨trivial, text_member_ne hm q⟩) m.declaration
    rw [hmembers]
    exact nofun

end SecondPass

/-! ### Records -/

/-- **Required fields.**  A required field that is submitted empty, or left out when a record is
created or read, is reported, unless its value is an empty object that the first pass fills in.  As
long as the path of the field continues the name of no other field, what stands at the path is the
message for required fields, and it stands there in no other case. -/
theorem Engine.processRecord_required_iff {e : Engine} (hreg : e.registry = .builtin)
    (hcache : e.cache.Sound) {name : String} {collection : Collection}
    (hcol : e.catalog.collection? name = some collection)
    (hnames : (Entries.keys collection.fields).Nodup) {record : Value}
    (hobject : record.isObject = true) {operation : Operation} {batch : List Value}
    {errors : ErrorMap} (h : (e.processRecord name record operation batch).result = .ok errors)
    {field : String} {d : Declaration} (hd : (field, d) ∈ collection.fields)
    (hrequired : d.isRequired = true) (hlogic : d.additional.logic = none)
    (hsanitizers : d.additional.sanitizers = []) (hvalidators : d.additional.validators = [])
    (hempty : ((record.get? field).getD .null).isEmpty = true)
    (hpart : operation = .update → (record.get? field).isSome = true) :
    (¬ d.FillsIn ((record.get? field).getD .null) → errors.contains field = true) ∧
      ((∀ f ∈ collection.fields, f.1 ≠ field → ¬ KeyAt f.1 field) →
        (errors.get? field = some Message.required ↔
          ¬ d.FillsIn ((record.get? field).getD .null))) := by
  obtain ⟨accepted, s₁, s₂, h₁, h₂, -, rfl⟩ := processRecord_ok hcol h
  obtain rfl := accepted_of_isObject (s := ⟨record, .empty, e.cache⟩) hobject h₁
  have hreg' : (e.passContext operation name batch).registry = .builtin := hreg
  obtain ⟨hkept, hfilled, hnone⟩ := sanitizeRecord_required
    (s := ⟨record, .empty, e.cache⟩) hreg' hnames hd hcache rfl hrequired hsanitizers rfl hempty
    hpart h₁
  have hobject₁ := sanitizeRecord_framed hreg' h₁ (fun f _ => FramedOff.object f.1) rfl
  have hsound₁ := sanitizeRecord_framed hreg' h₁ (fun f _ => FramedOff.sound f.1) hcache
  have hreports := fun hfills => checkRecord_required hreg' hnames hobject₁ hsound₁ hd hrequired
    hlogic (hkept hfills) hempty h₂
  refine ⟨fun hfills => (hreports hfills).1, fun hfree => ⟨fun hreported hfills => ?_, ?_⟩⟩
  · exact checkRecord_filled hreg' hnames hsound₁ hd hrequired hlogic hvalidators hfills.1
      (hfilled hfills) h₂ hfree (hnone hfree) hreported
  · exact fun hfills => (hreports hfills).2 hfree (hnone hfree)

/-! ### Instances -/

/-- A title that has to be filled in. -/
def requiredTitle : Declaration := (Declaration.ofKind .text).option "required" (.bool true)

/-- Data that have to be filled in. -/
def requiredMeta : Declaration :=
  ((Declaration.ofKind .object).option "required" (.bool true)).subfield "title" (.ofKind .text)

def requiredPages : Collection where
  name := "pages"
  fields := [("title", requiredTitle), ("meta", requiredMeta)]

/-- Pages with a field whose name reads like the path of a member of the field before it. -/
def dottedPages : Collection where
  name := "dotted"
  fields := [("meta", requiredMeta), ("meta.title", requiredTitle)]

def requiredEngine : Engine :=
  .ofCatalog ⟨[("pages", requiredPages), ("dotted", dottedPages)], []⟩

/-- The title is missing, and the data are filled in. -/
theorem processRecord_required_page :
    (requiredEngine.processRecord "pages" (.object [("meta", .object [])]) .create []).result =
        .ok ⟨[("title", Message.required)]⟩ ∧
      ("title", requiredTitle) ∈ requiredPages.fields ∧ requiredTitle.isRequired = true ∧
      ((⟨[("title", Message.required)]⟩ : ErrorMap).get? "title" = some Message.required ↔
        ¬ requiredTitle.FillsIn .null) := by
  have hcol : requiredEngine.catalog.collection? "pages" = some requiredPages := rfl
  have hresult : (requiredEngine.processRecord "pages" (.object [("meta", .object [])]) .create
      []).result = .ok ⟨[("title", Message.required)]⟩ := rfl
  refine ⟨hresult, List.mem_cons_self, rfl, ?_⟩
  exact (Engine.processRecord_required_iff rfl OptionCache.sound_empty hcol (by decide) rfl hresult
    List.mem_cons_self rfl rfl rfl rfl rfl nofun).2 (by decide)

/-- A page whose data are empty. -/
def emptyData : Value := .object [("meta", .object []), ("title", .string "A")]

/-- A page whose data have a malformed title, and whose other title is empty. -/
def malformedData : Value :=
  .object [("meta", .object [("title", .list [])]), ("meta.title", .string "")]

/-- Empty data are filled in and not reported, and a message about a member of the data takes the
key of a field whose name reads like its path. -/
theorem processRecord_required_unreported :
    (("meta", requiredMeta) ∈ requiredPages.fields ∧ requiredMeta.isRequired = true ∧
      requiredMeta.additional = {} ∧ emptyData.get? "meta" = some (.object []) ∧
      (requiredEngine.processRecord "pages" emptyData .create []).result = .ok .empty ∧
      ErrorMap.empty.get? "meta" ≠ some Message.required) ∧
    ("meta.title", requiredTitle) ∈ dottedPages.fields ∧ requiredTitle.isRequired = true ∧
      requiredTitle.additional = {} ∧ malformedData.get? "meta.title" = some (.string "") ∧
      (requiredEngine.processRecord "dotted" malformedData .create []).result =
        .ok ⟨[("meta.title", Message.invalidInputType)]⟩ ∧
      (⟨[("meta.title", Message.invalidInputType)]⟩ : ErrorMap).get? "meta.title" ≠
        some Message.required :=
  ⟨⟨by simp [requiredPages], rfl, rfl, rfl, rfl, by decide⟩, by simp [dottedPages], rfl, rfl, rfl,
    rfl, by decide⟩

end ContentSchema
