import ContentSchema.Proofs.Dependencies
import ContentSchema.Proofs.FieldLocality

/-!
# Record keys — the members that a processed record has

Undeclared members are dropped and reported before anything else happens, each under its own name,
and no later entry takes the place of theirs.  From then on no member goes away, and the only ones
that come are the declared fields that take part: all of them when a record is created or read,
those that were submitted when it is updated (`Engine.processRecord_keys`).
-/

namespace ContentSchema

/-! ### Reported keys -/

/-- What is reported at a key first stays there. -/
theorem frame_message (key message : String) :
    Frame (fun s => s.errors.get? key = some message) (fun _ => True) fun _ => True where
  resolve _ _ h := h
  store _ _ h := h
  report := by
    intro s p other _ h
    show (s.errors.add p.text other).get? key = some message
    rw [ErrorMap.get?_add, h, Option.some_or]

/-- Problems with one message are reported under each of their keys. -/
theorem ErrorMap.get?_report_of_mem {problems : List Problem} {message : String}
    (h : ∀ p ∈ problems, p.2 = message) {errors : ErrorMap} {key : String}
    (hnone : errors.get? key = none) (hkey : ∃ p ∈ problems, p.1.text = key) :
    (errors.report problems).get? key = some message := by
  obtain ⟨p, hp, rfl⟩ := hkey
  have hmem : (p.1.text, p.2) ∈ problems.map fun p => (p.1.text, p.2) := List.mem_map_of_mem hp
  obtain ⟨m, hm⟩ := Entries.contains_iff.mp (Entries.contains_of_mem hmem)
  -- whichever of the problems is found, it has this message
  obtain ⟨q, hq, heq⟩ := List.mem_map.mp (Entries.mem_of_get? hm)
  rw [get?_report, hnone, Option.none_or, hm, ← (Prod.mk.inj heq).2, h q hq]

section

variable {c : PassContext} {collection : Collection} {s s' : PassState} {key : String}

/-- An undeclared member is reported under its own name when it is dropped. -/
theorem get?_pruned_dropped (hs : s.errors = .empty)
    (hown : PassContext.ownKey collection key = false)
    (hkey : (s.record.get? key).isSome = true) :
    (s.pruned collection).errors.get? key = some Message.unrecognizedField := by
  refine ErrorMap.get?_report_of_mem (fun p hp => ?_) (by rw [hs]; rfl) ?_
  · obtain ⟨m, -, rfl⟩ := List.mem_map.mp hp
    rfl
  · obtain ⟨v, hv⟩ := Option.isSome_iff_exists.mp hkey
    have hmem : (key, v) ∈ s.record.members := Entries.mem_of_get? hv
    exact ⟨(Path.root.child key, Message.unrecognizedField), List.mem_map.mpr
      ⟨(key, v), List.mem_filter.mpr ⟨hmem, by simp [hown]⟩, rfl⟩, rfl⟩

/-! ### The second pass -/

/-- The second pass keeps what is framed off from every field that takes part. -/
theorem checkRecord_framed (hc : c.registry = .builtin)
    (h : c.checkRecord collection s = .ok () s') {P : PassState → Prop}
    (hP : ∀ e ∈ collection.fields,
      (Path.root.child e.1, e.2) ∈ c.fieldsFor collection s.record → FramedOff P e.1)
    (hs : P s) : P s' := by
  rw [PassContext.checkRecord_run] at h
  refine forM_framed (fun x => confined_check hc _ x.1 x.2) (fun x hx => ?_) hs h
  obtain ⟨name, hname, hpath⟩ := PassContext.mem_fieldsFor hx
  exact ⟨name, hpath, hP _ hname (hpath ▸ hx)⟩

/-- The second pass gives and takes no members. -/
theorem checkRecord_keys (hc : c.registry = .builtin) (hobject : s.record.isObject = true)
    (hpresent : ∀ field d, (Path.root.child field, d) ∈ c.fieldsFor collection s.record →
      (s.record.get? field).isSome = true)
    (h : c.checkRecord collection s = .ok () s') (key : String) :
    (s'.record.get? key).isSome = (s.record.get? key).isSome := by
  cases hkey : s.record.get? key with
  | some v =>
    exact (checkRecord_framed (P := fun s => s.record.isObject = true ∧
      (s.record.get? key).isSome = true) hc h (fun e _ _ => .present key e.1)
      ⟨hobject, by rw [hkey]; rfl⟩).2
  | none =>
    rw [checkRecord_framed (P := fun s => s.record.get? key = none) hc h
      (fun e _ hx => .get? ?_ none) hkey]
    rintro rfl
    have hsome := hpresent e.1 e.2 hx
    rw [hkey] at hsome
    cases hsome

theorem Collection.ne_of_not_declares (hkey : collection.declares key = false)
    {e : String × Declaration} (he : e ∈ collection.fields) : e.1 ≠ key := by
  rintro rfl
  rw [Collection.declares, Entries.contains_of_mem he] at hkey
  cases hkey

/-- The second pass leaves what is not declared. -/
theorem checkRecord_undeclared (hc : c.registry = .builtin)
    (h : c.checkRecord collection s = .ok () s') (hkey : collection.declares key = false) :
    s'.record.get? key = s.record.get? key :=
  checkRecord_framed (P := fun t => t.record.get? key = s.record.get? key) hc h
    (fun _ he _ => .get? (collection.ne_of_not_declares hkey he) _) rfl

/-- No message goes in either pass. -/
theorem FramedOff.first (key message name : String) :
    FramedOff (fun s => s.errors.get? key = some message) name :=
  (frame_message key message).mono (fun _ _ => trivial) fun _ _ => trivial

/-! ### The first pass -/

/-- What is not declared comes out of the first pass as it went in, or not at all. -/
theorem sanitizeRecord_undeclared (hc : c.registry = .builtin)
    (h : c.sanitizeRecord collection s = .ok true s') (hkey : collection.declares key = false) :
    s'.record.get? key = if key = Kinds.idField then s.record.get? key else none := by
  have hown : PassContext.ownKey collection key = (key == Kinds.idField) := by
    unfold PassContext.ownKey
    rw [hkey, Bool.or_false]
  have hpruned : (s.pruned collection).record.get? key =
      if key = Kinds.idField then s.record.get? key else none := by
    rw [get?_pruned, hown]
    simp only [beq_iff_eq]
  exact sanitizeRecord_framed hc h
    (fun _ he => .get? (collection.ne_of_not_declares hkey he) _) hpruned

/-- The members of a record after the first pass: the declared fields, as long as the record has
them where it is updated, and its id. -/
theorem sanitizeRecord_keys (hc : c.registry = .builtin)
    (h : c.sanitizeRecord collection s = .ok true s') (key : String) :
    (s'.record.get? key).isSome = true ↔
      collection.declares key = true ∧
          (c.operation ≠ .update ∨ (s.record.get? key).isSome = true) ∨
        key = Kinds.idField ∧ (s.record.get? key).isSome = true := by
  cases hkey : collection.declares key with
  | false =>
    rw [sanitizeRecord_undeclared hc h hkey]
    split <;> simp [*]
  | true =>
    simp only [true_and]
    constructor
    · intro hsome
      by_cases hop : c.operation = .update
      · refine .inl (.inr ?_)
        cases hnone : s.record.get? key with
        | some v => rfl
        | none =>
          rw [sanitizeRecord_absent hc hop h hnone] at hsome
          cases hsome
      · exact .inl (.inl hop)
    · rintro (hs | ⟨-, hs⟩)
      · exact sanitizeRecord_declared hc h hkey hs
      · exact sanitizeRecord_declared hc h hkey (.inr hs)

end

/-! ### Records -/

/-- A record that is no object is left as it is, with one error at the empty path. -/
theorem Engine.processRecord_other {e : Engine} {name : String} {collection : Collection}
    (hcol : e.catalog.collection? name = some collection) {record : Value}
    (hobject : record.isObject = false) (operation : Operation) (batch : List Value) :
    (e.processRecord name record operation batch).result =
        .ok ⟨[("", Message.invalidInputType)]⟩ ∧
      (e.processRecord name record operation batch).records = record := by
  have hrun := bind_run (f := fun accepted : Bool =>
      if accepted then (e.passContext operation name batch).checkRecord collection else pure ())
    (PassContext.sanitizeRecord_other (c := e.passContext operation name batch)
      (s := ⟨record, .empty, e.cache⟩) collection hobject)
  rw [processRecord_run hcol]
  unfold processed runPass
  rw [hrun]
  exact ⟨rfl, rfl⟩

/-- An object that is processed to the end comes out with the declared fields as its members, only
with those that it had when it is updated, and with its id.  Every other member is gone and is
reported under its own name, and an id that is not declared is what it was.  What is no object is
left as it is and has one error, at the empty path. -/
theorem Engine.processRecord_keys {e : Engine} (hreg : e.registry = .builtin) {name : String}
    {collection : Collection} (hcol : e.catalog.collection? name = some collection)
    (record : Value) (operation : Operation) (batch : List Value) :
    (∀ ms errors, record = .object ms →
      (e.processRecord name record operation batch).result = .ok errors →
      ∃ ms', (e.processRecord name record operation batch).records = .object ms' ∧
        (operation ≠ .update → ∀ key, key ∈ Entries.keys ms' ↔
          collection.declares key = true ∨ key = "id" ∧ key ∈ Entries.keys ms) ∧
        (operation = .update → ∀ key, key ∈ Entries.keys ms' ↔
          key ∈ Entries.keys ms ∧ (collection.declares key = true ∨ key = "id")) ∧
        (∀ key ∈ Entries.keys ms, collection.declares key = false → key ≠ "id" →
          key ∉ Entries.keys ms' ∧ errors.get? key = some Message.unrecognizedField) ∧
        (collection.declares "id" = false → Entries.get? "id" ms' = Entries.get? "id" ms)) ∧
    (record.isObject = false →
      (e.processRecord name record operation batch).result =
          .ok ⟨[("", Message.invalidInputType)]⟩ ∧
        (e.processRecord name record operation batch).records = record) := by
  refine ⟨?_, fun hobject => processRecord_other hcol hobject operation batch⟩
  rintro ms errors rfl h
  obtain ⟨accepted, s₁, s₂, h₁, h₂, hprocessed, rfl⟩ := processRecord_ok hcol h
  obtain rfl := accepted_of_isObject (s := ⟨.object ms, .empty, e.cache⟩) rfl h₁
  have hreg' : (e.passContext operation name batch).registry = .builtin := hreg
  obtain ⟨hobject, hpresent⟩ := sanitizeRecord_fields hreg' h₁
  have hobject₂ : s₂.record.isObject = true :=
    checkRecord_framed hreg' h₂ (fun e _ _ => .object e.1) hobject
  obtain ⟨ms', hms'⟩ := Value.isObject_iff.mp hobject₂
  have hget : ∀ key, s₂.record.get? key = Entries.get? key ms' := fun key => by
    rw [hms']
    rfl
  -- the members after the second pass are those after the first
  have hkeys : ∀ key, key ∈ Entries.keys ms' ↔
      collection.declares key = true ∧ (operation ≠ .update ∨ key ∈ Entries.keys ms) ∨
        key = "id" ∧ key ∈ Entries.keys ms := by
    intro key
    rw [← Entries.contains_iff_mem_keys, ← Entries.contains_iff_mem_keys, Entries.contains_eq,
      ← hget, checkRecord_keys hreg' hobject hpresent h₂ key]
    exact sanitizeRecord_keys hreg' h₁ key
  rw [hprocessed]
  refine ⟨ms', hms', fun hop key => ?_, fun hop key => ?_, fun key hkey hdeclared hid => ⟨?_, ?_⟩,
    fun hid => ?_⟩
  · rw [hkeys]
    simp [hop]
  · rw [hkeys]
    simp only [hop, ne_eq, not_true_eq_false, false_or]
    tauto
  · rw [hkeys]
    simp [hdeclared, hid]
  · have hown : PassContext.ownKey collection key = false := by
      unfold PassContext.ownKey
      rw [hdeclared, Bool.or_false]
      exact beq_eq_false_iff_ne.mpr hid
    have hdropped := get?_pruned_dropped (s := ⟨.object ms, .empty, e.cache⟩) rfl hown
      (Entries.contains_iff_mem_keys.mpr hkey)
    exact checkRecord_framed hreg' h₂ (fun f _ _ => .first key _ f.1)
      (sanitizeRecord_framed hreg' h₁ (fun f _ => .first key _ f.1) hdropped)
  · rw [← hget, checkRecord_undeclared hreg' h₂ hid, sanitizeRecord_undeclared hreg' h₁ hid]
    rfl

/-! ### An instance -/

/-- Cards with a title and rows. -/
def cards : Collection where
  name := "cards"
  fields := [("title", .ofKind .text), ("rows", .ofKind .repeater)]

def cardsCatalog : Catalog := ⟨[("cards", cards)], []⟩

/-- A card with its id, without rows, and with two members that are not declared. -/
def looseEntries : Entries Value :=
  [("a.b", .null), ("id", .number 5), ("junk", .bool true), ("title", .string " A ")]

/-- What is reported of it. -/
def looseErrors : ErrorMap :=
  ⟨[("a.b", Message.unrecognizedField), ("junk", Message.unrecognizedField)]⟩

theorem processRecord_keys_card :
    let e := Engine.ofCatalog cardsCatalog
    let created := (e.processRecord "cards" (.object looseEntries) .create []).records
    (e.processRecord "cards" (.object looseEntries) .create []).result = .ok looseErrors ∧
      (∃ ms, created = .object ms ∧ ∀ key, key ∈ Entries.keys ms ↔
        cards.declares key = true ∨ key = "id" ∧ key ∈ Entries.keys looseEntries) ∧
      (e.processRecord "cards" (.list []) .update []).result =
        .ok ⟨[("", Message.invalidInputType)]⟩ := by
  intro e created
  have hcol : e.catalog.collection? "cards" = some cards := rfl
  have hresult : (e.processRecord "cards" (.object looseEntries) .create []).result =
      .ok looseErrors := rfl
  obtain ⟨hobjects, -⟩ :=
    Engine.processRecord_keys (e := e) rfl hcol (.object looseEntries) .create []
  obtain ⟨-, hothers⟩ := Engine.processRecord_keys (e := e) rfl hcol (.list []) .update []
  obtain ⟨ms, hms, hkeys, -⟩ := hobjects looseEntries looseErrors rfl hresult
  exact ⟨hresult, ⟨ms, hms, hkeys (by decide)⟩, (hothers rfl).1⟩

end ContentSchema
