import ContentSchema.Proofs.FieldVisits

/-!
# Conditions — the record that the conditions of a field are matched on

Conditions are matched in the second pass, which stores into the record while it goes over it.  A
field therefore finds the fields declared before it as that pass left them, and all others as the
first pass did (`Engine.processRecord_hides_iff`).  Conditions that read nothing the second pass
changed are matched as on the record after the first.
-/

namespace ContentSchema

/-! ### What logic reads -/

namespace Logic

mutual

/-- The references of all tests, in the order of the tests. -/
def references : Logic → List String
  | .all branches => referencesOf branches
  | .any branches => referencesOf branches
  | .conditions tests => tests.map (·.1)

def referencesOf : List Logic → List String
  | [] => []
  | l :: ls => references l ++ referencesOf ls

end

section

variable {r r' : Value} {path : Path}

theorem testsHold_congr {tests : List (String × Condition)}
    (h : ∀ ref ∈ tests.map (·.1), (path.resolve ref).lookup r = (path.resolve ref).lookup r') :
    testsHold r path tests = testsHold r' path tests := by
  induction tests with
  | nil => rfl
  | cons test rest ih =>
    obtain ⟨ref, condition⟩ := test
    rw [List.map_cons, List.forall_mem_cons] at h
    unfold testsHold
    simp only [h.1, ih h.2]

mutual

/-- Logic answers alike where its references find the same values. -/
theorem matches?_congr : (l : Logic) →
    (∀ ref ∈ l.references, (path.resolve ref).lookup r = (path.resolve ref).lookup r') →
      l.matches? r path = l.matches? r' path
  | .all branches, h => by
    rw [matches?, matches?]
    exact allMatch_congr branches h
  | .any branches, h => by
    rw [matches?, matches?]
    exact anyMatches_congr branches h
  | .conditions tests, h => by
    rw [matches?, matches?]
    exact testsHold_congr h

theorem allMatch_congr : (ls : List Logic) →
    (∀ ref ∈ referencesOf ls, (path.resolve ref).lookup r = (path.resolve ref).lookup r') →
      allMatch r path ls = allMatch r' path ls
  | [], _ => by rw [allMatch, allMatch]
  | l :: ls, h => by
    have here := matches?_congr l fun ref href => h ref (List.mem_append_left _ href)
    have rest := allMatch_congr ls fun ref href => h ref (List.mem_append_right _ href)
    rw [allMatch, allMatch, here, rest]

theorem anyMatches_congr : (ls : List Logic) →
    (∀ ref ∈ referencesOf ls, (path.resolve ref).lookup r = (path.resolve ref).lookup r') →
      anyMatches r path ls = anyMatches r' path ls
  | [], _ => by rw [anyMatches, anyMatches]
  | l :: ls, h => by
    have here := matches?_congr l fun ref href => h ref (List.mem_append_left _ href)
    have rest := anyMatches_congr ls fun ref href => h ref (List.mem_append_right _ href)
    rw [anyMatches, anyMatches, here, rest]

end

end

/-- Every reference leads to a member of the record, or into one. -/
def ReadsMembers (l : Logic) (path : Path) : Prop :=
  ∀ ref ∈ l.references, (path.resolve ref).segments ≠ []

/-- Some reference leads to this member of the record, or into it. -/
def Reads (l : Logic) (path : Path) (key : String) : Prop :=
  ∃ ref ∈ l.references, ∃ rest, (path.resolve ref).segments = key :: rest

/-- Logic answers alike on records with the same members where it reads them. -/
theorem matches?_of_members {l : Logic} {r r' : Value} {path : Path} (hr : r.isObject = true)
    (hr' : r'.isObject = true) (hmembers : l.ReadsMembers path)
    (h : ∀ key, l.Reads path key → r.get? key = r'.get? key) :
    l.matches? r path = l.matches? r' path := by
  obtain ⟨ms, rfl⟩ := Value.isObject_iff.mp hr
  obtain ⟨ms', rfl⟩ := Value.isObject_iff.mp hr'
  refine matches?_congr l fun ref href => ?_
  obtain ⟨key, rest, hsegments⟩ := List.exists_cons_of_ne_nil (hmembers ref href)
  have hkey := h key ⟨ref, href, rest, hsegments⟩
  have hpath : path.resolve ref = Path.root.child key ++ ⟨rest⟩ := Path.ext_iff.mpr hsegments
  rw [hpath, lookup_key, lookup_key]
  exact congrArg (Option.bind · _) hkey

end Logic

/-! ### Verdicts under conditions -/

section

variable {c : PassContext} {collection : Collection} {s t s' : PassState} {field : String}
  {d : Declaration} {l : Logic} {path : Path} {o : Options} {record v : Value}

/-- Where conditions fail the value is reset, and where they hold it is judged. -/
theorem verdict_logic (hl : d.additional.logic = some l) :
    c.verdict path d o record v =
      match l.matches? record path with
      | .error e => .stop (.logic e)
      | .ok false => .reset (d.kind.definition.default o)
      | .ok true => .ofJudgement (d.kind.definition.default o)
        (judge (c.fieldContext path d.kind.definition o record) d.kind.definition d.additional
          v) := by
  have hmap : d.additional.logic.mapM (d.kind.definition.matcher
      (c.fieldContext path d.kind.definition o record)) =
        ((l.matches? record path).map fun holds =>
          if holds then .proceed else .skip (d.kind.definition.default o)).map some := by
    rw [hl, matcher_builtin]
    rfl
  unfold PassContext.verdict
  simp only [hmap]
  cases l.matches? record path with
  | error e => rfl
  | ok holds => cases holds <;> rfl

/-- A judgement resets nothing. -/
theorem Verdict.ofJudgement_ne_reset (fallback w : Value) (judgement : Except FieldError Unit) :
    Verdict.ofJudgement fallback judgement ≠ .reset w := by
  cases judgement with
  | ok => exact nofun
  | error e => cases e <;> exact nofun

namespace PassContext

/-- The second pass, begun in `s`, comes to a field in `t` with these options and this value. -/
structure Finds (c : PassContext) (collection : Collection) (s : PassState)
    (x : Path × Declaration) (t : PassState) (o : Options) (v : Value) : Prop where
  comes : c.ComesTo collection s x t
  options : (t.cache.resolve c.registry x.1.name x.2).1 = .ok o
  value : x.1.lookup t.record = some v

/-- The second pass resets a field because its conditions fail. -/
def Hides (c : PassContext) (collection : Collection) (s : PassState) (x : Path × Declaration) :
    Prop :=
  ∃ t o v, c.Finds collection s x t o v ∧ c.verdict x.1 x.2 o t.record v = .reset x.2.fallback

/-- The second pass goes by the judgement of a field's validators and constraints. -/
def Validates (c : PassContext) (collection : Collection) (s : PassState)
    (x : Path × Declaration) : Prop :=
  ∃ t o v, c.Finds collection s x t o v ∧ c.verdict x.1 x.2 o t.record v =
    .ofJudgement x.2.fallback (judge (c.fieldContext x.1 x.2.kind.definition o t.record)
      x.2.kind.definition x.2.additional v)

/-- The second pass finds at a field what the first one left there. -/
theorem ComesTo.finds (hc : c.registry = .builtin)
    (hnames : (Entries.keys collection.fields).Nodup) (hobject : s.record.isObject = true)
    (hsound : s.cache.Sound) (hpresent : (s.record.get? field).isSome = true)
    (hcomes : c.ComesTo collection s (Path.root.child field, d) t)
    (hrun : c.checkRecord collection s = .ok () s') :
    ∃ o v, c.Finds collection s (Path.root.child field, d) t o v ∧ o.values = d.values ∧
      s.record.get? field = some v := by
  obtain ⟨v, hv⟩ := Option.isSome_iff_exists.mp hpresent
  have ht := hcomes.arrives hc hnames (fun e _ _ => .object e.1) hobject
  have hsound := hcomes.arrives hc hnames (fun e _ _ => .sound e.1) hsound
  have hvalue := hcomes.arrives hc hnames (fun e _ hne => .get? hne (some v)) hv
  obtain ⟨t', hcheck, -⟩ := hcomes.rest hc hnames hrun
  obtain ⟨o, cache, hoptions, -⟩ := check_ends hc hcheck
  refine ⟨o, v, ⟨hcomes, ?_, (lookup_object ht field).trans hvalue⟩,
    (hsound.of_resolve hoptions).2.2, hv⟩
  rw [hc]
  exact congrArg Prod.fst hoptions

theorem Finds.unique (hnames : (Entries.keys collection.fields).Nodup) {t' : PassState}
    {o' : Options} {v' : Value} (h : c.Finds collection s (Path.root.child field, d) t o v)
    (h' : c.Finds collection s (Path.root.child field, d) t' o' v') :
    t' = t ∧ o' = o ∧ v' = v := by
  obtain rfl := h'.comes.unique hnames h.comes
  exact ⟨rfl, Except.ok.inj (h'.options.symm.trans h.options),
    Option.some.inj (h'.value.symm.trans h.value)⟩

/-- What the second pass does with a field it finds is up to the verdict. -/
theorem Finds.check (hc : c.registry = .builtin) {x : Path × Declaration}
    (h : c.Finds collection s x t o v) (fuel : Nat) : ∃ cache, c.check (fuel + 1) x.1 x.2 t =
      match c.verdict x.1 x.2 o t.record v with
      | .stop e => .error e { t with cache := cache }
      | .reset w => .ok () { t with record := x.1.set w t.record, cache := cache }
      | .refuse message w => .ok () ⟨x.1.set w t.record, t.errors.insert x.1 message, cache⟩
      | .accept =>
        if x.2.kind.definition.composite then
          (c.catalog.members x.2 v).forM
            (fun m => c.check fuel (x.1 ++ m.relative) m.declaration) { t with cache := cache }
        else .ok () { t with cache := cache } := by
  have hoptions := h.options
  rw [hc] at hoptions
  obtain ⟨⟨result, cache⟩, hp⟩ : ∃ p, t.cache.resolve .builtin x.1.name x.2 = p := ⟨_, rfl⟩
  have hresult : result = .ok o := (congrArg Prod.fst hp).symm.trans hoptions
  refine ⟨cache, ?_⟩
  rw [check_run hc, hp, hresult]
  cases hverdict : c.verdict x.1 x.2 o t.record v <;> simp only [h.value, hverdict]

/-- A second pass that ends well has an answer to the conditions of every field it finds. -/
theorem Finds.answer (hc : c.registry = .builtin)
    (hnames : (Entries.keys collection.fields).Nodup)
    (h : c.Finds collection s (Path.root.child field, d) t o v)
    (hrun : c.checkRecord collection s = .ok () s') (hl : d.additional.logic = some l) :
    ∃ holds, l.matches? t.record (Path.root.child field) = .ok holds := by
  cases hmatch : l.matches? t.record (Path.root.child field) with
  | ok holds => exact ⟨holds, rfl⟩
  | error e =>
    obtain ⟨t', hcheck, -⟩ := h.comes.rest hc hnames hrun
    obtain ⟨cache, hstop⟩ := h.check hc _
    rw [verdict_logic hl, hmatch] at hstop
    cases hcheck.symm.trans hstop

/-- Conditions are matched on the record as it is when the second pass comes to their field. -/
theorem ComesTo.hides_iff (hc : c.registry = .builtin)
    (hnames : (Entries.keys collection.fields).Nodup) (hobject : s.record.isObject = true)
    (hsound : s.cache.Sound) (hpresent : (s.record.get? field).isSome = true)
    (hcomes : c.ComesTo collection s (Path.root.child field, d) t)
    (hrun : c.checkRecord collection s = .ok () s') (hl : d.additional.logic = some l) :
    (c.Hides collection s (Path.root.child field, d) ↔
        l.matches? t.record (Path.root.child field) = .ok false) ∧
      (c.Validates collection s (Path.root.child field, d) ↔
        l.matches? t.record (Path.root.child field) = .ok true) := by
  obtain ⟨o, v, hfinds, ho, -⟩ := hcomes.finds hc hnames hobject hsound hpresent hrun
  obtain ⟨holds, hmatch⟩ := hfinds.answer hc hnames hrun hl
  have hverdict : c.verdict (Path.root.child field) d o t.record v = _ := verdict_logic hl
  rw [default_eq ho, hmatch] at hverdict
  cases holds with
  | false =>
    refine ⟨iff_of_true ⟨t, o, v, hfinds, hverdict⟩ hmatch, iff_of_false ?_ ?_⟩
    · rintro ⟨u, o', v', hu, hjudged⟩
      obtain ⟨rfl, rfl, rfl⟩ := hfinds.unique hnames hu
      exact Verdict.ofJudgement_ne_reset _ _ _ (hjudged.symm.trans hverdict)
    · rw [hmatch]
      exact nofun
  | true =>
    refine ⟨iff_of_false ?_ ?_, iff_of_true ⟨t, o, v, hfinds, hverdict⟩ hmatch⟩
    · rintro ⟨u, o', v', hu, hreset⟩
      obtain ⟨rfl, rfl, rfl⟩ := hfinds.unique hnames hu
      exact Verdict.ofJudgement_ne_reset _ _ _ (hverdict.symm.trans hreset)
    · rw [hmatch]
      exact nofun

end PassContext

/-- When the second pass comes to a field, the fields declared before it are as they stay, and all
others as they were. -/
theorem exists_comesTo_between (hc : c.registry = .builtin)
    (hnames : (Entries.keys collection.fields).Nodup) {earlier later : Schema}
    (hfields : collection.fields = earlier ++ (field, d) :: later)
    (hx : (Path.root.child field, d) ∈ c.fieldsFor collection s.record)
    (hrun : c.checkRecord collection s = .ok () s') :
    ∃ t, c.ComesTo collection s (Path.root.child field, d) t ∧ ∀ key,
      t.record.get? key =
        if key ∈ Entries.keys earlier then s'.record.get? key else s.record.get? key := by
  obtain ⟨before, after, hlist, hbefore, hafter⟩ := PassContext.fieldsFor_split hfields hx
  rw [PassContext.checkRecord_run, hlist] at hrun
  obtain ⟨t, t', hrun₁, hhere, hrun₂⟩ := forM_cut hrun
  have hconfined : ∀ x : Path × Declaration,
      Confined x.1 (c.check (PassContext.fuelAt s.record x.1) x.1 x.2) :=
    fun x => confined_check hc _ x.1 x.2
  refine ⟨t, ⟨before, after, hlist, hrun₁⟩, fun key => ?_⟩
  split
  · next hkey =>
    -- neither the field nor one after it has the name of one before it
    obtain ⟨e, he, rfl⟩ := List.mem_map.mp hkey
    have hapart : ∀ f ∈ (field, d) :: later, f.1 ≠ e.1 := by
      intro f hf hname
      unfold Entries.keys at hnames
      rw [hfields, List.map_append] at hnames
      exact (List.nodup_append.mp hnames).2.2 _ (List.mem_map_of_mem he) _
        (List.mem_map_of_mem hf) hname.symm
    obtain ⟨hfield, hlater⟩ := List.forall_mem_cons.mp hapart
    have ht' := (hconfined (Path.root.child field, d) _
      (FramedOff.get? hfield (t.record.get? e.1))).ok rfl hhere
    refine Eq.symm (forM_framed (P := fun u => u.record.get? e.1 = t.record.get? e.1) hconfined
      (fun x hx => ?_) ht' hrun₂)
    obtain ⟨f, hf, rfl⟩ := hafter x hx
    exact ⟨f.1, rfl, .get? (hlater f hf) _⟩
  · next hkey =>
    refine forM_framed (P := fun u => u.record.get? key = s.record.get? key) hconfined
      (fun x hx => ?_) rfl hrun₁
    obtain ⟨e, he, rfl⟩ := hbefore x hx
    refine ⟨e.1, rfl, .get? (fun hname => hkey ?_) _⟩
    rw [← hname]
    exact List.mem_map_of_mem he

end

/-! ### Records -/

/-- A field that takes part and has conditions is reset when they fail, and validated when they
hold, on a record that shows the fields declared before it as they come out in the end and all
others as the first pass left them.  That is as good as the record after the first pass unless the
conditions read an earlier field that the second pass changed. -/
theorem Engine.processRecord_hides_iff {e : Engine} (hreg : e.registry = .builtin)
    (hcache : e.cache.Sound) {name : String} {collection : Collection}
    (hcol : e.catalog.collection? name = some collection)
    (hnames : (Entries.keys collection.fields).Nodup) {earlier later : Schema} {field : String}
    {d : Declaration} (hfields : collection.fields = earlier ++ (field, d) :: later)
    {record : Value} {operation : Operation} {batch : List Value} {errors : ErrorMap}
    (h : (e.processRecord name record operation batch).result = .ok errors) {s : PassState}
    (hfirst : (e.passContext operation name batch).sanitizeRecord collection
      ⟨record, .empty, e.cache⟩ = .ok true s)
    (hx : (Path.root.child field, d) ∈
      (e.passContext operation name batch).fieldsFor collection s.record)
    {l : Logic} (hl : d.additional.logic = some l) :
    let c := e.passContext operation name batch
    let path := Path.root.child field
    let final := (e.processRecord name record operation batch).records
    ∃ seen : Value,
      (∀ key, seen.get? key =
        if key ∈ Entries.keys earlier then final.get? key else s.record.get? key) ∧
      (c.Hides collection s (path, d) ↔ l.matches? seen path = .ok false) ∧
      (c.Validates collection s (path, d) ↔ l.matches? seen path = .ok true) ∧
      (l.ReadsMembers path → (∀ key ∈ Entries.keys earlier, l.Reads path key →
          final.get? key = s.record.get? key) →
        l.matches? seen path = l.matches? s.record path) := by
  intro c path final
  obtain ⟨accepted, s₁, s₂, h₁, h₂, hrecords, -⟩ := processRecord_ok hcol h
  obtain ⟨rfl, rfl⟩ := EStateM.Result.ok.inj (h₁.symm.trans hfirst)
  have hfinal : final = s₂.record := congrArg Processed.records hrecords
  obtain ⟨hobject, hpresent⟩ := sanitizeRecord_fields (c := c) hreg hfirst
  have hsound : s₁.cache.Sound :=
    sanitizeRecord_framed (c := c) hreg hfirst (fun f _ => FramedOff.sound f.1) hcache
  obtain ⟨t, hcomes, hseen⟩ := exists_comesTo_between (c := c) hreg hnames hfields hx h₂
  obtain ⟨hhides, hvalidates⟩ := hcomes.hides_iff hreg hnames hobject hsound
    (hpresent field d hx) h₂ hl
  have ht : t.record.isObject = true :=
    hcomes.arrives hreg hnames (fun f _ _ => .object f.1) hobject
  rw [← hfinal] at hseen
  refine ⟨t.record, hseen, hhides, hvalidates, fun hmembers hkept => ?_⟩
  refine Logic.matches?_of_members ht hobject hmembers fun key hkey => ?_
  rw [hseen key]
  split
  · next hearlier => exact hkept key hearlier hkey
  · rfl

/-! ### An instance -/

/-- A code is long when it says so, though no code has more than three characters. -/
def longCode : Logic := .conditions [("/code", .literal (.string "long"))]

/-- Notes that are kept for long codes only. -/
def notes : Collection where
  name := "notes"
  fields := [("code", (Declaration.ofKind .text).option "max-length" (.number 3)),
    ("note", (Declaration.ofKind .text).conditional longCode)]

def notesCatalog : Catalog := ⟨[("notes", notes)], []⟩

def note (code text : String) : Value := .object [("code", .string code), ("note", .string text)]

theorem processRecord_hides_note :
    let e := Engine.ofCatalog notesCatalog
    let c := e.passContext .create "notes" []
    let path := Path.root.child "note"
    let d := (Declaration.ofKind .text).conditional longCode
    let final := (e.processRecord "notes" (note "long" "hello") .create []).records
    ∃ s seen, c.sanitizeRecord notes ⟨note "long" "hello", .empty, e.cache⟩ = .ok true s ∧
      (∀ key, seen.get? key = if key ∈ ["code"] then final.get? key else s.record.get? key) ∧
      (c.Hides notes s (path, d) ↔ longCode.matches? seen path = .ok false) ∧
      (c.Validates notes s (path, d) ↔ longCode.matches? seen path = .ok true) ∧
      (longCode.ReadsMembers path → (∀ key ∈ ["code"], longCode.Reads path key →
          final.get? key = s.record.get? key) →
        longCode.matches? seen path = longCode.matches? s.record path) := by
  intro e c path d final
  have hcol : notesCatalog.collection? "notes" = some notes := rfl
  obtain ⟨s, hs⟩ : ∃ s, c.sanitizeRecord notes ⟨note "long" "hello", .empty, e.cache⟩ =
    .ok true s := ⟨_, rfl⟩
  have hx : (path, d) ∈ c.fieldsFor notes s.record :=
    List.mem_cons_of_mem _ List.mem_cons_self
  have hfields : notes.fields =
    [("code", (Declaration.ofKind .text).option "max-length" (.number 3))] ++ ("note", d) :: [] :=
      rfl
  have hresult : (e.processRecord "notes" (note "long" "hello") .create []).result = .ok _ := rfl
  obtain ⟨seen, hseen⟩ := Engine.processRecord_hides_iff rfl OptionCache.sound_empty hcol
    (by decide) hfields hresult hs hx rfl
  exact ⟨s, seen, hs, hseen⟩

/-- The code is refused and takes its default before the conditions of the note are matched, so a
note is lost whose conditions held after the first pass. -/
theorem processRecord_hides_refused :
    let e := Engine.ofCatalog notesCatalog
    let c := e.passContext .create "notes" []
    let path := Path.root.child "note"
    let d := (Declaration.ofKind .text).conditional longCode
    ∃ s, c.sanitizeRecord notes ⟨note "long" "hello", .empty, e.cache⟩ = .ok true s ∧
      s.record = note "long" "hello" ∧
      (e.processRecord "notes" (note "long" "hello") .create []).result =
        .ok ⟨[("code", "The value must be at most 3 characters long")]⟩ ∧
      (e.processRecord "notes" (note "long" "hello") .create []).records = note "" "" ∧
      ¬ (c.Hides notes s (path, d) ↔ longCode.matches? s.record path = .ok false) := by
  intro e c path d
  refine ⟨_, rfl, rfl, rfl, rfl, fun hiff => ?_⟩
  have hmatch := hiff.mp ⟨_, _, _, ⟨⟨[(Path.root.child "code", (Declaration.ofKind .text).option
    "max-length" (.number 3))], [], rfl, rfl⟩, rfl, rfl⟩, rfl⟩
  cases hmatch

end ContentSchema
