import ContentSchema.Proofs.Conditions
import ContentSchema.Proofs.Lockstep

/-!
# Hidden fields — what is left of a field whose conditions fail

The second pass gives a hidden field its default and reports nothing about it, so the field comes
out with the entries that the first pass made (`Engine.processRecord_hidden`).  The first pass does
not know conditions yet and reports what it finds out of shape.  About a value that is in shape it
reports nothing (`sanitize_silent`), which is shown by running it on an empty error map: what is
reported does not depend on what was reported before (`Oblivious`).
-/

namespace ContentSchema

/-! ### Errors are written only -/

theorem ErrorMap.report_append (errors : ErrorMap) (ps qs : List Problem) :
    errors.report (ps ++ qs) = (errors.report ps).report qs := List.foldl_append

/-- A run that ends well reports on top of what was reported before, and does not look at it. -/
def Oblivious {α : Type} (m : PassM α) : Prop :=
  ∀ (s s' : PassState) (a : α), m s = .ok a s' → ∃ problems,
    s'.errors = s.errors.report problems ∧
      ∀ errors, m { s with errors := errors } = .ok a { s' with errors := errors.report problems }

namespace Oblivious

variable {α β : Type} {c : PassContext}

theorem pure (a : α) : Oblivious (pure a) := by
  intro s s' b h
  obtain ⟨rfl, rfl⟩ := EStateM.Result.ok.inj h
  exact ⟨[], rfl, fun _ => rfl⟩

theorem bind {m : PassM α} {f : α → PassM β} (hm : Oblivious m) (hf : ∀ a, Oblivious (f a)) :
    Oblivious (m >>= f) := by
  intro s s' b h
  obtain ⟨a, t, ha, hb⟩ := bind_ok.mp h
  obtain ⟨ps, ht, hm⟩ := hm s t a ha
  obtain ⟨qs, hs', hf⟩ := hf a t s' b hb
  refine ⟨ps ++ qs, ?_, fun errors => ?_⟩
  · rw [hs', ht, ErrorMap.report_append]
  · rw [bind_run (hm errors), hf (errors.report ps), ErrorMap.report_append]

/-- The state may be read for anything but the errors. -/
theorem get {f : PassState → PassM β} (hf : ∀ s, Oblivious (f s))
    (hread : ∀ s errors, f { s with errors := errors } = f s) : Oblivious (get >>= f) := by
  intro s s' b h
  rw [bind_run get_run] at h
  obtain ⟨ps, hs', hrun⟩ := hf s s s' b h
  refine ⟨ps, hs', fun errors => ?_⟩
  rw [bind_run get_run, hread]
  exact hrun errors

theorem forM {f : α → PassM Unit} {xs : List α} (hf : ∀ x, Oblivious (f x)) :
    Oblivious (xs.forM f) := by
  induction xs with
  | nil => exact pure ()
  | cons x xs ih => exact bind (hf x) fun _ => ih

theorem setField (path : Path) (v : Value) : Oblivious (setField path v) := by
  intro s s' a h
  obtain ⟨-, rfl⟩ := EStateM.Result.ok.inj h
  exact ⟨[], rfl, fun _ => rfl⟩

theorem reportProblem (problem : Problem) : Oblivious (reportProblem problem) := by
  intro s s' a h
  obtain ⟨-, rfl⟩ := EStateM.Result.ok.inj h
  exact ⟨[problem], rfl, fun _ => rfl⟩

theorem options (name : String) (d : Declaration) : Oblivious (c.options name d) := by
  intro s s' o h
  rw [PassContext.options_run] at h
  obtain ⟨⟨result, cache⟩, hp⟩ : ∃ p, s.cache.resolve c.registry name d = p := ⟨_, rfl⟩
  rw [hp] at h
  cases result with
  | error e => cases h
  | ok o' =>
    obtain ⟨rfl, rfl⟩ := EStateM.Result.ok.inj h
    refine ⟨[], rfl, fun errors => ?_⟩
    rw [PassContext.options_run]
    simp only [hp]
    rfl

theorem shapeField (path : Path) (d : Declaration) (o : Options) :
    Oblivious (c.shapeField path d o) := by
  unfold PassContext.shapeField
  refine get (fun s => ?_) fun _ _ => rfl
  split
  · exact pure _
  · exact bind (setField _ _) fun _ => bind (forM reportProblem) fun _ => pure _

theorem sanitizePresent {descend : Path → Declaration → PassM Unit}
    (h : ∀ path d, Oblivious (descend path d)) (path : Path) (d : Declaration)
    (definition : Definition) (o : Options) (v : Value) :
    Oblivious (c.sanitizePresent descend path d definition o v) := by
  unfold PassContext.sanitizePresent
  refine get (fun s => bind (setField _ _) fun _ => ?_) fun _ _ => rfl
  split
  · refine bind (shapeField path d o) fun valid => ?_
    split
    · exact get (fun s => forM fun m => h _ _) fun _ _ => rfl
    · exact setField _ _
  · exact pure _

theorem sanitize (hc : c.registry = .builtin) (fuel : Nat) (path : Path) (d : Declaration) :
    Oblivious (c.sanitize fuel path d) := by
  induction fuel generalizing path d with
  | zero => exact pure ()
  | succ fuel ih =>
    unfold PassContext.sanitize
    rw [definition_builtin hc, pure_bind]
    refine bind (options _ _) fun o => get (fun s => ?_) fun _ _ => rfl
    split
    · split
      · exact sanitizePresent ih path d _ o .null
      · exact setField _ _
    · exact sanitizePresent ih path d _ o _

end Oblivious

/-! ### Fields in shape -/

section

variable {c : PassContext} {collection : Collection} {s s' t : PassState} {field : String}
  {d : Declaration} {l : Logic} {path : Path}

/-- A value without members is never out of shape. -/
theorem sanitize_leaf (hc : c.registry = .builtin) (hd : d.kind.isComposite = false)
    (errors : ErrorMap) (fuel : Nat) (path : Path) :
    Maintains (fun s => s.errors = errors) (c.sanitize fuel path d) := by
  have hframe : Frame (fun s => s.errors = errors) (fun _ => True) fun _ => False :=
    ⟨fun _ _ h => h, fun _ _ h => h, fun _ h => h.elim⟩
  have hpresent : ∀ {descend o v}, Maintains (fun s => s.errors = errors)
      (c.sanitizePresent descend path d d.kind.definition o v) := by
    intro descend o v
    unfold PassContext.sanitizePresent
    rw [composite_definition, hd]
    exact .bind .get fun _ => .bind (.setField hframe trivial _) fun _ => .pure ()
  cases fuel with
  | zero => exact .pure ()
  | succ fuel =>
    unfold PassContext.sanitize
    rw [definition_builtin hc, pure_bind]
    refine .bind (.options hframe hc _ _) fun o => .bind .get fun s => ?_
    split
    · split
      · exact hpresent
      · exact .setField hframe trivial _
    · exact hpresent

/-- Nothing is reported about a value that is as declared. -/
theorem sanitize_silent (hc : c.registry = .builtin) {fields : Schema}
    (hp : c.catalog.Plain fields) (hd : c.catalog.InUse fields d) {fuel : Nat}
    (hs : s.cache.Sound) (hroom : path.HasRoom s.record) (hfuel : 0 < fuel)
    (hv : ∀ v, path.lookup s.record = some v → v.weight < fuel ∧ Tidy c.catalog d v)
    (h : c.sanitize fuel path d s = .ok () s') : s'.errors = s.errors := by
  obtain ⟨problems, herrors, hrun⟩ := Oblivious.sanitize hc fuel path d s s' () h
  have hclear := (sanitize_step hc hp hd (s := { s with errors := .empty }) hs hroom hfuel
    (fun v hlook => (hv v hlook).1) (hrun .empty)).clear.mpr ⟨rfl, fun v hlook => (hv v hlook).2⟩
  have hnone := ((ErrorMap.isEmpty_report _ _).mp hclear).2
  rw [herrors, hnone]
  rfl

/-- What is dropped from a record is reported outside of its fields, unless an undeclared key goes
on after the name of a field. -/
theorem under_pruned (hd : (field, d) ∈ collection.fields) (hs : s.errors = .empty)
    (hkeys : ∀ key, (s.record.get? key).isSome = true → KeyAt field key → key = field) :
    (s.pruned collection).errors.under field = .empty := by
  refine (ErrorMap.under_report_of_not (fun p hp => ?_) s.errors).trans ?_
  · obtain ⟨m, hm, rfl⟩ := List.mem_map.mp hp
    obtain ⟨hm, hown⟩ := List.mem_filter.mp hm
    intro hat
    have hkey : m.1 = field := hkeys m.1 (Entries.get?_isSome_of_mem hm) hat
    rw [hkey, ownKey_of_mem hd] at hown
    cases hown
  · rw [hs]
    exact ErrorMap.under_empty field

/-- The first pass reports nothing inside a field that is in shape. -/
theorem sanitizeRecord_silent (hc : c.registry = .builtin)
    (hnames : (Entries.keys collection.fields).Nodup) (hd : (field, d) ∈ collection.fields)
    (hparts : ∀ e ∈ collection.fields, e.1 ≠ field → NamesPart field e.1)
    (hsound : s.cache.Sound) (hs : s.errors = .empty)
    (hkeys : ∀ key, (s.record.get? key).isSome = true → KeyAt field key → key = field)
    (hshape : d.kind.isComposite = true → c.catalog.Plain [(field, d)] ∧
      ∀ v, s.record.get? field = some v → Tidy c.catalog d v)
    (h : c.sanitizeRecord collection s = .ok true s') : s'.errors.under field = .empty := by
  obtain ⟨hobject, hloop⟩ := sanitizeRecord_loop h
  have hstart := under_pruned hd hs hkeys
  have hconfined : ∀ x : Path × Declaration,
      Confined x.1 (c.sanitize (PassContext.fuelAt s.record x.1) x.1 x.2) :=
    fun x => confined_sanitize hc _ x.1 x.2
  have hothers : ∀ e ∈ collection.fields, e.1 ≠ field →
      FramedOff (fun s => s.errors.under field = .empty) e.1 :=
    fun e he hne => .under (hparts e he hne) .empty
  by_cases hx : (Path.root.child field, d) ∈ c.fieldsFor collection (s.pruned collection).record
  · obtain ⟨t, t', hhere, hcut⟩ := PassContext.forM_fieldsFor_cut hnames hconfined hx hloop
    obtain ⟨harrives, hleaves⟩ := hcut _ hothers
    have ht := (hcut _ fun e _ _ => .object e.1).1 rfl
    have hsound := (hcut _ fun e _ _ => .sound e.1).1 hsound
    have hvalue : t.record.get? field = s.record.get? field := by
      refine (hcut _ fun e _ hne => .get? hne _).1 ?_
      rw [get?_pruned, if_pos (ownKey_of_mem hd)]
    refine hleaves ?_
    have hsilent : t'.errors = t.errors := by
      cases hcomp : d.kind.isComposite with
      | false => exact (sanitize_leaf hc hcomp t.errors _ _).ok rfl hhere
      | true =>
        obtain ⟨hplain, htidy⟩ := hshape hcomp
        obtain ⟨ms, hms⟩ := Value.isObject_iff.mp ht
        have hroom : (Path.root.child field).HasRoom t.record :=
          hms ▸ Path.room_singleton field ms
        refine sanitize_silent hc hplain (.field List.mem_cons_self) hsound hroom
          (Nat.succ_pos _) (fun v hv => ?_) hhere
        rw [lookup_object ht, hvalue] at hv
        exact ⟨PassContext.weight_lt_fuelAt ((lookup_object hobject field).trans hv),
          htidy v hv⟩
    rw [hsilent]
    exact harrives hstart
  · exact PassContext.forM_fieldsFor_others hnames hd hconfined hx hloop hothers hstart

/-! ### Hidden fields -/

/-- The second pass stores the default at a field whose conditions fail, and reports nothing. -/
theorem PassContext.ComesTo.resets (hc : c.registry = .builtin)
    (hnames : (Entries.keys collection.fields).Nodup) (hobject : s.record.isObject = true)
    (hsound : s.cache.Sound) (hpresent : (s.record.get? field).isSome = true)
    (hcomes : c.ComesTo collection s (Path.root.child field, d) t)
    (hrun : c.checkRecord collection s = .ok () s') (hl : d.additional.logic = some l)
    (hfalse : l.matches? t.record (Path.root.child field) = .ok false) :
    ∃ cache, c.check (fuelAt s.record (Path.root.child field)) (Path.root.child field) d t =
      .ok () ⟨(Path.root.child field).set d.fallback t.record, t.errors, cache⟩ := by
  obtain ⟨o, v, hfinds, ho, -⟩ := hcomes.finds hc hnames hobject hsound hpresent hrun
  obtain ⟨cache, hcheck⟩ := hfinds.check hc _
  rw [verdict_logic hl, hfalse, default_eq ho] at hcheck
  exact ⟨cache, hcheck⟩

end

/-! ### Records -/

/-- A field whose conditions fail when the second pass comes to it ends up with its default.  As
long as its entries can be told apart from those of the other fields, they are the ones that the
first pass made for it, and there are none when the value was in shape, which it always is without
members, and no undeclared key goes on after the name of the field. -/
theorem Engine.processRecord_hidden {e : Engine} (hreg : e.registry = .builtin)
    (hcache : e.cache.Sound) {name : String} {collection : Collection}
    (hcol : e.catalog.collection? name = some collection)
    (hnames : (Entries.keys collection.fields).Nodup) {record : Value} {operation : Operation}
    {batch : List Value} {errors : ErrorMap}
    (h : (e.processRecord name record operation batch).result = .ok errors) {s t : PassState}
    (hfirst : (e.passContext operation name batch).sanitizeRecord collection
      ⟨record, .empty, e.cache⟩ = .ok true s) {field : String} {d : Declaration}
    (hcomes : (e.passContext operation name batch).ComesTo collection s
      (Path.root.child field, d) t)
    {l : Logic} (hl : d.additional.logic = some l)
    (hfalse : l.matches? t.record (Path.root.child field) = .ok false) :
    (e.processRecord name record operation batch).records.get? field = some d.fallback ∧
      ((∀ f ∈ collection.fields, f.1 ≠ field → NamesPart field f.1) →
        errors.under field = s.errors.under field ∧
        ((∀ key, (record.get? key).isSome = true → KeyAt field key → key = field) →
          (d.kind.isComposite = true → e.catalog.Plain [(field, d)] ∧
            ∀ v, record.get? field = some v → Tidy e.catalog d v) →
          errors.under field = .empty)) := by
  obtain ⟨accepted, s₁, s₂, h₁, h₂, hprocessed, rfl⟩ := processRecord_ok hcol h
  obtain ⟨rfl, rfl⟩ := EStateM.Result.ok.inj (h₁.symm.trans hfirst)
  have hx : (Path.root.child field, d) ∈
      (e.passContext operation name batch).fieldsFor collection s₁.record := by
    obtain ⟨before, after, hlist, -⟩ := hcomes
    rw [hlist]
    exact List.mem_append_right _ List.mem_cons_self
  have hd : (field, d) ∈ collection.fields := by
    obtain ⟨other, hother, hpath⟩ := PassContext.mem_fieldsFor hx
    rw [(List.cons.inj (Path.ext_iff.mp hpath)).1]
    exact hother
  have hreg' : (e.passContext operation name batch).registry = .builtin := hreg
  obtain ⟨hobject, hpresent⟩ := sanitizeRecord_fields hreg' hfirst
  have hsound : s₁.cache.Sound :=
    sanitizeRecord_framed hreg' hfirst (fun f _ => FramedOff.sound f.1) hcache
  obtain ⟨cache, hcheck⟩ := hcomes.resets hreg' hnames hobject hsound (hpresent field d hx) h₂ hl
    hfalse
  obtain ⟨t', hcheck', hafter⟩ := hcomes.rest hreg' hnames h₂
  obtain ⟨-, rfl⟩ := EStateM.Result.ok.inj (hcheck.symm.trans hcheck')
  have ht := hcomes.arrives hreg' hnames (fun f _ _ => .object f.1) hobject
  have hvalue : s₂.record.get? field = some d.fallback := by
    refine hafter (fun s => s.record.get? field = some d.fallback) (fun f _ hne => .get? hne _) ?_
    obtain ⟨ms, hms⟩ := Value.isObject_iff.mp ht
    rw [hms, Path.set_child_root]
    exact Entries.get?_insert_self field d.fallback ms
  refine ⟨?_, fun hparts => ?_⟩
  · rw [hprocessed]
    exact hvalue
  · have hothers : ∀ f ∈ collection.fields, f.1 ≠ field →
        FramedOff (fun s => s.errors.under field = s₁.errors.under field) f.1 :=
      fun f hf hne => .under (hparts f hf hne) _
    have herrors : s₂.errors.under field = s₁.errors.under field :=
      hafter _ hothers (hcomes.arrives hreg' hnames hothers rfl)
    refine ⟨herrors, fun hkeys hshape => ?_⟩
    rw [herrors]
    exact sanitizeRecord_silent (c := e.passContext operation name batch)
      (s := ⟨record, .empty, e.cache⟩) hreg' hnames hd hparts hcache rfl hkeys hshape hfirst

/-! ### Instances -/

/-- Sheets that have rows when they are lists. -/
def isList : Logic := .conditions [("/kind", .literal (.string "list"))]

def sheets : Collection where
  name := "sheets"
  fields := [("kind", .ofKind .text), ("rows", (Declaration.ofKind .repeater).conditional isList)]

def sheetsCatalog : Catalog := ⟨[("sheets", sheets)], []⟩

/-- A sheet that is no list, with a row that is no object. -/
def sheet : Value := .object [("kind", .string "page"), ("rows", .list [.bool true])]

theorem processRecord_hidden_sheet :
    let e := Engine.ofCatalog sheetsCatalog
    let errors : ErrorMap := ⟨[("rows.0", Message.invalidInputType)]⟩
    ∃ s, (e.passContext .create "sheets" []).sanitizeRecord sheets ⟨sheet, .empty, e.cache⟩ =
        .ok true s ∧
      (e.processRecord "sheets" sheet .create []).result = .ok errors ∧
      (e.processRecord "sheets" sheet .create []).records.get? "rows" = some (.list []) ∧
      errors.under "rows" = s.errors.under "rows" := by
  intro e errors
  have hcol : sheetsCatalog.collection? "sheets" = some sheets := rfl
  have hresult : (e.processRecord "sheets" sheet .create []).result = .ok errors := rfl
  refine ⟨_, rfl, hresult, ?_⟩
  obtain ⟨hrows, hentries⟩ := Engine.processRecord_hidden (e := e) rfl OptionCache.sound_empty
    hcol (by decide) hresult rfl (d := (Declaration.ofKind .repeater).conditional isList)
    ⟨[(Path.root.child "kind", .ofKind .text)], [], rfl, rfl⟩ rfl rfl
  exact ⟨hrows, (hentries (by decide)).1⟩

/-- Titles that are shown in lists only, beside a field whose name goes on after theirs. -/
def titles : Collection where
  name := "titles"
  fields := [("title", (Declaration.ofKind .text).conditional
      (.conditions [("/title", .literal (.string "list"))])),
    ("title.size", (Declaration.ofKind .text).option "max-length" (.number 3))]

def titlesCatalog : Catalog := ⟨[("titles", titles)], []⟩

/-- A title with a size that is too long, and with a member that is not declared. -/
def title : Value :=
  .object [("title", .string "A"), ("title.note", .null), ("title.size", .string "long")]

/-- The row was reported before anything was known about conditions, and the entries of two other
keys cannot be told apart from those of the title. -/
theorem processRecord_hidden_reported :
    (let e := Engine.ofCatalog sheetsCatalog
      let c := e.passContext .create "sheets" []
      let d := (Declaration.ofKind .repeater).conditional isList
      ∃ s, c.sanitizeRecord sheets ⟨sheet, .empty, e.cache⟩ = .ok true s ∧
        (∃ t, c.ComesTo sheets s (Path.root.child "rows", d) t ∧
          isList.matches? t.record (Path.root.child "rows") = .ok false) ∧
        (e.processRecord "sheets" sheet .create []).result =
          .ok ⟨[("rows.0", Message.invalidInputType)]⟩) ∧
      let e := Engine.ofCatalog titlesCatalog
      let c := e.passContext .create "titles" []
      let l : Logic := .conditions [("/title", .literal (.string "list"))]
      ∃ s, c.sanitizeRecord titles ⟨title, .empty, e.cache⟩ = .ok true s ∧
        (∃ t, c.ComesTo titles s
            (Path.root.child "title", (Declaration.ofKind .text).conditional l) t ∧
          l.matches? t.record (Path.root.child "title") = .ok false) ∧
        (e.processRecord "titles" title .create []).result =
          .ok ⟨[("title.note", Message.unrecognizedField),
            ("title.size", "The value must be at most 3 characters long")]⟩ ∧
        KeyAt "title" "title.note" ∧ KeyAt "title" "title.size" := by
  constructor
  · intro e c d
    refine ⟨_, rfl, ?_, rfl⟩
    exact ⟨_, ⟨[(Path.root.child "kind", .ofKind .text)], [], rfl, rfl⟩, rfl⟩
  · intro e c l
    refine ⟨_, rfl, ?_, rfl, by decide, by decide⟩
    exact ⟨_, ⟨[], _, rfl, rfl⟩, rfl⟩

end ContentSchema
