import ContentSchema.Proofs.FirstPass

/-!
# Conformance — every composite value of a processed record is as its declaration says

The first pass leaves values whose containers fit at every depth.  The second one replaces whole
values by what their fields fall back to, which fits as well, and lets nothing pass that is neither
null nor the right container.  So whatever was put in, a run that ends well leaves a record that
conforms (`Engine.processRecord_conforms`).
-/

namespace ContentSchema

/-- A composite value is null, or the container that its kind asks for and inside as declared:
undeclared keys, unknown variants, and unknown or disallowed blocks do not occur, and entries are
null or objects. -/
def Conforms (c : Catalog) (d : Declaration) (v : Value) : Prop :=
  d.kind.isComposite = true → v = .null ∨ d.container v = true ∧ Fits c true false d v

/-! ### Containers -/

namespace Path

theorem container_store? {s : String} {w v v' : Value} (h : store? s w v = some v') :
    v'.isList = v.isList ∧ v'.isObject = v.isObject := by
  cases v with
  | object ms =>
    rw [store?_object] at h
    rw [← Option.some.inj h]
    exact ⟨rfl, rfl⟩
  | list items =>
    obtain ⟨i, -, -, rfl⟩ := store?_list_eq_some h
    exact ⟨rfl, rfl⟩
  | _ => cases h

/-- Storing inside a container leaves it a container of the same type. -/
theorem container_set {p : Path} (hp : p.segments ≠ []) {v : Value} (hroom : p.HasRoom v)
    (w : Value) : (p.set w v).isList = v.isList ∧ (p.set w v).isObject = v.isObject := by
  obtain ⟨segments⟩ := p
  cases segments with
  | nil => exact (hp rfl).elim
  | cons s rest =>
    obtain ⟨v', hv'⟩ := hroom w
    rw [set_eq hv']
    obtain ⟨x, hx⟩ := exists_store?_of_setSegments? hv'
    exact container_store? hx

end Path

section

variable {c : Catalog} {d : Declaration} {v v' : Value}

theorem StoredAt.container (h : StoredAt ((c.members d v).map (·.relative)) v v') :
    d.container v' = d.container v := by
  induction h with
  | refl => rfl
  | @store u _ p hp hroom w ih =>
    obtain ⟨m, hm, rfl⟩ := List.mem_map.mp hp
    obtain ⟨hlist, hobject⟩ := Path.container_set (Catalog.members_ne hm) hroom w
    rw [← ih]
    unfold Declaration.container
    rw [hlist, hobject]

theorem conforms_fallback (d : Declaration) : Conforms c d d.fallback :=
  fun hd => .inr ⟨container_fallback hd, fits_fallback d⟩

/-- Storing at members of a value that conforms. -/
theorem StoredAt.conforms (hv : d.KeepsVariant) (hfits : Fits c true false d v)
    (hcont : v = .null ∨ d.container v = true)
    (h : StoredAt ((c.members d v).map (·.relative)) v v') :
    Conforms c d v' := by
  intro _
  rcases hcont with rfl | hcont
  · rw [c.members_eq_nil d rfl rfl] at h
    cases h with
    | refl => exact .inl rfl
    | store _ hp _ _ => cases hp
  · exact .inr ⟨h.container.trans hcont, (h.fits (fun _ => hv) hfits).1⟩

end

/-! ### The second pass -/

section

variable {c : PassContext} {fields : Schema} {d : Declaration} {path : Path} {s s' : PassState}

/-- One run of the second pass on a field of the record `r`, whose value fits. -/
structure CheckStep (c : Catalog) (path : Path) (d : Declaration) (r : Value) (s' : PassState) :
    Prop where
  sound : s'.cache.Sound
  record : ChangesAt path r s'.record
  conforms : ∀ v, path.lookup s'.record = some v →
    Everywhere c (fun _ d v => Conforms c d v) path d v

/-- A value that is replaced by what its field falls back to. -/
theorem CheckStep.fallback {c : Catalog} (hs : s'.cache.Sound) {v : Value}
    (hv : path.lookup s.record = some v) (hrec : s'.record = path.set d.fallback s.record) :
    CheckStep c path d s.record s' := by
  refine ⟨hs, .inr ⟨_, hrec⟩, fun w hw => ?_⟩
  rw [hrec, Path.lookup_set (Path.hasRoom_of_lookup hv)] at hw
  rw [← Option.some.inj hw]
  exact .fallback (conforms_fallback d)

theorem checkMembers_step (hp : c.catalog.Plain fields) (hk : c.catalog.KeepsVariants fields)
    (hd : c.catalog.InUse fields d) {fuel : Nat} {v : Value}
    (hfits : Fits c.catalog true false d v) (hcont : v = .null ∨ d.container v = true)
    (hcheck : ∀ m ∈ c.catalog.members d v, ∀ t t' : PassState, t.cache.Sound →
      (path ++ m.relative).lookup t.record = m.relative.lookup v →
        c.check fuel (path ++ m.relative) m.declaration t = .ok () t' →
          CheckStep c.catalog (path ++ m.relative) m.declaration t.record t')
    (hs : s.cache.Sound) (hv : path.lookup s.record = some v)
    (h : (c.catalog.members d v).forM (fun m => c.check fuel (path ++ m.relative) m.declaration) s =
      .ok () s') :
    CheckStep c.catalog path d s.record s' := by
  have hloop := forM_places (b := path) (v := v) (r := Member.relative)
    (I := fun _ t => t.cache.Sound)
    (Q := fun m after => ∀ u, after = some u →
      Everywhere c.catalog (fun _ d v => Conforms c.catalog d v) (path ++ m.relative)
        m.declaration u)
    (fun done m hm t t' hI _ hlook hrun => by
      have hstep := hcheck m hm t t' hI hlook hrun
      exact ⟨hstep.sound, hstep.record, hstep.conforms⟩)
    hv (hfits.places hp.distinct (hp.names d hd)) hs h
  obtain ⟨hsound, v', hstored, hrec, hmembers, -⟩ := hloop
  refine ⟨hsound, .inr ⟨v', hrec⟩, fun w hw => ?_⟩
  rw [hrec, Path.lookup_set (Path.hasRoom_of_lookup hv)] at hw
  rw [← Option.some.inj hw]
  refine .mk (hstored.conforms (hk d hd) hfits hcont) fun m hm u hu => ?_
  rw [(hstored.fits (fun _ => hk d hd) hfits).2] at hm
  exact hmembers m hm u hu

/-- Every run of the second pass on a field, with fuel for its value. -/
theorem check_step (hc : c.registry = .builtin) (hp : c.catalog.Plain fields)
    (hk : c.catalog.KeepsVariants fields) {fuel : Nat} (hd : c.catalog.InUse fields d)
    (hs : s.cache.Sound)
    (hv : ∀ v, path.lookup s.record = some v → v.weight < fuel ∧
      Everywhere c.catalog (fun _ d v => Fits c.catalog true false d v) path d v)
    (hfuel : 0 < fuel) (h : c.check fuel path d s = .ok () s') :
    CheckStep c.catalog path d s.record s' := by
  induction fuel generalizing path d s s' with
  | zero => exact (Nat.lt_irrefl 0 hfuel).elim
  | succ fuel ih =>
    obtain ⟨o, cache, hoptions, hends⟩ := PassContext.check_ends hc h
    obtain ⟨hsound, -, ho⟩ := hs.of_resolve hoptions
    cases hends with
    | absent hvalue =>
      refine ⟨hsound, .inl rfl, fun v hv' => ?_⟩
      cases hvalue.symm.trans hv'
    | reset hvalue hverdict =>
      exact .fallback hsound hvalue (by rw [eq_fallback_of_reset ho hverdict])
    | refuse hvalue hverdict =>
      exact .fallback hsound hvalue (by rw [eq_fallback_of_refuse ho hverdict])
    | @accept v _ hvalue hverdict hmembers =>
      obtain ⟨hweight, hfits⟩ := hv v hvalue
      cases hcomp : d.kind.isComposite with
      | false =>
        rw [c.catalog.members_leaf hcomp] at hmembers
        obtain ⟨-, rfl⟩ := EStateM.Result.ok.inj hmembers
        refine ⟨hsound, .inl rfl, fun w _ =>
          .leaf (fun hd => ?_) (c.catalog.members_leaf hcomp w)⟩
        rw [hcomp] at hd
        cases hd
      | true =>
        have hcont := container_of_judge hcomp
          ((verdict_spec c path d o s.record v).2.2 hverdict)
        refine checkMembers_step (s := { s with cache := cache }) hp hk hd hfits.here hcont
          (fun m hm t t' ht hfound hrun => ?_) hsound hvalue hmembers
        refine ih (hd.member hm) ht (fun u hu => ?_) ?_ hrun
        · rw [hfound] at hu
          have hlt := Catalog.weight_member hm hu
          exact ⟨by omega, hfits.member hm hu⟩
        · have := Path.weight_pos v
          omega

end

/-! ### Records -/

/-- All names stand once: those of the fields, and those inside every declaration in use and every
block. -/
structure Catalog.NamesApart (c : Catalog) (fields : Schema) : Prop where
  blocks : c.Distinct
  top : (Entries.keys fields).Nodup
  nested : ∀ d, c.InUse fields d → d.Distinct

/-- The second pass over a record that the first one left. -/
theorem checkRecord_conforms {c : PassContext} {collection : Collection} {ms : Entries Value}
    {s s₁ s₂ : PassState} (hc : c.registry = .builtin) (hp : c.catalog.Plain collection.fields)
    (hk : c.catalog.KeepsVariants collection.fields)
    (hnames : (Entries.keys collection.fields).Nodup) (hfirst : RecordStep c collection ms s s₁)
    (h : c.checkRecord collection s₁ = .ok () s₂) {e : String × Declaration}
    (he : e ∈ collection.fields) {v : Value} (hv : s₂.record.get? e.1 = some v) :
    Everywhere c.catalog (fun _ d v => Conforms c.catalog d v) (Path.root.child e.1) e.2 v := by
  obtain ⟨ms', hms', hkeys⟩ := hfirst.keys
  rw [PassContext.checkRecord_run] at h
  have hloop := forM_places (b := .root) (v := s₁.record) (r := Prod.fst)
    (I := fun _ t => t.cache.Sound)
    (Q := fun x after => ∀ u, after = some u →
      Everywhere c.catalog (fun _ d v => Conforms c.catalog d v) x.1 x.2 u)
    (fun done x hx t t' hI _ hfound hrun => ?_) (Path.lookup_root _)
    (hms' ▸ PassContext.places_fieldsFor hnames ms') hfirst.sound h
  · obtain ⟨-, v', hstored, hrec, hQ, -⟩ := hloop
    have hrec' : s₂.record = v' := hrec
    rw [hms'] at hstored hQ
    obtain ⟨final, rfl, hpart⟩ := PassContext.fieldsFor_of_stored hstored
    rw [hrec'] at hv
    have hlook : (Path.root.child e.1).lookup (.object final) = some v :=
      (Path.lookup_child_root _ _).trans hv
    -- a field with a value takes part
    exact hQ _ (hpart _ (PassContext.mem_fieldsFor_of he fun _ => by rw [hlook]; rfl)) v hlook
  · have hpath : Path.root ++ x.1 = x.1 := Path.root_append x.1
    rw [hpath] at hfound ⊢
    obtain ⟨w, hw, hsan⟩ := hfirst.fields x (hfirst.same ▸ hx)
    have hstep := check_step hc hp hk (PassContext.inUse_fieldsFor hx) hI
      (fun u hu => by
        rw [hfound] at hu
        refine ⟨PassContext.weight_lt_fuelAt hu, ?_⟩
        rw [hw] at hu
        rw [← Option.some.inj hu]
        exact hsan.fits hk)
      (Nat.succ_pos _) hrun
    exact ⟨hstep.sound, hstep.record, hstep.conforms⟩

/-- Every composite value of a record that was processed to the end conforms to its declaration. -/
theorem Engine.processRecord_conforms {e : Engine} (hreg : e.registry = .builtin)
    (hcat : e.catalog.Registered) (hcache : e.cache.Sound) {name : String}
    {collection : Collection} (hcol : e.catalog.collection? name = some collection)
    (hnames : e.catalog.NamesApart collection.fields)
    (hplain : ∀ d, e.catalog.InUse collection.fields d →
      d.additional.sanitizers = [] ∧ d.KeepsVariant)
    {ms : Entries Value} {operation : Operation} {batch : List Value} {errors : ErrorMap}
    (h : (e.processRecord name (.object ms) operation batch).result = .ok errors) :
    ∀ field d, (field, d) ∈ collection.fields → ∀ v,
      (e.processRecord name (.object ms) operation batch).records.get? field = some v →
        Everywhere e.catalog (fun _ d v => Conforms e.catalog d v) (Path.root.child field) d v := by
  obtain ⟨accepted, s₁, s₂, h₁, h₂, hrun, -⟩ := processRecord_ok hcol h
  have hp : e.catalog.Plain collection.fields :=
    ⟨hcat.keyed, hnames.blocks, hnames.nested, fun d hd => (hplain d hd).1⟩
  obtain ⟨rfl, hfirst⟩ := sanitizeRecord_step (c := e.passContext operation name batch) hreg hp
    hnames.top hcache rfl h₁
  intro field d hd v hv
  rw [hrun] at hv
  exact checkRecord_conforms (c := e.passContext operation name batch) hreg hp
    (fun d hd => (hplain d hd).2) hnames.top hfirst h₂ hd hv

/-! ### An instance -/

/-- A block with one field and one slot. -/
def heroBlock : Block where
  name := "hero"
  fields := [("title", .ofKind .text)]
  slots := [("inner", {})]

/-- Pages with a body made of blocks. -/
def pages : Collection where
  name := "pages"
  fields := [("body", .ofKind .blocks)]

def pagesCatalog : Catalog := ⟨[("pages", pages)], [("hero", heroBlock)]⟩

theorem registered_pages : pagesCatalog.Registered := by
  have hblock : Catalog.empty.registerBlock heroBlock = .ok ⟨[], [("hero", heroBlock)]⟩ := rfl
  have hcollection : Catalog.registerCollection ⟨[], [("hero", heroBlock)]⟩ pages =
      .ok pagesCatalog := rfl
  exact .collection (.block .empty hblock) hcollection

theorem block_pages {key : String} {block : Block} (h : pagesCatalog.block? key = some block) :
    block = heroBlock := by
  have hmem : (key, block) ∈ [("hero", heroBlock)] := Entries.mem_of_get? h
  exact (Prod.mk.inj (List.mem_singleton.mp hmem)).2

theorem inUse_pages {d : Declaration} (h : pagesCatalog.InUse pages.fields d) :
    d = .ofKind .blocks ∨ d = .ofKind .text := by
  replace h := h.inPlay
  induction h with
  | field h => exact .inl (Prod.mk.inj (List.mem_singleton.mp h)).2
  | blockField hb h =>
    rw [block_pages hb] at h
    exact .inr (Prod.mk.inj (List.mem_singleton.mp h)).2
  | subfield _ h ih => rcases ih with rfl | rfl <;> cases h
  | variant _ h _ ih => rcases ih with rfl | rfl <;> cases h

theorem namesApart_pages : pagesCatalog.NamesApart pages.fields := by
  refine ⟨fun key block hb => ?_, by decide, fun d hd => ?_⟩
  · rw [block_pages hb]
    decide
  · rcases inUse_pages hd with rfl | rfl <;> exact ⟨List.nodup_nil, fun _ h => nomatch h⟩

/-- A page with an unknown key inside a block and an entry that is no block. -/
def draft : Entries Value :=
  [("body", .list [.object [("fields", .object [("junk", .null), ("title", .string " A ")]),
    ("name", .string "hero")], .bool true])]

/-- What is left of its body. -/
def draftBody : Value :=
  .list [.object [("fields", .object [("title", .string "A")]), ("name", .string "hero")], .null]

theorem processRecord_conforms_draft :
    ((Engine.ofCatalog pagesCatalog).processRecord "pages" (.object draft) .create []).records =
        .object [("body", draftBody)] ∧
      Everywhere pagesCatalog (fun _ d v => Conforms pagesCatalog d v) (Path.root.child "body")
        (.ofKind .blocks) draftBody := by
  have hcol : pagesCatalog.collection? "pages" = some pages := rfl
  have hplain : ∀ d, pagesCatalog.InUse pages.fields d →
      d.additional.sanitizers = [] ∧ d.KeepsVariant := by
    intro d hd
    rcases inUse_pages hd with rfl | rfl <;> exact ⟨rfl, fun _ h => nomatch h⟩
  have hrecord : ((Engine.ofCatalog pagesCatalog).processRecord "pages" (.object draft) .create
      []).records = .object [("body", draftBody)] := rfl
  obtain ⟨errors, hrun⟩ : ∃ errors, ((Engine.ofCatalog pagesCatalog).processRecord "pages"
      (.object draft) .create []).result = .ok errors := ⟨_, rfl⟩
  refine ⟨hrecord, Engine.processRecord_conforms rfl registered_pages OptionCache.sound_empty hcol
    namesApart_pages hplain hrun "body" _ List.mem_cons_self draftBody ?_⟩
  rw [hrecord]
  rfl

end ContentSchema
