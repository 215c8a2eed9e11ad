import ContentSchema.Proofs.Descents
import ContentSchema.Proofs.FieldLocality

/-!
# Rejected values — what a refused value leaves behind

What the second pass makes of a place in a field stays to the end, since the other fields are stored
apart from it (`Reaches.stays`).  A value that its checks refuse therefore is its default in the
processed record (`Engine.processRecord_rejects`).

That members do not meet takes that no block names one index of a list by two fields, or else that
the first pass leaves no fields of a block as a list; without either, a second field can store into
the place of a refused first one (`Engine.processRecord_restores`).
-/

namespace ContentSchema

/-! ### Records -/

/-- The second pass over a record, begun in `s`, comes to a place at a field or below one. -/
def PassContext.Reaches (c : PassContext) (collection : Collection) (s : PassState) (a : Visit) :
    Prop :=
  ∃ x t, c.ComesTo collection s x t ∧ c.Leads ⟨PassContext.fuelAt s.record x.1, x.1, x.2, t⟩ a

section

variable {c : PassContext} {collection : Collection} {s s' : PassState} {a b : Visit}

/-- What the second pass adds to the errors are failures of judgements it made. -/
theorem checkRecord_reports (hc : c.registry = .builtin)
    (h : c.checkRecord collection s = .ok () s') {key message : String}
    (hkey : s'.errors.get? key = some message) :
    s.errors.get? key = some message ∨ ∃ a err, c.Reaches collection s a ∧
      a.Judged c (.error err) ∧ a.path.text = key ∧ err.messageText = message := by
  rw [PassContext.checkRecord_run] at h
  rcases forM_establishes (P := fun s => s.errors.get? key = some message) h hkey with
    hstart | ⟨before, x, after, t, t', hfields, hbefore, hx, hnot, ht'⟩
  · exact .inl hstart
  · rcases check_reports hc hx ht' with ht | ⟨b, err, hbelow, hb⟩
    · exact (hnot ht).elim
    · exact .inr ⟨b, err, ⟨x, t, ⟨before, after, hfields, hbefore⟩, hbelow⟩, hb⟩

end

/-- A record between the two passes: an object whose fields hold no members that meet. -/
structure PassState.Ready (s : PassState) (c : Catalog) (collection : Collection) : Prop where
  object : s.record.isObject = true
  sound : s.cache.Sound
  untangled : ∀ e ∈ collection.fields, ∀ v, s.record.get? e.1 = some v →
    Untangled c (Path.root.child e.1) e.2 v

section

variable {c : PassContext} {collection : Collection} {s s' : PassState} {a b : Visit}

/-- A place that the pass comes to lies in a field. -/
theorem PassContext.Reaches.field (h : c.Reaches collection s a) : ∃ field d t,
    (field, d) ∈ collection.fields ∧ c.ComesTo collection s (Path.root.child field, d) t ∧
      c.Leads ⟨PassContext.fuelAt s.record (Path.root.child field), Path.root.child field, d, t⟩
        a := by
  obtain ⟨⟨path, d⟩, t, ⟨before, after, hfields, hbefore⟩, hleads⟩ := h
  have hmem : (path, d) ∈ c.fieldsFor collection s.record := by
    rw [hfields]
    exact List.mem_append_right _ List.mem_cons_self
  obtain ⟨name, hname, hpath⟩ := PassContext.mem_fieldsFor hmem
  obtain rfl : path = Path.root.child name := hpath
  exact ⟨name, d, t, hname, ⟨before, after, hfields, hbefore⟩, hleads⟩

/-- The pass finds a field as it was in the beginning. -/
theorem PassState.Ready.untangled_at (hs : s.Ready c.catalog collection)
    (hc : c.registry = .builtin) (hnames : (Entries.keys collection.fields).Nodup)
    {field : String} {d : Declaration} (hd : (field, d) ∈ collection.fields) {t : PassState}
    (h : c.ComesTo collection s (Path.root.child field, d) t) {v : Value}
    (hv : (Path.root.child field).lookup t.record = some v) :
    Untangled c.catalog (Path.root.child field) d v := by
  rw [h.lookup_same hc hnames hs.object, lookup_object hs.object] at hv
  exact hs.untangled _ hd v hv

/-- What the pass makes of a place that has a value is there in the end. -/
theorem PassContext.Reaches.stays (hc : c.registry = .builtin)
    (hnames : (Entries.keys collection.fields).Nodup) (hs : s.Ready c.catalog collection)
    (h : c.Reaches collection s a) {x : Value} (hx : a.path.lookup a.state.record = some x)
    (hrun : c.checkRecord collection s = .ok () s') :
    a.state.cache.Sound ∧ ∃ t, a.run c a.state = .ok () t ∧
      a.path.lookup s'.record = a.path.lookup t.record := by
  obtain ⟨field, d, u, hd, hcomes, hleads⟩ := h.field
  have hsound : u.cache.Sound := hcomes.arrives hc hnames (fun e _ _ => .sound e.1) hs.sound
  obtain ⟨u', hhere, hafter⟩ := hcomes.rest hc hnames hrun
  obtain ⟨t, ht, hstays⟩ :=
    hleads.stays hc (fun _ => hs.untangled_at hc hnames hd hcomes) hx hhere
  refine ⟨hleads.sound hc hsound, t, ht, ?_⟩
  -- the other fields leave alone what is inside this one
  have hobject : u.record.isObject = true :=
    hcomes.arrives hc hnames (fun e _ _ => .object e.1) hs.object
  have hobject' : u'.record.isObject = true :=
    (confined_check hc _ _ d _ (FramedOff.object field)).ok hobject hhere
  have hobject'' := hafter (fun t => t.record.isObject = true) (fun e _ _ => .object e.1) hobject'
  have hsame := hafter (fun t => t.record.get? field = u'.record.get? field)
    (fun e _ hne => .get? hne _) rfl
  obtain ⟨q, hq⟩ := hleads.under
  rw [← hstays]
  simp only [hq]
  rw [lookup_below hobject'', lookup_below hobject', hsame]

/-- The pass comes to nothing below a value that it does not accept. -/
theorem PassContext.Reaches.nothing_below (hc : c.registry = .builtin)
    (hnames : (Entries.keys collection.fields).Nodup) (hs : s.Ready c.catalog collection)
    (h : c.Reaches collection s a) (h' : c.Reaches collection s b) {x x' : Value}
    (hx : a.path.lookup a.state.record = some x) (hx' : b.path.lookup b.state.record = some x')
    (hrefused : ∀ o, (a.state.cache.resolve c.registry a.path.name a.declaration).1 = .ok o →
      c.verdict a.path a.declaration o a.state.record x ≠ .accept)
    (hunder : a.path.Under b.path) : b.path = a.path := by
  obtain ⟨field, d, t, hd, hcomes, hleads⟩ := h.field
  obtain ⟨field', d', t', hd', hcomes', hleads'⟩ := h'.field
  -- both places lie in one field
  obtain ⟨q, hq⟩ := hleads.under
  obtain ⟨q', hq'⟩ := hleads'.under
  obtain ⟨r, hr⟩ := id hunder
  rw [hq, hq'] at hr
  obtain rfl : field' = field := (List.cons.inj (Path.ext_iff.mp hr)).1
  obtain rfl : d' = d := (Prod.mk.inj (List.inj_on_of_nodup_map hnames hd' hd rfl)).2
  obtain rfl := hcomes'.unique hnames hcomes
  exact hleads.nothing_below hc hleads' (fun _ => hs.untangled_at hc hnames hd hcomes) hx hx'
    hrefused hunder

/-- A value whose judgement fails is the default of its field in the end, nothing below it was
judged, and the refusal stored nowhere else. -/
theorem checkRecord_rejects (hc : c.registry = .builtin)
    (hnames : (Entries.keys collection.fields).Nodup) (hs : s.Ready c.catalog collection)
    (hrun : c.checkRecord collection s = .ok () s') (h : c.Reaches collection s a)
    {err : FieldError} (hjudged : a.Judged c (.error err)) :
    a.path.lookup s'.record = some a.declaration.fallback ∧
      (∀ b j, c.Reaches collection s b → b.Judged c j → a.path.Under b.path → b.path = a.path) ∧
      ∃ t, a.run c a.state = .ok () t ∧
        t.record = a.path.set a.declaration.fallback a.state.record := by
  obtain ⟨x, hx⟩ := hjudged.value
  obtain ⟨hsound, t, ht, hstays⟩ := h.stays hc hnames hs hx hrun
  obtain ⟨hrefused, hset⟩ := hjudged.refuses hc hsound ht
  refine ⟨?_, fun b j hb hbjudged hunder => ?_, t, ht, hset⟩
  · rw [hstays, hset]
    exact Path.lookup_set (Path.hasRoom_of_lookup hx) _
  · obtain ⟨x', hx'⟩ := hbjudged.value
    exact h.nothing_below hc hnames hs hb hx hx' (fun o ho => hrefused o x ho hx) hunder

end

/-! ### Where members meet -/

/-- What holds of every value of every declaration in use holds everywhere. -/
theorem Everywhere.of_inUse {c : Catalog} {fields : Schema}
    {P : Path → Declaration → Value → Prop} (h : ∀ path d v, c.InUse fields d → P path d v)
    {path : Path} {d : Declaration} (hd : c.InUse fields d) (v : Value) :
    Everywhere c P path d v := by
  induction v using Value.weightInduction generalizing path d with
  | step v ih =>
    exact .mk (h path d v hd) fun m hm u hu => ih u (Catalog.weight_member hm hu) (hd.member hm)

/-- The places of a value that fits do not meet. -/
theorem Places.membersApart {v : Value} {ms : List Member} (h : Places v (ms.map Member.relative)) :
    MembersApart v ms :=
  (List.pairwise_map.mp h.apart).imp fun hmn _ _ => hmn

/-- Members do not meet in the values of declarations in use, where no block names an index
twice. -/
theorem untangled_of_indicesApart {c : Catalog} {fields : Schema} (hnames : c.NamesApart fields)
    (hindices : c.IndicesApart) {d : Declaration} (hd : c.InUse fields d) (path : Path)
    (v : Value) : Untangled c path d v :=
  .of_inUse (fun _ _ v hd => members_apart hnames hindices hd v) hd v

/-- Nor do they in values whose containers fit. -/
theorem untangled_of_fits {c : Catalog} {fields : Schema} (hnames : c.NamesApart fields)
    {path : Path} {d : Declaration} (hd : c.InUse fields d) {v : Value}
    (h : Everywhere c (fun _ d v => Fits c true false d v) path d v) : Untangled c path d v :=
  h.mono hd fun _ d _ hd hfits =>
    (hfits.places hnames.blocks (hnames.nested d hd)).membersApart

/-- The first pass leaves a record that is ready for the second. -/
theorem sanitizeRecord_ready {c : PassContext} {collection : Collection}
    (hc : c.registry = .builtin) (hnames : c.catalog.NamesApart collection.fields)
    (hapart : c.catalog.IndicesApart ∨ c.catalog.Registered ∧
      ∀ d, c.catalog.InUse collection.fields d →
        d.additional.sanitizers = [] ∧ d.KeepsVariant) {s s' : PassState} (hs : s.cache.Sound)
    (h : c.sanitizeRecord collection s = .ok true s') : s'.Ready c.catalog collection := by
  refine ⟨(sanitizeRecord_fields hc h).1,
    sanitizeRecord_framed hc h (fun e _ => FramedOff.sound e.1) hs, fun e he v hv => ?_⟩
  rcases hapart with hindices | ⟨hregistered, hplain⟩
  · exact untangled_of_indicesApart hnames hindices (.field he) _ v
  · obtain ⟨hobject, -⟩ := sanitizeRecord_loop h
    obtain ⟨ms, hms⟩ := Value.isObject_iff.mp hobject
    obtain ⟨-, hfirst⟩ := sanitizeRecord_step hc ⟨hregistered.keyed, hnames.blocks, hnames.nested,
      fun d hd => (hplain d hd).1⟩ hnames.top hs hms h
    have hlook : (Path.root.child e.1).lookup s'.record = some v :=
      (lookup_object (sanitizeRecord_fields hc h).1 e.1).trans hv
    have hmem : (Path.root.child e.1, e.2) ∈ c.fieldsFor collection s'.record :=
      PassContext.mem_fieldsFor_of he fun _ => by rw [hlook]; rfl
    obtain ⟨w, hw, hsanitizes⟩ := hfirst.fields _ (hfirst.same ▸ hmem)
    obtain rfl := Option.some.inj (hw.symm.trans hlook)
    exact untangled_of_fits hnames (.field he) (hsanitizes.fits fun d hd => (hplain d hd).2)

/-- A value that its checks refuse, at whatever depth, does not survive.  In the processed record
there is the default of its field instead, nothing below it was judged, and the refusal changed
nothing in any place that forks off and in the values around it just the place itself.  All errors
that the second pass adds are of this kind.

For this no block may name one index of a list by two fields, or else the containers of all values
must still fit after the first pass, as they do unless a declaration has sanitizers of its own or
declares the key of a variant as a field. -/
theorem Engine.processRecord_rejects {e : Engine} (hreg : e.registry = .builtin)
    (hcache : e.cache.Sound) {name : String} {collection : Collection}
    (hcol : e.catalog.collection? name = some collection)
    (hnames : e.catalog.NamesApart collection.fields)
    (hapart : e.catalog.IndicesApart ∨ e.catalog.Registered ∧
      ∀ d, e.catalog.InUse collection.fields d →
        d.additional.sanitizers = [] ∧ d.KeepsVariant)
    {record : Value} (hobject : record.isObject = true) {operation : Operation}
    {batch : List Value} {errors : ErrorMap}
    (h : (e.processRecord name record operation batch).result = .ok errors) :
    let c := e.passContext operation name batch
    ∃ s, c.sanitizeRecord collection ⟨record, .empty, e.cache⟩ = .ok true s ∧
      (∀ key message, errors.get? key = some message → s.errors.get? key = some message ∨
        ∃ a err, c.Reaches collection s a ∧ a.Judged c (.error err) ∧ a.path.text = key ∧
          err.messageText = message) ∧
      ∀ a err, c.Reaches collection s a → a.Judged c (.error err) →
        a.path.lookup (e.processRecord name record operation batch).records =
            some a.declaration.fallback ∧
          (∀ b j, c.Reaches collection s b → b.Judged c j → a.path.Under b.path →
            b.path = a.path) ∧
          ∃ t, a.run c a.state = .ok () t ∧
            (∀ q, Path.Forks a.state.record a.path q →
              q.lookup t.record = q.lookup a.state.record) ∧
            ∀ q r v, a.path = q ++ r → q.lookup a.state.record = some v →
              q.lookup t.record = some (r.set a.declaration.fallback v) := by
  intro c
  obtain ⟨accepted, s₁, s₂, h₁, h₂, hprocessed, rfl⟩ := processRecord_ok hcol h
  obtain rfl := accepted_of_isObject (s := ⟨record, .empty, e.cache⟩) hobject h₁
  have hc : c.registry = .builtin := hreg
  have hready : s₁.Ready c.catalog collection := sanitizeRecord_ready hc hnames hapart hcache h₁
  refine ⟨s₁, h₁, fun key message hkey => checkRecord_reports hc h₂ hkey,
    fun a err ha hjudged => ?_⟩
  obtain ⟨hvalue, hbelow, t, ht, hset⟩ :=
    checkRecord_rejects hc hnames.top hready h₂ ha hjudged
  obtain ⟨x, hx⟩ := hjudged.value
  rw [hprocessed]
  refine ⟨hvalue, hbelow, t, ht, fun q hq => ?_, fun q r v hqr hv => ?_⟩
  · exact Path.Rewrites.lookup (.inr ⟨_, hset⟩) hq
  · rw [hset, hqr]
    rw [hqr, Path.lookup_append, hv] at hx
    exact Path.lookup_set_around hv (Path.hasRoom_of_lookup hx) _

/-! ### An instance -/

/-- At least two sides. -/
def sidesField : Declaration :=
  { kind := .repeater, options := [("min", .number 2)], subfields := [("label", .ofKind .text)] }

def dishesField : Declaration :=
  { kind := .repeater, subfields := [("name", .ofKind .text), ("sides", sidesField)] }

def menus : Collection where
  name := "menus"
  fields := [("dishes", dishesField)]

def menusCatalog : Catalog := ⟨[("menus", menus)], []⟩

theorem namesApart_menus : menusCatalog.NamesApart menus.fields := by
  refine ⟨nofun, by decide, fun d hd => ?_⟩
  have hall : ∀ d ∈ [dishesField, sidesField, .ofKind .text], d.Distinct := by
    rw [List.forall_mem_cons, List.forall_mem_cons, List.forall_mem_singleton]
    exact ⟨⟨by decide, List.forall_mem_nil _⟩, ⟨by decide, List.forall_mem_nil _⟩,
      ⟨by decide, List.forall_mem_nil _⟩⟩
  refine hall d (hd.inPlay.among ?_ ?_ ?_)
  · simp [menus]
  · exact fun _ _ h => nomatch h
  · simp [dishesField, sidesField, Declaration.ofKind, -Prod.forall]

/-- A dish with one side. -/
def menu : Value :=
  .object [("dishes", .list [.object [("name", .string "stew"),
    ("sides", .list [.object [("label", .string "x")]])]])]

theorem processRecord_rejects_menu :
    let e := Engine.ofCatalog menusCatalog
    let c := e.passContext .create "menus" []
    let outcome := e.processRecord "menus" menu .create []
    outcome.result = .ok ⟨[("dishes.0.sides", "At least 2 entries are required")]⟩ ∧
      ∃ s a err, c.sanitizeRecord menus ⟨menu, .empty, e.cache⟩ = .ok true s ∧
        c.Reaches menus s a ∧ a.Judged c (.error err) ∧ a.path.text = "dishes.0.sides" ∧
        a.path.lookup outcome.records = some a.declaration.fallback := by
  intro e c outcome
  have hresult : outcome.result =
      .ok ⟨[("dishes.0.sides", "At least 2 entries are required")]⟩ := by decide +kernel
  have hcol : e.catalog.collection? "menus" = some menus := rfl
  obtain ⟨s, hs, hreports, hrejects⟩ := Engine.processRecord_rejects (e := e) rfl
    OptionCache.sound_empty hcol namesApart_menus (.inl fun _ _ h => nomatch h) rfl hresult
  have hclear : (PassState.after (c.sanitizeRecord menus ⟨menu, .empty, e.cache⟩)).errors.get?
      "dishes.0.sides" = none := by decide +kernel
  rw [show c.sanitizeRecord menus ⟨menu, .empty, e.cache⟩ = .ok true s from hs] at hclear
  rcases hreports "dishes.0.sides" _ rfl with hfirst | ⟨a, err, ha, hjudged, htext, -⟩
  · rw [show s.errors.get? "dishes.0.sides" = none from hclear] at hfirst
    cases hfirst
  · exact ⟨hresult, s, a, err, hs, ha, hjudged, htext, (hrejects a err ha hjudged).1⟩

/-! ### Members that meet -/

/-- A pair whose two fields have one place where they are given as a list; the second has a
condition. -/
def pairBlock : Block where
  name := "pair"
  fields := [("0", .ofKind .number),
    ("00", (Declaration.ofKind .text).conditional
      (.conditions [("/kind", .literal (.string "list"))]))]

/-- Rows whose first variant has its key for a field, and whose second one holds pairs. -/
def ledgerRows : Declaration :=
  { kind := .structured
    variants := [(" b ", [("$key", .ofKind .text), ("x", .ofKind .text)]),
      ("b", [("x", .ofKind .blocks)])] }

def ledgers : Collection where
  name := "ledgers"
  fields := [("rows", ledgerRows), ("kind", .ofKind .text)]

/-- A pair that gives its fields as a list. -/
def listedPair : Value :=
  .list [.object [("fields", .list [.string "v"]), ("name", .string "pair")]]

/-- A ledger with one row of this variant. -/
def ledger (key : String) : Value :=
  .object [("kind", .string "page"),
    ("rows", .list [.object [("$key", .string key), ("x", listedPair)]])]

/-- A declaration that resolves is answered by every cache. -/
theorem OptionCache.exists_resolve {r : Registry} {name : String} {d : Declaration} {o : Options}
    (h : r.resolve name d = .ok o) (cache : OptionCache) :
    ∃ o, (cache.resolve r name d).1 = .ok o := by
  cases hget : cache.get? (d.cacheKey, name) with
  | some o => exact ⟨o, congrArg Prod.fst (resolve_of_get? hget)⟩
  | none => exact ⟨o, (resolve_of_get?_none hget).trans h⟩

section

variable {c : PassContext} {s : PassState} {path : Path} {d : Declaration} {o : Options}
  {v : Value}

/-- From a value that is accepted on its own the pass comes to the first member at once. -/
theorem PassContext.Leads.first (hc : c.registry = .builtin) (hs : s.cache.Sound)
    (ho : Registry.builtin.resolve path.name d = .ok o) (hl : d.additional.logic = none)
    (hx : d.additional.validators = []) (hvalue : path.lookup s.record = some v)
    (haccepts : Accepts c s.record path d v) {m : Member} {after : List Member}
    (hmembers : c.catalog.members d v = m :: after) :
    ∃ cache : OptionCache, cache.Sound ∧ ∀ fuel b,
      c.Leads ⟨fuel, path ++ m.relative, m.declaration, { s with cache := cache }⟩ b →
        c.Leads ⟨fuel + 1, path, d, s⟩ b := by
  obtain ⟨o', ho'⟩ := OptionCache.exists_resolve ho s.cache
  obtain ⟨hsound, hvalues⟩ := hs.resolve path.name d
  rw [← List.nil_append (m :: after)] at hmembers
  refine ⟨_, hsound, fun fuel b h => ?_⟩
  rw [← hc] at h ho'
  exact .member (Prod.ext ho' rfl) hvalue
    ((verdict_accept hl hx (hvalues o' (hc ▸ ho')).2).mpr haccepts) hmembers rfl h

/-- A value that is not accepted on its own fails its judgement. -/
theorem exists_judged (hc : c.registry = .builtin) (hs : s.cache.Sound)
    (ho : Registry.builtin.resolve path.name d = .ok o) (hl : d.additional.logic = none)
    (hx : d.additional.validators = []) (hvalue : path.lookup s.record = some v)
    (hrefused : ¬ Accepts c s.record path d v) (fuel : Nat) :
    ∃ err, Visit.Judged ⟨fuel + 1, path, d, s⟩ c (.error err) := by
  obtain ⟨o', ho'⟩ := OptionCache.exists_resolve ho s.cache
  have hvalues := ((hs.resolve path.name d).2 o' ho').2
  cases hjudge : judge (c.fieldContext path d.kind.definition o' s.record) d.kind.definition
      d.additional v with
  | ok => exact (hrefused ((judge_accepts hx hvalues).mp hjudge)).elim
  | error err =>
    refine ⟨err, Nat.succ_pos _, o', v, hc ▸ ho', hvalue, fun l h => ?_, hjudge⟩
    rw [hl] at h
    cases h

end

def ledgerEngine : Engine := .ofCatalog ⟨[("ledgers", ledgers)], [("pair", pairBlock)]⟩

def ledgerContext : PassContext := ledgerEngine.passContext .create "ledgers" []

def rowsPath : Path := Path.root.child "rows"

def pairsPath : Path := rowsPath ++ (Path.root.index 0).child "x"

def cellPath : Path := pairsPath ++ ((Path.root.index 0).child "fields").child "0"

/-- The second pass goes from the rows to the pairs of the first one and on to their first cell,
which is no number. -/
theorem reaches_cell {s : PassState} (hs : s.cache.Sound) (hrecord : s.record = ledger "b") :
    ∃ fuel cache err, ledgerContext.Reaches ledgers s
        ⟨fuel, cellPath, .ofKind .number, { s with cache := cache }⟩ ∧
      Visit.Judged ⟨fuel, cellPath, .ofKind .number, { s with cache := cache }⟩ ledgerContext
        (.error err) := by
  have hrows : Accepts ledgerContext s.record rowsPath ledgerRows
      (.list [.object [("$key", .string "b"), ("x", listedPair)]]) := by
    rw [hrecord]
    exact (judge_accepts (o := ledgerRows.ownOptions) rfl rfl).mp rfl
  have hpairs : Accepts ledgerContext s.record pairsPath (.ofKind .blocks) listedPair := by
    rw [hrecord]
    exact (judge_accepts (o := (Declaration.ofKind .blocks).ownOptions) rfl rfl).mp rfl
  have hcell : ¬ Accepts ledgerContext s.record cellPath (.ofKind .number) (.string "v") := by
    rw [hrecord]
    intro h
    cases (judge_accepts (o := (Declaration.ofKind .number).ownOptions) rfl rfl).mpr h
  have hfound : rowsPath.lookup s.record =
        some (.list [.object [("$key", .string "b"), ("x", listedPair)]]) ∧
      pairsPath.lookup s.record = some listedPair ∧
      cellPath.lookup s.record = some (.string "v") := by
    rw [hrecord]
    exact ⟨rfl, rfl, rfl⟩
  obtain ⟨hrowsFound, hpairsFound, hcellFound⟩ := hfound
  obtain ⟨cache₁, hsound₁, hfromRows⟩ :=
    PassContext.Leads.first rfl hs rfl rfl rfl hrowsFound hrows rfl
  obtain ⟨cache₂, hsound₂, hfromPairs⟩ := PassContext.Leads.first
    (s := { s with cache := cache₁ }) rfl hsound₁ rfl rfl rfl hpairsFound hpairs rfl
  obtain ⟨fuel, hfuel⟩ : ∃ fuel, PassContext.fuelAt s.record rowsPath = fuel + 3 := ⟨_, rfl⟩
  obtain ⟨err, hjudged⟩ := exists_judged (s := { s with cache := cache₂ }) rfl hsound₂ rfl rfl rfl
    hcellFound hcell fuel
  have hleads : ledgerContext.Leads ⟨fuel + 3, rowsPath, ledgerRows, s⟩
      ⟨fuel + 1, cellPath, .ofKind .number, { s with cache := cache₂ }⟩ :=
    hfromRows _ _ (hfromPairs _ _ (.here _))
  refine ⟨fuel + 1, cache₂, err, ⟨(rowsPath, ledgerRows), s, ?_, hfuel.symm ▸ hleads⟩, hjudged⟩
  exact ⟨[], [(Path.root.child "kind", .ofKind .text)], rfl, rfl⟩

/-- The cell is refused, but what it is in the end is not its default: the second field of the pair
is stored in the same place. -/
theorem Engine.processRecord_restores :
    let outcome := ledgerEngine.processRecord "ledgers" (ledger " b ") .create []
    outcome.result.toOption.isSome = true ∧
      ∃ s, ledgerContext.sanitizeRecord ledgers ⟨ledger " b ", .empty, ledgerEngine.cache⟩ =
          .ok true s ∧
        ∃ a err, ledgerContext.Reaches ledgers s a ∧ a.Judged ledgerContext (.error err) ∧
          a.declaration.fallback = .number 0 ∧
          a.path.lookup outcome.records = some (.string "") := by
  intro outcome
  have hfirst : ∃ s, ledgerContext.sanitizeRecord ledgers
      ⟨ledger " b ", .empty, ledgerEngine.cache⟩ = .ok true s ∧ s.record = ledger "b" :=
    ⟨_, rfl, rfl⟩
  have hfinal : outcome.result.toOption.isSome = true ∧
      cellPath.lookup outcome.records = some (.string "") := by decide +kernel
  obtain ⟨s, hs, hrecord⟩ := hfirst
  have hsound : s.cache.Sound := sanitizeRecord_framed (P := fun s => s.cache.Sound) rfl hs
    (fun e _ => .sound e.1) OptionCache.sound_empty
  obtain ⟨fuel, cache, err, hreaches, hjudged⟩ := reaches_cell hsound hrecord
  exact ⟨hfinal.1, s, hs, _, err, hreaches, hjudged, rfl, hfinal.2⟩

end ContentSchema
