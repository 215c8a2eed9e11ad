import ContentSchema.Proofs.LogicGrammar
import ContentSchema.Proofs.MemberCoverage
import ContentSchema.Proofs.SchemaDefects

/-!
# Nested options — the options of a nested declaration, within those of the whole and on its own

Resolving a declaration resolves all that is nested in it, so it succeeds exactly when each of these
declarations is admitted under its own name (`Registry.resolves_iff`), and what it stores for a
nested declaration is what that declaration resolves to on its own (`Registry.nests_of_resolve`).

A pass comes to a nested declaration through a member of a value, and asks the cache for its options
under the last segment of the member's path, which is the name it is nested under.  As long as the
cache tells the declarations apart that passes come to, the answer is what the whole has stored for
it (`Registry.resolve_agrees`); declarations that share a key can get the options of one another
(`Engine.processRecord_mixes_options`).
-/

namespace ContentSchema

/-- A declaration with the name it is used under, or one that is nested in it at any depth. -/
inductive Declaration.Holds : String → Declaration → String → Declaration → Prop
  | here (name : String) (d : Declaration) : Holds name d name d
  | subfield {name n n' : String} {d e e' : Declaration} (h : (n, e) ∈ d.subfields)
      (below : Holds n e n' e') : Holds name d n' e'
  | variant {name key n n' : String} {schema : Schema} {d e e' : Declaration}
      (hs : (key, schema) ∈ d.variants) (h : (n, e) ∈ schema) (below : Holds n e n' e') :
      Holds name d n' e'

/-- The options given to a declaration are accepted, those of nested declarations aside. -/
def Registry.Admits (r : Registry) (name : String) (d : Declaration) : Prop :=
  ∃ definition values, r.get d.kind = .ok definition ∧
    definition.resolveValues name d.options = .ok values

/-- The options nested in those of a declaration are exactly what its subfields and the fields of
its variants resolve to on their own. -/
structure Options.Nests (o : Options) (r : Registry) (d : Declaration) : Prop where
  subfield : ∀ n p, o.subfield? n = some p ↔
    ∃ e, Entries.get? n d.subfields = some e ∧ r.resolve n e = .ok p
  variant : ∀ key n p, o.variant? key n = some p ↔
    ∃ schema e, Entries.get? key d.variants = some schema ∧ Entries.get? n schema = some e ∧
      r.resolve n e = .ok p

namespace Registry

variable {r : Registry}

/-! ### What resolves -/

mutual

/-- A declaration resolves where it and all that is nested in it is admitted. -/
theorem resolves_of_holds (r : Registry) : ∀ (name : String) (d : Declaration),
    (∀ n e, Declaration.Holds name d n e → r.Admits n e) → ∃ o, r.resolve name d = .ok o
  | name, ⟨kind, options, subfields, variants, additional⟩, h => by
    obtain ⟨definition, values, hget, hvalues⟩ := h _ _ (.here name _)
    obtain ⟨fields, hfields⟩ := resolvesSchema_of_holds r subfields fun _ hf n e hbelow =>
      h n e (.subfield hf hbelow)
    obtain ⟨choices, hchoices⟩ := resolvesVariants_of_holds r variants fun _ hs _ hf n e hbelow =>
      h n e (.variant hs hf hbelow)
    exact ⟨⟨values, fields, choices⟩,
      resolve_ok_iff.mpr ⟨⟨definition, hget, hvalues⟩, hfields, hchoices⟩⟩

theorem resolvesSchema_of_holds (r : Registry) : ∀ schema : Schema,
    (∀ f ∈ schema, ∀ n e, Declaration.Holds f.1 f.2 n e → r.Admits n e) →
      ∃ os, r.resolveSchema schema = .ok os
  | [], _ => ⟨[], rfl⟩
  | (name, d) :: rest, h => by
    obtain ⟨hhere, hrest⟩ := List.forall_mem_cons.mp h
    obtain ⟨o, ho⟩ := resolves_of_holds r name d hhere
    obtain ⟨others, hothers⟩ := resolvesSchema_of_holds r rest hrest
    exact ⟨_, resolveSchema_cons_iff.mpr ⟨o, others, ho, hothers, rfl⟩⟩

theorem resolvesVariants_of_holds (r : Registry) : ∀ variants : List (String × Schema),
    (∀ s ∈ variants, ∀ f ∈ s.2, ∀ n e, Declaration.Holds f.1 f.2 n e → r.Admits n e) →
      ∃ os, r.resolveVariants variants = .ok os
  | [], _ => ⟨[], rfl⟩
  | (key, schema) :: rest, h => by
    obtain ⟨hhere, hrest⟩ := List.forall_mem_cons.mp h
    obtain ⟨fields, hfields⟩ := resolvesSchema_of_holds r schema hhere
    obtain ⟨others, hothers⟩ := resolvesVariants_of_holds r rest hrest
    exact ⟨_, resolveVariants_cons_iff.mpr ⟨fields, others, hfields, hothers, rfl⟩⟩

end

/-- What is nested in a declaration that resolves is admitted. -/
theorem admits_of_resolve {name n : String} {d e : Declaration} (h : Declaration.Holds name d n e)
    {o : Options} (ho : r.resolve name d = .ok o) : r.Admits n e := by
  induction h generalizing o with
  | here name d =>
    obtain ⟨⟨definition, hget, hvalues⟩, -, -⟩ := resolve_ok_iff.mp ho
    exact ⟨definition, o.values, hget, hvalues⟩
  | subfield h _ ih =>
    obtain ⟨p, hp⟩ := (resolve_nested ho).1 _ h
    exact ih hp
  | variant hs h _ ih =>
    obtain ⟨p, hp⟩ := (resolve_nested ho).2 _ hs _ h
    exact ih hp

theorem resolves_iff (r : Registry) (name : String) (d : Declaration) :
    (∃ o, r.resolve name d = .ok o) ↔ ∀ n e, Declaration.Holds name d n e → r.Admits n e :=
  ⟨fun ⟨_, ho⟩ _ _ h => admits_of_resolve h ho, resolves_of_holds r name d⟩

/-! ### What is stored -/

/-- The options of a schema hold, under the name of each field, what the field resolves to. -/
theorem get?_resolveSchema {schema : Schema} {os : Entries Options}
    (h : r.resolveSchema schema = .ok os) (n : String) (p : Options) :
    os.get? n = some p ↔ ∃ e, Entries.get? n schema = some e ∧ r.resolve n e = .ok p := by
  induction schema generalizing os with
  | nil =>
    rw [← Except.ok.inj h]
    simp
  | cons f rest ih =>
    obtain ⟨name, d⟩ := f
    obtain ⟨o, others, ho, hothers, rfl⟩ := resolveSchema_cons_iff.mp h
    simp only [Entries.get?_cons]
    by_cases hname : name = n
    · subst hname
      simp [ho]
    · simp only [if_neg hname]
      exact ih hothers

/-- The options of variants hold, under the key of each, what its schema resolves to. -/
theorem get?_resolveVariants {variants : List (String × Schema)}
    {os : Entries (Entries Options)} (h : r.resolveVariants variants = .ok os) (key : String)
    (ps : Entries Options) :
    os.get? key = some ps ↔
      ∃ schema, Entries.get? key variants = some schema ∧ r.resolveSchema schema = .ok ps := by
  induction variants generalizing os with
  | nil =>
    rw [← Except.ok.inj h]
    simp
  | cons s rest ih =>
    obtain ⟨name, schema⟩ := s
    obtain ⟨fields, others, hfields, hothers, rfl⟩ := resolveVariants_cons_iff.mp h
    simp only [Entries.get?_cons]
    by_cases hname : name = key
    · subst hname
      simp [hfields]
    · simp only [if_neg hname]
      exact ih hothers

/-- Resolving the whole stores for every nested declaration what that resolves to on its own. -/
theorem nests_of_resolve {name : String} {d : Declaration} {o : Options}
    (h : r.resolve name d = .ok o) : o.Nests r d := by
  obtain ⟨-, hfields, hchoices⟩ := resolve_ok_iff.mp h
  refine ⟨get?_resolveSchema hfields, fun key n p => ?_⟩
  unfold Options.variant?
  rw [Option.bind_eq_some_iff]
  constructor
  · rintro ⟨fields, hkey, hn⟩
    obtain ⟨schema, hschema, hresolve⟩ := (get?_resolveVariants hchoices key fields).mp hkey
    obtain ⟨e, he, hp⟩ := (get?_resolveSchema hresolve n p).mp hn
    exact ⟨schema, e, hschema, he, hp⟩
  · rintro ⟨schema, e, hschema, he, hp⟩
    obtain ⟨fields, hresolve⟩ :=
      resolveSchema_of_resolveVariants hchoices _ (Entries.mem_of_get? hschema)
    exact ⟨fields, (get?_resolveVariants hchoices key fields).mpr ⟨schema, hschema, hresolve⟩,
      (get?_resolveSchema hresolve n p).mpr ⟨e, he, hp⟩⟩

end Registry

/-! ### Members -/

theorem Path.name_append_child (p : Path) (name : String) :
    (p ++ Path.root.child name).name = name :=
  List.getLastD_concat

theorem Path.parent_append_child (p : Path) (name : String) :
    (p ++ Path.root.child name).parent = p :=
  Path.ext_iff.mpr List.dropLast_concat

/-- The options nested in those of a declaration for a member of a value: those of a subfield, or of
a field of the variant that the entry of the member names. -/
def Options.ofMember? (o : Options) (d : Declaration) (v : Value) (m : Member) : Option Options :=
  match d.kind with
  | .structured => do
    let entry ← m.relative.parent.lookup v
    let key ← (← entry.get? variantKey).string?
    o.variant? key m.relative.name
  | _ => o.subfield? m.relative.name

/-- A member stands at the name of a subfield, or of a field of the variant that its entry names. -/
theorem Catalog.mem_members {c : Catalog} {d : Declaration} (hkind : d.kind ≠ .blocks) {v : Value}
    {m : Member} (hm : m ∈ c.members d v) :
    ∃ base name, m.relative = base ++ Path.root.child name ∧
      (d.kind ≠ .structured ∧ (name, m.declaration) ∈ d.subfields ∨
        d.kind = .structured ∧ ∃ entry schema, base.lookup v = some entry ∧
          d.variantOf? entry = some schema ∧ (name, m.declaration) ∈ schema) := by
  cases v with
  | list items =>
    rw [c.members_list d items] at hm
    obtain ⟨i, x, n, hx, hn, rfl⟩ := Member.mem_ofItems hm
    have hentry : (Path.root.index i).lookup (.list items) = some x := lookup_index_root hx
    unfold entryMembers at hn
    cases hk : d.kind with
    | repeater =>
      rw [hk] at hn
      simp only at hn
      split at hn
      · obtain ⟨name, hname, hrel⟩ := Member.mem_ofSchema hn
        exact ⟨Path.root.index i, name, by rw [Member.below_relative, hrel], .inl ⟨nofun, hname⟩⟩
      · cases hn
    | structured =>
      rw [hk] at hn
      simp only at hn
      split at hn
      · next schema hschema =>
        obtain ⟨name, hname, hrel⟩ := Member.mem_ofSchema hn
        exact ⟨Path.root.index i, name, by rw [Member.below_relative, hrel],
          .inr ⟨rfl, x, schema, hentry, hschema, hname⟩⟩
      · cases hn
    | blocks => exact (hkind hk).elim
    | _ =>
      rw [hk] at hn
      cases hn
  | object ms =>
    rw [c.members_object d ms] at hm
    split at hm
    · next hk =>
      obtain ⟨name, hname, hrel⟩ := Member.mem_ofSchema hm
      rw [hk]
      exact ⟨.root, name, hrel, .inl ⟨nofun, hname⟩⟩
    · cases hm
  | _ =>
    rw [c.members_eq_nil d rfl rfl] at hm
    cases hm

/-- What is stored for a member is what its declaration resolves to under the member's name. -/
theorem Options.exists_ofMember {r : Registry} {d : Declaration} {o : Options} {name : String}
    (h : r.resolve name d = .ok o) (hkind : d.kind ≠ .blocks) (hnames : d.Distinct) {c : Catalog}
    {v : Value} {m : Member} (hm : m ∈ c.members d v) :
    ∃ p, o.ofMember? d v m = some p ∧ r.resolve m.relative.name m.declaration = .ok p := by
  have hnests := Registry.nests_of_resolve h
  obtain ⟨hsubfields, hvariants⟩ := Registry.resolve_nested h
  obtain ⟨base, n, hrel, hplace⟩ := Catalog.mem_members hkind hm
  have hname : m.relative.name = n := by rw [hrel, Path.name_append_child]
  unfold Options.ofMember?
  rw [hname]
  rcases hplace with ⟨hk, hmem⟩ | ⟨hk, entry, schema, hentry, hschema, hmem⟩
  · obtain ⟨p, hp⟩ := hsubfields _ hmem
    have hfound := (Entries.mem_iff_get? hnames.1).mp hmem
    refine ⟨p, ?_, hp⟩
    rw [← (hnests.subfield n p).mpr ⟨_, hfound, hp⟩]
    cases hkind' : d.kind with
    | structured => exact (hk hkind').elim
    | _ => rfl
  · obtain ⟨text, htext, hrest⟩ := Option.bind_eq_some_iff.mp hschema
    obtain ⟨key, hkey, hfind⟩ := Option.bind_eq_some_iff.mp hrest
    have hin := Entries.mem_of_get? hfind
    obtain ⟨p, hp⟩ := hvariants _ hin _ hmem
    have hfound := (Entries.mem_iff_get? (hnames.2 _ hin)).mp hmem
    refine ⟨p, ?_, hp⟩
    rw [hk, hrel, Path.parent_append_child]
    simp only [hentry, htext, hkey, Option.bind_eq_bind, Option.bind_some]
    exact (hnests.variant key n p).mpr ⟨schema, _, hfind, hfound, hp⟩

/-! ### Passes -/

/-- Resolving the options of declarations that keys tell apart keeps the cache coherent. -/
theorem OptionCache.frame_coherent {r : Registry} {P : Declaration → Prop} (hkeys : KeysApart r P) :
    FrameFor r P (·.cache.Coherent r P) (fun _ => True) fun _ => True where
  resolve name _ hd h := (h.resolve hkeys hd name).2
  store _ _ h := h
  report _ _ h := h

/-- What the passes do with a declaration `d` that has the options `o`, where `P` holds of the
declarations they come to: they keep the cache coherent, and from a coherent cache every member of a
value of `d` gets the options that are nested for it in `o`. -/
structure PassContext.UsesNested (c : PassContext) (P : Declaration → Prop) (d : Declaration)
    (o : Options) : Prop where
  sanitize : ∀ fuel path, Maintains (·.cache.Coherent c.registry P) (c.sanitize fuel path d)
  check : ∀ fuel path, Maintains (·.cache.Coherent c.registry P) (c.check fuel path d)
  member : ∀ path v, ∀ m ∈ c.catalog.members d v, ∀ s : PassState,
    s.cache.Coherent c.registry P → ∃ p t, o.ofMember? d v m = some p ∧
      c.options (path ++ m.relative).name m.declaration s = .ok p t ∧
      t.cache.Coherent c.registry P

/-- The name of a member is the last segment of its path, wherever its value stands. -/
theorem Catalog.name_member {c : Catalog} {d : Declaration} (hkind : d.kind ≠ .blocks) {v : Value}
    {m : Member} (hm : m ∈ c.members d v) (path : Path) :
    (path ++ m.relative).name = m.relative.name := by
  obtain ⟨base, name, hrel, -⟩ := mem_members hkind hm
  rw [hrel, Path.name_append_child, ← Path.append_assoc, Path.name_append_child]

theorem PassContext.usesNested {c : PassContext} {P : Declaration → Prop}
    (hnested : ∀ d, P d → ∀ v, ∀ m ∈ c.catalog.members d v, P m.declaration)
    (hkeys : OptionCache.KeysApart c.registry P) {d : Declaration} (hd : P d)
    (hkind : d.kind ≠ .blocks) (hnames : d.Distinct) {name : String} {o : Options}
    (h : c.registry.resolve name d = .ok o) : c.UsesNested P d o := by
  have hframe := OptionCache.frame_coherent hkeys
  refine ⟨fun fuel path => hframe.sanitize hnested fuel (fun _ => ⟨trivial, trivial⟩) hd,
    fun fuel path => hframe.check hnested fuel (fun _ => ⟨trivial, trivial⟩) hd,
    fun path v m hm s hs => ?_⟩
  obtain ⟨p, hp, hdirect⟩ := Options.exists_ofMember h hkind hnames hm
  obtain ⟨hanswer, hcache⟩ := hs.resolve hkeys (hnested d hd v m hm) m.relative.name
  rw [hdirect] at hanswer
  refine ⟨p, { s with cache := _ }, hp, ?_, hcache⟩
  rw [c.catalog.name_member hkind hm, options_run]
  obtain ⟨⟨result, cache⟩, hrun⟩ :
    ∃ q, s.cache.resolve c.registry m.relative.name m.declaration = q := ⟨_, rfl⟩
  rw [hrun] at hanswer ⊢
  obtain rfl : result = .ok p := hanswer
  rfl

/-- A declaration resolves exactly when it and all that is nested in it are admitted under their
own names; what is stored for a nested declaration is then what it resolves to on its own, and what
the passes use at the members of a value, as long as keys tell the declarations apart that passes
come to from it. -/
theorem Registry.resolve_agrees (r : Registry) (name : String) (d : Declaration) :
    ((∃ o, r.resolve name d = .ok o) ↔
        ∀ n e, Declaration.Holds name d n e → r.Admits n e) ∧
      ∀ o, r.resolve name d = .ok o → o.Nests r d ∧
        ∀ (c : PassContext) (P : Declaration → Prop), c.registry = r →
          (∀ e, P e → ∀ v, ∀ m ∈ c.catalog.members e v, P m.declaration) →
          OptionCache.KeysApart r P → P d → d.kind ≠ .blocks → d.Distinct →
            c.UsesNested P d o := by
  refine ⟨r.resolves_iff name d, fun o ho => ⟨nests_of_resolve ho, ?_⟩⟩
  rintro c P rfl hnested hkeys hd hkind hnames
  exact PassContext.usesNested hnested hkeys hd hkind hnames ho

def titledRows : Declaration := { kind := .repeater, subfields := [("title", .ofKind .text)] }

def quotes : Declaration :=
  { kind := .structured, variants := [("quote", [("said", .ofKind .text)])] }

/-- A page that is opened by quotes, ahead of its rows. -/
def openedPage : Declaration :=
  { kind := .object, subfields := [("opening", quotes), ("rows", titledRows)] }

def openedPages : Collection where
  name := "pages"
  fields := [("page", openedPage)]

theorem legible_openedPages {d : Declaration}
    (h : Catalog.InUse ⟨[("pages", openedPages)], []⟩ openedPages.fields d) :
    d.isLegible = true := by
  have hall : ∀ d ∈ [openedPage, titledRows, quotes, .ofKind .text],
      Declaration.isLegible d = true := by decide
  refine hall d (h.inPlay.among ?_ ?_ ?_)
  · simp [openedPages]
  · simp [Catalog.block?]
  · simp [openedPage, titledRows, quotes, Declaration.ofKind, -Prod.forall]

theorem Registry.resolve_agrees_page :
    let c := (Engine.ofCatalog ⟨[("pages", openedPages)], []⟩).passContext .create "pages" []
    ∃ o, Registry.builtin.resolve "page" openedPage = .ok o ∧ o.Nests .builtin openedPage ∧
      c.UsesNested (c.catalog.InUse openedPages.fields) openedPage o := by
  intro c
  have hkeys : OptionCache.KeysApart .builtin (c.catalog.InUse openedPages.fields) := by
    intro d hd d' hd' hkey name o ho
    rw [← resolve_of_cacheKey (legible_openedPages hd) (legible_openedPages hd') hkey]
    exact ho
  obtain ⟨-, hnests⟩ := Registry.resolve_agrees .builtin "page" openedPage
  obtain ⟨o, ho⟩ : ∃ o, Registry.builtin.resolve "page" openedPage = .ok o := ⟨_, rfl⟩
  obtain ⟨hnested, huses⟩ := hnests o ho
  have hin : ("page", openedPage) ∈ openedPages.fields := List.mem_singleton_self _
  exact ⟨o, ho, hnested,
    huses c _ rfl (fun e he v m hm => he.member hm) hkeys (.field hin) (by decide)
      ⟨by decide, by decide⟩⟩

/-- A sheet with rows of one field, which are watched. -/
def watchedSheet : Declaration :=
  { kind := .object, subfields := [("rows", OptionCache.oneField.watched)] }

/-- Rows of two fields, and a sheet. -/
def spreads : Collection where
  name := "spreads"
  fields := [("rows", OptionCache.twoFields), ("sheet", watchedSheet)]

/-- The options that the sheet stores for its rows are their own, but the pass that comes to them
uses those of the rows beside the sheet. -/
theorem Engine.processRecord_mixes_options :
    let e := Engine.ofCatalog ⟨[("spreads", spreads)], []⟩
    let rows := OptionCache.oneField.watched
    (∃ o p, Registry.builtin.resolve "sheet" watchedSheet = .ok o ∧ o.subfield? "rows" = some p ∧
      Registry.builtin.resolve "rows" rows = .ok p ∧
      ∀ f ∈ rows.subfields, (p.subfield? f.1).isSome = true) ∧
    (e.processRecord "spreads" (.object [("sheet", .object [("rows", .list [])])]) .create
      []).result = .ok ⟨[("sheet.rows", "options of other fields")]⟩ := by
  intro e rows
  obtain ⟨o, ho⟩ : ∃ o, Registry.builtin.resolve "sheet" watchedSheet = .ok o := ⟨_, rfl⟩
  obtain ⟨p, hp⟩ : ∃ p, Registry.builtin.resolve "rows" rows = .ok p := ⟨_, rfl⟩
  have hnests := Registry.nests_of_resolve ho
  have hown : ∀ f ∈ rows.subfields, (p.subfield? f.1).isSome = true := by
    intro f hf
    obtain ⟨q, hq⟩ := (Registry.resolve_nested hp).1 f hf
    obtain rfl := List.mem_singleton.mp hf
    exact Option.isSome_iff_exists.mpr
      ⟨q, ((Registry.nests_of_resolve hp).subfield _ q).mpr ⟨_, rfl, hq⟩⟩
  refine ⟨⟨o, p, ho, (hnests.subfield "rows" p).mpr ⟨_, rfl, hp⟩, hp, hown⟩, ?_⟩
  decide +kernel

end ContentSchema
