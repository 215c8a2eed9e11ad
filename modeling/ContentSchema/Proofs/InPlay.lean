import ContentSchema.Proofs.BlockShaping
import ContentSchema.Proofs.Stages

/-!
# In play — the declarations and the values that a record reaches

`Catalog.InUse c fields d` says that `d` is one of the fields, or a declaration that values of the
fields show.  `Catalog.InPlay c fields d` is read off the declarations: it has the fields of every
block of the catalog as well, so what holds of all in play holds of all in use.
`Everywhere c P path d v` follows a value instead: `P` holds of it and of every value that is
reached from it through members.
-/

namespace ContentSchema

/-! ### Catalogs -/

/-- The catalogs that registering blocks and collections builds. -/
inductive Catalog.Registered : Catalog → Prop
  | empty : Registered .empty
  | block {c c' : Catalog} {b : Block} (hc : Registered c) (h : c.registerBlock b = .ok c') :
      Registered c'
  | collection {c c' : Catalog} {e : Collection} (hc : Registered c)
      (h : c.registerCollection e = .ok c') : Registered c'

namespace Catalog

/-- A registered block stands under its name. -/
theorem Registered.keyed {c : Catalog} (h : c.Registered) : c.Keyed := by
  induction h with
  | empty => exact fun _ _ h => nomatch h
  | @block c c' b hc h ih =>
    unfold registerBlock at h
    split at h
    · cases h
    · rw [← Except.ok.inj h]
      intro name block hblock
      have hget : (c.blocks.insert b.name b).get? name = some block := hblock
      by_cases hname : b.name = name
      · rw [hname, Entries.get?_insert_self] at hget
        rw [← Option.some.inj hget]
        exact hname
      · rw [Entries.get?_insert_of_ne hname] at hget
        exact ih name block hget
  | @collection c c' e hc h ih =>
    unfold registerCollection at h
    split at h
    · cases h
    · rw [← Except.ok.inj h]
      exact ih

variable {c : Catalog} {fields : Schema} {d : Declaration} {v : Value}

/-- A declaration among the fields, in a block, or nested in one of these. -/
inductive InPlay (c : Catalog) (fields : Schema) : Declaration → Prop
  | field {name : String} {d : Declaration} (h : (name, d) ∈ fields) : InPlay c fields d
  | blockField {key name : String} {block : Block} {d : Declaration}
      (hb : c.block? key = some block) (h : (name, d) ∈ block.fields) : InPlay c fields d
  | subfield {name : String} {d e : Declaration} (hd : InPlay c fields d)
      (h : (name, e) ∈ d.subfields) : InPlay c fields e
  | variant {key name : String} {schema : Schema} {d e : Declaration} (hd : InPlay c fields d)
      (hs : (key, schema) ∈ d.variants) (h : (name, e) ∈ schema) : InPlay c fields e

/-! ### Members -/

section

variable {M : Member → Prop}

theorem forall_ofItems {f : Value → List Member} {items : List Value}
    (hbelow : ∀ base m, M m → M (m.below base)) (h : ∀ x ∈ items, ∀ m ∈ f x, M m) :
    ∀ m ∈ Member.ofItems f items, M m := by
  intro m hm
  obtain ⟨i, x, n, hx, hn, rfl⟩ := Member.mem_ofItems hm
  exact hbelow _ n (h x (List.mem_of_getElem? hx) n hn)

/-- What holds of the fields of every block, wherever they stand, holds of all members of a block
entry. -/
theorem forall_blockMembers (hbelow : ∀ base m, M m → M (m.below base))
    (hfields : ∀ key block, c.block? key = some block →
      ∀ m ∈ Member.ofSchema .root block.fields, M m) (v : Value) :
    ∀ m ∈ c.blockMembers .root v, M m := by
  induction v using Value.weightInduction with
  | step v ih =>
    intro m hm
    cases v with
    | object ms =>
      cases hblock : c.blockOf? ms with
      | none =>
        rw [c.blockMembers_object_none hblock] at hm
        cases hm
      | some block =>
        obtain ⟨name, -, hname⟩ := Option.bind_eq_some_iff.mp hblock
        obtain ⟨key, -, hkey⟩ := Option.bind_eq_some_iff.mp hname
        rw [c.blockMembers_object hblock] at hm
        rcases List.mem_append.mp hm with hm | hm
        · obtain ⟨n, hn, rfl⟩ := List.mem_map.mp hm
          exact hbelow _ n (hfields key block hkey n hn)
        · obtain ⟨slot, -, hm⟩ := List.mem_flatMap.mp hm
          obtain ⟨n, hn, rfl⟩ := List.mem_map.mp hm
          exact hbelow _ n
            (forall_ofItems hbelow (fun x hx => ih x (weight_slotItems hx)) n hn)
    | _ =>
      rw [c.blockMembers_of_not_object .root rfl] at hm
      cases hm

/-- What holds of every schema a composite value can show, wherever its fields stand, holds of all
members of the value. -/
theorem forall_members (hbelow : ∀ base m, M m → M (m.below base))
    (hfields : ∀ key block, c.block? key = some block →
      ∀ m ∈ Member.ofSchema .root block.fields, M m)
    (hsubfields : ∀ m ∈ Member.ofSchema .root d.subfields, M m)
    (hvariants : ∀ e ∈ d.variants, ∀ m ∈ Member.ofSchema .root e.2, M m) (v : Value) :
    ∀ m ∈ c.members d v, M m := by
  cases v with
  | list items =>
    rw [c.members_list d items]
    refine forall_ofItems hbelow fun x _ => ?_
    unfold entryMembers
    split
    · split
      · exact hsubfields
      · exact fun _ h => nomatch h
    · split
      · next schema hschema =>
        obtain ⟨key, hkey⟩ := mem_variants_of_variantOf? hschema
        exact hvariants _ hkey
      · exact fun _ h => nomatch h
    · exact forall_blockMembers hbelow hfields x
    · exact fun _ h => nomatch h
  | object ms =>
    rw [c.members_object d ms]
    split
    · exact hsubfields
    · exact fun _ h => nomatch h
  | _ =>
    rw [c.members_eq_nil d rfl rfl]
    exact fun _ h => nomatch h

end

theorem mem_ofSchema_ne {schema : Schema} {m : Member} (hm : m ∈ Member.ofSchema .root schema) :
    m.relative.segments ≠ [] := by
  obtain ⟨name, -, hrel⟩ := Member.mem_ofSchema hm
  rw [hrel]
  exact List.cons_ne_nil _ _

/-- A member lies below the value it is a member of. -/
theorem members_ne {m : Member} (hm : m ∈ c.members d v) : m.relative.segments ≠ [] := by
  refine forall_members (M := fun m => m.relative.segments ≠ []) (fun base m h => ?_)
    (fun _ _ _ _ => mem_ofSchema_ne) (fun _ => mem_ofSchema_ne) (fun _ _ _ => mem_ofSchema_ne)
    v m hm
  exact List.append_ne_nil_of_right_ne_nil _ h

theorem weight_member {m : Member} (hm : m ∈ c.members d v) {u : Value}
    (hu : m.relative.lookup v = some u) : u.weight < v.weight :=
  Path.weight_lookup hu (members_ne hm)

theorem InPlay.member (hd : c.InPlay fields d) {m : Member} (hm : m ∈ c.members d v) :
    c.InPlay fields m.declaration := by
  have hschema : ∀ {schema : Schema}, (∀ e ∈ schema, c.InPlay fields e.2) →
      ∀ m ∈ Member.ofSchema .root schema, c.InPlay fields m.declaration := by
    intro schema h m hm
    obtain ⟨name, hname, -⟩ := Member.mem_ofSchema hm
    exact h _ hname
  exact forall_members (M := fun m => c.InPlay fields m.declaration) (fun _ _ h => h)
    (fun _ _ hkey => hschema fun _ he => .blockField hkey he)
    (hschema fun _ he => .subfield hd he) (fun _ hs => hschema fun _ he => .variant hd hs he) v m hm

/-- Where nothing is nested in a declaration, those in play are the fields and those of blocks. -/
theorem InPlay.flat {P : Declaration → Prop} (h : c.InPlay fields d)
    (hP : ∀ d, P d → d.subfields = [] ∧ d.variants = []) (hfields : ∀ e ∈ fields, P e.2)
    (hblocks : ∀ key block, c.block? key = some block → ∀ e ∈ block.fields, P e.2) : P d := by
  induction h with
  | field h => exact hfields _ h
  | blockField hb h => exact hblocks _ _ hb _ h
  | subfield _ h ih =>
    rw [(hP _ ih).1] at h
    cases h
  | variant _ h _ ih =>
    rw [(hP _ ih).2] at h
    cases h

/-- The declarations in play are among those of a list that has the fields, those of blocks, and
what is nested in a declaration it has. -/
theorem InPlay.among {ds : List Declaration} (hfields : ∀ f ∈ fields, f.2 ∈ ds)
    (hblocks : ∀ key block, c.block? key = some block → ∀ f ∈ block.fields, f.2 ∈ ds)
    (hnested : ∀ d ∈ ds, (∀ f ∈ d.subfields, f.2 ∈ ds) ∧ ∀ e ∈ d.variants, ∀ f ∈ e.2, f.2 ∈ ds)
    (h : c.InPlay fields d) : d ∈ ds := by
  induction h with
  | field h => exact hfields _ h
  | blockField hb h => exact hblocks _ _ hb _ h
  | subfield _ h ih => exact (hnested _ ih).1 _ h
  | variant _ hs h ih => exact (hnested _ ih).2 _ hs _ h

/-- A declaration that some value of `d` shows as a member, or as a member of members. -/
inductive Nested (c : Catalog) (d : Declaration) : Declaration → Prop
  | member {v : Value} {m : Member} (hm : m ∈ c.members d v) : Nested c d m.declaration
  | deeper {e : Declaration} {v : Value} {m : Member} (he : Nested c d e)
      (hm : m ∈ c.members e v) : Nested c d m.declaration

theorem Nested.trans {e e' : Declaration} (h : c.Nested d e) (h' : c.Nested e e') :
    c.Nested d e' := by
  induction h' with
  | member hm => exact h.deeper hm
  | deeper _ hm ih => exact ih.deeper hm

/-- Nothing is nested in a field of another kind than the composite ones. -/
theorem Nested.composite {e : Declaration} (h : c.Nested d e) : d.kind.isComposite = true := by
  induction h with
  | @member v m hm =>
    by_contra hkind
    rw [c.members_leaf (Bool.not_eq_true _ ▸ hkind)] at hm
    cases hm
  | deeper _ _ ih => exact ih

/-- One of the fields, or a declaration that is nested in one.  Of the blocks only the fields of
those count that some value of the fields holds. -/
def InUse (c : Catalog) (fields : Schema) (d : Declaration) : Prop :=
  ∃ f ∈ fields, d = f.2 ∨ c.Nested f.2 d

theorem InUse.field {name : String} {d : Declaration} (h : (name, d) ∈ fields) :
    c.InUse fields d :=
  ⟨_, h, .inl rfl⟩

theorem InUse.member (h : c.InUse fields d) {m : Member} (hm : m ∈ c.members d v) :
    c.InUse fields m.declaration := by
  obtain ⟨f, hf, rfl | hnested⟩ := h
  · exact ⟨f, hf, .inr (.member hm)⟩
  · exact ⟨f, hf, .inr (hnested.deeper hm)⟩

/-- What is in use is in play. -/
theorem InUse.inPlay (h : c.InUse fields d) : c.InPlay fields d := by
  obtain ⟨f, hf, rfl | hnested⟩ := h
  · exact .field hf
  · induction hnested with
    | member hm => exact (InPlay.field hf).member hm
    | deeper _ hm ih => exact ih.member hm

end Catalog

namespace PassContext

variable {c : PassContext} {collection : Collection} {r : Value}

theorem mem_fieldsFor {x : Path × Declaration} (h : x ∈ c.fieldsFor collection r) :
    ∃ name, (name, x.2) ∈ collection.fields ∧ x.1 = Path.root.child name := by
  obtain ⟨⟨name, d⟩, hd, rfl⟩ := List.mem_map.mp (List.mem_filter.mp h).1
  exact ⟨name, hd, rfl⟩

theorem inUse_fieldsFor {x : Path × Declaration} (h : x ∈ c.fieldsFor collection r) :
    c.catalog.InUse collection.fields x.2 := by
  obtain ⟨name, hname, -⟩ := mem_fieldsFor h
  exact .field hname

end PassContext

/-! ### Everywhere -/

/-- `P` holds of a value and of every value that is reached from it through members. -/
inductive Everywhere (c : Catalog) (P : Path → Declaration → Value → Prop) :
    Path → Declaration → Value → Prop
  | mk {path : Path} {d : Declaration} {v : Value} (here : P path d v)
      (below : ∀ m ∈ c.members d v, ∀ u, m.relative.lookup v = some u →
        Everywhere c P (path ++ m.relative) m.declaration u) : Everywhere c P path d v

namespace Everywhere

variable {c : Catalog} {P Q : Path → Declaration → Value → Prop} {path : Path} {d : Declaration}
  {v : Value}

theorem here (h : Everywhere c P path d v) : P path d v := by
  cases h with
  | mk here _ => exact here

theorem member (h : Everywhere c P path d v) {m : Member} (hm : m ∈ c.members d v) {u : Value}
    (hu : m.relative.lookup v = some u) :
    Everywhere c P (path ++ m.relative) m.declaration u := by
  cases h with
  | mk _ below => exact below m hm u hu

/-- A value none of whose members has a value. -/
theorem bare (h : P path d v) (hv : ∀ m ∈ c.members d v, m.relative.lookup v = none) :
    Everywhere c P path d v := by
  refine .mk h fun m hm u hu => ?_
  rw [hv m hm] at hu
  cases hu

/-- A value without members. -/
theorem leaf (h : P path d v) (hv : c.members d v = []) : Everywhere c P path d v := by
  refine .bare h fun m hm => ?_
  rw [hv] at hm
  cases hm

theorem mono {fields : Schema} (hd : c.InUse fields d)
    (hPQ : ∀ path d v, c.InUse fields d → P path d v → Q path d v)
    (h : Everywhere c P path d v) : Everywhere c Q path d v := by
  induction h with
  | mk here _ ih => exact .mk (hPQ _ _ _ hd here) fun m hm u hu => ih m hm u hu (hd.member hm)

theorem imp (hPQ : ∀ path d v, P path d v → Q path d v) (h : Everywhere c P path d v) :
    Everywhere c Q path d v := by
  induction h with
  | mk here _ ih => exact .mk (hPQ _ _ _ here) ih

theorem and (hP : Everywhere c P path d v) (hQ : Everywhere c Q path d v) :
    Everywhere c (fun path d v => P path d v ∧ Q path d v) path d v := by
  induction hP with
  | mk here _ ih => exact .mk ⟨here, hQ.here⟩ fun m hm u hu => ih m hm u hu (hQ.member hm hu)

end Everywhere

/-- The containers of a value and of all values below it are as declared, once texts are opened. -/
inductive Tidy (c : Catalog) : Declaration → Value → Prop
  | mk {d : Declaration} {v : Value} (fits : Fits c false true d (d.opened v))
      (below : ∀ m ∈ c.members d (d.opened v), ∀ u, m.relative.lookup (d.opened v) = some u →
        Tidy c m.declaration u) : Tidy c d v

end ContentSchema
