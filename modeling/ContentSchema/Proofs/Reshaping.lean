import ContentSchema.Proofs.Framing

/-!
# Reshaping — what bringing a value into shape makes of it

`Reshapes f fit v s` relates a value `v` to the outcome `s` of shaping it, for values whose members
are `f` and whose fit is `fit`: a valid outcome fits, its members were members' values of `v`, it
has no problem exactly when `v` itself fits, and a value that fits strictly stays as it is.  The
relation holds of objects and lists as soon as it holds of their parts, and of blocks by induction
on their weight.
-/

namespace ContentSchema

/-- What shaping makes of a value with the members `f` and the fit `fit nulls bare`. -/
structure Reshapes (f : Value → List Member) (fit : Bool → Bool → Value → Prop) (v : Value)
    (s : Shaped Value) : Prop where
  /-- A valid outcome fits, with null in the place of what could not stay. -/
  fits : s.valid = true → fit true false s.value
  /-- Nothing is put in the place of a member. -/
  kept : s.valid = true → ∀ m ∈ f s.value, ∀ u,
    m.relative.lookup s.value = some u → m.relative.lookup v = some u
  /-- There is no problem exactly when the value fits, up to missing fields of blocks. -/
  clean : s.problems = [] ↔ fit false true v
  valid : s.problems = [] → s.valid = true
  strict : s.problems = [] → fit false false s.value
  members : s.problems = [] → f s.value = f v
  lookups : s.problems = [] → ∀ m ∈ f v, m.relative.lookup s.value = m.relative.lookup v
  loosen : fit false false v → fit false true v
  /-- A value that fits strictly stays as it is. -/
  same : fit false false v → s.value = v

/-! ### Objects -/

theorem prune_problems {base : Path} {keep : String → Bool} {ms : Entries Value} :
    (prune base keep ms).2 = [] ↔ KeysWithin keep ms := by
  unfold prune KeysWithin
  simp only [List.map_eq_nil_iff, List.filter_eq_nil_iff]
  constructor
  · intro h e he
    have := h e he
    simpa using this
  · intro h e he
    simp [h e he]

theorem keysWithin_filter (keep : String → Bool) (ms : Entries Value) :
    KeysWithin keep (ms.filter fun m => keep m.1) := fun _ he => (List.mem_filter.mp he).2

theorem filter_of_keysWithin {keep : String → Bool} {ms : Entries Value}
    (h : KeysWithin keep ms) : (ms.filter fun m => keep m.1) = ms :=
  List.filter_eq_self.mpr h

/-- Keeping the declared members of an object. -/
theorem Reshapes.object {f : Value → List Member} {fit : Bool → Bool → Value → Prop}
    {keep : String → Bool} {ms : Entries Value} (schema : Schema) (base : Path)
    (hf : f (.object ms) = Member.ofSchema .root schema)
    (hfk : f (.object (ms.filter fun m => keep m.1)) = Member.ofSchema .root schema)
    (hkeep : ∀ name, Entries.contains name schema = true → keep name = true)
    (hfit : ∀ nulls bare, fit nulls bare (.object ms) ↔ KeysWithin keep ms)
    (hfitk : ∀ nulls bare, fit nulls bare (.object (ms.filter fun m => keep m.1))) :
    Reshapes f fit (.object ms) (shapeMembers keep base ms) := by
  have hlook : ∀ m ∈ Member.ofSchema .root schema,
      m.relative.lookup (.object (ms.filter fun m => keep m.1)) =
        m.relative.lookup (.object ms) := by
    intro m hm
    obtain ⟨name, hname, hrel⟩ := Member.mem_ofSchema hm
    rw [hrel, Path.lookup_child_root, Path.lookup_child_root, Path.descend_object,
      Path.descend_object, Entries.get?_filter keep,
      if_pos (hkeep name (Entries.contains_of_mem hname))]
  refine ⟨fun _ => hfitk _ _, fun _ m hm u hu => ?_, ?_, fun _ => rfl, fun _ => hfitk _ _,
    fun _ => hfk.trans hf.symm, fun _ m hm => hlook m (hf ▸ hm), ?_, fun h => ?_⟩
  · rw [← hlook m (hfk ▸ hm)]
    exact hu
  · rw [hfit]
    exact prune_problems
  · rw [hfit, hfit]
    exact id
  · show Value.object (ms.filter fun m => keep m.1) = _
    rw [filter_of_keysWithin ((hfit _ _).mp h)]

/-! ### Entries that cannot stay -/

/-- Null in the place of an entry that cannot stay. -/
theorem Reshapes.dropped {f : Value → List Member} {fit : Bool → Bool → Value → Prop} {v : Value}
    {p : Problem} (hf : f .null = []) (hnull : fit true false .null)
    (hfit : ∀ bare, ¬ fit false bare v) : Reshapes f fit v ⟨.null, [p], true⟩ := by
  refine ⟨fun _ => hnull, fun _ m hm => ?_, ?_, nofun, nofun, nofun, nofun,
    fun h => (hfit _ h).elim, fun h => (hfit _ h).elim⟩
  · rw [hf] at hm
    cases hm
  · exact ⟨nofun, fun h => (hfit _ h).elim⟩

/-! ### Lists -/

theorem lookup_index (items : List Value) (i : Nat) (q : Path) :
    (Path.root.index i ++ q).lookup (.list items) = items[i]?.bind q.lookup := by
  rw [Path.lookup_append, Path.index_eq, Path.lookup_child_root, Path.descend_indexText]

theorem map_zipIdx_eq {α β : Type} {f : α × Nat → β} {g : α → β} {l : List α}
    (h : ∀ e ∈ l.zipIdx, f e = g e.1) : l.zipIdx.map f = l.map g := by
  conv_rhs => rw [← List.zipIdx_map_fst 0 l, List.map_map]
  exact List.map_congr_left h

/-- Shaping the items of a list. -/
theorem Reshapes.list {f F : Value → List Member} {fit Fit : Bool → Bool → Value → Prop}
    (hF : ∀ items, F (.list items) = Member.ofItems f items)
    (hFit : ∀ nulls bare items, Fit nulls bare (.list items) ↔ ∀ x ∈ items, fit nulls bare x)
    {items : List Value} {g : Value × Nat → Shaped Value}
    (h : ∀ e ∈ items.zipIdx, Reshapes f fit e.1 (g e)) {s : Shaped Value}
    (hvalue : s.valid = true → s.value = .list (items.zipIdx.map fun e => (g e).value) ∧
      ∀ e ∈ items.zipIdx, (g e).valid = true)
    (hproblems : s.problems = [] ↔ ∀ e ∈ items.zipIdx, (g e).problems = [])
    (hvalid : s.problems = [] → s.valid = true) : Reshapes F Fit (.list items) s := by
  have hidx : ∀ {i x}, items[i]? = some x → (x, i) ∈ items.zipIdx := fun hi =>
    List.mem_zipIdx_iff_getElem?.mpr hi
  have hmem : ∀ {x}, x ∈ items → ∃ i, (x, i) ∈ items.zipIdx := fun hx =>
    let ⟨i, hi⟩ := List.getElem?_of_mem hx
    ⟨i, hidx hi⟩
  have hget : ∀ i, (items.zipIdx.map fun e => (g e).value)[i]? =
      items[i]?.map fun x => (g (x, i)).value := by
    intro i
    rw [List.getElem?_map, List.getElem?_zipIdx, Option.map_map]
    simp only [Nat.zero_add]
    rfl
  have hclean : s.problems = [] ↔ Fit false true (.list items) := by
    rw [hproblems, hFit]
    constructor
    · intro hp x hx
      obtain ⟨i, hi⟩ := hmem hx
      exact (h _ hi).clean.mp (hp _ hi)
    · exact fun hfit e he => (h e he).clean.mpr (hfit e.1 (List.fst_mem_of_mem_zipIdx he))
  have hloosen : Fit false false (.list items) → Fit false true (.list items) := by
    rw [hFit, hFit]
    intro hfit x hx
    obtain ⟨i, hi⟩ := hmem hx
    exact (h _ hi).loosen (hfit x hx)
  refine ⟨fun hs => ?fits, fun hs m hm u hu => ?kept, hclean, hvalid, fun hp => ?strict,
    fun hp => ?members, fun hp m hm => ?lookups, hloosen, fun hfit => ?same⟩
  case fits =>
    obtain ⟨hv, hall⟩ := hvalue hs
    rw [hv, hFit]
    intro y hy
    obtain ⟨e, he, rfl⟩ := List.mem_map.mp hy
    exact (h e he).fits (hall e he)
  case kept =>
    obtain ⟨hv, hall⟩ := hvalue hs
    rw [hv, hF] at hm
    obtain ⟨i, y, n, hy, hn, rfl⟩ := Member.mem_ofItems hm
    rw [hget] at hy
    obtain ⟨x, hx, rfl⟩ := Option.map_eq_some_iff.mp hy
    rw [hv, Member.below_relative, lookup_index, hget, hx] at hu
    rw [Member.below_relative, lookup_index, hx]
    exact (h _ (hidx hx)).kept (hall _ (hidx hx)) n hn u hu
  case strict =>
    rw [(hvalue (hvalid hp)).1, hFit]
    intro y hy
    obtain ⟨e, he, rfl⟩ := List.mem_map.mp hy
    exact (h e he).strict (hproblems.mp hp e he)
  case members =>
    rw [(hvalue (hvalid hp)).1, hF, hF]
    apply Member.ofItems_congr
    rw [List.map_map]
    exact map_zipIdx_eq fun e he => (h e he).members (hproblems.mp hp e he)
  case lookups =>
    rw [hF] at hm
    obtain ⟨i, x, n, hx, hn, rfl⟩ := Member.mem_ofItems hm
    rw [(hvalue (hvalid hp)).1, Member.below_relative, lookup_index, lookup_index, hget, hx]
    exact (h _ (hidx hx)).lookups (hproblems.mp hp _ (hidx hx)) n hn
  case same =>
    rw [(hvalue (hvalid (hclean.mpr (hloosen hfit)))).1]
    rw [hFit] at hfit
    congr 1
    refine (map_zipIdx_eq (g := id) fun e he => ?_).trans (List.map_id _)
    exact (h e he).same (hfit e.1 (List.fst_mem_of_mem_zipIdx he))

/-! ### Entries of repeaters and structures -/

/-- What becomes of one entry: an object is shaped, anything else dropped. -/
def shapeEntry (base : Path) (shape : Path → Entries Value → Shaped Value) (e : Value × Nat) :
    Shaped Value :=
  match e.1 with
  | .object ms => shape (base.index e.2) ms
  | _ => .malformed (base.index e.2)

theorem shapeEntries_eq (base : Path) (shape : Path → Entries Value → Shaped Value)
    (items : List Value) :
    shapeEntries base shape items =
      ⟨.list (items.zipIdx.map fun e => (shapeEntry base shape e).value),
        items.zipIdx.flatMap fun e => (shapeEntry base shape e).problems, true⟩ := by
  unfold shapeEntries
  simp only [List.map_map, List.flatMap_map]
  rfl

/-- Shaping the entries of a list that are objects. -/
theorem Reshapes.entries {f F : Value → List Member} (fit : Bool → Bool → Value → Prop)
    {Fit : Bool → Bool → Value → Prop}
    (hF : ∀ items, F (.list items) = Member.ofItems f items)
    (hFit : ∀ nulls bare items, Fit nulls bare (.list items) ↔ ∀ x ∈ items, fit nulls bare x)
    {base : Path} {shape : Path → Entries Value → Shaped Value} {items : List Value}
    (hobject : ∀ (ms : Entries Value) i, Reshapes f fit (.object ms) (shape (base.index i) ms))
    (hvalid : ∀ (ms : Entries Value) i, (shape (base.index i) ms).valid = true)
    (hf : f .null = []) (hnull : fit true false .null)
    (hfit : ∀ bare (v : Value), v.isObject = false → ¬ fit false bare v) :
    Reshapes F Fit (.list items) (shapeEntries base shape items) := by
  have hentry : ∀ e ∈ items.zipIdx, Reshapes f fit e.1 (shapeEntry base shape e) := by
    rintro ⟨x, i⟩ -
    unfold shapeEntry
    cases x with
    | object ms => exact hobject ms i
    | _ => exact Reshapes.dropped hf hnull fun bare => hfit bare _ rfl
  have hok : ∀ e ∈ items.zipIdx, (shapeEntry base shape e).valid = true := by
    rintro ⟨x, i⟩ -
    unfold shapeEntry
    cases x with
    | object ms => exact hvalid ms i
    | _ => rfl
  rw [shapeEntries_eq]
  refine Reshapes.list hF hFit hentry (fun _ => ⟨rfl, hok⟩) ?_ fun _ => rfl
  rw [List.flatMap_eq_nil_iff]

section Kinds

variable {c : Catalog} {d : Declaration} {nulls bare : Bool}

theorem itemFits_repeater (hk : d.kind = .repeater) (x : Value) :
    ItemFits c nulls bare d x ↔
      EntryFits nulls (KeysWithin (Entries.contains · d.subfields)) x := by
  unfold ItemFits
  rw [hk]

theorem itemFits_structured (hk : d.kind = .structured) (x : Value) :
    ItemFits c nulls bare d x ↔ EntryFits nulls (VariantFits d) x := by
  unfold ItemFits
  rw [hk]

theorem itemFits_blocks (hk : d.kind = .blocks) (x : Value) :
    ItemFits c nulls bare d x ↔ BlockFits c nulls bare d.allowedBlocks x := by
  unfold ItemFits
  rw [hk]

theorem entryFits_object {fits : Entries Value → Prop} {ms : Entries Value} :
    EntryFits nulls fits (.object ms) ↔ fits ms :=
  ⟨fun h => by cases h; assumption, .object⟩

theorem not_entryFits {fits : Entries Value → Prop} {v : Value} (hv : v.isObject = false) :
    ¬ EntryFits false fits v := by
  intro h
  cases h with
  | null h => cases h
  | object => cases hv

/-- Shaping the entries of a repeater. -/
theorem reshapes_repeater (hk : d.kind = .repeater) (base : Path) (items : List Value) :
    Reshapes (c.members d) (fun nulls bare => Fits c nulls bare d) (.list items)
      (shapeEntries base (shapeMembers (Entries.contains · d.subfields)) items) := by
  have hentry : ∀ ms : Entries Value, c.entryMembers d (.object ms) =
      Member.ofSchema .root d.subfields := by
    intro ms
    unfold Catalog.entryMembers
    rw [hk]
    rfl
  refine Reshapes.entries (f := c.entryMembers d) (fun nulls bare => ItemFits c nulls bare d)
    (Catalog.members_list c d) (fun _ _ _ => Iff.rfl) (fun ms i => ?_) (fun _ _ => rfl) ?_ ?_ ?_
  · refine Reshapes.object _ _ (hentry ms) (hentry _) (fun _ h => h) (fun _ _ => ?_) fun _ _ => ?_
    · rw [itemFits_repeater hk, entryFits_object]
    · rw [itemFits_repeater hk, entryFits_object]
      exact keysWithin_filter (Entries.contains · d.subfields) ms
  · unfold Catalog.entryMembers
    rw [hk]
    rfl
  · exact (itemFits_repeater hk _).mpr (.null rfl)
  · intro bare v hv h
    exact not_entryFits hv ((itemFits_repeater hk v).mp h)

theorem variantOf?_filter (keep : String → Bool) {ms : Entries Value}
    (hkeep : keep variantKey = true) :
    d.variantOf? (.object (ms.filter fun m => keep m.1)) = d.variantOf? (.object ms) := by
  unfold Declaration.variantOf? Value.get? Value.members
  simp only [Entries.get?_filter keep, hkeep, if_true]

/-- Shaping one entry of a structure. -/
theorem reshapes_variant (hk : d.kind = .structured) (base : Path) (ms : Entries Value) :
    Reshapes (c.entryMembers d) (fun nulls bare => ItemFits c nulls bare d) (.object ms)
      (shapeVariant d base ms) := by
  have hentry : ∀ {x schema}, d.variantOf? x = some schema →
      c.entryMembers d x = Member.ofSchema .root schema := by
    intro x schema hs
    unfold Catalog.entryMembers
    rw [hk, hs]
  unfold shapeVariant
  cases hs : d.variantOf? (.object ms) with
  | none =>
    refine Reshapes.dropped ?_ ((itemFits_structured hk _).mpr (.null rfl)) fun bare h => ?_
    · unfold Catalog.entryMembers
      rw [hk]
      rfl
    · obtain ⟨schema, hs', -⟩ := entryFits_object.mp ((itemFits_structured hk _).mp h)
      rw [hs] at hs'
      cases hs'
  | some schema =>
    have hs' := @variantOf?_filter d (fun key => key = variantKey || Entries.contains key schema) ms
      (by simp)
    rw [hs] at hs'
    refine Reshapes.object schema _ (hentry hs) (hentry hs') (fun name h => ?_)
      (fun _ _ => ?_) fun _ _ => ?_
    · simp [h]
    · rw [itemFits_structured hk, entryFits_object]
      constructor
      · rintro ⟨schema', h, hkeys⟩
        rw [hs, Option.some.injEq] at h
        rw [h]
        exact hkeys
      · exact fun hkeys => ⟨schema, hs, hkeys⟩
    · rw [itemFits_structured hk, entryFits_object]
      exact ⟨schema, hs', keysWithin_filter _ ms⟩

/-- Shaping the entries of a structure. -/
theorem reshapes_structured (hk : d.kind = .structured) (base : Path) (items : List Value) :
    Reshapes (c.members d) (fun nulls bare => Fits c nulls bare d) (.list items)
      (shapeEntries base (shapeVariant d) items) := by
  refine Reshapes.entries (f := c.entryMembers d) (fun nulls bare => ItemFits c nulls bare d)
    (Catalog.members_list c d) (fun _ _ _ => Iff.rfl) (fun ms i => reshapes_variant hk _ ms)
    (fun ms i => ?_) ?_ ?_ ?_
  · unfold shapeVariant
    split <;> rfl
  · unfold Catalog.entryMembers
    rw [hk]
    rfl
  · exact (itemFits_structured hk _).mpr (.null rfl)
  · intro bare v hv h
    exact not_entryFits hv ((itemFits_structured hk v).mp h)

end Kinds

end ContentSchema
