import Mathlib.Data.List.Forall2
import ContentSchema.Proofs.BlockTrees
import ContentSchema.Proofs.InPlay
import ContentSchema.Proofs.PassRuns

/-!
# Normal forms — what is left of a value in shape

A valid outcome of shaping has a list wherever the value had one, with as many items: each item is
dropped for a null, or stays without its undeclared members (`Catalog.NormalForm`).  On a value that
fits, up to missing fields of blocks, shaping does nothing but add the missing fields (`completed`);
so it does nothing to its own outcomes, and nothing else to a value it finds no problem with
(`shape_normalizes`).
-/

namespace ContentSchema

theorem Entries.update_congr {α : Type} {key : String} {f g : α → α} {es : Entries α}
    (h : ∀ v, es.get? key = some v → f v = g v) : update key f es = update key g es := by
  induction es with
  | nil => rfl
  | cons e rest ih =>
    obtain ⟨k, v⟩ := e
    by_cases hk : k = key
    · have hv : f v = g v := h v (by simp [get?, hk])
      simp [update, hk, hv]
    · have hrest := ih fun w hw => h w (by simpa [get?, hk] using hw)
      simp [update, hk, hrest]

theorem Entries.update_id {α : Type} (key : String) (es : Entries α) : update key id es = es := by
  induction es with
  | nil => rfl
  | cons e rest ih =>
    obtain ⟨k, v⟩ := e
    by_cases hk : k = key <;> simp [update, hk, ih]

/-! ### Completed blocks -/

/-- Empty fields for an entry that has none. -/
def withFields (ms : Entries Value) : Entries Value :=
  if ms.contains "fields" then ms else ms.insert "fields" (.object [])

mutual

/-- A block entry with empty fields wherever it, or an entry in its slots, has none. -/
def completeBlock : Value → Value
  | .object ms => .object (withFields (completeMembers ms))
  | v => v

/-- The members of an entry, its slots completed. -/
def completeMembers : List (String × Value) → List (String × Value)
  | [] => []
  | (key, v) :: rest =>
    if key = "slots" then
      (key, match v with
        | .object slots => .object (completeLists slots)
        | v => v) :: rest
    else (key, v) :: completeMembers rest

/-- The lists in the slots of an entry, their items completed. -/
def completeLists : List (String × Value) → List (String × Value)
  | [] => []
  | (key, v) :: rest =>
    (key, match v with
      | .list items => .list (completeBlocks items)
      | v => v) :: completeLists rest

def completeBlocks : List Value → List Value
  | [] => []
  | v :: vs => completeBlock v :: completeBlocks vs

end

/-- The blocks of a list completed. -/
def completeList (v : Value) : Value :=
  match v with
  | .list items => .list (items.map completeBlock)
  | v => v

/-- The blocks in an object of slots completed. -/
def completeSlots (v : Value) : Value :=
  match v with
  | .object slots => .object (slots.map fun e => (e.1, completeList e.2))
  | v => v

theorem completeBlocks_eq (items : List Value) :
    completeBlocks items = items.map completeBlock := by
  induction items with
  | nil => rw [completeBlocks, List.map_nil]
  | cons v vs ih => rw [completeBlocks, ih, List.map_cons]

theorem completeLists_eq (slots : Entries Value) :
    completeLists slots = slots.map fun e => (e.1, completeList e.2) := by
  induction slots with
  | nil => rw [completeLists, List.map_nil]
  | cons e rest ih =>
    obtain ⟨key, v⟩ := e
    rw [List.map_cons, ← ih]
    cases v with
    | list items => rw [completeLists, completeBlocks_eq, completeList]
    | _ => simp [completeLists, completeList]

theorem completeMembers_eq (ms : Entries Value) :
    completeMembers ms = Entries.update "slots" completeSlots ms := by
  induction ms with
  | nil => rw [completeMembers, Entries.update]
  | cons e rest ih =>
    obtain ⟨key, v⟩ := e
    rw [Entries.update, ← ih]
    cases v with
    | object slots => rw [completeMembers, completeLists_eq, completeSlots]
    | _ => simp [completeMembers, completeSlots]

theorem completeBlock_object (ms : Entries Value) :
    completeBlock (.object ms) =
      .object (withFields (Entries.update "slots" completeSlots ms)) := by
  rw [completeBlock, completeMembers_eq]

theorem completeBlock_null : completeBlock .null = .null := by
  rw [completeBlock]
  intro ms h
  cases h

/-! ### Blocks that fit -/

section Blocks

variable {c : Catalog} {allowed : Option (List String)} {base : Path} {block : Block}
  {ms : Entries Value} {nulls bare : Bool} {v : Value}

/-- The members of an entry but its fields, when `f` is what becomes of its slots. -/
theorem shapeSlots_value {f : Value → Value}
    (h : ∀ v, Entries.get? "slots" ms = some v → (c.shapeSlotted block base v).value = f v) :
    (c.shapeSlots block base ms).value =
      Entries.update "slots" f (ms.filter fun m => Catalog.blockKeys.contains m.1) := by
  have hget : Entries.get? "slots" (ms.filter fun m => Catalog.blockKeys.contains m.1) =
      Entries.get? "slots" ms := Entries.get?_filter Catalog.blockKeys.contains "slots" ms
  rw [shapeSlots_eq]
  cases hs : Entries.get? "slots" ms with
  | none =>
    conv_lhs => rw [← Entries.update_id "slots" (ms.filter _)]
    refine Entries.update_congr fun v hv => ?_
    rw [hget, hs] at hv
    cases hv
  | some w =>
    refine Entries.update_congr fun v hv => ?_
    rw [hget, hs, Option.some.injEq] at hv
    subst hv
    exact h w hs

theorem SlotsFit.list {slot : Slot} {e : String × Value}
    (h : SlotsFit block (Entries.get? "slots" ms)) (he : block.HasSlot ms slot e) :
    ∃ items, e.2 = .list items := by
  obtain ⟨slots, hv, hmem, -⟩ := he
  obtain ⟨es, hes, hall⟩ := h _ hv
  cases hes
  exact (hall e hmem).2

/-- What becomes of the slots of an entry whose items are all completed. -/
theorem shapeSlotted_completed (base : Path) (h : SlotsFit block (Entries.get? "slots" ms))
    (hv : Entries.get? "slots" ms = some v)
    (hslot : ∀ slot e, block.HasSlot ms slot e →
      (c.shapeSlot slot (base.child e.1) e.2).valid = true ∧
        (c.shapeSlot slot (base.child e.1) e.2).value = completeList e.2) :
    (c.shapeSlotted block base v).value = completeSlots v := by
  obtain ⟨es, rfl, hes⟩ := h v hv
  have hvalid : (c.shapeSlotted block base (.object es)).valid = true :=
    shapeSlotted_valid_iff.mpr fun e he slot hs => (hslot slot e ⟨es, hv, he, hs⟩).1
  rw [shapeSlotted_value hvalid]
  show Value.object (es.filterMap _) = .object (es.map _)
  rw [← List.filterMap_eq_map]
  congr 1
  refine List.filterMap_congr fun e he => ?_
  obtain ⟨slot, hs⟩ := Entries.contains_iff.mp (hes e he).1
  have hvalue := (hslot slot e ⟨es, hv, he, hs⟩).2
  simp [Catalog.slotEntry, hs, hvalue]

/-- What becomes of a list of blocks that are all completed. -/
theorem shapeBlocks_completed {items : List Value} (base : Path)
    (h : ∀ x ∈ items, ∀ base, (c.shapeBlock allowed base x).valid = true ∧
      (c.shapeBlock allowed base x).value = completeBlock x) :
    (c.shapeBlocks allowed base 0 items).valid = true ∧
      (c.shapeBlocks allowed base 0 items).value = items.map completeBlock := by
  have hitem := fun x (hx : x ∈ items.zipIdx) => h x.1 (List.fst_mem_of_mem_zipIdx hx)
  have hvalid : (c.shapeBlocks allowed base 0 items).valid = true :=
    shapeBlocks_valid_iff.mpr fun x hx => (hitem x hx _).1
  refine ⟨hvalid, ?_⟩
  rw [(shapeBlocks_valid hvalid).1]
  exact map_zipIdx_eq fun x hx => (hitem x hx _).2

/-- Fields that fit stay, and are added when there are none. -/
theorem insert_shapeFields (base : Path) {es : Entries Value}
    (h : FieldsFit bare block (Entries.get? "fields" es)) :
    Entries.insert "fields" (Catalog.shapeFields block base (Entries.get? "fields" es)).1 es =
      withFields es := by
  unfold withFields
  rw [Entries.contains_eq]
  rcases h with ⟨hnone, -⟩ | ⟨fs, hfs, hkeys⟩
  · rw [hnone]
    rfl
  · have hsame : Entries.get? "fields" es =
        some (Catalog.shapeFields block base (Entries.get? "fields" es)).1 :=
      shapeFields_same (.inr ⟨fs, hfs, hkeys⟩)
    rw [Entries.insert_of_get? hsame, Entries.update_of_get? hsame, hfs]
    rfl

/-- Shaping an entry that fits completes it. -/
theorem BlockFits.shaped (h : BlockFits c nulls bare allowed v) : ∀ base,
    (c.shapeBlock allowed base v).valid = true ∧
      (c.shapeBlock allowed base v).value = completeBlock v := by
  induction h with
  | null allowed =>
    intro base
    rw [shapeBlock_malformed rfl, completeBlock_null]
    exact ⟨rfl, rfl⟩
  | @block allowed ms block name known taken keys fields slots inner ih =>
    intro base
    have hslot : ∀ slot e, block.HasSlot ms slot e → ∀ base,
        (c.shapeSlot slot base e.2).valid = true ∧
          (c.shapeSlot slot base e.2).value = completeList e.2 := by
      intro slot e he base
      obtain ⟨items, hitems⟩ := slots.list he
      obtain ⟨es, hv, hmem, hs⟩ := he
      have hin := ih _ hv e hmem slot hs
      rw [hitems] at hin ⊢
      obtain ⟨hvalid, hvalue⟩ := shapeBlocks_completed base hin
      exact ⟨hvalid, congrArg Value.list hvalue⟩
    have hslots : (c.shapeSlots block (base.child "slots") ms).value =
        Entries.update "slots" completeSlots ms := by
      rw [shapeSlots_value fun v hv => shapeSlotted_completed _ slots hv fun slot e he =>
        hslot slot e he _, filter_of_keysWithin keys]
    -- completing the slots leaves the fields for last
    have hget : Entries.get? "fields" (Entries.update "slots" completeSlots ms) =
        Entries.get? "fields" ms := Entries.get?_update_of_ne (by decide) completeSlots ms
    rw [shapeBlock_known (BlockFits.blockOf? name known) taken, completeBlock_object]
    refine ⟨shapeSlots_valid_iff.mpr fun slot e he => (hslot slot e he _).1, ?_⟩
    show Value.object (c.shapedEntry block base ms) = _
    unfold Catalog.shapedEntry
    rw [hslots, ← hget, insert_shapeFields _ (hget ▸ fields)]

theorem completeList_same {items : List Value} (h : ∀ x ∈ items, completeBlock x = x) :
    completeList (.list items) = .list items := by
  have hitems : items.map completeBlock = items.map id := List.map_congr_left h
  show Value.list (items.map completeBlock) = _
  rw [hitems, List.map_id]

/-- An entry that fits and lacks no fields is complete. -/
theorem BlockFits.complete (h : BlockFits c nulls false allowed v) : completeBlock v = v := by
  induction h with
  | null => exact completeBlock_null
  | @block allowed ms block name known taken keys fields slots inner ih =>
    have hslots : Entries.update "slots" completeSlots ms = ms := by
      conv_rhs => rw [← Entries.update_id "slots" ms]
      refine Entries.update_congr fun v hv => ?_
      obtain ⟨es, rfl, hes⟩ := slots v hv
      show Value.object (es.map _) = .object es
      congr 1
      conv_rhs => rw [← List.map_id es]
      refine List.map_congr_left fun e he => ?_
      obtain ⟨hdecl, items, hitems⟩ := hes e he
      obtain ⟨slot, hs⟩ := Entries.contains_iff.mp hdecl
      have hin := ih _ hv e he slot hs
      rw [hitems] at hin ⊢
      have hlist : completeList (.list items) = .list items := completeList_same hin
      rw [hlist, ← hitems, id]
    have hfields : Entries.contains "fields" ms = true := by
      rcases fields with ⟨-, h⟩ | ⟨fs, hfs, -⟩
      · cases h
      · exact Entries.contains_iff.mpr ⟨_, hfs⟩
    rw [completeBlock_object, hslots, withFields, if_pos hfields]

end Blocks

/-! ### What is left of a block entry -/

/-- The declared members of a container; what is no object has none. -/
def keptMembers (keep : String → Bool) (v : Value) : Value :=
  .object (v.members.filter fun m => keep m.1)

/-- The declared slots among the members of a container, each with a list in its place. -/
def keptSlots (block : Block) (lists : String × Value → List Value) (v : Value) : Value :=
  .object ((v.members.filter fun m => Entries.contains m.1 block.slots).map fun m =>
    (m.1, .list (lists m)))

/-- What is left of a block entry at a place that takes the blocks `allowed`: null, or the entry
without what its block does not declare, an empty container in the place of fields or slots that
have none, and what is left of each item in the place of the item. -/
inductive Catalog.NormalBlock (c : Catalog) : Option (List String) → Value → Value → Prop
  | malformed {allowed : Option (List String)} {v : Value} (h : v.isObject = false) :
      NormalBlock c allowed v .null
  | refused {allowed : Option (List String)} {ms : Entries Value} {block : Block}
      (known : c.blockOf? ms = some block)
      (refused : allowed.all (·.contains block.name) = false) :
      NormalBlock c allowed (.object ms) .null
  | kept {allowed : Option (List String)} {ms : Entries Value} {block : Block}
      {lists : String × Value → List Value} (known : c.blockOf? ms = some block)
      (taken : allowed.all (·.contains block.name) = true)
      (length : ∀ slot e, block.HasSlot ms slot e → (lists e).length = e.2.items.length)
      (items : ∀ slot e, block.HasSlot ms slot e →
        ∀ p ∈ e.2.items.zip (lists e), NormalBlock c slot.allowed p.1 p.2) :
      NormalBlock c allowed (.object ms) (.object (Entries.insert "fields"
        (keptMembers (Entries.contains · block.fields) ((Entries.get? "fields" ms).getD .null))
        (Entries.update "slots" (keptSlots block lists)
          (ms.filter fun m => Catalog.blockKeys.contains m.1))))

section Normal

variable {c : Catalog} {allowed : Option (List String)} {base : Path} {block : Block}

theorem zip_map_zipIdx {α β : Type} (f : α × Nat → β) (l : List α) :
    l.zip (l.zipIdx.map f) = l.zipIdx.map fun e => (e.1, f e) := by
  calc l.zip (l.zipIdx.map f)
      = (l.zipIdx.map Prod.fst).zip (l.zipIdx.map f) := by rw [List.zipIdx_map_fst]
    _ = l.zipIdx.map fun e => (e.1, f e) := List.zip_map'

theorem shapeFields_kept (block : Block) (base : Path) (fields : Option Value) :
    (Catalog.shapeFields block base fields).1 =
      keptMembers (Entries.contains · block.fields) (fields.getD .null) := by
  cases fields with
  | none => rfl
  | some v => cases v <;> rfl

/-- What is left of the items in a declared slot of a block at `base`. -/
def Catalog.leftItems (c : Catalog) (block : Block) (base : Path) (e : String × Value) :
    List Value :=
  e.2.items.zipIdx.map fun x =>
    (c.shapeBlock ((Entries.get? e.1 block.slots).getD default).allowed
      ((base.child e.1).index x.2) x.1).value

theorem shapeSlotted_kept {v : Value} (h : (c.shapeSlotted block base v).valid = true) :
    (c.shapeSlotted block base v).value = keptSlots block (c.leftItems block base) v := by
  have hall := shapeSlotted_valid_iff.mp h
  rw [shapeSlotted_value h, keptSlots, ← List.filterMap_eq_filter, List.map_filterMap]
  congr 1
  refine List.filterMap_congr fun e he => ?_
  cases hs : Entries.get? e.1 block.slots with
  | none => simp [Catalog.slotEntry, hs, Option.guard, Entries.contains_eq]
  | some slot =>
    have hvalue := shapeSlot_value (hall e he slot hs)
    simp [Catalog.slotEntry, Catalog.leftItems, hs, Option.guard, Entries.contains_eq, hvalue]

/-- A valid outcome is what is left of the entry. -/
theorem normalBlock_shapeBlock (allowed : Option (List String)) (v : Value) (base : Path)
    (hvalid : (c.shapeBlock allowed base v).valid = true) :
    c.NormalBlock allowed v (c.shapeBlock allowed base v).value := by
  induction allowed, v using c.blockInduction generalizing base with
  | malformed allowed v hv =>
    rw [shapeBlock_malformed hv]
    exact .malformed hv
  | unknown allowed ms hb =>
    rw [shapeBlock_unknown hb] at hvalid
    cases hvalid
  | refused allowed ms block hb hrefused =>
    rw [shapeBlock_refused hb hrefused]
    exact .refused hb hrefused
  | entry allowed ms block hb htaken ih =>
    have hitems := (shapeEntry_valid_iff hb htaken).mp hvalid
    rw [shapeBlock_known hb htaken] at hvalid ⊢
    have hslots := shapeSlots_valid.mp hvalid
    show c.NormalBlock allowed _ (.object (c.shapedEntry block base ms))
    unfold Catalog.shapedEntry
    rw [shapeFields_kept, shapeSlots_value fun v hv => shapeSlotted_kept (hslots v hv)]
    refine .kept hb htaken (fun slot e _ => ?_) fun slot e he p hp => ?_
    · simp [Catalog.leftItems]
    · unfold Catalog.leftItems at hp
      rw [zip_map_zipIdx] at hp
      obtain ⟨x, hx, rfl⟩ := List.mem_map.mp hp
      obtain ⟨-, -, -, hs⟩ := id he
      rw [hs, Option.getD_some]
      exact ih slot e he x.1 (List.fst_mem_of_mem_zipIdx hx) _ (hitems slot e he x hx)

end Normal

/-! ### What is left of a composite value -/

/-- An entry is dropped when no keys are declared for it, and else loses the undeclared ones. -/
inductive Trims (declared : Entries Value → Option (String → Bool)) : Value → Value → Prop
  | dropped {v : Value} (h : ∀ ms, v = .object ms → declared ms = none) : Trims declared v .null
  | kept {ms : Entries Value} {keep : String → Bool} (h : declared ms = some keep) :
      Trims declared (.object ms) (.object (ms.filter fun m => keep m.1))

/-- In the place of a list stands a list of the same length, with related items. -/
def Itemwise (R : Value → Value → Prop) (v w : Value) : Prop :=
  match v with
  | .list items => ∃ left, w = .list left ∧ List.Forall₂ R items left
  | v => w = v

/-- The keys of an entry that names a variant. -/
def Declaration.variantKeys (d : Declaration) (ms : Entries Value) : Option (String → Bool) :=
  (d.variantOf? (.object ms)).map fun schema key =>
    key = variantKey || Entries.contains key schema

/-- `w` is what is left of the composite value `v`, whose blocks are among `allowed`. -/
def Catalog.NormalForm (c : Catalog) (d : Declaration) (allowed : Option (List String))
    (v w : Value) : Prop :=
  match d.kind with
  | .repeater => Itemwise (Trims fun _ => some (Entries.contains · d.subfields)) v w
  | .object => w = if v.isObject then keptMembers (Entries.contains · d.subfields) v else v
  | .structured => Itemwise (Trims d.variantKeys) v w
  | .blocks => Itemwise (c.NormalBlock allowed) v w
  | _ => w = v

section Composite

variable {c : Catalog} {d : Declaration} {options : Options} {base : Path} {v : Value}

theorem forall₂_zipIdx {R : Value → Value → Prop} {f : Value × Nat → Value} {items : List Value}
    (h : ∀ e ∈ items.zipIdx, R e.1 (f e)) : List.Forall₂ R items (items.zipIdx.map f) := by
  rw [List.forall₂_iff_zip]
  refine ⟨by simp, fun {x y} hxy => ?_⟩
  rw [zip_map_zipIdx] at hxy
  obtain ⟨e, he, hp⟩ := List.mem_map.mp hxy
  cases hp
  exact h e he

theorem trims_shapeEntries {declared : Entries Value → Option (String → Bool)}
    {shape : Path → Entries Value → Shaped Value} {items : List Value}
    (h : ∀ ms i, Trims declared (.object ms) (shape (base.index i) ms).value) :
    Itemwise (Trims declared) (.list items) (shapeEntries base shape items).value := by
  rw [shapeEntries_eq]
  refine ⟨_, rfl, forall₂_zipIdx fun e _ => ?_⟩
  obtain ⟨x, i⟩ := e
  cases x with
  | object ms => exact h ms i
  | _ => exact .dropped nofun

theorem trims_shapeVariant (ms : Entries Value) :
    Trims d.variantKeys (.object ms) (shapeVariant d base ms).value := by
  unfold shapeVariant
  cases hs : d.variantOf? (.object ms) with
  | none =>
    refine .dropped fun ms' h => ?_
    cases h
    simp [Declaration.variantKeys, hs]
  | some schema =>
    have hkeys : d.variantKeys ms = some fun key =>
        key = variantKey || Entries.contains key schema := by simp [Declaration.variantKeys, hs]
    exact .kept hkeys

/-- A valid outcome is what is left of the value. -/
theorem normalForm_shape (hvalid : (c.shape d options base v).valid = true) :
    c.NormalForm d (options.strings? "allowed-blocks") v (c.shape d options base v).value := by
  unfold Catalog.NormalForm
  unfold Catalog.shape at hvalid ⊢
  split
  · next hk =>
    cases v with
    | list items =>
      simp only [hk]
      exact trims_shapeEntries fun ms i => @Trims.kept _ ms (Entries.contains · d.subfields) rfl
    | _ => simp [hk, Itemwise]
  · next hk =>
    cases v with
    | object ms => simp [hk, shapeMembers, prune, keptMembers, Value.isObject, Value.members]
    | _ => simp [hk, Value.isObject]
  · next hk =>
    cases v with
    | list items =>
      simp only [hk]
      exact trims_shapeEntries fun ms i => trims_shapeVariant ms
    | _ => simp [hk, Itemwise]
  · next hk =>
    cases v with
    | list items =>
      simp only [hk] at hvalid ⊢
      have hvalid' : (c.shapeBlocks (options.strings? "allowed-blocks") base 0 items).valid =
        true := hvalid
      obtain ⟨hvalue, hall⟩ := shapeBlocks_valid hvalid'
      refine ⟨_, rfl, ?_⟩
      rw [hvalue]
      exact forall₂_zipIdx fun e he => normalBlock_shapeBlock _ e.1 _ (hall e he)
    | _ => simp [hk, Itemwise]
  · next h1 h2 h3 h4 =>
    split
    · next hk => exact (h1 hk).elim
    · next hk => exact (h2 hk).elim
    · next hk => exact (h3 hk).elim
    · next hk => exact (h4 hk).elim
    · rfl

/-! ### Values that fit -/

/-- A declaration with these options as its own. -/
def Declaration.under (d : Declaration) (options : Options) : Declaration :=
  { d with options := options.values }

theorem allowedBlocks_under (d : Declaration) (options : Options) :
    options.strings? "allowed-blocks" = (d.under options).allowedBlocks := by
  unfold Options.strings? Options.get Declaration.under Declaration.allowedBlocks
  cases Entries.get? "allowed-blocks" options.values <;> rfl

/-- A value with empty fields wherever a block entry has none. -/
def Declaration.completed (d : Declaration) (v : Value) : Value :=
  if d.kind = .blocks then completeList v else v

theorem reshapes_under (hc : c.Keyed) (d : Declaration) (options : Options) (base : Path)
    (v : Value) :
    Reshapes (c.members d) (fun nulls bare => Fits c nulls bare (d.under options)) v
      (c.shape d options base v) :=
  @reshapes_shape c hc (d.under options) options (fun _ => allowedBlocks_under d options) base v

theorem shapeEntries_same {shape : Path → Entries Value → Shaped Value} {items : List Value}
    (hnull : ∀ x ∈ items, x.isObject = false → x = .null)
    (h : ∀ ms i, .object ms ∈ items → (shape (base.index i) ms).value = .object ms) :
    (shapeEntries base shape items).value = .list items := by
  rw [shapeEntries_eq]
  show Value.list _ = .list items
  rw [map_zipIdx_eq (g := id) fun e he => ?_, List.map_id]
  have hmem := List.fst_mem_of_mem_zipIdx he
  obtain ⟨x, i⟩ := e
  cases x with
  | object ms => exact h ms i hmem
  | _ => exact (hnull _ hmem rfl).symm

theorem EntryFits.eq_null {nulls : Bool} {fits : Entries Value → Prop} {x : Value}
    (h : EntryFits nulls fits x) (hv : x.isObject = false) : x = .null := by
  cases h with
  | null => rfl
  | object => cases hv

/-- Shaping a value that fits completes it. -/
theorem Fits.shaped {nulls bare : Bool} (h : Fits c nulls bare (d.under options) v)
    (base : Path) : (c.shape d options base v).valid = true ∧
      (c.shape d options base v).value = d.completed v := by
  unfold Declaration.completed Catalog.shape
  split
  · next items hk =>
    have hk' : (d.under options).kind = .repeater := hk
    rw [if_neg (by simp [hk])]
    refine ⟨rfl, shapeEntries_same (fun x hx hv => ?_) fun ms i hx => ?_⟩
    · exact ((itemFits_repeater hk' x).mp (h x hx)).eq_null hv
    · have hkeys := entryFits_object.mp ((itemFits_repeater hk' _).mp (h _ hx))
      exact congrArg Value.object (filter_of_keysWithin hkeys)
  · next ms hk =>
    rw [if_neg (by simp [hk])]
    exact ⟨rfl, congrArg Value.object (filter_of_keysWithin (h hk))⟩
  · next items hk =>
    have hk' : (d.under options).kind = .structured := hk
    rw [if_neg (by simp [hk])]
    refine ⟨rfl, shapeEntries_same (fun x hx hv => ?_) fun ms i hx => ?_⟩
    · exact ((itemFits_structured hk' x).mp (h x hx)).eq_null hv
    · obtain ⟨schema, hs, hkeys⟩ :=
        entryFits_object.mp ((itemFits_structured hk' _).mp (h _ hx))
      have hs' : d.variantOf? (.object ms) = some schema := hs
      unfold shapeVariant
      rw [hs']
      exact congrArg Value.object (filter_of_keysWithin hkeys)
  · next items hk =>
    have hk' : (d.under options).kind = .blocks := hk
    rw [if_pos hk]
    rw [allowedBlocks_under d options]
    obtain ⟨hvalid, hvalue⟩ := shapeBlocks_completed base fun x hx =>
      ((itemFits_blocks hk' x).mp (h x hx)).shaped
    exact ⟨hvalid, congrArg Value.list hvalue⟩
  · next w _ _ _ _ _ h4 =>
    refine ⟨rfl, ?_⟩
    split
    · next hk =>
      cases w with
      | list items => exact (h4 items hk rfl).elim
      | _ => rfl
    · rfl

/-- A value that fits and whose blocks lack no fields is complete. -/
theorem Fits.complete {nulls : Bool} (h : Fits c nulls false d v) : d.completed v = v := by
  unfold Declaration.completed
  split
  · next hk =>
    cases v with
    | list items =>
      exact completeList_same fun x hx => ((itemFits_blocks hk x).mp (h x hx)).complete
    | _ => rfl
  · rfl

/-! ### The normal form -/

/-- **Normal forms.**  Bringing a value into shape is invalid exactly when it is a list of blocks
and an entry that names no registered block can be reached from it.  A valid outcome is what is
left of the value, item by item, and stays as it is when it is brought into shape again; when there
is no problem, it is the value itself but for empty fields of blocks that had none. -/
theorem shape_normalizes (hc : c.Registered) (d : Declaration) (options : Options) (base : Path)
    (v : Value) :
    ((c.shape d options base v).valid = false ↔
      d.kind = .blocks ∧ ∃ x ∈ v.items, ∃ ms,
        c.Reaches (options.strings? "allowed-blocks") x (.object ms) ∧ c.blockOf? ms = none) ∧
    ((c.shape d options base v).valid = true →
      c.NormalForm d (options.strings? "allowed-blocks") v (c.shape d options base v).value ∧
      ∀ again, (c.shape d options again (c.shape d options base v).value).valid = true ∧
        (c.shape d options again (c.shape d options base v).value).value =
          (c.shape d options base v).value) ∧
    ((ErrorMap.empty.report (c.shape d options base v).problems).isEmpty = true →
      (c.shape d options base v).valid = true ∧
        (c.shape d options base v).value = d.completed v) := by
  have hreshapes := reshapes_under hc.keyed d options base v
  refine ⟨?_, fun hvalid => ⟨normalForm_shape hvalid, fun again => ?_⟩, fun hempty => ?_⟩
  · rw [← Bool.not_eq_true, shape_valid_iff]
    simp only [Bool.not_eq_true, Option.isSome_eq_false_iff, Option.isNone_iff_eq_none,
      Classical.not_imp, not_forall]
  · have hfits := hreshapes.fits hvalid
    obtain ⟨hagain, hvalue⟩ := hfits.shaped again
    exact ⟨hagain, hvalue.trans hfits.complete⟩
  · obtain ⟨-, hproblems⟩ := (ErrorMap.isEmpty_report _ _).mp hempty
    exact (hreshapes.clean.mp hproblems).shaped base

end Composite

/-! ### Instances -/

def imageBlock : Block where
  name := "image"
  fields := [("label", .ofKind .text)]

/-- A block with a slot for images. -/
def galleryBlock : Block where
  name := "gallery"
  fields := [("title", .ofKind .text)]
  slots := [("default", { allowed := some ["image"] })]

def galleryCatalog : Catalog := ⟨[], [("gallery", galleryBlock), ("image", imageBlock)]⟩

theorem registered_galleries : galleryCatalog.Registered := by
  have himage : Catalog.empty.registerBlock imageBlock = .ok ⟨[], [("image", imageBlock)]⟩ := rfl
  have hgallery : Catalog.registerBlock ⟨[], [("image", imageBlock)]⟩ galleryBlock =
      .ok galleryCatalog := rfl
  exact .block (.block .empty himage) hgallery

/-- A gallery without fields, with an entry of the given name and one that is no block. -/
def gallery (name : String) : Value :=
  .list [.object [("name", .string "gallery"), ("slots", .object [("default",
    .list [.object [("alt", .null), ("name", .string name)], .bool true])])]]

/-- A gallery with the given entries. -/
def shapedGallery (entries : List Value) : Value :=
  .list [.object [("fields", .object []), ("name", .string "gallery"),
    ("slots", .object [("default", .list entries)])]]

/-- What is left of a gallery with an image that has a member too many. -/
def leftGallery : Value :=
  shapedGallery [.object [("fields", .object []), ("name", .string "image")], .null]

/-- An image stays, in its place and without the member that images do not have. -/
theorem shape_normalizes_gallery :
    galleryCatalog.Registered ∧
      (galleryCatalog.shape (.ofKind .blocks) .empty .root (gallery "image")).value =
        leftGallery ∧
      galleryCatalog.NormalForm (.ofKind .blocks) none (gallery "image") leftGallery ∧
      (galleryCatalog.shape (.ofKind .blocks) .empty .root leftGallery).value = leftGallery := by
  have h := shape_normalizes registered_galleries (.ofKind .blocks) .empty .root (gallery "image")
  obtain ⟨hleft, hagain⟩ := h.2.1 rfl
  exact ⟨registered_galleries, rfl, hleft, (hagain .root).2⟩

/-- Galleries take images only. -/
example : (galleryCatalog.shape (.ofKind .blocks) .empty .root (gallery "gallery")).value =
    shapedGallery [.null, .null] := rfl

/-- An unknown block makes the whole value invalid. -/
example : (galleryCatalog.shape (.ofKind .blocks) .empty .root (gallery "video")).valid = false :=
  rfl

end ContentSchema
