import ContentSchema.Proofs.BlockShaping

/-!
# Block trees — the entries that shaping visits

Shaping goes from an entry of known, allowed name into the lists at its declared slots, and from
there to their items.  Its outcome is invalid exactly when an entry of unknown name can be reached
that way (`shapeBlock_valid_iff`), wherever it stands; up to then each container is shaped part by
part, and the equations below hold of values of every type, since what is no container has no
parts.
-/

namespace ContentSchema

/-! ### Validity of containers -/

section Containers

variable {c : Catalog} {allowed : Option (List String)} {base : Path} {block : Block}

theorem shapeBlocks_valid_iff {i : Nat} {items : List Value} :
    (c.shapeBlocks allowed base i items).valid = true ↔
      ∀ e ∈ items.zipIdx i, (c.shapeBlock allowed (base.index e.2) e.1).valid = true := by
  refine ⟨fun h => (shapeBlocks_valid h).2, fun h => ?_⟩
  induction items generalizing i with
  | nil => rw [Catalog.shapeBlocks]
  | cons v vs ih =>
    rw [List.zipIdx_cons, List.forall_mem_cons] at h
    rw [shapeBlocks_cons, if_pos h.1]
    exact ih h.2

theorem shapeSlotList_valid_iff {slots : Entries Value} :
    (c.shapeSlotList block base slots).valid = true ↔
      ∀ e ∈ slots, ∀ slot, Entries.get? e.1 block.slots = some slot →
        (c.shapeSlot slot (base.child e.1) e.2).valid = true := by
  refine ⟨fun h => (shapeSlotList_valid h).2, fun h => ?_⟩
  induction slots with
  | nil => rw [Catalog.shapeSlotList]
  | cons e rest ih =>
    obtain ⟨key, v⟩ := e
    rw [List.forall_mem_cons] at h
    rw [shapeSlotList_cons]
    cases hs : Entries.get? key block.slots with
    | none => exact ih h.2
    | some slot =>
      simp only [if_pos (h.1 slot hs)]
      exact ih h.2

theorem shapeSlot_valid_iff {slot : Slot} {v : Value} :
    (c.shapeSlot slot base v).valid = true ↔
      ∀ e ∈ v.items.zipIdx, (c.shapeBlock slot.allowed (base.index e.2) e.1).valid = true := by
  cases v with
  | list items => exact shapeBlocks_valid_iff
  | _ => exact ⟨fun _ e he => (List.not_mem_nil he).elim, fun _ => rfl⟩

theorem shapeSlotted_valid_iff {v : Value} :
    (c.shapeSlotted block base v).valid = true ↔
      ∀ e ∈ v.members, ∀ slot, Entries.get? e.1 block.slots = some slot →
        (c.shapeSlot slot (base.child e.1) e.2).valid = true := by
  cases v with
  | object slots => exact shapeSlotList_valid_iff
  | _ => exact ⟨fun _ e he => (List.not_mem_nil he).elim, fun _ => rfl⟩

/-- What becomes of the items in a slot as long as their blocks are known. -/
theorem shapeSlot_value {slot : Slot} {v : Value}
    (h : (c.shapeSlot slot base v).valid = true) :
    (c.shapeSlot slot base v).value =
      .list (v.items.zipIdx.map fun e =>
        (c.shapeBlock slot.allowed (base.index e.2) e.1).value) := by
  cases v with
  | list items => exact congrArg Value.list (shapeBlocks_valid h).1
  | _ => rfl

/-- What becomes of an object of slots as long as the blocks in them are known. -/
theorem shapeSlotted_value {v : Value} (h : (c.shapeSlotted block base v).valid = true) :
    (c.shapeSlotted block base v).value =
      .object (v.members.filterMap fun e =>
        (c.slotEntry block base e.1).map fun f => (e.1, f e.2)) := by
  cases v with
  | object slots => exact congrArg Value.object (shapeSlotList_valid h).1
  | _ => rfl

end Containers

/-! ### Slots of an entry -/

/-- `e` is a member of the object of slots in an entry, under the name of the declared `slot`. -/
def Block.HasSlot (block : Block) (ms : Entries Value) (slot : Slot) (e : String × Value) : Prop :=
  ∃ slots, Entries.get? "slots" ms = some (.object slots) ∧ e ∈ slots ∧
    Entries.get? e.1 block.slots = some slot

section Entries

variable {c : Catalog} {allowed : Option (List String)} {base : Path} {block : Block}
  {ms : Entries Value} {slot : Slot} {e : String × Value} {x : Value}

theorem hasSlot_iff : block.HasSlot ms slot e ↔ ∃ v, Entries.get? "slots" ms = some v ∧
    e ∈ v.members ∧ Entries.get? e.1 block.slots = some slot := by
  constructor
  · rintro ⟨slots, hv, he, hs⟩
    exact ⟨_, hv, he, hs⟩
  · rintro ⟨v, hv, he, hs⟩
    cases v with
    | object slots => exact ⟨slots, hv, he, hs⟩
    | _ => cases he

theorem Value.weight_lt_of_item {v : Value} (h : x ∈ v.items) : x.weight < v.weight := by
  cases v with
  | list items => exact Path.weight_lt_of_mem_items h
  | _ => cases h

theorem Block.HasSlot.weight_lt (h : block.HasSlot ms slot e) (hx : x ∈ e.2.items) :
    x.weight < (Value.object ms).weight := by
  obtain ⟨slots, hv, he, -⟩ := h
  have hslots := Path.weight_lt_of_mem_members (Entries.mem_of_get? hv)
  have hlist := Path.weight_lt_of_mem_members (k := e.1) (x := e.2) he
  have hitem := Value.weight_lt_of_item hx
  omega

theorem shapeSlots_valid_iff : (c.shapeSlots block base ms).valid = true ↔
    ∀ slot e, block.HasSlot ms slot e →
      (c.shapeSlot slot (base.child e.1) e.2).valid = true := by
  simp only [shapeSlots_valid, shapeSlotted_valid_iff, hasSlot_iff]
  constructor
  · rintro h slot e ⟨v, hv, he, hs⟩
    exact h v hv e he slot hs
  · intro h v hv e he slot hs
    exact h slot e ⟨v, hv, he, hs⟩

/-- An entry that stays is valid when the items in its slots are. -/
theorem shapeEntry_valid_iff (hb : c.blockOf? ms = some block)
    (htaken : allowed.all (·.contains block.name) = true) :
    (c.shapeBlock allowed base (.object ms)).valid = true ↔
      ∀ slot e, block.HasSlot ms slot e → ∀ x ∈ e.2.items.zipIdx,
        (c.shapeBlock slot.allowed (((base.child "slots").child e.1).index x.2) x.1).valid =
          true := by
  rw [shapeBlock_known hb htaken]
  simp only [shapeSlots_valid_iff, shapeSlot_valid_iff]

theorem shapeBlock_unknown (hb : c.blockOf? ms = none) :
    c.shapeBlock allowed base (.object ms) =
      ⟨.object ms, [(base, Message.invalidBlockName)], false⟩ := by
  rw [Catalog.shapeBlock, hb]

theorem shapeBlock_refused (hb : c.blockOf? ms = some block)
    (hrefused : allowed.all (·.contains block.name) = false) :
    c.shapeBlock allowed base (.object ms) =
      ⟨.null, [(base, Message.blockNotAllowed)], true⟩ := by
  rw [Catalog.shapeBlock, hb]
  simp only [hrefused, Bool.not_false, if_true]

theorem shapeBlock_malformed {v : Value} (h : v.isObject = false) :
    c.shapeBlock allowed base v = .malformed base := by
  cases v with
  | object ms => cases h
  | _ =>
    rw [Catalog.shapeBlock]
    intro ms h
    cases h

end Entries

/-- Induction over block entries as shaping goes through them: an entry is malformed, names no known
block or one that its place does not take, or stays, and then the items in its slots come first. -/
theorem Catalog.blockInduction (c : Catalog) {P : Option (List String) → Value → Prop}
    (malformed : ∀ allowed v, v.isObject = false → P allowed v)
    (unknown : ∀ allowed ms, c.blockOf? ms = none → P allowed (.object ms))
    (refused : ∀ allowed ms block, c.blockOf? ms = some block →
      allowed.all (·.contains block.name) = false → P allowed (.object ms))
    (entry : ∀ allowed ms block, c.blockOf? ms = some block →
      allowed.all (·.contains block.name) = true →
        (∀ slot e, block.HasSlot ms slot e → ∀ x ∈ e.2.items, P slot.allowed x) →
          P allowed (.object ms))
    (allowed : Option (List String)) (v : Value) : P allowed v := by
  induction v using Value.weightInduction generalizing allowed with
  | step v ih =>
    by_cases hv : v.isObject = true
    · obtain ⟨ms, rfl⟩ := Value.isObject_iff.mp hv
      cases hb : c.blockOf? ms with
      | none => exact unknown allowed ms hb
      | some block =>
        by_cases htaken : allowed.all (·.contains block.name) = true
        · refine entry allowed ms block hb htaken fun slot e he x hx => ?_
          exact ih x (he.weight_lt hx) slot.allowed
        · exact refused allowed ms block hb (Bool.not_eq_true _ ▸ htaken)
    · exact malformed allowed v (Bool.not_eq_true _ ▸ hv)

/-! ### Reachable entries -/

/-- `y` is the entry `x`, at a place that takes the blocks `allowed`, or an entry below it: one goes
down through entries whose block is registered and allowed, and into the lists at their slots. -/
inductive Catalog.Reaches (c : Catalog) : Option (List String) → Value → Value → Prop
  | here (allowed : Option (List String)) (x : Value) : Reaches c allowed x x
  | inside {allowed : Option (List String)} {ms : Entries Value} {block : Block} {slot : Slot}
      {e : String × Value} {x y : Value} (known : c.blockOf? ms = some block)
      (taken : allowed.all (·.contains block.name) = true) (declared : block.HasSlot ms slot e)
      (item : x ∈ e.2.items) (rest : Reaches c slot.allowed x y) : Reaches c allowed (.object ms) y

section Reach

variable {c : Catalog} {allowed : Option (List String)} {base : Path}

/-- Shaping an entry is valid exactly when every entry that can be reached from it names a
registered block. -/
theorem shapeBlock_valid_iff (allowed : Option (List String)) (v : Value) (base : Path) :
    (c.shapeBlock allowed base v).valid = true ↔
      ∀ ms, c.Reaches allowed v (.object ms) → (c.blockOf? ms).isSome = true := by
  induction allowed, v using c.blockInduction generalizing base with
  | malformed allowed v hv =>
    rw [shapeBlock_malformed hv]
    refine ⟨fun _ ms hr => ?_, fun _ => rfl⟩
    cases hr <;> cases hv
  | unknown allowed ms hb =>
    rw [shapeBlock_unknown hb]
    refine ⟨nofun, fun h => ?_⟩
    have hknown := h ms (.here allowed _)
    rw [hb] at hknown
    cases hknown
  | refused allowed ms block hb hrefused =>
    rw [shapeBlock_refused hb hrefused]
    refine ⟨fun _ ms' hr => ?_, fun _ => rfl⟩
    cases hr with
    | here => exact Option.isSome_of_eq_some hb
    | inside known taken =>
      rw [hb, Option.some.injEq] at known
      rw [← known, hrefused] at taken
      cases taken
  | entry allowed ms block hb htaken ih =>
    rw [shapeEntry_valid_iff hb htaken]
    constructor
    · intro h ms' hr
      cases hr with
      | here => exact Option.isSome_of_eq_some hb
      | @inside _ _ _ slot e x _ known taken declared item rest =>
        rw [hb, Option.some.injEq] at known
        subst known
        obtain ⟨i, hi⟩ := List.getElem?_of_mem item
        have hx := h slot e declared (x, i) (List.mem_zipIdx_iff_getElem?.mpr hi)
        exact (ih slot e declared x item _).mp hx ms' rest
    · intro h slot e declared x hx
      have item := List.fst_mem_of_mem_zipIdx hx
      refine (ih slot e declared x.1 item _).mpr fun ms' hr => ?_
      exact h ms' (.inside hb htaken declared item hr)

/-- Bringing a value into shape is valid exactly when it is no list of blocks, or every entry that
can be reached from its items names a registered block. -/
theorem shape_valid_iff {d : Declaration} {options : Options} {v : Value} :
    (c.shape d options base v).valid = true ↔
      (d.kind = .blocks → ∀ x ∈ v.items, ∀ ms,
        c.Reaches (options.strings? "allowed-blocks") x (.object ms) →
          (c.blockOf? ms).isSome = true) := by
  unfold Catalog.shape
  split
  · next hk => exact ⟨fun _ h => absurd (hk.symm.trans h) (by decide), fun _ => rfl⟩
  · next hk => exact ⟨fun _ h => absurd (hk.symm.trans h) (by decide), fun _ => rfl⟩
  · next hk => exact ⟨fun _ h => absurd (hk.symm.trans h) (by decide), fun _ => rfl⟩
  · next items hk =>
    show (c.shapeBlocks (options.strings? "allowed-blocks") base 0 items).valid = true ↔ _
    rw [shapeBlocks_valid_iff]
    constructor
    · intro h _ x hx
      obtain ⟨i, hi⟩ := List.getElem?_of_mem hx
      exact (shapeBlock_valid_iff _ x _).mp (h (x, i) (List.mem_zipIdx_iff_getElem?.mpr hi))
    · intro h x hx
      have hitem := List.fst_mem_of_mem_zipIdx hx
      exact (shapeBlock_valid_iff _ x.1 _).mpr (h hk x.1 hitem)
  · next w _ _ _ _ _ h4 =>
    refine ⟨fun _ hk x hx => ?_, fun _ => rfl⟩
    cases w with
    | list items => exact (h4 items hk rfl).elim
    | _ => cases hx

end Reach

end ContentSchema
