import ContentSchema.Proofs.Reshaping

/-!
# Block shaping — blocks inside slots inside blocks

Shaping a block goes down three containers before it meets the next block: the entry, its object of
slots and the list in each slot.  Each of them is described by one equation that holds up to the
first block of unknown name, and is then related to its shape as any object or list is; the
induction over nested blocks is on the weight of the entry.
-/

namespace ContentSchema

/-! ### Lists of blocks -/

section Lists

variable {c : Catalog} {allowed : Option (List String)} {base : Path}

theorem shapeBlocks_cons (i : Nat) (v : Value) (vs : List Value) :
    c.shapeBlocks allowed base i (v :: vs) =
      if (c.shapeBlock allowed (base.index i) v).valid then
        ((c.shapeBlocks allowed base (i + 1) vs).after
          (c.shapeBlock allowed (base.index i) v).problems).map
            ((c.shapeBlock allowed (base.index i) v).value :: ·)
      else ⟨(c.shapeBlock allowed (base.index i) v).value :: vs,
        (c.shapeBlock allowed (base.index i) v).problems, false⟩ := by
  rw [Catalog.shapeBlocks]

/-- While every block has a known name, each entry is shaped on its own. -/
theorem shapeBlocks_valid {i : Nat} {items : List Value}
    (h : (c.shapeBlocks allowed base i items).valid = true) :
    (c.shapeBlocks allowed base i items).value =
        (items.zipIdx i).map (fun e => (c.shapeBlock allowed (base.index e.2) e.1).value) ∧
      ∀ e ∈ items.zipIdx i, (c.shapeBlock allowed (base.index e.2) e.1).valid = true := by
  induction items generalizing i with
  | nil =>
    rw [Catalog.shapeBlocks]
    exact ⟨rfl, fun _ he => (List.not_mem_nil he).elim⟩
  | cons v vs ih =>
    rw [shapeBlocks_cons] at h ⊢
    rw [List.zipIdx_cons, List.map_cons]
    by_cases hv : (c.shapeBlock allowed (base.index i) v).valid = true
    · rw [if_pos hv] at h ⊢
      obtain ⟨hvalue, hall⟩ := ih h
      refine ⟨?_, fun e he => ?_⟩
      · show _ :: (c.shapeBlocks allowed base (i + 1) vs).value = _
        rw [hvalue]
      · rcases List.mem_cons.mp he with rfl | he
        · exact hv
        · exact hall e he
    · rw [if_neg hv] at h
      cases h

/-- The problems of a list of blocks are those of its entries. -/
theorem shapeBlocks_problems {i : Nat} {items : List Value}
    (hv : ∀ e ∈ items.zipIdx i, (c.shapeBlock allowed (base.index e.2) e.1).problems = [] →
      (c.shapeBlock allowed (base.index e.2) e.1).valid = true) :
    ((c.shapeBlocks allowed base i items).problems = [] ↔
        ∀ e ∈ items.zipIdx i, (c.shapeBlock allowed (base.index e.2) e.1).problems = []) ∧
      ((c.shapeBlocks allowed base i items).problems = [] →
        (c.shapeBlocks allowed base i items).valid = true) := by
  induction items generalizing i with
  | nil =>
    rw [Catalog.shapeBlocks]
    exact ⟨⟨fun _ _ he => (List.not_mem_nil he).elim, fun _ => rfl⟩, fun _ => rfl⟩
  | cons v vs ih =>
    rw [List.zipIdx_cons] at hv ⊢
    obtain ⟨hiff, hvalid⟩ := ih fun e he => hv e (List.mem_cons_of_mem _ he)
    rw [shapeBlocks_cons, List.forall_mem_cons]
    by_cases hb : (c.shapeBlock allowed (base.index i) v).valid = true
    · rw [if_pos hb]
      constructor
      · show _ ++ (c.shapeBlocks allowed base (i + 1) vs).problems = [] ↔ _
        rw [List.append_eq_nil_iff, hiff]
      · intro hp
        exact hvalid (List.append_eq_nil_iff.mp hp).2
    · rw [if_neg hb]
      have hne : (c.shapeBlock allowed (base.index i) v).problems ≠ [] := fun hp =>
        hb (hv _ List.mem_cons_self hp)
      exact ⟨⟨fun hp => (hne hp).elim, fun hp => (hne hp.1).elim⟩, fun hp => (hne hp).elim⟩

/-- Shaping a list of blocks, each of which is shaped as it should be. -/
theorem reshapes_blockList {F : Value → List Member} {Fit : Bool → Bool → Value → Prop}
    (hF : ∀ items, F (.list items) = Member.ofItems (c.blockMembers .root) items)
    (hFit : ∀ nulls bare items, Fit nulls bare (.list items) ↔
      ∀ x ∈ items, BlockFits c nulls bare allowed x) {items : List Value}
    (h : ∀ x ∈ items, ∀ base, Reshapes (c.blockMembers .root)
      (fun nulls bare => BlockFits c nulls bare allowed) x (c.shapeBlock allowed base x)) :
    Reshapes F Fit (.list items) ((c.shapeBlocks allowed base 0 items).map .list) := by
  have hentry : ∀ e ∈ items.zipIdx, Reshapes (c.blockMembers .root)
      (fun nulls bare => BlockFits c nulls bare allowed) e.1
      (c.shapeBlock allowed (base.index e.2) e.1) := fun e he =>
    h e.1 (List.fst_mem_of_mem_zipIdx he) _
  obtain ⟨hproblems, hvalid⟩ := shapeBlocks_problems fun e he => (hentry e he).valid
  refine Reshapes.list hF hFit hentry (fun hs => ?_) hproblems hvalid
  obtain ⟨hvalue, hall⟩ := shapeBlocks_valid hs
  exact ⟨congrArg Value.list hvalue, hall⟩

end Lists

/-! ### Slots -/

/-- What becomes of the entries in one slot. -/
def Catalog.shapeSlot (c : Catalog) (slot : Slot) (base : Path) (v : Value) : Shaped Value :=
  match v with
  | .list items => (c.shapeBlocks slot.allowed base 0 items).map .list
  | _ => ⟨.list [], [(base, Message.invalidInputType)], true⟩

/-- The members of the entries in a list of blocks. -/
def Catalog.listedMembers (c : Catalog) (v : Value) : List Member :=
  Member.ofItems (c.blockMembers .root) v.items

/-- A list of blocks that fit. -/
def BlocksFit (c : Catalog) (allowed : Option (List String)) (nulls bare : Bool) (v : Value) :
    Prop :=
  ∃ items, v = .list items ∧ ∀ x ∈ items, BlockFits c nulls bare allowed x

theorem blocksFit_list {c : Catalog} {allowed : Option (List String)} {nulls bare : Bool}
    {items : List Value} : BlocksFit c allowed nulls bare (.list items) ↔
      ∀ x ∈ items, BlockFits c nulls bare allowed x :=
  ⟨fun ⟨_, h, hx⟩ => Value.list.inj h ▸ hx, fun h => ⟨_, rfl, h⟩⟩

/-- Every entry of blocks lighter than a value is shaped as it should be. -/
def ShapesBelow (c : Catalog) (n : Nat) : Prop :=
  ∀ x : Value, x.weight < n → ∀ allowed base, Reshapes (c.blockMembers .root)
    (fun nulls bare => BlockFits c nulls bare allowed) x (c.shapeBlock allowed base x)

theorem reshapes_slot {c : Catalog} {v : Value} (h : ShapesBelow c v.weight) (slot : Slot)
    (base : Path) :
    Reshapes c.listedMembers (BlocksFit c slot.allowed) v (c.shapeSlot slot base v) := by
  unfold Catalog.shapeSlot
  split
  · next items =>
    refine reshapes_blockList (fun _ => rfl) (fun _ _ _ => blocksFit_list) fun x hx base => ?_
    exact h x (Path.weight_lt_of_mem_items hx) _ _
  · next hv =>
    have hno : ∀ {nulls bare}, ¬ BlocksFit c slot.allowed nulls bare v := by
      rintro nulls bare ⟨items, rfl, -⟩
      exact hv items rfl
    refine ⟨fun _ => ⟨[], rfl, fun _ hx => (List.not_mem_nil hx).elim⟩, ?_,
      ⟨nofun, fun h => (hno h).elim⟩, nofun, nofun, nofun, nofun, fun h => (hno h).elim,
      fun h => (hno h).elim⟩
    intro _ m hm
    cases hm

/-- What becomes of one entry of the object of slots; an undeclared one goes. -/
def Catalog.slotEntry (c : Catalog) (block : Block) (base : Path) (key : String) :
    Option (Value → Value) :=
  (Entries.get? key block.slots).map fun slot v => (c.shapeSlot slot (base.child key) v).value

section Slots

variable {c : Catalog} {block : Block} {base : Path}

theorem shapeSlotList_cons (key : String) (v : Value) (rest : Entries Value) :
    c.shapeSlotList block base ((key, v) :: rest) =
      match Entries.get? key block.slots with
      | none => c.shapeSlotList block base rest
      | some slot =>
        if (c.shapeSlot slot (base.child key) v).valid then
          ((c.shapeSlotList block base rest).after
            (c.shapeSlot slot (base.child key) v).problems).map
              ((key, (c.shapeSlot slot (base.child key) v).value) :: ·)
        else ⟨(key, (c.shapeSlot slot (base.child key) v).value) ::
          (prune base (Entries.contains · block.slots) rest).1,
          (c.shapeSlot slot (base.child key) v).problems, false⟩ := by
  rw [Catalog.shapeSlotList]
  cases Entries.get? key block.slots with
  | none => rfl
  | some slot => cases v <;> rfl

theorem shapeSlotList_valid {slots : Entries Value}
    (h : (c.shapeSlotList block base slots).valid = true) :
    (c.shapeSlotList block base slots).value =
        slots.filterMap (fun e => (c.slotEntry block base e.1).map fun f => (e.1, f e.2)) ∧
      ∀ e ∈ slots, ∀ slot, Entries.get? e.1 block.slots = some slot →
        (c.shapeSlot slot (base.child e.1) e.2).valid = true := by
  induction slots with
  | nil =>
    rw [Catalog.shapeSlotList]
    exact ⟨rfl, fun _ he => (List.not_mem_nil he).elim⟩
  | cons e rest ih =>
    obtain ⟨key, v⟩ := e
    rw [shapeSlotList_cons] at h ⊢
    rw [List.filterMap_cons]
    unfold Catalog.slotEntry
    cases hs : Entries.get? key block.slots with
    | none =>
      simp only [hs] at h ⊢
      obtain ⟨hvalue, hall⟩ := ih h
      refine ⟨hvalue, fun e he slot hslot => ?_⟩
      rcases List.mem_cons.mp he with rfl | he
      · rw [hs] at hslot
        cases hslot
      · exact hall e he slot hslot
    | some s =>
      simp only [hs] at h ⊢
      by_cases hv : (c.shapeSlot s (base.child key) v).valid = true
      · rw [if_pos hv] at h ⊢
        obtain ⟨hvalue, hall⟩ := ih h
        refine ⟨?_, fun e he slot hslot => ?_⟩
        · show _ :: (c.shapeSlotList block base rest).value = _
          rw [hvalue]
          rfl
        · rcases List.mem_cons.mp he with rfl | he
          · rw [hs, Option.some.injEq] at hslot
            rw [← hslot]
            exact hv
          · exact hall e he slot hslot
      · rw [if_neg hv] at h
        cases h

section Valid

variable {slots : Entries Value} (hv : (c.shapeSlotList block base slots).valid = true)

include hv

theorem get?_shapeSlotList (slot : String) :
    Entries.get? slot (c.shapeSlotList block base slots).value =
      (Entries.get? slot slots).bind fun v =>
        (c.slotEntry block base slot).map fun f => f v := by
  rw [(shapeSlotList_valid hv).1]
  exact Entries.get?_filterMap (c.slotEntry block base) _ slots

theorem get?_shapeSlotList_of_slot {slot : String} {s : Slot} {w : Value}
    (hs : Entries.get? slot block.slots = some s) (hw : Entries.get? slot slots = some w) :
    Entries.get? slot (c.shapeSlotList block base slots).value =
      some (c.shapeSlot s (base.child slot) w).value := by
  rw [get?_shapeSlotList hv, hw]
  unfold Catalog.slotEntry
  rw [hs]
  rfl

theorem get?_of_shapeSlotList {slot : String} {y : Value}
    (hy : Entries.get? slot (c.shapeSlotList block base slots).value = some y) :
    ∃ w, Entries.get? slot slots = some w := by
  rw [get?_shapeSlotList hv] at hy
  obtain ⟨w, hw, -⟩ := Option.bind_eq_some_iff.mp hy
  exact ⟨w, hw⟩

/-- An entry of the outcome is what became of an entry in a declared slot. -/
theorem mem_shapeSlotList {e : String × Value}
    (he : e ∈ (c.shapeSlotList block base slots).value) :
    ∃ w slot, (e.1, w) ∈ slots ∧ Entries.get? e.1 block.slots = some slot ∧
      e.2 = (c.shapeSlot slot (base.child e.1) w).value := by
  rw [(shapeSlotList_valid hv).1] at he
  obtain ⟨e', he', hfe⟩ := List.mem_filterMap.mp he
  unfold Catalog.slotEntry at hfe
  rw [Option.map_map] at hfe
  obtain ⟨slot, hs, rfl⟩ := Option.map_eq_some_iff.mp hfe
  exact ⟨e'.2, slot, he', hs, rfl⟩

end Valid

theorem shapeSlotList_problems {slots : Entries Value}
    (hv : ∀ e ∈ slots, ∀ slot, Entries.get? e.1 block.slots = some slot →
      (c.shapeSlot slot (base.child e.1) e.2).problems = [] →
        (c.shapeSlot slot (base.child e.1) e.2).valid = true) :
    ((c.shapeSlotList block base slots).problems = [] ↔
        ∀ e ∈ slots, ∀ slot, Entries.get? e.1 block.slots = some slot →
          (c.shapeSlot slot (base.child e.1) e.2).problems = []) ∧
      ((c.shapeSlotList block base slots).problems = [] →
        (c.shapeSlotList block base slots).valid = true) := by
  induction slots with
  | nil =>
    rw [Catalog.shapeSlotList]
    exact ⟨⟨fun _ _ he => (List.not_mem_nil he).elim, fun _ => rfl⟩, fun _ => rfl⟩
  | cons e rest ih =>
    obtain ⟨key, v⟩ := e
    obtain ⟨hiff, hvalid⟩ := ih fun e he => hv e (List.mem_cons_of_mem _ he)
    rw [shapeSlotList_cons, List.forall_mem_cons]
    cases hs : Entries.get? key block.slots with
    | none =>
      simp only
      refine ⟨?_, hvalid⟩
      rw [hiff]
      exact ⟨fun h => ⟨nofun, h⟩, fun h => h.2⟩
    | some s =>
      simp only [Option.some.injEq, forall_eq']
      by_cases hb : (c.shapeSlot s (base.child key) v).valid = true
      · rw [if_pos hb]
        constructor
        · show _ ++ (c.shapeSlotList block base rest).problems = [] ↔ _
          rw [List.append_eq_nil_iff, hiff]
        · intro hp
          exact hvalid (List.append_eq_nil_iff.mp hp).2
      · rw [if_neg hb]
        have hne : (c.shapeSlot s (base.child key) v).problems ≠ [] := fun hp =>
          hb (hv _ List.mem_cons_self s hs hp)
        exact ⟨⟨fun hp => (hne hp).elim, fun hp => (hne hp.1).elim⟩, fun hp => (hne hp).elim⟩

end Slots

/-! ### The object of slots -/

/-- What becomes of the slots of a block entry. -/
def Catalog.shapeSlotted (c : Catalog) (block : Block) (base : Path) (v : Value) : Shaped Value :=
  match v with
  | .object slots =>
    ((c.shapeSlotList block base slots).after
      (prune base (Entries.contains · block.slots) slots).2).map .object
  | _ => ⟨.object [], [(base, Message.invalidInputType)], true⟩

theorem shapeSlotted_problems {c : Catalog} {block : Block} {base : Path}
    {slots : Entries Value} :
    (c.shapeSlotted block base (.object slots)).problems = [] ↔
      KeysWithin (Entries.contains · block.slots) slots ∧
        (c.shapeSlotList block base slots).problems = [] := by
  show _ ++ (c.shapeSlotList block base slots).problems = [] ↔ _
  rw [List.append_eq_nil_iff, prune_problems]

/-- The members of the entries in the slots of a block. -/
def Catalog.slottedMembers (c : Catalog) (block : Block) (v : Value) : List Member :=
  block.slots.keys.flatMap fun slot =>
    (c.listedMembers ((v.get? slot).getD .null)).map (Member.below (Path.root.child slot))

/-- Declared slots with lists of blocks that fit. -/
def SlottedFit (c : Catalog) (block : Block) (nulls bare : Bool) (v : Value) : Prop :=
  ∃ ms, v = .object ms ∧ ∀ e ∈ ms, ∃ slot, Entries.get? e.1 block.slots = some slot ∧
    BlocksFit c slot.allowed nulls bare e.2

theorem slottedFit_object {c : Catalog} {block : Block} {nulls bare : Bool} {ms : Entries Value} :
    SlottedFit c block nulls bare (.object ms) ↔ ∀ e ∈ ms, ∃ slot,
      Entries.get? e.1 block.slots = some slot ∧ BlocksFit c slot.allowed nulls bare e.2 :=
  ⟨fun ⟨_, h, hx⟩ => Value.object.inj h ▸ hx, fun h => ⟨_, rfl, h⟩⟩

theorem mem_slottedMembers {c : Catalog} {block : Block} {v : Value} {m : Member}
    (h : m ∈ c.slottedMembers block v) :
    ∃ slot s w n, Entries.get? slot block.slots = some s ∧ v.get? slot = some w ∧
      n ∈ c.listedMembers w ∧ m = n.below (Path.root.child slot) := by
  obtain ⟨slot, hslot, h⟩ := List.mem_flatMap.mp h
  obtain ⟨n, hn, rfl⟩ := List.mem_map.mp h
  obtain ⟨s, hs⟩ := Entries.contains_iff.mp (Entries.contains_iff_mem_keys.mpr hslot)
  cases hw : v.get? slot with
  | none =>
    rw [hw] at hn
    cases hn
  | some w =>
    rw [hw] at hn
    exact ⟨slot, s, w, n, hs, hw, hn, rfl⟩

theorem lookup_key (ms : Entries Value) (key : String) (q : Path) :
    (Path.root.child key ++ q).lookup (.object ms) = (Entries.get? key ms).bind q.lookup := by
  rw [Path.lookup_append, Path.lookup_child_root, Path.descend_object]

/-- What stands in each entry of an object of slots is shaped as a list of blocks should be. -/
def SlotsReshape (c : Catalog) (base : Path) (slots : Entries Value) : Prop :=
  ∀ e ∈ slots, ∀ slot : Slot, Reshapes c.listedMembers (BlocksFit c slot.allowed) e.2
    (c.shapeSlot slot (base.child e.1) e.2)

namespace SlotsReshape

variable {c : Catalog} {block : Block} {base : Path} {slots : Entries Value}

theorem of_below (h : ShapesBelow c (Value.object slots).weight) : SlotsReshape c base slots :=
  fun e he slot => reshapes_slot (fun x hx => h x (by
    have := Path.weight_lt_of_mem_members (k := e.1) (x := e.2) he
    omega)) slot _

theorem problems (h : SlotsReshape c base slots) :
    (c.shapeSlotList block base slots).problems = [] ↔
      ∀ e ∈ slots, ∀ slot, Entries.get? e.1 block.slots = some slot →
        (c.shapeSlot slot (base.child e.1) e.2).problems = [] :=
  (shapeSlotList_problems fun e he slot _ => (h e he slot).valid).1

theorem valid (h : SlotsReshape c base slots)
    (hp : (c.shapeSlotList block base slots).problems = []) :
    (c.shapeSlotList block base slots).valid = true :=
  (shapeSlotList_problems fun e he slot _ => (h e he slot).valid).2 hp

theorem fits (h : SlotsReshape c base slots)
    (hv : (c.shapeSlotList block base slots).valid = true) :
    SlottedFit c block true false (.object (c.shapeSlotList block base slots).value) := by
  refine slottedFit_object.mpr fun e he => ?_
  obtain ⟨w, slot, hw, hs, hew⟩ := mem_shapeSlotList hv he
  refine ⟨slot, hs, ?_⟩
  rw [hew]
  exact (h _ hw slot).fits ((shapeSlotList_valid hv).2 _ hw slot hs)

theorem strict (h : SlotsReshape c base slots)
    (hp : (c.shapeSlotList block base slots).problems = []) :
    SlottedFit c block false false (.object (c.shapeSlotList block base slots).value) := by
  refine slottedFit_object.mpr fun e he => ?_
  obtain ⟨w, slot, hw, hs, hew⟩ := mem_shapeSlotList (h.valid hp) he
  refine ⟨slot, hs, ?_⟩
  rw [hew]
  exact (h _ hw slot).strict (h.problems.mp hp _ hw slot hs)

theorem kept (h : SlotsReshape c base slots)
    (hv : (c.shapeSlotList block base slots).valid = true) {m : Member}
    (hm : m ∈ c.slottedMembers block (.object (c.shapeSlotList block base slots).value))
    {u : Value}
    (hu : m.relative.lookup (.object (c.shapeSlotList block base slots).value) = some u) :
    m.relative.lookup (.object slots) = some u := by
  obtain ⟨slot, s, y, n, hs, hy, hn, rfl⟩ := mem_slottedMembers hm
  change Entries.get? slot (c.shapeSlotList block base slots).value = some y at hy
  obtain ⟨w, hw⟩ := get?_of_shapeSlotList hv hy
  rw [get?_shapeSlotList_of_slot hv hs hw, Option.some.injEq] at hy
  have hwm := Entries.mem_of_get? hw
  rw [Member.below_relative, lookup_key, get?_shapeSlotList_of_slot hv hs hw,
    Option.bind_some] at hu
  rw [Member.below_relative, lookup_key, hw, Option.bind_some]
  exact (h _ hwm s).kept ((shapeSlotList_valid hv).2 _ hwm s hs) n (hy ▸ hn) u hu

theorem members (h : SlotsReshape c base slots)
    (hp : (c.shapeSlotList block base slots).problems = []) :
    c.slottedMembers block (.object (c.shapeSlotList block base slots).value) =
      c.slottedMembers block (.object slots) := by
  have hv := h.valid hp
  refine List.flatMap_congr fun slot hslot => ?_
  obtain ⟨s, hs⟩ := Entries.contains_iff.mp (Entries.contains_iff_mem_keys.mpr hslot)
  congr 1
  show c.listedMembers
      ((Entries.get? slot (c.shapeSlotList block base slots).value).getD .null) =
    c.listedMembers ((Entries.get? slot slots).getD .null)
  cases hw : Entries.get? slot slots with
  | none => rw [get?_shapeSlotList hv, hw]; rfl
  | some w =>
    have hwm := Entries.mem_of_get? hw
    rw [get?_shapeSlotList_of_slot hv hs hw]
    exact (h _ hwm s).members (h.problems.mp hp _ hwm s hs)

theorem lookups (h : SlotsReshape c base slots)
    (hp : (c.shapeSlotList block base slots).problems = []) {m : Member}
    (hm : m ∈ c.slottedMembers block (.object slots)) :
    m.relative.lookup (.object (c.shapeSlotList block base slots).value) =
      m.relative.lookup (.object slots) := by
  obtain ⟨slot, s, w, n, hs, hw, hn, rfl⟩ := mem_slottedMembers hm
  change Entries.get? slot slots = some w at hw
  have hwm := Entries.mem_of_get? hw
  rw [Member.below_relative, lookup_key, get?_shapeSlotList_of_slot (h.valid hp) hs hw,
    lookup_key, hw]
  exact (h _ hwm s).lookups (h.problems.mp hp _ hwm s hs) n hn

theorem loosen (h : SlotsReshape c base slots)
    (hfit : SlottedFit c block false false (.object slots)) :
    SlottedFit c block false true (.object slots) := by
  rw [slottedFit_object] at hfit ⊢
  intro e he
  obtain ⟨slot, hs, hb⟩ := hfit e he
  exact ⟨slot, hs, (h e he slot).loosen hb⟩

/-- There is no problem exactly where every slot is declared and its blocks fit. -/
theorem clean (h : SlotsReshape c base slots) :
    (c.shapeSlotted block base (.object slots)).problems = [] ↔
      SlottedFit c block false true (.object slots) := by
  rw [shapeSlotted_problems, h.problems, slottedFit_object]
  constructor
  · rintro ⟨hkeys, hp⟩ e he
    obtain ⟨slot, hs⟩ := Entries.contains_iff.mp (hkeys e he)
    exact ⟨slot, hs, (h e he slot).clean.mp (hp e he slot hs)⟩
  · intro hfit
    refine ⟨fun e he => ?_, fun e he slot hs => ?_⟩
    · obtain ⟨slot, hs, -⟩ := hfit e he
      exact Entries.contains_iff.mpr ⟨slot, hs⟩
    · obtain ⟨slot', hs', hb⟩ := hfit e he
      rw [hs, Option.some.injEq] at hs'
      exact (h e he slot).clean.mpr (hs' ▸ hb)

theorem same (h : SlotsReshape c base slots)
    (hfit : SlottedFit c block false false (.object slots)) :
    (c.shapeSlotList block base slots).value = slots := by
  have hp := (shapeSlotted_problems.mp (h.clean.mpr (h.loosen hfit))).2
  rw [(shapeSlotList_valid (h.valid hp)).1]
  rw [slottedFit_object] at hfit
  conv_rhs => rw [← List.filterMap_some (l := slots)]
  refine List.filterMap_congr fun e he => ?_
  obtain ⟨slot, hs, hb⟩ := hfit e he
  unfold Catalog.slotEntry
  rw [hs]
  show some (e.1, (c.shapeSlot slot (base.child e.1) e.2).value) = some e
  rw [(h e he slot).same hb]

end SlotsReshape

theorem reshapes_slotted {c : Catalog} {block : Block} {v : Value} (h : ShapesBelow c v.weight)
    (base : Path) :
    Reshapes (c.slottedMembers block) (SlottedFit c block) v (c.shapeSlotted block base v) := by
  cases v with
  | object slots =>
    have hs : SlotsReshape c base slots := .of_below h
    exact {
      fits := hs.fits
      kept := fun hv _ hm _ => hs.kept hv hm
      clean := hs.clean
      valid := fun hp => hs.valid (shapeSlotted_problems.mp hp).2
      strict := fun hp => hs.strict (shapeSlotted_problems.mp hp).2
      members := fun hp => hs.members (shapeSlotted_problems.mp hp).2
      lookups := fun hp _ => hs.lookups (shapeSlotted_problems.mp hp).2
      loosen := hs.loosen
      same := fun hfit => congrArg Value.object (hs.same hfit) }
  | _ =>
    have hno : ∀ {nulls bare v}, v.isObject = false → ¬ SlottedFit c block nulls bare v := by
      rintro nulls bare v hv ⟨ms, rfl, -⟩
      cases hv
    refine ⟨fun _ => ⟨[], rfl, fun _ hx => (List.not_mem_nil hx).elim⟩, fun _ m hm => ?_,
      ⟨nofun, fun h => (hno rfl h).elim⟩, nofun, nofun, nofun, nofun, fun h => (hno rfl h).elim,
      fun h => (hno rfl h).elim⟩
    obtain ⟨slot, s, w, n, -, hw, -⟩ := mem_slottedMembers hm
    cases hw

/-! ### Block entries -/

/-- Every block is registered under its own name. -/
def Catalog.Keyed (c : Catalog) : Prop :=
  ∀ name block, c.block? name = some block → block.name = name

theorem Catalog.Keyed.blockOf? {c : Catalog} (hc : c.Keyed) {ms : Entries Value} {block : Block}
    (h : c.blockOf? ms = some block) :
    Entries.get? "name" ms = some (.string block.name) ∧ c.block? block.name = some block := by
  unfold Catalog.blockOf? at h
  obtain ⟨v, hv, h⟩ := Option.bind_eq_some_iff.mp h
  obtain ⟨name, hname, h⟩ := Option.bind_eq_some_iff.mp h
  have hb : block.name = name := hc name block h
  cases v with
  | string t =>
    cases hname
    rw [hb]
    exact ⟨hv, h⟩
  | _ => cases hname

section Entry

variable {c : Catalog} {block : Block} {base : Path} {allowed : Option (List String)}
  {ms : Entries Value}

theorem shapeSlots_eq (c : Catalog) (block : Block) (base : Path) (ms : Entries Value) :
    c.shapeSlots block base ms =
      match Entries.get? "slots" ms with
      | none => ⟨ms.filter fun m => Catalog.blockKeys.contains m.1, [], true⟩
      | some v => (c.shapeSlotted block base v).map fun w =>
        Entries.update "slots" (fun _ => w)
          (ms.filter fun m => Catalog.blockKeys.contains m.1) := by
  induction ms with
  | nil => rw [Catalog.shapeSlots]; rfl
  | cons e rest ih =>
    obtain ⟨key, v⟩ := e
    have hv : c.shapeSlots block base ((key, v) :: rest) =
        if key = "slots" then
          (c.shapeSlotted block base v).map fun w =>
            (key, w) :: rest.filter fun m => Catalog.blockKeys.contains m.1
        else (c.shapeSlots block base rest).map fun kept =>
          if Catalog.blockKeys.contains key then (key, v) :: kept else kept := by
      cases v with
      | object slots => rw [Catalog.shapeSlots]; rfl
      | _ => rw [Catalog.shapeSlots] <;> first | rfl | (intro slots h; cases h)
    rw [hv, Entries.get?_cons]
    by_cases hk : key = "slots"
    · rw [if_pos hk, if_pos hk, hk]
      rfl
    · rw [if_neg hk, if_neg hk, ih, List.filter_cons]
      cases Entries.get? "slots" rest with
      | none => rfl
      | some w =>
        by_cases hb : Catalog.blockKeys.contains key = true
        · simp only [hb, if_true, Shaped.map, Entries.update, if_neg hk]
        · simp only [hb, Shaped.map, Bool.false_eq_true, if_false]

theorem shapeSlots_keys :
    KeysWithin Catalog.blockKeys.contains (c.shapeSlots block base ms).value := by
  have hk := keysWithin_filter Catalog.blockKeys.contains ms
  rw [shapeSlots_eq]
  split
  · exact hk
  · intro e he
    rcases Entries.mem_update he with rfl | he
    · rfl
    · exact hk e he

theorem get?_shapeSlots {key : String} (hs : key ≠ "slots")
    (hk : Catalog.blockKeys.contains key = true) :
    Entries.get? key (c.shapeSlots block base ms).value = Entries.get? key ms := by
  rw [shapeSlots_eq]
  split
  · rw [Entries.get?_filter Catalog.blockKeys.contains, if_pos hk]
  · show Entries.get? key (Entries.update "slots" _ _) = _
    rw [Entries.get?_update_of_ne (Ne.symm hs), Entries.get?_filter Catalog.blockKeys.contains,
      if_pos hk]

theorem get?_shapeSlots_slots : Entries.get? "slots" (c.shapeSlots block base ms).value =
    (Entries.get? "slots" ms).map fun v => (c.shapeSlotted block base v).value := by
  rw [shapeSlots_eq]
  split
  · next h =>
    rw [Entries.get?_filter Catalog.blockKeys.contains, h]
    rfl
  · next v h =>
    show Entries.get? "slots" (Entries.update "slots" _ _) = _
    rw [Entries.get?_update_self, Entries.get?_filter Catalog.blockKeys.contains,
      if_pos (by decide), h]
    rfl

theorem shapeSlots_problems : (c.shapeSlots block base ms).problems = [] ↔
    ∀ v, Entries.get? "slots" ms = some v → (c.shapeSlotted block base v).problems = [] := by
  rw [shapeSlots_eq]
  cases Entries.get? "slots" ms with
  | none => exact ⟨fun _ => nofun, fun _ => rfl⟩
  | some v => exact ⟨fun hp w hw => Option.some.inj hw ▸ hp, fun hp => hp v rfl⟩

theorem shapeSlots_valid : (c.shapeSlots block base ms).valid = true ↔
    ∀ v, Entries.get? "slots" ms = some v → (c.shapeSlotted block base v).valid = true := by
  rw [shapeSlots_eq]
  cases Entries.get? "slots" ms with
  | none => exact ⟨fun _ => nofun, fun _ => rfl⟩
  | some v => exact ⟨fun hp w hw => Option.some.inj hw ▸ hp, fun hp => hp v rfl⟩

theorem shapeSlots_same (hk : KeysWithin Catalog.blockKeys.contains ms)
    (hs : ∀ v, Entries.get? "slots" ms = some v → (c.shapeSlotted block base v).value = v) :
    (c.shapeSlots block base ms).value = ms := by
  rw [shapeSlots_eq]
  split
  · exact filter_of_keysWithin hk
  · next v h =>
    show Entries.update "slots" (fun _ => (c.shapeSlotted block base v).value) _ = ms
    rw [filter_of_keysWithin hk, hs v h, Entries.update_of_get? h]

/-- The fields of a shaped block are an object with the declared fields there were. -/
theorem shapeFields_value (block : Block) (base : Path) (fields : Option Value) :
    ∃ fs, (Catalog.shapeFields block base fields).1 = .object fs ∧
      KeysWithin (Entries.contains · block.fields) fs ∧
        ∀ name, Entries.contains name block.fields = true →
          Entries.get? name fs = fields.bind (Value.get? name) := by
  unfold Catalog.shapeFields
  split
  · exact ⟨[], rfl, fun _ he => (List.not_mem_nil he).elim, fun _ _ => rfl⟩
  · next ms =>
    refine ⟨_, rfl, keysWithin_filter (Entries.contains · block.fields) ms, fun name hname => ?_⟩
    exact (Entries.get?_filter (Entries.contains · block.fields) name ms).trans (if_pos hname)
  · next v hv =>
    refine ⟨[], rfl, fun _ he => (List.not_mem_nil he).elim, fun _ _ => ?_⟩
    cases v with
    | object ms => exact (hv ms rfl).elim
    | _ => rfl

theorem shapeFields_problems (block : Block) (base : Path) (fields : Option Value) :
    (Catalog.shapeFields block base fields).2 = [] ↔ FieldsFit true block fields := by
  unfold Catalog.shapeFields
  split
  · exact ⟨fun _ => .inl ⟨rfl, rfl⟩, fun _ => rfl⟩
  · next ms =>
    show (prune base (Entries.contains · block.fields) ms).2 = [] ↔ _
    rw [prune_problems]
    constructor
    · exact fun h => .inr ⟨ms, rfl, h⟩
    · rintro (⟨h, -⟩ | ⟨ms', h, hk⟩)
      · cases h
      · cases h
        exact hk
  · next v hv =>
    refine ⟨nofun, ?_⟩
    rintro (⟨h, -⟩ | ⟨ms', h, -⟩)
    · cases h
    · exact (hv ms' (Option.some.inj h)).elim

theorem shapeFields_same {fields : Option Value} (h : FieldsFit false block fields) :
    fields = some (Catalog.shapeFields block base fields).1 := by
  rcases h with ⟨-, h⟩ | ⟨ms, rfl, hk⟩
  · cases h
  · show _ = some (Value.object (ms.filter fun m => Entries.contains m.1 block.fields))
    rw [@filter_of_keysWithin (Entries.contains · block.fields) ms hk]

theorem blockMembers_slotted (hb : c.blockOf? ms = some block) :
    c.blockMembers .root (.object ms) =
      (Member.ofSchema .root block.fields).map (Member.below (Path.root.child "fields")) ++
        match Entries.get? "slots" ms with
        | none => []
        | some v => (c.slottedMembers block v).map (Member.below (Path.root.child "slots")) := by
  rw [Catalog.blockMembers_object c hb]
  congr 1
  unfold Catalog.slotItems
  cases Entries.get? "slots" ms with
  | none => exact List.flatMap_eq_nil_iff.mpr fun _ _ => rfl
  | some v =>
    simp only [Catalog.slottedMembers, List.map_flatMap]
    refine List.flatMap_congr fun slot _ => ?_
    rw [List.map_map, Member.below_comp]
    rfl

/-- The fit of an entry that names a known block in its place. -/
theorem blockFits_object {nulls bare : Bool}
    (hname : Entries.get? "name" ms = some (.string block.name))
    (hknown : c.block? block.name = some block)
    (htaken : allowed.all (·.contains block.name) = true) :
    BlockFits c nulls bare allowed (.object ms) ↔
      KeysWithin Catalog.blockKeys.contains ms ∧
        FieldsFit bare block (Entries.get? "fields" ms) ∧
          ∀ v, Entries.get? "slots" ms = some v → SlottedFit c block nulls bare v := by
  constructor
  · intro h
    cases h with
    | @block _ _ block' name known taken keys fields slots inner =>
      have hb : block' = block := by
        rw [hname] at name
        have he : block.name = block'.name := Value.string.inj (Option.some.inj name)
        rw [← he, hknown] at known
        exact (Option.some.inj known).symm
      subst hb
      refine ⟨keys, fields, fun v hv => ?_⟩
      obtain ⟨es, rfl, hes⟩ := slots v hv
      refine slottedFit_object.mpr fun e he => ?_
      obtain ⟨hdecl, items, hitems⟩ := hes e he
      obtain ⟨slot, hslot⟩ := Entries.contains_iff.mp hdecl
      refine ⟨slot, hslot, items, hitems, fun x hx => ?_⟩
      exact inner _ hv e he slot hslot x (by rw [hitems]; exact hx)
  · rintro ⟨keys, fields, hslots⟩
    refine .block hname hknown htaken keys fields (fun v hv => ?_)
      fun v hv e he slot hslot x hx => ?_
    · obtain ⟨es, rfl, hes⟩ := hslots v hv
      refine ⟨es, rfl, fun e he => ?_⟩
      obtain ⟨slot, hslot, items, hitems, -⟩ := hes e he
      exact ⟨Entries.contains_iff.mpr ⟨slot, hslot⟩, items, hitems⟩
    · obtain ⟨es, rfl, hes⟩ := hslots v hv
      obtain ⟨slot', hslot', items, hitems, hfit⟩ := hes e he
      rw [hslot, Option.some.injEq] at hslot'
      subst hslot'
      rw [hitems] at hx
      exact hfit x hx

/-- The members of a block entry after shaping. -/
def Catalog.shapedEntry (c : Catalog) (block : Block) (base : Path) (ms : Entries Value) :
    Entries Value :=
  Entries.insert "fields"
    (shapeFields block (base.child "fields") (Entries.get? "fields" ms)).1
    (c.shapeSlots block (base.child "slots") ms).value

/-- The outcome for an entry that names a known block in its place. -/
theorem shapeBlock_known (hb : c.blockOf? ms = some block)
    (htaken : allowed.all (·.contains block.name) = true) (base : Path) :
    c.shapeBlock allowed base (.object ms) =
      ⟨.object (c.shapedEntry block base ms),
        (prune base Catalog.blockKeys.contains ms).2 ++
          (Catalog.shapeFields block (base.child "fields") (Entries.get? "fields" ms)).2 ++
            (c.shapeSlots block (base.child "slots") ms).problems,
        (c.shapeSlots block (base.child "slots") ms).valid⟩ := by
  rw [Catalog.shapeBlock, hb]
  simp only [htaken, Bool.not_true, Bool.false_eq_true, if_false]
  rfl

theorem get?_shapedEntry_name :
    Entries.get? "name" (c.shapedEntry block base ms) = Entries.get? "name" ms := by
  unfold Catalog.shapedEntry
  rw [Entries.get?_insert_of_ne (by decide), get?_shapeSlots (by decide) (by decide)]

theorem get?_shapedEntry_slots : Entries.get? "slots" (c.shapedEntry block base ms) =
    (Entries.get? "slots" ms).map fun v =>
      (c.shapeSlotted block (base.child "slots") v).value := by
  unfold Catalog.shapedEntry
  rw [Entries.get?_insert_of_ne (by decide), get?_shapeSlots_slots]

theorem shapedEntry_keys : KeysWithin Catalog.blockKeys.contains (c.shapedEntry block base ms) :=
  shapeSlots_keys.insert (by decide) _

theorem shapedEntry_fields :
    FieldsFit false block (Entries.get? "fields" (c.shapedEntry block base ms)) := by
  obtain ⟨fs, hfs, hkeys, -⟩ :=
    shapeFields_value block (base.child "fields") (Entries.get? "fields" ms)
  unfold Catalog.shapedEntry
  rw [Entries.get?_insert_self, hfs]
  exact .inr ⟨fs, rfl, hkeys⟩

theorem lookup_shapedEntry {name : String} (h : Entries.contains name block.fields = true) :
    (Path.root.child "fields" ++ Path.root.child name).lookup
        (.object (c.shapedEntry block base ms)) =
      (Entries.get? "fields" ms).bind (Value.get? name) := by
  obtain ⟨fs, hfs, -, hget⟩ :=
    shapeFields_value block (base.child "fields") (Entries.get? "fields" ms)
  unfold Catalog.shapedEntry
  rw [lookup_key, Entries.get?_insert_self, hfs, Option.bind_some, Path.lookup_child_root,
    Path.descend_object, hget name h]

/-- A member of a block entry is a field or a member below its slots. -/
theorem mem_blockMembers (hb : c.blockOf? ms = some block) {m : Member}
    (hm : m ∈ c.blockMembers .root (.object ms)) :
    (∃ name, Entries.contains name block.fields = true ∧
        m.relative = Path.root.child "fields" ++ Path.root.child name) ∨
      ∃ v n, Entries.get? "slots" ms = some v ∧ n ∈ c.slottedMembers block v ∧
        m.relative = Path.root.child "slots" ++ n.relative := by
  rw [blockMembers_slotted hb] at hm
  rcases List.mem_append.mp hm with hm | hm
  · obtain ⟨n, hn, rfl⟩ := List.mem_map.mp hm
    obtain ⟨name, hname, hrel⟩ := Member.mem_ofSchema hn
    exact .inl ⟨name, Entries.contains_of_mem hname, by rw [Member.below_relative, hrel]⟩
  · cases hv : Entries.get? "slots" ms with
    | none =>
      rw [hv] at hm
      cases hm
    | some v =>
      rw [hv] at hm
      obtain ⟨n, hn, rfl⟩ := List.mem_map.mp hm
      exact .inr ⟨v, n, rfl, hn, rfl⟩

theorem descend_of_get? {v u : Value} {name : String} (h : v.get? name = some u) :
    Path.descend v name = some u := by
  cases v with
  | object ms => exact h
  | _ => cases h

/-- What was under a field or below the slots of a shaped entry stood there before. -/
theorem shapedEntry_kept (hb : c.blockOf? (c.shapedEntry block base ms) = some block)
    (hslots : ∀ v, Entries.get? "slots" ms = some v → ∀ n ∈ c.slottedMembers block
      (c.shapeSlotted block (base.child "slots") v).value, ∀ u,
        n.relative.lookup (c.shapeSlotted block (base.child "slots") v).value = some u →
          n.relative.lookup v = some u) {m : Member}
    (hm : m ∈ c.blockMembers .root (.object (c.shapedEntry block base ms))) {u : Value}
    (hu : m.relative.lookup (.object (c.shapedEntry block base ms)) = some u) :
    m.relative.lookup (.object ms) = some u := by
  rcases mem_blockMembers hb hm with ⟨name, hdecl, hrel⟩ | ⟨w, n, hw, hn, hrel⟩
  · rw [hrel, lookup_shapedEntry hdecl] at hu
    obtain ⟨fs, hfs, hget⟩ := Option.bind_eq_some_iff.mp hu
    rw [hrel, lookup_key, hfs, Option.bind_some, Path.lookup_child_root]
    exact descend_of_get? hget
  · rw [hrel, lookup_key, hw, Option.bind_some] at hu
    rw [get?_shapedEntry_slots] at hw
    obtain ⟨v, h, rfl⟩ := Option.map_eq_some_iff.mp hw
    rw [hrel, lookup_key, h, Option.bind_some]
    exact hslots v h n hn u hu

theorem shapedEntry_members (hb : c.blockOf? ms = some block)
    (hb' : c.blockOf? (c.shapedEntry block base ms) = some block)
    (hslots : ∀ v, Entries.get? "slots" ms = some v →
      c.slottedMembers block (c.shapeSlotted block (base.child "slots") v).value =
        c.slottedMembers block v) :
    c.blockMembers .root (.object (c.shapedEntry block base ms)) =
      c.blockMembers .root (.object ms) := by
  rw [blockMembers_slotted hb, blockMembers_slotted hb', get?_shapedEntry_slots]
  cases hv : Entries.get? "slots" ms with
  | none => rfl
  | some v =>
    simp only [Option.map_some]
    rw [hslots v hv]

theorem shapedEntry_lookups (hb : c.blockOf? ms = some block) {bare : Bool}
    (hfields : FieldsFit bare block (Entries.get? "fields" ms))
    (hslots : ∀ v, Entries.get? "slots" ms = some v → ∀ n ∈ c.slottedMembers block v,
      n.relative.lookup (c.shapeSlotted block (base.child "slots") v).value =
        n.relative.lookup v) {m : Member} (hm : m ∈ c.blockMembers .root (.object ms)) :
    m.relative.lookup (.object (c.shapedEntry block base ms)) =
      m.relative.lookup (.object ms) := by
  rcases mem_blockMembers hb hm with ⟨name, hdecl, hrel⟩ | ⟨v, n, hv, hn, hrel⟩
  · rw [hrel, lookup_shapedEntry hdecl, lookup_key]
    rcases hfields with ⟨hnone, -⟩ | ⟨fs, hfs, -⟩
    · rw [hnone]
      rfl
    · rw [hfs, Option.bind_some, Option.bind_some, Path.lookup_child_root]
      rfl
  · rw [hrel, lookup_key, lookup_key, get?_shapedEntry_slots, hv]
    exact hslots v hv n hn

theorem shapedEntry_same (hkeys : KeysWithin Catalog.blockKeys.contains ms)
    (hfields : FieldsFit false block (Entries.get? "fields" ms))
    (hslots : ∀ v, Entries.get? "slots" ms = some v →
      (c.shapeSlotted block (base.child "slots") v).value = v) :
    c.shapedEntry block base ms = ms := by
  unfold Catalog.shapedEntry
  rw [shapeSlots_same hkeys hslots]
  have hget : Entries.get? "fields" ms = some (Catalog.shapeFields block (base.child "fields")
      (Entries.get? "fields" ms)).1 := shapeFields_same hfields
  rw [Entries.insert_of_get? hget, Entries.update_of_get? hget]

/-- Shaping an entry that names a known block in its place. -/
theorem reshapes_known (hname : Entries.get? "name" ms = some (.string block.name))
    (hknown : c.block? block.name = some block)
    (htaken : allowed.all (·.contains block.name) = true) (base : Path)
    (hslots : ∀ v, Entries.get? "slots" ms = some v →
      Reshapes (c.slottedMembers block) (SlottedFit c block) v
        (c.shapeSlotted block (base.child "slots") v)) :
    Reshapes (c.blockMembers .root) (fun nulls bare => BlockFits c nulls bare allowed)
      (.object ms) (c.shapeBlock allowed base (.object ms)) := by
  have hb : c.blockOf? ms = some block := BlockFits.blockOf? hname hknown
  have hname' : Entries.get? "name" (c.shapedEntry block base ms) =
      some (.string block.name) := get?_shapedEntry_name.trans hname
  have hb' : c.blockOf? (c.shapedEntry block base ms) = some block :=
    BlockFits.blockOf? hname' hknown
  have hproblems : (c.shapeBlock allowed base (.object ms)).problems = [] ↔
      BlockFits c false true allowed (.object ms) := by
    rw [shapeBlock_known hb htaken base, List.append_eq_nil_iff, List.append_eq_nil_iff,
      prune_problems, shapeFields_problems, shapeSlots_problems,
      blockFits_object hname hknown htaken, and_assoc]
    refine and_congr_right fun _ => and_congr_right fun _ => forall_congr' fun v => ?_
    exact forall_congr' fun hv => (hslots v hv).clean
  have hclean : BlockFits c false true allowed (.object ms) →
      ∀ v, Entries.get? "slots" ms = some v →
        (c.shapeSlotted block (base.child "slots") v).problems = [] := fun h v hv =>
    (hslots v hv).clean.mpr (((blockFits_object hname hknown htaken).mp h).2.2 v hv)
  have hfit : ∀ {nulls}, (∀ v, Entries.get? "slots" ms = some v →
      SlottedFit c block nulls false (c.shapeSlotted block (base.child "slots") v).value) →
        BlockFits c nulls false allowed (.object (c.shapedEntry block base ms)) := fun h => by
    refine (blockFits_object hname' hknown htaken).mpr
      ⟨shapedEntry_keys, shapedEntry_fields, fun w hw => ?_⟩
    rw [get?_shapedEntry_slots] at hw
    obtain ⟨v, hv, rfl⟩ := Option.map_eq_some_iff.mp hw
    exact h v hv
  rw [shapeBlock_known hb htaken base] at hproblems ⊢
  exact {
    fits := fun hv => hfit fun v h => (hslots v h).fits (shapeSlots_valid.mp hv v h)
    kept := fun hv _ hm _ => shapedEntry_kept hb'
      (fun v h => (hslots v h).kept (shapeSlots_valid.mp hv v h)) hm
    clean := hproblems
    valid := fun hp => shapeSlots_valid.mpr fun v h =>
      (hslots v h).valid (hclean (hproblems.mp hp) v h)
    strict := fun hp => hfit fun v h => (hslots v h).strict (hclean (hproblems.mp hp) v h)
    members := fun hp => shapedEntry_members hb hb' fun v h =>
      (hslots v h).members (hclean (hproblems.mp hp) v h)
    lookups := fun hp _ => shapedEntry_lookups hb
      ((blockFits_object hname hknown htaken).mp (hproblems.mp hp)).2.1
      fun v h => (hslots v h).lookups (hclean (hproblems.mp hp) v h)
    loosen := BlockFits.mono
    same := fun h => by
      obtain ⟨hkeys, hfields, hfits⟩ := (blockFits_object hname hknown htaken).mp h
      exact congrArg Value.object
        (shapedEntry_same hkeys hfields fun v hv => (hslots v hv).same (hfits v hv)) }

theorem not_blockFits {bare : Bool} {v : Value} (hv : v.isObject = false) :
    ¬ BlockFits c false bare allowed v := by
  intro h
  cases h with
  | null _ h => cases h
  | block => cases hv

/-- Shaping a block entry, whatever is nested in it. -/
theorem reshapes_block (hc : c.Keyed) (v : Value) : ∀ allowed base,
    Reshapes (c.blockMembers .root) (fun nulls bare => BlockFits c nulls bare allowed) v
      (c.shapeBlock allowed base v) := by
  induction v using Value.weightInduction with
  | step v ih =>
    intro allowed base
    have hnull : c.blockMembers .root .null = [] := Catalog.blockMembers_of_not_object c .root rfl
    cases v with
    | object ms =>
      cases hb : c.blockOf? ms with
      | none =>
        have hno : ∀ {nulls bare}, ¬ BlockFits c nulls bare allowed (.object ms) := by
          intro nulls bare h
          cases h with
          | block name known =>
            rw [BlockFits.blockOf? name known] at hb
            cases hb
        rw [Catalog.shapeBlock, hb]
        exact ⟨nofun, nofun, ⟨nofun, fun h => (hno h).elim⟩, nofun, nofun, nofun, nofun,
          fun h => (hno h).elim, fun h => (hno h).elim⟩
      | some block =>
        obtain ⟨hname, hknown⟩ := hc.blockOf? hb
        by_cases htaken : allowed.all (·.contains block.name) = true
        · refine reshapes_known hname hknown htaken base fun v hv => ?_
          refine reshapes_slotted (fun x hx => ih x ?_) _
          have := Path.weight_lt_of_mem_members (Entries.mem_of_get? hv)
          omega
        · rw [Catalog.shapeBlock, hb]
          simp only [htaken, Bool.not_false, if_true]
          refine Reshapes.dropped hnull (.null allowed rfl) fun bare h => htaken ?_
          cases h with
          | block name known taken =>
            rw [BlockFits.blockOf? name known, Option.some.injEq] at hb
            rw [← hb]
            exact taken
    | _ =>
      rw [Catalog.shapeBlock]
      · exact Reshapes.dropped hnull (.null allowed rfl) fun bare => not_blockFits rfl
      · intro ms h
        cases h

end Entry

/-! ### Composite values -/

/-- Bringing the value of a field into shape. -/
theorem reshapes_shape {c : Catalog} (hc : c.Keyed) {d : Declaration} {options : Options}
    (ho : d.kind = .blocks → options.strings? "allowed-blocks" = d.allowedBlocks) (base : Path)
    (v : Value) :
    Reshapes (c.members d) (fun nulls bare => Fits c nulls bare d) v
      (c.shape d options base v) := by
  have hkeep : ∀ {v}, (∀ nulls bare, Fits c nulls bare d v) →
      Reshapes (c.members d) (fun nulls bare => Fits c nulls bare d) v ⟨v, [], true⟩ := fun h =>
    ⟨fun _ => h _ _, fun _ _ _ _ hu => hu, ⟨fun _ => h _ _, fun _ => rfl⟩, fun _ => rfl,
      fun _ => h _ _, fun _ => rfl, fun _ _ _ => rfl, fun _ => h _ _, fun _ => rfl⟩
  unfold Catalog.shape
  split
  · next items hk => exact reshapes_repeater hk base items
  · next ms hk =>
    refine Reshapes.object d.subfields base ?_ ?_ (fun _ h => h) ?_ ?_
    · rw [Catalog.members_object, if_pos hk]
    · rw [Catalog.members_object, if_pos hk]
    · exact fun _ _ => ⟨fun h => h hk, fun h _ => h⟩
    · exact fun _ _ _ => keysWithin_filter (Entries.contains · d.subfields) ms
  · next items hk => exact reshapes_structured hk base items
  · next items hk =>
    rw [ho hk]
    have hentry : c.entryMembers d = c.blockMembers .root := by
      funext x
      unfold Catalog.entryMembers
      rw [hk]
    refine reshapes_blockList (fun items => ?_) (fun nulls bare items => ?_) fun x _ =>
      reshapes_block hc x d.allowedBlocks
    · rw [Catalog.members_list, hentry]
    · exact forall_congr' fun x => forall_congr' fun _ => itemFits_blocks hk x
  · next w _ _ h1 h2 h3 h4 =>
    refine hkeep fun nulls bare => ?_
    cases w with
    | list items =>
      intro x hx
      unfold ItemFits
      split
      · next hk => exact (h1 items hk rfl).elim
      · next hk => exact (h3 items hk rfl).elim
      · next hk => exact (h4 items hk rfl).elim
      · trivial
    | object ms => exact fun hk => (h2 ms hk rfl).elim
    | _ => trivial

end ContentSchema
