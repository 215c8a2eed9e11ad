import ContentSchema.Proofs.BlockShaping

/-!
# Problem places — where shaping finds fault

A value is shaped from the outside in, and each of its parts reports at its own place.  All that is
reported about the value at `base` therefore stands at `base` or below it (`reports_shape`),
whatever the declaration and whatever the value: a pass that shapes a field reports inside that
field only.
-/

namespace ContentSchema

/-! ### Below a path -/

/-- `p` is `base` or leads further down from it. -/
def Path.Under (base p : Path) : Prop := ∃ q, p = base ++ q

namespace Path.Under

variable {base p q : Path}

theorem refl (base : Path) : base.Under base := ⟨.root, (append_root base).symm⟩

theorem child (base : Path) (s : String) : base.Under (base.child s) := ⟨root.child s, rfl⟩

theorem trans (h : base.Under p) (h' : p.Under q) : base.Under q := by
  obtain ⟨r, rfl⟩ := h
  obtain ⟨r', rfl⟩ := h'
  exact ⟨r ++ r', append_assoc base r r'⟩

theorem index (base : Path) (i : Nat) : base.Under (base.index i) := child base _

end Path.Under

/-- Every problem stands at `base` or below it. -/
def ReportsUnder (base : Path) (problems : List Problem) : Prop :=
  ∀ p ∈ problems, base.Under p.1

namespace ReportsUnder

variable {base inner : Path} {ps qs : List Problem}

theorem nil (base : Path) : ReportsUnder base [] := fun _ hp => (List.not_mem_nil hp).elim

theorem single (base : Path) (message : String) : ReportsUnder base [(base, message)] := by
  intro p hp
  rw [List.mem_singleton.mp hp]
  exact .refl base

theorem append (hp : ReportsUnder base ps) (hq : ReportsUnder base qs) :
    ReportsUnder base (ps ++ qs) :=
  fun p h => (List.mem_append.mp h).elim (hp p) (hq p)

/-- What stands below an inner path stands below every path that leads there. -/
theorem within (h : ReportsUnder inner ps) (hbase : base.Under inner) : ReportsUnder base ps :=
  fun p hp => hbase.trans (h p hp)

theorem prune (base : Path) (keep : String → Bool) (ms : Entries Value) :
    ReportsUnder base (prune base keep ms).2 := by
  intro p hp
  obtain ⟨m, -, rfl⟩ := List.mem_map.mp hp
  exact .child base m.1

end ReportsUnder

/-! ### Entries -/

theorem reports_malformed (base : Path) : ReportsUnder base (Shaped.malformed base).problems :=
  .single base _

theorem reports_shapeEntries (base : Path) {shape : Path → Entries Value → Shaped Value}
    (h : ∀ base ms, ReportsUnder base (shape base ms).problems) (items : List Value) :
    ReportsUnder base (shapeEntries base shape items).problems := by
  have hentry : ∀ e, ReportsUnder (base.index e.2) (shapeEntry base shape e).problems := by
    rintro ⟨x, i⟩
    unfold shapeEntry
    cases x with
    | object ms => exact h _ ms
    | _ => exact reports_malformed _
  rw [shapeEntries_eq]
  intro p hp
  obtain ⟨e, -, hp⟩ := List.mem_flatMap.mp hp
  exact (hentry e).within (.index base e.2) p hp

theorem reports_shapeMembers (keep : String → Bool) (base : Path) (ms : Entries Value) :
    ReportsUnder base (shapeMembers keep base ms).problems :=
  .prune base keep ms

theorem reports_shapeVariant (d : Declaration) (base : Path) (ms : Entries Value) :
    ReportsUnder base (shapeVariant d base ms).problems := by
  unfold shapeVariant
  split
  · exact reports_shapeMembers _ base ms
  · exact .single base _

/-! ### Blocks -/

/-- What a value holds as a list weighs less than the value. -/
theorem weight_lt_of_mem_ownItems {v x : Value} (h : x ∈ v.items) : x.weight < v.weight := by
  cases v with
  | list items => exact Path.weight_lt_of_mem_items h
  | _ => exact (List.not_mem_nil h).elim

/-- What a value holds as an object weighs less than the value. -/
theorem weight_lt_of_mem_ownMembers {v : Value} {e : String × Value} (h : e ∈ v.members) :
    e.2.weight < v.weight := by
  cases v with
  | object ms => exact Path.weight_lt_of_mem_members h
  | _ => exact (List.not_mem_nil h).elim

section Blocks

variable {c : Catalog} {block : Block}

theorem reports_shapeFields (block : Block) (base : Path) (fields : Option Value) :
    ReportsUnder base (Catalog.shapeFields block base fields).2 := by
  unfold Catalog.shapeFields
  split
  · exact .nil base
  · next ms =>
    show ReportsUnder base (prune base (Entries.contains · block.fields) ms).2
    exact .prune base _ ms
  · exact .single base _

theorem reports_shapeBlocks {allowed : Option (List String)} (base : Path) (i : Nat)
    {items : List Value}
    (h : ∀ x ∈ items, ∀ base, ReportsUnder base (c.shapeBlock allowed base x).problems) :
    ReportsUnder base (c.shapeBlocks allowed base i items).problems := by
  induction items generalizing i with
  | nil =>
    rw [Catalog.shapeBlocks]
    exact .nil base
  | cons v vs ih =>
    obtain ⟨hv, hvs⟩ := List.forall_mem_cons.mp h
    have here := (hv (base.index i)).within (.index base i)
    rw [shapeBlocks_cons]
    split
    · exact here.append (ih (i + 1) hvs)
    · exact here

theorem reports_shapeSlot (slot : Slot) (base : Path) {v : Value}
    (h : ∀ x ∈ v.items, ∀ allowed base, ReportsUnder base (c.shapeBlock allowed base x).problems) :
    ReportsUnder base (c.shapeSlot slot base v).problems := by
  unfold Catalog.shapeSlot
  split
  · exact reports_shapeBlocks base 0 fun x hx => h x hx slot.allowed
  · exact .single base _

theorem reports_shapeSlotList (base : Path) {slots : Entries Value}
    (h : ∀ e ∈ slots, ∀ slot base, ReportsUnder base (c.shapeSlot slot base e.2).problems) :
    ReportsUnder base (c.shapeSlotList block base slots).problems := by
  induction slots with
  | nil =>
    rw [Catalog.shapeSlotList]
    exact .nil base
  | cons e rest ih =>
    obtain ⟨he, hrest⟩ := List.forall_mem_cons.mp h
    obtain ⟨key, v⟩ := e
    rw [shapeSlotList_cons]
    split
    · exact ih hrest
    · next slot _ =>
      have here := (he slot (base.child key)).within (.child base key)
      split
      · exact here.append (ih hrest)
      · exact here

theorem reports_shapeSlotted (base : Path) {v : Value}
    (h : ∀ e ∈ v.members, ∀ slot base, ReportsUnder base (c.shapeSlot slot base e.2).problems) :
    ReportsUnder base (c.shapeSlotted block base v).problems := by
  unfold Catalog.shapeSlotted
  split
  · exact (ReportsUnder.prune base _ _).append (reports_shapeSlotList base h)
  · exact .single base _

/-- A block entry reports below its place, whatever is nested in it. -/
theorem reports_shapeBlock (c : Catalog) (v : Value) : ∀ allowed base,
    ReportsUnder base (c.shapeBlock allowed base v).problems := by
  induction v using Value.weightInduction with
  | step v ih =>
    intro allowed base
    cases v with
    | object ms =>
      cases hb : c.blockOf? ms with
      | none =>
        rw [Catalog.shapeBlock, hb]
        exact .single base _
      | some block =>
        by_cases htaken : allowed.all (·.contains block.name) = true
        · have hslots : ReportsUnder (base.child "slots")
              (c.shapeSlots block (base.child "slots") ms).problems := by
            rw [shapeSlots_eq]
            split
            · exact .nil _
            · next v hv =>
              refine reports_shapeSlotted _ fun e he slot base => reports_shapeSlot slot base ?_
              -- the entries of a slot lie three containers further down
              intro x hx
              have hslots := Path.weight_lt_of_mem_members (Entries.mem_of_get? hv)
              have hslot := weight_lt_of_mem_ownMembers he
              have hitem := weight_lt_of_mem_ownItems hx
              exact ih x (by omega)
          rw [shapeBlock_known hb htaken]
          refine .append (.append (.prune base _ ms) ?_) (hslots.within (.child base "slots"))
          exact (reports_shapeFields block _ _).within (.child base "fields")
        · rw [Catalog.shapeBlock, hb]
          simp only [htaken, Bool.not_false, if_true]
          exact .single base _
    | _ =>
      rw [Catalog.shapeBlock]
      · exact reports_malformed base
      · intro ms h
        cases h

end Blocks

/-! ### Composite values -/

/-- Bringing the value of a field into shape reports at the field or below it. -/
theorem reports_shape (c : Catalog) (d : Declaration) (options : Options) (base : Path)
    (v : Value) : ReportsUnder base (c.shape d options base v).problems := by
  unfold Catalog.shape
  split
  · exact reports_shapeEntries base (reports_shapeMembers _) _
  · exact reports_shapeMembers _ base _
  · exact reports_shapeEntries base (reports_shapeVariant d) _
  · exact reports_shapeBlocks base 0 fun x _ => reports_shapeBlock c x _
  · exact .nil base

end ContentSchema
