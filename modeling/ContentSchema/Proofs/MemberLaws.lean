import Mathlib.Data.List.Basic
import ContentSchema.Catalog.Member
import ContentSchema.Kinds.Check
import ContentSchema.Proofs.Places

/-!
# Member laws — where the members of a composite value lie

The members of every list-like kind are those of its items, seen from the list; those of a block
are its fields and the members of the blocks in its slots.  Members depend on a base path only by
being moved there (`blockMembers_below`), so one equation for each kind says where they lie.
-/

namespace ContentSchema

namespace Value

/-- A value whose statement follows from that of all lighter values. -/
theorem weightInduction {P : Value → Prop}
    (step : ∀ v : Value, (∀ w : Value, w.weight < v.weight → P w) → P v) (v : Value) : P v := by
  have bound : ∀ n, ∀ w : Value, w.weight < n → P w := by
    intro n
    induction n with
    | zero => intro w h; omega
    | succ n ih =>
      intro w h
      exact step w fun u hu => ih u (by omega)
  exact bound (v.weight + 1) v (by omega)

theorem isObject_iff {v : Value} : v.isObject = true ↔ ∃ ms, v = .object ms := by
  cases v <;> simp [isObject]

end Value

namespace Member

/-- A member, seen from a value that holds its composite value at `base`. -/
def below (base : Path) (m : Member) : Member := ⟨base ++ m.relative, m.declaration⟩

@[simp] theorem below_relative (base : Path) (m : Member) :
    (m.below base).relative = base ++ m.relative := rfl

theorem below_below (base inner : Path) (m : Member) :
    (m.below inner).below base = m.below (base ++ inner) := by
  unfold below
  rw [Path.append_assoc]

theorem below_comp (base inner : Path) : below base ∘ below inner = below (base ++ inner) :=
  funext fun m => below_below base inner m

theorem ofSchema_below (base : Path) (schema : Schema) :
    ofSchema base schema = (ofSchema .root schema).map (below base) := by
  unfold ofSchema
  rw [List.map_map]
  rfl

theorem mem_ofSchema {base : Path} {schema : Schema} {m : Member} (h : m ∈ ofSchema base schema) :
    ∃ name, (name, m.declaration) ∈ schema ∧ m.relative = base.child name := by
  obtain ⟨⟨name, d⟩, hd, rfl⟩ := List.mem_map.mp h
  exact ⟨name, hd, rfl⟩

/-- The members inside the items of a list. -/
def ofItems (f : Value → List Member) (items : List Value) : List Member :=
  items.zipIdx.flatMap fun e => (f e.1).map (below (Path.root.index e.2))

theorem mem_ofItems {f : Value → List Member} {items : List Value} {m : Member}
    (h : m ∈ ofItems f items) :
    ∃ i x n, items[i]? = some x ∧ n ∈ f x ∧ m = n.below (Path.root.index i) := by
  obtain ⟨⟨x, i⟩, he, h⟩ := List.mem_flatMap.mp h
  obtain ⟨n, hn, rfl⟩ := List.mem_map.mp h
  exact ⟨i, x, n, List.mem_zipIdx_iff_getElem?.mp he, hn, rfl⟩

/-- Lists whose items have the same members have the same members. -/
theorem ofItems_congr {f g : Value → List Member} {items others : List Value}
    (h : items.map f = others.map g) : ofItems f items = ofItems g others := by
  have spread : ∀ (f : Value → List Member) (items : List Value),
      ofItems f items =
        ((items.map f).zipIdx.flatMap fun e => e.1.map (below (Path.root.index e.2))) := by
    intro f items
    rw [List.zipIdx_map, List.flatMap_map]
    rfl
  rw [spread f, spread g, h]

theorem relative_ofItems (f : Value → List Member) (items : List Value) :
    (ofItems f items).map (·.relative) =
      items.zipIdx.flatMap fun e => ((f e.1).map (·.relative)).map (Path.root.index e.2 ++ ·) := by
  unfold ofItems
  rw [List.map_flatMap]
  simp only [List.map_map]
  rfl

end Member

namespace Catalog

/-! ### Blocks -/

/-- The entries in a slot of a block entry. -/
def slotItems (ms : Entries Value) (slot : String) : List Value :=
  (((Entries.get? "slots" ms).bind (Value.get? slot)).getD .null).items

theorem blockListMembers_eq (c : Catalog) (base : Path) (i : Nat) (items : List Value) :
    c.blockListMembers base i items =
      (items.zipIdx i).flatMap fun e => c.blockMembers (base.index e.2) e.1 := by
  induction items generalizing i with
  | nil => rw [blockListMembers]; rfl
  | cons v vs ih => rw [blockListMembers, ih, List.zipIdx_cons, List.flatMap_cons]

theorem blockListMembers_nil (c : Catalog) (base : Path) (i : Nat) :
    c.blockListMembers base i [] = [] := by rw [blockListMembers]

theorem childMembers_eq (c : Catalog) (base : Path) (slot : String) (slots : Entries Value) :
    c.childMembers base slot slots =
      c.blockListMembers base 0 ((Entries.get? slot slots).getD .null).items := by
  induction slots with
  | nil => rw [childMembers]; exact (blockListMembers_nil c base 0).symm
  | cons e rest ih =>
    obtain ⟨key, v⟩ := e
    have hv : c.childMembers base slot ((key, v) :: rest) =
        if key = slot then c.blockListMembers base 0 v.items
        else c.childMembers base slot rest := by
      cases v with
      | list items => rw [childMembers, Value.items]
      | _ =>
        rw [childMembers, Value.items, blockListMembers_nil]
        · intro items h; cases h
        · intro items h; cases h
    rw [hv, Entries.get?_cons]
    split
    · rfl
    · exact ih

theorem slotMembers_eq (c : Catalog) (base : Path) (slot : String) (ms : Entries Value) :
    c.slotMembers base slot ms = c.blockListMembers (base.child slot) 0 (slotItems ms slot) := by
  unfold slotItems
  induction ms with
  | nil => rw [slotMembers]; exact (blockListMembers_nil c _ 0).symm
  | cons e rest ih =>
    obtain ⟨key, v⟩ := e
    have hv : c.slotMembers base slot ((key, v) :: rest) =
        if key = "slots" then c.childMembers (base.child slot) slot v.members
        else c.slotMembers base slot rest := by
      cases v with
      | object slots => rw [slotMembers, Value.members]
      | _ =>
        rw [slotMembers, Value.members, childMembers]
        · intro ms h; cases h
        · intro ms h; cases h
    rw [hv, Entries.get?_cons]
    split
    · exact childMembers_eq c (base.child slot) slot v.members
    · exact ih

theorem blockMembers_eq (c : Catalog) (base : Path) (ms : Entries Value) :
    c.blockMembers base (.object ms) =
      match c.blockOf? ms with
      | none => []
      | some block =>
        Member.ofSchema (base.child "fields") block.fields ++
          block.slots.keys.flatMap fun slot =>
            c.blockListMembers ((base.child "slots").child slot) 0 (slotItems ms slot) := by
  rw [blockMembers]
  cases c.blockOf? ms with
  | none => rfl
  | some block => simp only [slotMembers_eq]

theorem blockMembers_of_not_object (c : Catalog) (base : Path) {v : Value}
    (h : v.isObject = false) : c.blockMembers base v = [] := by
  cases v with
  | object ms => cases h
  | _ =>
    rw [blockMembers]
    intro ms h
    cases h

theorem weight_slotItems {ms : Entries Value} {slot : String} {x : Value}
    (h : x ∈ slotItems ms slot) : x.weight < (Value.object ms).weight := by
  unfold slotItems at h
  cases hs : Entries.get? "slots" ms with
  | none => simp [hs, Value.items] at h
  | some s =>
    cases hv : Value.get? slot s with
    | none => simp [hs, hv, Value.items] at h
    | some v =>
      simp only [hs, Option.bind_some, hv, Option.getD_some] at h
      have hsw := Path.weight_lt_of_mem_members (Entries.mem_of_get? hs)
      cases s with
      | object slots =>
        have hvw : v.weight < (Value.object slots).weight :=
          Path.weight_lt_of_mem_members (Entries.mem_of_get? hv)
        cases v with
        | list items =>
          have hxw : x.weight < (Value.list items).weight := Path.weight_lt_of_mem_items h
          omega
        | _ => cases h
      | _ => cases hv

/-- The members of a block at `base` are its members as they are, moved to `base`. -/
theorem blockMembers_below (c : Catalog) (base : Path) (v : Value) :
    c.blockMembers base v = (c.blockMembers .root v).map (Member.below base) := by
  induction v using Value.weightInduction generalizing base with
  | step v ih =>
    cases v with
    | object ms =>
      rw [blockMembers_eq, blockMembers_eq]
      cases c.blockOf? ms with
      | none => rfl
      | some block =>
        simp only [List.map_append, List.map_flatMap]
        congr 1
        · rw [Member.ofSchema_below (base.child "fields"),
            Member.ofSchema_below (Path.root.child "fields"), List.map_map, Member.below_comp]
          rfl
        · congr 1
          funext slot
          rw [blockListMembers_eq, blockListMembers_eq, List.map_flatMap]
          have hitem : ∀ e ∈ (slotItems ms slot).zipIdx, e.1 ∈ slotItems ms slot := fun e he =>
            List.fst_mem_of_mem_zipIdx he
          refine List.flatMap_congr fun e he => ?_
          have hw := weight_slotItems (hitem e he)
          rw [ih e.1 hw, ih e.1 hw (((Path.root.child "slots").child slot).index e.2),
            List.map_map, Member.below_comp]
          congr 2
          exact Path.ext_iff.mpr (by simp [Path.index_eq])
    | _ =>
      rw [blockMembers_of_not_object c base rfl, blockMembers_of_not_object c .root rfl]
      rfl

theorem blockListMembers_root (c : Catalog) (items : List Value) :
    c.blockListMembers .root 0 items = Member.ofItems (c.blockMembers .root) items := by
  rw [blockListMembers_eq]
  exact List.flatMap_congr fun e _ => blockMembers_below c _ e.1

theorem blockListMembers_below (c : Catalog) (base : Path) (items : List Value) :
    c.blockListMembers base 0 items =
      (Member.ofItems (c.blockMembers .root) items).map (Member.below base) := by
  rw [blockListMembers_eq]
  unfold Member.ofItems
  rw [List.map_flatMap]
  refine List.flatMap_congr fun e _ => ?_
  rw [blockMembers_below, List.map_map, Member.below_comp]
  rfl

/-- The place of a slot in a block entry. -/
def slotPath (slot : String) : Path := (Path.root.child "slots").child slot

/-- The members of a block entry: its fields, and the members of the entries in each slot. -/
theorem blockMembers_object (c : Catalog) {ms : Entries Value} {block : Block}
    (h : c.blockOf? ms = some block) :
    c.blockMembers .root (.object ms) =
      (Member.ofSchema .root block.fields).map (Member.below (Path.root.child "fields")) ++
        block.slots.keys.flatMap fun slot =>
          (Member.ofItems (c.blockMembers .root) (slotItems ms slot)).map
            (Member.below (slotPath slot)) := by
  rw [blockMembers_eq, h]
  simp only [blockListMembers_below]
  rw [Member.ofSchema_below]
  rfl

theorem blockMembers_object_none (c : Catalog) {ms : Entries Value} (h : c.blockOf? ms = none) :
    c.blockMembers .root (.object ms) = [] := by
  rw [blockMembers_eq, h]

/-! ### Kinds -/

/-- The members of an entry of a list-like kind. -/
def entryMembers (c : Catalog) (d : Declaration) (x : Value) : List Member :=
  match d.kind with
  | .repeater => if x.isObject then Member.ofSchema .root d.subfields else []
  | .structured =>
    match d.variantOf? x with
    | some schema => Member.ofSchema .root schema
    | none => []
  | .blocks => c.blockMembers .root x
  | _ => []

/-- The members of a list are those of its items, seen from the list. -/
theorem members_list (c : Catalog) (d : Declaration) (items : List Value) :
    c.members d (.list items) = Member.ofItems (c.entryMembers d) items := by
  unfold members Member.ofItems
  cases hk : d.kind with
  | repeater =>
    refine List.flatMap_congr fun e _ => ?_
    unfold entryMembers
    rw [hk]
    by_cases ho : e.1.isObject = true
    · simp only [ho, if_true]
      exact Member.ofSchema_below _ _
    · simp only [ho]
      rfl
  | structured =>
    refine List.flatMap_congr fun e _ => ?_
    obtain ⟨x, i⟩ := e
    simp only [entryMembers, hk]
    cases d.variantOf? x with
    | none => rfl
    | some schema => exact Member.ofSchema_below _ _
  | blocks =>
    have he : c.entryMembers d = c.blockMembers .root := by
      funext x
      simp only [entryMembers, hk]
    rw [he]
    exact blockListMembers_root c items
  | _ => simp [entryMembers, hk, Value.isObject]

/-- The members of an object are the subfields of its declaration. -/
theorem members_object (c : Catalog) (d : Declaration) (ms : Entries Value) :
    c.members d (.object ms) =
      if d.kind = .object then Member.ofSchema .root d.subfields else [] := by
  unfold members
  cases hk : d.kind <;> simp [Value.items, Value.isObject, blockListMembers_nil]

/-- Nothing but a list or an object has members. -/
theorem members_eq_nil (c : Catalog) (d : Declaration) {v : Value} (hl : v.isList = false)
    (ho : v.isObject = false) : c.members d v = [] := by
  unfold members
  cases v with
  | list items => cases hl
  | object ms => cases ho
  | _ => cases d.kind <;> simp [Value.items, Value.isObject, blockListMembers_nil]

/-- Only composite kinds have members. -/
theorem members_leaf (c : Catalog) {d : Declaration} (h : d.kind.isComposite = false)
    (v : Value) : c.members d v = [] := by
  unfold members
  cases hk : d.kind <;> rw [hk] at h <;> first | rfl | cases h

end Catalog

end ContentSchema
