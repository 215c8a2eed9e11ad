import ContentSchema.Proofs.Fits

/-!
# Framing — storing at a member leaves the rest of a composite value alone

The members of a value that fits are places (`Fits.places`): there is room at each of them and no
two of them meet.  Storing at one of them keeps the fit and keeps the list of members
(`Fits.keeps`), as long as no field stands in the place of a variant key.  Both are proved along
the structure of values: an object by its keys, a list by its items, a block by its fields and by
the blocks in its slots.
-/

namespace ContentSchema

/-- The places of the members of a value. -/
def memberPaths (f : Value → List Member) (v : Value) : List Path := (f v).map (·.relative)

/-- Storing at a member keeps a property of the value and its members. -/
def Keeps (f : Value → List Member) (P : Value → Prop) (v : Value) : Prop :=
  ∀ m ∈ f v, m.relative.HasRoom v → ∀ w,
    P (m.relative.set w v) ∧ f (m.relative.set w v) = f v

theorem Places.memberPaths_nil {f : Value → List Member} {v : Value} (h : f v = []) :
    Places v (memberPaths f v) := by
  unfold memberPaths
  rw [h]
  exact Places.nil v

theorem Keeps.of_nil {f : Value → List Member} {P : Value → Prop} {v : Value} (h : f v = []) :
    Keeps f P v := by
  intro m hm
  rw [h] at hm
  cases hm

/-! ### Objects and lists -/

/-- The fields of a schema are places of every object. -/
theorem Places.schema (ms : Entries Value) {schema : Schema} (h : (Entries.keys schema).Nodup) :
    Places (.object ms) ((Member.ofSchema .root schema).map (·.relative)) := by
  have hmap : (Member.ofSchema .root schema).map (·.relative) =
      (Entries.keys schema).map (Path.root.child ·) := by
    unfold Member.ofSchema Entries.keys
    rw [List.map_map, List.map_map]
    rfl
  rw [hmap]
  exact Places.keys ms h

/-- Storing at a field of a schema is inserting its name. -/
theorem set_ofSchema {schema : Schema} {m : Member} (hm : m ∈ Member.ofSchema .root schema)
    (ms : Entries Value) (w : Value) :
    ∃ name, Entries.contains name schema = true ∧
      m.relative.set w (.object ms) = .object (ms.insert name w) := by
  obtain ⟨name, hname, hrel⟩ := Member.mem_ofSchema hm
  refine ⟨name, Entries.contains_of_mem hname, ?_⟩
  rw [hrel]
  exact Path.set_eq (Path.store?_object name w ms)

theorem Places.ofItems {f : Value → List Member} {items : List Value}
    (h : ∀ x ∈ items, Places x (memberPaths f x)) :
    Places (.list items) ((Member.ofItems f items).map (·.relative)) := by
  rw [Member.relative_ofItems]
  exact Places.items h

/-- Storing at a member of an item changes that item only. -/
theorem set_ofItems {f : Value → List Member} {P : Value → Prop} {items : List Value}
    (hP : ∀ x ∈ items, P x) (hk : ∀ x ∈ items, Keeps f P x) {m : Member}
    (hm : m ∈ Member.ofItems f items) (hroom : m.relative.HasRoom (.list items)) (w : Value) :
    ∃ others, m.relative.set w (.list items) = .list others ∧ (∀ x ∈ others, P x) ∧
      Member.ofItems f others = Member.ofItems f items := by
  obtain ⟨i, x, n, hx, hn, rfl⟩ := Member.mem_ofItems hm
  have hmem : x ∈ items := List.mem_of_getElem? hx
  obtain ⟨hlt, hget⟩ := List.getElem?_eq_some_iff.mp hx
  have hd : (Path.root.index i).lookup (.list items) = some x := by
    rw [Path.index_eq, Path.lookup_child_root, Path.descend_indexText, hx]
  have hn' : n.relative.HasRoom x := (Path.hasRoom_append hd).mp hroom
  obtain ⟨hPx, hfx⟩ := hk x hmem n hn hn' w
  refine ⟨items.set i (n.relative.set w x), ?_, fun y hy => ?_, ?_⟩
  · rw [Member.below_relative, Path.set_append hd hn']
    exact Path.set_eq (Path.store?_indexText hlt _)
  · rcases List.mem_or_eq_of_mem_set hy with hy | rfl
    · exact hP y hy
    · exact hPx
  · apply Member.ofItems_congr
    have hi : i < (items.map f).length := by rw [List.length_map]; exact hlt
    have hfi : f x = (items.map f)[i] := by rw [List.getElem_map, hget]
    rw [List.map_set, hfx, hfi, List.set_getElem_self]

/-! ### Block entries -/

namespace BlockFits

variable {c : Catalog} {nulls bare : Bool} {allowed : Option (List String)} {block : Block}
  {ms : Entries Value}

theorem blockOf? (name : Entries.get? "name" ms = some (.string block.name))
    (known : c.block? block.name = some block) : c.blockOf? ms = some block := by
  unfold Catalog.blockOf?
  rw [name]
  exact known

/-- The slots of an entry that fits hold entries that fit. -/
theorem of_mem_slotItems (slots : SlotsFit block (Entries.get? "slots" ms))
    {P : Option (List String) → Value → Prop}
    (inner : ∀ s, Entries.get? "slots" ms = some s → ∀ e ∈ s.members, ∀ slot,
      Entries.get? e.1 block.slots = some slot → ∀ x ∈ e.2.items, P slot.allowed x)
    {slot : String} {s : Slot} (hs : Entries.get? slot block.slots = some s) {x : Value}
    (hx : x ∈ Catalog.slotItems ms slot) : P s.allowed x := by
  unfold Catalog.slotItems at hx
  cases hv : Entries.get? "slots" ms with
  | none => simp [hv, Value.items] at hx
  | some v =>
    obtain ⟨es, rfl, -⟩ := slots v hv
    cases he : Entries.get? slot es with
    | none => simp [hv, Value.get?, Value.members, he, Value.items] at hx
    | some e =>
      simp only [hv, Option.bind_some, Value.get?, Value.members, he, Option.getD_some] at hx
      exact inner _ hv _ (Entries.mem_of_get? he) s hs x hx

end BlockFits

/-- A slot that holds entries is found under its name. -/
theorem lookup_slotPath {ms : Entries Value} {slot : String} (h : Catalog.slotItems ms slot ≠ []) :
    ∃ es, Entries.get? "slots" ms = some (.object es) ∧
      Entries.get? slot es = some (.list (Catalog.slotItems ms slot)) := by
  unfold Catalog.slotItems at h ⊢
  cases hs : Entries.get? "slots" ms with
  | none => simp [hs, Value.items] at h
  | some s =>
    cases s with
    | object es =>
      cases he : Entries.get? slot es with
      | none => simp [hs, Value.get?, Value.members, he, Value.items] at h
      | some v =>
        simp only [hs, Option.bind_some, Value.get?, Value.members, he, Option.getD_some] at h ⊢
        cases v with
        | list items => exact ⟨es, rfl, he⟩
        | _ => exact absurd rfl h
    | _ => simp [hs, Value.get?, Value.members, Value.items] at h

/-- The entries of a slot stand at its place. -/
theorem lookup_slotItems {ms : Entries Value} {slot : String} (h : Catalog.slotItems ms slot ≠ []) :
    (Catalog.slotPath slot).lookup (.object ms) = some (.list (Catalog.slotItems ms slot)) := by
  obtain ⟨es, hes, hget⟩ := lookup_slotPath h
  show (Entries.get? "slots" ms).bind _ = _
  rw [hes]
  show (Entries.get? slot es).bind _ = _
  rw [hget]
  rfl

section SlotStore

variable {ms es : Entries Value} (hes : Entries.get? "slots" ms = some (.object es))

include hes

theorem set_slotPath (slot : String) (w : Value) :
    (Catalog.slotPath slot).set w (.object ms) =
      .object (ms.insert "slots" (.object (Entries.insert slot w es))) := by
  have hlook : (Path.root.child "slots").lookup (.object ms) = some (.object es) := by
    rw [Path.lookup_child_root]
    exact hes
  have hinner : (Path.root.child slot).set w (.object es) =
      .object (Entries.insert slot w es) := Path.set_eq (Path.store?_object slot _ es)
  show (Path.root.child "slots" ++ Path.root.child slot).set _ _ = _
  rw [Path.set_append (q := Path.root.child slot) hlook (Path.room_singleton slot es), hinner]
  exact Path.set_eq (Path.store?_object _ _ ms)

omit hes in
theorem slotItems_insert_self (slot : String) (items : List Value) :
    Catalog.slotItems (ms.insert "slots" (.object (Entries.insert slot (.list items) es))) slot =
      items := by
  unfold Catalog.slotItems
  rw [Entries.get?_insert_self, Option.bind_some, Value.get?, Value.members,
    Entries.get?_insert_self]
  rfl

theorem slotItems_insert_of_ne {slot other : String} (h : slot ≠ other) (w : Value) :
    Catalog.slotItems (ms.insert "slots" (.object (Entries.insert slot w es))) other =
      Catalog.slotItems ms other := by
  unfold Catalog.slotItems
  rw [Entries.get?_insert_self, hes, Option.bind_some, Option.bind_some, Value.get?, Value.get?,
    Value.members, Value.members, Entries.get?_insert_of_ne h]

end SlotStore

namespace BlockFits

variable {c : Catalog} {nulls : Bool} {allowed : Option (List String)} {v : Value}

/-- The members in the slots of an entry are places when those of each inner entry are. -/
theorem slotPlaces {block : Block} {ms : Entries Value} (hd : block.slots.keys.Nodup)
    (slots : SlotsFit block (Entries.get? "slots" ms)) {f : Value → List Member}
    (h : ∀ slot ∈ block.slots.keys, ∀ x ∈ Catalog.slotItems ms slot, Places x (memberPaths f x)) :
    Places (.object ms) (block.slots.keys.flatMap fun slot =>
      ((Member.ofItems f (Catalog.slotItems ms slot)).map (·.relative)).map
        (Catalog.slotPath slot ++ ·)) := by
  have hnil : ∀ {slot}, Catalog.slotItems ms slot = [] →
      (Member.ofItems f (Catalog.slotItems ms slot)).map (·.relative) = [] := by
    intro slot he
    rw [he]
    rfl
  cases hs : Entries.get? "slots" ms with
  | none =>
    have he : ∀ slot, Catalog.slotItems ms slot = [] := by
      intro slot
      unfold Catalog.slotItems
      rw [hs]
      rfl
    have hall : (block.slots.keys.flatMap fun slot =>
        ((Member.ofItems f (Catalog.slotItems ms slot)).map (·.relative)).map
          (Catalog.slotPath slot ++ ·)) = [] := by
      rw [List.flatMap_eq_nil_iff]
      intro slot _
      rw [hnil (he slot)]
      rfl
    rw [hall]
    exact Places.nil _
  | some s =>
    obtain ⟨es, rfl, -⟩ := slots s hs
    have hin : Places (.object es) (block.slots.keys.flatMap fun slot =>
        ((Member.ofItems f (Catalog.slotItems ms slot)).map (·.relative)).map
          (Path.root.child slot ++ ·)) := by
      refine Places.flatMap (hd.imp fun hst => .keys hst) ?_ ?_
      · intro slot _ q hq
        obtain ⟨q', -, rfl⟩ := List.mem_map.mp hq
        exact ⟨q'.segments, rfl⟩
      · intro slot hslot
        by_cases he : Catalog.slotItems ms slot = []
        · rw [hnil he]
          exact Places.nil _
        · obtain ⟨es', hes', hget⟩ := lookup_slotPath he
          rw [hs, Option.some.injEq, Value.object.injEq] at hes'
          subst hes'
          exact Places.below hget (Places.ofItems (h slot hslot))
    have hout := Places.below (v := .object ms) (s := "slots") hs hin
    rw [List.map_flatMap] at hout
    simp only [List.map_map] at hout ⊢
    have hcomp : ∀ slot : String, ((Path.root.child "slots" ++ ·) ∘ (Path.root.child slot ++ ·)) =
        (Catalog.slotPath slot ++ ·) := fun slot =>
      funext fun q => Path.ext_iff.mpr rfl
    simpa only [← Function.comp_assoc, hcomp] using hout

/-- The members of a block entry are places. -/
theorem places (hc : c.Distinct) (h : BlockFits c nulls false allowed v) :
    Places v (memberPaths (c.blockMembers .root) v) := by
  induction h with
  | null allowed _ =>
    exact Places.memberPaths_nil (Catalog.blockMembers_of_not_object c .root rfl)
  | @block allowed ms block name known taken keys fields slots inner ih =>
    obtain ⟨hfields, hslots⟩ := hc _ _ known
    unfold memberPaths
    rw [Catalog.blockMembers_object c (blockOf? name known)]
    simp only [List.map_append, List.map_flatMap]
    refine Places.append (s := "fields") (t := "slots") (.keys (by decide)) ?_ ?_ ?_ ?_
    · intro p hp
      obtain ⟨m, hm, rfl⟩ := List.mem_map.mp hp
      obtain ⟨n, -, rfl⟩ := List.mem_map.mp hm
      exact ⟨n.relative.segments, rfl⟩
    · intro q hq
      obtain ⟨slot, -, hq⟩ := List.mem_flatMap.mp hq
      obtain ⟨m, hm, rfl⟩ := List.mem_map.mp hq
      obtain ⟨n, -, rfl⟩ := List.mem_map.mp hm
      exact ⟨slot :: n.relative.segments, rfl⟩
    · rcases fields with ⟨-, h⟩ | ⟨fs, hfs, -⟩
      · cases h
      · have hb := Places.below (v := .object ms) (s := "fields") hfs (Places.schema fs hfields)
        rw [List.map_map] at hb ⊢
        exact hb
    · have hb := slotPlaces hslots slots (f := c.blockMembers .root) fun slot hslot x hx => by
        obtain ⟨s, hs⟩ := Entries.contains_iff.mp (Entries.contains_iff_mem_keys.mpr hslot)
        exact of_mem_slotItems slots
          (P := fun _ x => Places x (memberPaths (c.blockMembers .root) x)) ih hs hx
      simp only [List.map_map] at hb ⊢
      exact hb

section Store

variable {block : Block} {ms : Entries Value}
  (name : Entries.get? "name" ms = some (.string block.name))
  (known : c.block? block.name = some block)
  (taken : allowed.all (·.contains block.name) = true)
  (keys : KeysWithin Catalog.blockKeys.contains ms)
  (fields : FieldsFit false block (Entries.get? "fields" ms))
  (slots : SlotsFit block (Entries.get? "slots" ms))
  (inner : ∀ s, Entries.get? "slots" ms = some s → ∀ e ∈ s.members, ∀ slot,
    Entries.get? e.1 block.slots = some slot →
      ∀ x ∈ e.2.items, BlockFits c nulls false slot.allowed x)

include name known taken keys fields slots inner

/-- Storing at a field of a block entry. -/
theorem keeps_fields {n : Member} (hn : n ∈ Member.ofSchema .root block.fields) (w : Value) :
    BlockFits c nulls false allowed ((Path.root.child "fields" ++ n.relative).set w (.object ms)) ∧
      c.blockMembers .root ((Path.root.child "fields" ++ n.relative).set w (.object ms)) =
        c.blockMembers .root (.object ms) := by
  rcases fields with ⟨-, h⟩ | ⟨fs, hfs, hfk⟩
  · cases h
  · obtain ⟨key, hkey, hset⟩ := set_ofSchema hn fs w
    have hlook : (Path.root.child "fields").lookup (.object ms) = some (.object fs) := by
      rw [Path.lookup_child_root]
      exact hfs
    have hroom : n.relative.HasRoom (.object fs) := by
      obtain ⟨_, -, hrel⟩ := Member.mem_ofSchema hn
      rw [hrel]
      exact Path.room_singleton _ fs
    have hstored : (Path.root.child "fields" ++ n.relative).set w (.object ms) =
        .object (ms.insert "fields" (.object (Entries.insert key w fs))) := by
      rw [Path.set_append hlook hroom, hset]
      exact Path.set_eq (Path.store?_object _ _ ms)
    rw [hstored]
    have hname : Entries.get? "name" (ms.insert "fields" (.object (Entries.insert key w fs))) =
        some (.string block.name) := by
      rw [Entries.get?_insert_of_ne (by decide), name]
    have hslots : Entries.get? "slots" (ms.insert "fields" (.object (Entries.insert key w fs))) =
        Entries.get? "slots" ms := Entries.get?_insert_of_ne (by decide) _ _
    constructor
    · refine .block hname known taken (keys.insert (by decide) _) ?_ ?_ ?_
      · rw [Entries.get?_insert_self]
        exact .inr ⟨_, rfl, hfk.insert hkey w⟩
      · rw [hslots]
        exact slots
      · rw [hslots]
        exact inner
    · rw [Catalog.blockMembers_object c (blockOf? hname known),
        Catalog.blockMembers_object c (blockOf? name known)]
      unfold Catalog.slotItems
      rw [hslots]

/-- Other entries that fit in the place of those of one slot. -/
theorem insert_slot {es : Entries Value} (hes : Entries.get? "slots" ms = some (.object es))
    {slot : String} {s : Slot} (hs : Entries.get? slot block.slots = some s) {others : List Value}
    (hothers : ∀ x ∈ others, BlockFits c nulls false s.allowed x) :
    BlockFits c nulls false allowed
      (.object (ms.insert "slots" (.object (Entries.insert slot (.list others) es)))) := by
  have hself : Entries.get? "slots"
      (ms.insert "slots" (.object (Entries.insert slot (.list others) es))) =
        some (.object (Entries.insert slot (.list others) es)) := Entries.get?_insert_self _ _ _
  have hold : ∀ e ∈ es, Entries.contains e.1 block.slots = true ∧ ∃ items, e.2 = .list items := by
    obtain ⟨es', he, hold⟩ := slots _ hes
    cases he
    exact hold
  refine .block ?_ known taken (keys.insert (by decide) _) ?_ ?_ ?_
  · rw [Entries.get?_insert_of_ne (by decide), name]
  · rw [Entries.get?_insert_of_ne (by decide)]
    exact fields
  · intro v hv
    rw [hself, Option.some.injEq] at hv
    refine ⟨_, hv.symm, fun e he => ?_⟩
    rcases Entries.mem_insert he with rfl | he
    · exact ⟨Entries.contains_iff.mpr ⟨s, hs⟩, others, rfl⟩
    · exact hold e he
  · intro v hv e he t ht x hx
    rw [hself, Option.some.injEq] at hv
    subst hv
    rcases Entries.mem_insert he with rfl | he
    · rw [hs, Option.some.injEq] at ht
      subst ht
      exact hothers x hx
    · exact inner _ hes e he t ht x hx

omit taken keys fields slots inner in
/-- They leave the members of the entry as they are when they have those of the old ones. -/
theorem blockMembers_insert_slot {es : Entries Value}
    (hes : Entries.get? "slots" ms = some (.object es)) {slot : String} {others : List Value}
    (hmembers : Member.ofItems (c.blockMembers .root) others =
      Member.ofItems (c.blockMembers .root) (Catalog.slotItems ms slot)) :
    c.blockMembers .root
        (.object (ms.insert "slots" (.object (Entries.insert slot (.list others) es)))) =
      c.blockMembers .root (.object ms) := by
  have hname : Entries.get? "name"
      (ms.insert "slots" (.object (Entries.insert slot (.list others) es))) =
        some (.string block.name) := by
    rw [Entries.get?_insert_of_ne (by decide), name]
  rw [Catalog.blockMembers_object c (blockOf? hname known),
    Catalog.blockMembers_object c (blockOf? name known)]
  congr 1
  refine List.flatMap_congr fun other _ => ?_
  by_cases h : slot = other
  · subst h
    rw [slotItems_insert_self, hmembers]
  · rw [slotItems_insert_of_ne hes h]

/-- Storing at a member of an entry in a slot. -/
theorem keeps_slot {slot : String} {s : Slot} (hs : Entries.get? slot block.slots = some s)
    (ih : ∀ x ∈ Catalog.slotItems ms slot,
      Keeps (c.blockMembers .root) (BlockFits c nulls false s.allowed) x)
    {n : Member} (hn : n ∈ Member.ofItems (c.blockMembers .root) (Catalog.slotItems ms slot))
    (hroom : (Catalog.slotPath slot ++ n.relative).HasRoom (.object ms)) (w : Value) :
    BlockFits c nulls false allowed ((Catalog.slotPath slot ++ n.relative).set w (.object ms)) ∧
      c.blockMembers .root ((Catalog.slotPath slot ++ n.relative).set w (.object ms)) =
        c.blockMembers .root (.object ms) := by
  have hne : Catalog.slotItems ms slot ≠ [] := by
    intro he
    rw [he] at hn
    cases hn
  obtain ⟨es, hes, -⟩ := lookup_slotPath hne
  have hlook := lookup_slotItems hne
  have hn' : n.relative.HasRoom (.list (Catalog.slotItems ms slot)) :=
    (Path.hasRoom_append hlook).mp hroom
  have hitems : ∀ x ∈ Catalog.slotItems ms slot, BlockFits c nulls false s.allowed x := fun x hx =>
    of_mem_slotItems slots (P := fun allowed x => BlockFits c nulls false allowed x) inner hs hx
  obtain ⟨others, hset, hothers, hmembers⟩ := set_ofItems hitems ih hn hn' w
  rw [Path.set_append hlook hn', hset, set_slotPath hes]
  exact ⟨insert_slot name known taken keys fields slots inner hes hs hothers,
    blockMembers_insert_slot name known hes hmembers⟩

end Store

/-- Storing at a member of a block entry keeps the fit and the members. -/
theorem keeps (h : BlockFits c nulls false allowed v) :
    Keeps (c.blockMembers .root) (BlockFits c nulls false allowed) v := by
  induction h with
  | null allowed _ => exact Keeps.of_nil (Catalog.blockMembers_of_not_object c .root rfl)
  | @block allowed ms block name known taken keys fields slots inner ih =>
    intro m hm hroom w
    rw [Catalog.blockMembers_object c (blockOf? name known)] at hm
    rcases List.mem_append.mp hm with hm | hm
    · obtain ⟨n, hn, rfl⟩ := List.mem_map.mp hm
      exact keeps_fields name known taken keys fields slots inner hn w
    · obtain ⟨slot, hslot, hm⟩ := List.mem_flatMap.mp hm
      obtain ⟨n, hn, rfl⟩ := List.mem_map.mp hm
      obtain ⟨s, hs⟩ := Entries.contains_iff.mp (Entries.contains_iff_mem_keys.mpr hslot)
      have ih' : ∀ x ∈ Catalog.slotItems ms slot,
          Keeps (c.blockMembers .root) (BlockFits c nulls false s.allowed) x := fun x hx =>
        of_mem_slotItems slots
          (P := fun allowed x => Keeps (c.blockMembers .root) (BlockFits c nulls false allowed) x)
          ih hs hx
      exact keeps_slot name known taken keys fields slots inner hs ih' hn hroom w

end BlockFits

/-! ### Composite values -/

section Composite

variable {c : Catalog} {nulls : Bool} {d : Declaration}

theorem mem_variants_of_variantOf? {x : Value} {schema : Schema}
    (h : d.variantOf? x = some schema) : ∃ key, (key, schema) ∈ d.variants := by
  unfold Declaration.variantOf? at h
  obtain ⟨key, -, h⟩ := Option.bind_eq_some_iff.mp h
  obtain ⟨text, -, h⟩ := Option.bind_eq_some_iff.mp h
  exact ⟨text, Entries.mem_of_get? h⟩

theorem ItemFits.places (hc : c.Distinct) (hd : d.Distinct) {x : Value}
    (h : ItemFits c nulls false d x) : Places x (memberPaths (c.entryMembers d) x) := by
  unfold ItemFits at h
  unfold Catalog.entryMembers memberPaths
  cases hk : d.kind with
  | repeater =>
    simp only [hk] at h ⊢
    cases h with
    | null => exact Places.nil _
    | object => exact Places.schema _ hd.1
  | structured =>
    simp only [hk] at h ⊢
    cases h with
    | null =>
      cases hs : d.variantOf? .null with
      | none => exact Places.nil _
      | some schema => cases hs
    | object hv =>
      obtain ⟨schema, hs, -⟩ := hv
      obtain ⟨key, hmem⟩ := mem_variants_of_variantOf? hs
      rw [hs]
      exact Places.schema _ (hd.2 _ hmem)
  | blocks =>
    simp only [hk] at h ⊢
    exact h.places hc
  | _ => exact Places.nil _

theorem ItemFits.keeps (hv : d.kind = .structured → d.KeepsVariant) {x : Value}
    (h : ItemFits c nulls false d x) : Keeps (c.entryMembers d) (ItemFits c nulls false d) x := by
  intro m hm hroom w
  unfold Catalog.entryMembers at hm ⊢
  unfold ItemFits at h ⊢
  cases hk : d.kind with
  | repeater =>
    simp only [hk] at h hm ⊢
    cases h with
    | null => cases hm
    | @object ms hkeys =>
      obtain ⟨name, hname, hset⟩ := set_ofSchema hm ms w
      rw [hset]
      exact ⟨.object (hkeys.insert hname w), rfl⟩
  | structured =>
    simp only [hk] at h hm ⊢
    cases h with
    | null => cases hm
    | @object ms hvar =>
      obtain ⟨schema, hs, hkeys⟩ := hvar
      obtain ⟨key, hmem⟩ := mem_variants_of_variantOf? hs
      rw [hs] at hm ⊢
      obtain ⟨name, hname, hset⟩ := set_ofSchema hm ms w
      have hne : name ≠ variantKey := by
        rintro rfl
        rw [hv hk _ hmem] at hname
        cases hname
      have hs' : d.variantOf? (.object (ms.insert name w)) = some schema := by
        rw [← hs]
        unfold Declaration.variantOf? Value.get? Value.members
        simp only [Entries.get?_insert_of_ne hne]
      rw [hset, hs']
      refine ⟨.object ⟨schema, hs', hkeys.insert ?_ w⟩, rfl⟩
      simp [hname]
  | blocks =>
    simp only [hk] at h hm ⊢
    exact h.keeps m hm hroom w
  | _ => simp only [hk] at hm; cases hm

/-- The members of a value that fits are places. -/
theorem Fits.places (hc : c.Distinct) (hd : d.Distinct) {v : Value}
    (h : Fits c nulls false d v) : Places v (memberPaths (c.members d) v) := by
  cases v with
  | list items =>
    unfold memberPaths
    rw [Catalog.members_list]
    exact Places.ofItems fun x hx => ItemFits.places hc hd (h x hx)
  | object ms =>
    unfold memberPaths
    rw [Catalog.members_object]
    split
    · exact Places.schema ms hd.1
    · exact Places.nil _
  | _ => exact Places.memberPaths_nil (Catalog.members_eq_nil c d rfl rfl)

/-- Storing at a member of a value that fits keeps the fit and the members. -/
theorem Fits.keeps (hv : d.kind = .structured → d.KeepsVariant) {v : Value}
    (h : Fits c nulls false d v) : Keeps (c.members d) (Fits c nulls false d) v := by
  cases v with
  | list items =>
    intro m hm hroom w
    rw [Catalog.members_list] at hm
    obtain ⟨others, hset, hothers, hmembers⟩ :=
      set_ofItems h (fun x hx => ItemFits.keeps hv (h x hx)) hm hroom w
    rw [hset, Catalog.members_list, Catalog.members_list]
    exact ⟨hothers, hmembers⟩
  | object ms =>
    intro m hm hroom w
    rw [Catalog.members_object] at hm
    split at hm
    · next hk =>
      obtain ⟨name, hname, hset⟩ := set_ofSchema hm ms w
      rw [hset, Catalog.members_object, Catalog.members_object]
      exact ⟨fun _ => (h hk).insert hname w, rfl⟩
    · cases hm
  | _ => exact Keeps.of_nil (Catalog.members_eq_nil c d rfl rfl)

end Composite

end ContentSchema
