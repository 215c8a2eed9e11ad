import Mathlib.Data.List.Nodup
import ContentSchema.Proofs.NormalForms

/-!
# Member coverage — every datum of a value in shape belongs to one member

The members of a composite value are listed by its schemas, slot by slot; the data of a value are
its keys, wherever they stand (`Declaration.DataKey`).  Once a value is in shape the two meet: no
member lies at or below another, each lies in an object, and each key of the data is the place of
exactly one member (`members_cover`).
-/

namespace ContentSchema

/-! ### Places that do not contain each other -/

theorem Path.Diverge.not_prefix {v : Value} {p q : List String} (h : Path.Diverge v p q) :
    ¬ p <+: q := by
  induction h with
  | here p q h =>
    intro hp
    exact h.ne (List.cons_prefix_cons.mp hp).1
  | under _ _ ih =>
    intro hp
    exact ih (List.cons_prefix_cons.mp hp).2

namespace Places

variable {v : Value} {ps : List Path}

theorem nodup (h : Places v ps) : ps.Nodup := by
  refine h.apart.imp fun {p q} hd heq => ?_
  subst heq
  exact Path.Diverge.not_prefix hd (List.prefix_refl _)

theorem eq_of_prefix (h : Places v ps) {p q : Path} (hp : p ∈ ps) (hq : q ∈ ps)
    (hpq : p.segments <+: q.segments) : p = q := by
  rcases h.eq_or_diverges hp hq with heq | hd
  · exact heq
  · exact (Path.Diverge.not_prefix hd hpq).elim

end Places

/-! ### Places in objects -/

/-- A place below the value whose container is an object. -/
structure Path.InObject (p : Path) (v : Value) : Prop where
  ne : p.segments ≠ []
  container : ∃ ms, p.parent.lookup v = some (.object ms)

theorem Path.InObject.below {p q : Path} {v x : Value} (hp : p.lookup v = some x)
    (h : q.InObject x) : (p ++ q).InObject v := by
  refine ⟨List.append_ne_nil_of_right_ne_nil _ h.ne, ?_⟩
  obtain ⟨ms, hms⟩ := h.container
  have hparent : (p ++ q).parent = p ++ q.parent :=
    Path.ext_iff.mpr (List.dropLast_append_of_ne_nil h.ne)
  exact ⟨ms, by rw [hparent, Path.lookup_append, hp, Option.bind_some, hms]⟩

theorem inObject_key (ms : Entries Value) (key : String) :
    (Path.root.child key).InObject (.object ms) := ⟨List.cons_ne_nil _ _, ms, rfl⟩

theorem inObject_ofSchema {schema : Schema} {m : Member} (hm : m ∈ Member.ofSchema .root schema)
    (ms : Entries Value) : m.relative.InObject (.object ms) := by
  obtain ⟨name, -, hrel⟩ := Member.mem_ofSchema hm
  rw [hrel]
  exact inObject_key ms name

theorem lookup_index_root {items : List Value} {i : Nat} {x : Value} (h : items[i]? = some x) :
    (Path.root.index i).lookup (.list items) = some x := by
  rw [Path.index_eq, Path.lookup_child_root, Path.descend_indexText, h]

theorem inObject_ofItems {f : Value → List Member} {items : List Value}
    (h : ∀ x ∈ items, ∀ m ∈ f x, m.relative.InObject x) :
    ∀ m ∈ Member.ofItems f items, m.relative.InObject (.list items) := by
  intro m hm
  obtain ⟨i, x, n, hx, hn, rfl⟩ := Member.mem_ofItems hm
  exact (h x (List.mem_of_getElem? hx) n hn).below (lookup_index_root hx)

section

variable {c : Catalog} {nulls : Bool} {allowed : Option (List String)} {d : Declaration}
  {v : Value}

theorem BlockFits.inObject (h : BlockFits c nulls false allowed v) :
    ∀ m ∈ c.blockMembers .root v, m.relative.InObject v := by
  induction h with
  | null allowed _ =>
    rw [Catalog.blockMembers_of_not_object c .root rfl]
    exact fun _ h => nomatch h
  | @block allowed ms block name known taken keys fields slots inner ih =>
    intro m hm
    rw [Catalog.blockMembers_object c (BlockFits.blockOf? name known)] at hm
    rcases List.mem_append.mp hm with hm | hm
    · obtain ⟨n, hn, rfl⟩ := List.mem_map.mp hm
      rcases fields with ⟨-, h⟩ | ⟨fs, hfs, -⟩
      · cases h
      · refine (inObject_ofSchema hn fs).below ?_
        rw [Path.lookup_child_root, Path.descend_object, hfs]
    · obtain ⟨slot, hslot, hm⟩ := List.mem_flatMap.mp hm
      obtain ⟨n, hn, rfl⟩ := List.mem_map.mp hm
      obtain ⟨s, hs⟩ := Entries.contains_iff.mp (Entries.contains_iff_mem_keys.mpr hslot)
      have hne : Catalog.slotItems ms slot ≠ [] := by
        intro hnil
        rw [hnil] at hn
        cases hn
      obtain ⟨es, hes, hlist⟩ := lookup_slotPath hne
      refine (inObject_ofItems (fun x hx => ?_) n hn).below
        (x := .list (Catalog.slotItems ms slot)) ?_
      · exact BlockFits.of_mem_slotItems slots
          (P := fun _ x => ∀ m ∈ c.blockMembers .root x, m.relative.InObject x) ih hs hx
      · show (Path.root.child "slots" ++ Path.root.child slot).lookup (.object ms) = _
        rw [lookup_key, hes, Option.bind_some, Path.lookup_child_root, Path.descend_object, hlist]

theorem Fits.inObject (h : Fits c nulls false d v) :
    ∀ m ∈ c.members d v, m.relative.InObject v := by
  cases v with
  | list items =>
    rw [Catalog.members_list]
    refine inObject_ofItems fun x hx => ?_
    have hitem := h x hx
    unfold ItemFits at hitem
    unfold Catalog.entryMembers
    cases hk : d.kind with
    | repeater =>
      cases x with
      | object ms => exact fun m hm => inObject_ofSchema hm ms
      | _ => exact fun _ h => nomatch h
    | structured =>
      simp only
      cases hs : d.variantOf? x with
      | none => exact fun _ h => nomatch h
      | some schema =>
        cases x with
        | object ms => exact fun m hm => inObject_ofSchema hm ms
        | _ => cases hs
    | blocks =>
      simp only [hk] at hitem
      exact hitem.inObject
    | _ => exact fun _ h => nomatch h
  | object ms =>
    intro m hm
    rw [Catalog.members_object] at hm
    split at hm
    · exact inObject_ofSchema hm ms
    · cases hm
  | _ =>
    rw [Catalog.members_eq_nil c d rfl rfl]
    exact fun _ h => nomatch h

end

/-! ### Keys of the data -/

/-- The place of a key in a block entry: a key that is none of the entry's own, a key of its
fields, or such a key of an entry in its slots. -/
inductive BlockKey : Value → Path → Prop
  | own {ms : Entries Value} {key : String} (h : key ∈ Entries.keys ms)
      (hkey : Catalog.blockKeys.contains key = false) :
      BlockKey (.object ms) (Path.root.child key)
  | field {ms fields : Entries Value} {key : String}
      (hfields : Entries.get? "fields" ms = some (.object fields))
      (h : key ∈ Entries.keys fields) :
      BlockKey (.object ms) (Path.root.child "fields" ++ Path.root.child key)
  | nested {ms slots : Entries Value} {slot : String} {items : List Value} {i : Nat} {x : Value}
      {p : Path} (hslots : Entries.get? "slots" ms = some (.object slots))
      (hslot : Entries.get? slot slots = some (.list items)) (hx : items[i]? = some x)
      (h : BlockKey x p) :
      BlockKey (.object ms) (Catalog.slotPath slot ++ (Path.root.index i ++ p))

/-- The place of a key in a composite value: a key of an object, of an entry of a repeater or a
structure, which names its variant under a key of its own, or of a block at any depth. -/
inductive Declaration.DataKey (d : Declaration) : Value → Path → Prop
  | object {ms : Entries Value} {key : String} (hk : d.kind = .object)
      (h : key ∈ Entries.keys ms) : DataKey d (.object ms) (Path.root.child key)
  | entry {items : List Value} {i : Nat} {ms : Entries Value} {key : String}
      (hk : d.kind = .repeater ∨ d.kind = .structured ∧ key ≠ variantKey)
      (hx : items[i]? = some (.object ms)) (h : key ∈ Entries.keys ms) :
      DataKey d (.list items) (Path.root.index i ++ Path.root.child key)
  | block {items : List Value} {i : Nat} {x : Value} {p : Path} (hk : d.kind = .blocks)
      (hx : items[i]? = some x) (h : BlockKey x p) :
      DataKey d (.list items) (Path.root.index i ++ p)

section

variable {c : Catalog} {nulls : Bool} {allowed : Option (List String)} {d : Declaration}
  {v : Value} {p : Path}

theorem mem_memberPaths_ofSchema {schema : Schema} {keep : String → Bool} {ms : Entries Value}
    {key : String} (hkeys : KeysWithin keep ms) (h : key ∈ Entries.keys ms)
    (hkeep : keep key = true → Entries.contains key schema = true) :
    Path.root.child key ∈ (Member.ofSchema .root schema).map (·.relative) := by
  obtain ⟨e, he, rfl⟩ := List.mem_map.mp h
  obtain ⟨field, hfield⟩ := Entries.contains_iff.mp (hkeep (hkeys e he))
  refine List.mem_map.mpr ⟨⟨Path.root.child e.1, field⟩, ?_, rfl⟩
  exact List.mem_map.mpr ⟨(e.1, field), Entries.mem_of_get? hfield, rfl⟩

theorem mem_memberPaths_ofItems {f : Value → List Member} {items : List Value} {i : Nat}
    {x : Value} (hx : items[i]? = some x) (h : p ∈ memberPaths f x) :
    Path.root.index i ++ p ∈ (Member.ofItems f items).map (·.relative) := by
  rw [Member.relative_ofItems]
  refine List.mem_flatMap.mpr ⟨(x, i), List.mem_zipIdx_iff_getElem?.mpr hx, ?_⟩
  exact List.mem_map.mpr ⟨p, h, rfl⟩

/-- The keys of a block entry that fits are places of members. -/
theorem BlockKey.covered (h : BlockKey v p) (hfits : BlockFits c nulls false allowed v) :
    p ∈ memberPaths (c.blockMembers .root) v := by
  induction h generalizing allowed with
  | own h hkey =>
    cases hfits with
    | block name known taken keys =>
      obtain ⟨e, he, rfl⟩ := List.mem_map.mp h
      rw [keys e he] at hkey
      cases hkey
  | @field ms fs key hfields h =>
    cases hfits with
    | @block _ _ block name known taken keys fields =>
      obtain ⟨fs', hfs', hkeys⟩ : ∃ fs', some (Value.object fs) = some (.object fs') ∧
          KeysWithin (Entries.contains · block.fields) fs' := by
        rw [hfields] at fields
        exact fields.resolve_left fun h => nomatch h.1
      cases hfs'
      unfold memberPaths
      rw [Catalog.blockMembers_object c (BlockFits.blockOf? name known), List.map_append,
        List.map_map]
      refine List.mem_append_left _ ?_
      have hmem := mem_memberPaths_ofSchema hkeys h id
      obtain ⟨m, hm, hrel⟩ := List.mem_map.mp hmem
      exact List.mem_map.mpr ⟨m, hm, congrArg (Path.root.child "fields" ++ ·) hrel⟩
  | @nested ms es slot items i x p hslots hslot hx _ ih =>
    cases hfits with
    | @block _ _ block name known taken keys fields slots inner =>
      obtain ⟨es', hes', hall⟩ := slots _ hslots
      cases hes'
      have hmem := Entries.mem_of_get? hslot
      obtain ⟨s, hs⟩ := Entries.contains_iff.mp (hall _ hmem).1
      have hin := ih (inner _ hslots _ hmem s hs x (List.mem_of_getElem? hx))
      have hitems : Catalog.slotItems ms slot = items := by
        simp [Catalog.slotItems, hslots, Value.get?, Value.members, hslot, Value.items]
      unfold memberPaths
      rw [Catalog.blockMembers_object c (BlockFits.blockOf? name known), List.map_append]
      refine List.mem_append_right _ ?_
      rw [List.map_flatMap]
      refine List.mem_flatMap.mpr
        ⟨slot, Entries.contains_iff_mem_keys.mp
          (Entries.contains_of_mem (Entries.mem_of_get? hs)), ?_⟩
      rw [hitems, List.map_map]
      obtain ⟨m, hm, hrel⟩ := List.mem_map.mp (mem_memberPaths_ofItems hx hin)
      exact List.mem_map.mpr ⟨m, hm, congrArg (Catalog.slotPath slot ++ ·) hrel⟩

/-- The keys of a value that fits are places of members. -/
theorem Declaration.DataKey.covered (h : d.DataKey v p) (hfits : Fits c nulls false d v) :
    p ∈ memberPaths (c.members d) v := by
  unfold memberPaths
  cases h with
  | object hk h =>
    rw [Catalog.members_object, if_pos hk]
    exact mem_memberPaths_ofSchema (hfits hk) h id
  | @entry items i ms key hk hx h =>
    have hitem := hfits _ (List.mem_of_getElem? hx)
    rw [Catalog.members_list]
    refine mem_memberPaths_ofItems hx ?_
    unfold memberPaths Catalog.entryMembers
    rcases hk with hk | ⟨hk, hkey⟩
    · rw [hk]
      exact mem_memberPaths_ofSchema (entryFits_object.mp ((itemFits_repeater hk _).mp hitem)) h id
    · obtain ⟨schema, hs, hkeys⟩ := entryFits_object.mp ((itemFits_structured hk _).mp hitem)
      simp only [hk, hs]
      refine mem_memberPaths_ofSchema hkeys h fun hdecl => ?_
      simpa [hkey] using hdecl
  | @block items i x p hk hx h =>
    have hitem := hfits _ (List.mem_of_getElem? hx)
    have hentry : c.entryMembers d = c.blockMembers .root := by
      funext x
      unfold Catalog.entryMembers
      rw [hk]
    rw [Catalog.members_list, hentry]
    exact mem_memberPaths_ofItems hx (h.covered ((itemFits_blocks hk x).mp hitem))

/-! ### Values in shape -/

/-- **Coverage.**  The members of a value in shape lie at distinct places, none of them below
another; the container of each is an object, so that a value can be stored there; and each key of
the data is the place of exactly one member.  Schemas are maps: no two fields and no two slots have
one name. -/
theorem members_cover (hc : c.Registered) (hdistinct : c.Distinct) (hd : d.Distinct)
    {options : Options} {base : Path} {v w : Value} {problems : List Problem}
    (h : c.shape d options base v = ⟨w, problems, true⟩) :
    ((c.members d w).map (·.relative)).Nodup ∧
    (∀ m ∈ c.members d w, ∀ n ∈ c.members d w,
      m.relative.segments <+: n.relative.segments → m.relative = n.relative) ∧
    (∀ m ∈ c.members d w, (∃ ms, m.relative.parent.lookup w = some (.object ms)) ∧
      ∀ x, ∃ w', m.relative.set? x w = some w') ∧
    ∀ p, d.DataKey w p → ((c.members d w).map (·.relative)).count p = 1 := by
  -- members and data do not depend on options, so the declaration may be given those of the run
  have hfits : Fits c true false (d.under options) w := by
    have hreshapes := reshapes_under hc.keyed d options base v
    rw [h] at hreshapes
    exact hreshapes.fits rfl
  have hplaces : Places w ((c.members d w).map (·.relative)) :=
    Fits.places (d := d.under options) hdistinct hd hfits
  have hmem : ∀ m ∈ c.members d w, m.relative ∈ (c.members d w).map (·.relative) :=
    fun m hm => List.mem_map_of_mem hm
  refine ⟨hplaces.nodup, fun m hm n hn => ?_, fun m hm => ⟨?_, ?_⟩, fun p hp => ?_⟩
  · exact hplaces.eq_of_prefix (hmem m hm) (hmem n hn)
  · exact (Fits.inObject (d := d.under options) hfits m hm).container
  · exact hplaces.room _ (hmem m hm)
  · have hkey : (d.under options).DataKey w p := by
      cases hp with
      | object hk hkey => exact .object hk hkey
      | entry hk hx hkey => exact .entry hk hx hkey
      | block hk hx hkey => exact .block hk hx hkey
    exact List.count_eq_one_of_mem hplaces.nodup (hkey.covered hfits)

end

/-! ### Instances -/

theorem distinct_galleries : galleryCatalog.Distinct := by
  intro name block hblock
  have hmem : (name, block) ∈ [("gallery", galleryBlock), ("image", imageBlock)] :=
    Entries.mem_of_get? hblock
  rcases List.mem_cons.mp hmem with h | h
  · cases h
    exact ⟨by decide, by decide⟩
  · cases List.mem_singleton.mp h
    exact ⟨by decide, by decide⟩

/-- A gallery of one labelled image. -/
def labelledGallery : Value :=
  shapedGallery [.object [("fields", .object [("label", .string "A")]), ("name", .string "image")]]

/-- The place of the label. -/
def labelPath : Path :=
  Path.root.index 0 ++ (Catalog.slotPath "default" ++
    (Path.root.index 0 ++ (Path.root.child "fields" ++ Path.root.child "label")))

/-- The label of the image is one member, beside the title that the gallery lacks. -/
theorem members_cover_gallery :
    galleryCatalog.Registered ∧ galleryCatalog.Distinct ∧
      (Declaration.ofKind .blocks).Distinct ∧
      (Declaration.ofKind .blocks).DataKey labelledGallery labelPath ∧
      ((galleryCatalog.members (.ofKind .blocks) labelledGallery).map (·.relative)).count
        labelPath = 1 := by
  have hd : (Declaration.ofKind .blocks).Distinct := ⟨List.nodup_nil, fun _ h => nomatch h⟩
  have hshape : galleryCatalog.shape (.ofKind .blocks) .empty .root labelledGallery =
      ⟨labelledGallery, [], true⟩ := rfl
  have hlabel : (Declaration.ofKind .blocks).DataKey labelledGallery labelPath :=
    .block rfl rfl (.nested rfl rfl rfl (.field rfl List.mem_cons_self))
  have hcover := members_cover registered_galleries distinct_galleries hd hshape
  exact ⟨registered_galleries, distinct_galleries, hd, hlabel, hcover.2.2.2 _ hlabel⟩

/-- The title is a member whether or not there is one. -/
example : (galleryCatalog.members (.ofKind .blocks) labelledGallery).map (·.relative) =
    [Path.root.index 0 ++ Path.root.child "fields" ++ Path.root.child "title", labelPath] := rfl

end ContentSchema
