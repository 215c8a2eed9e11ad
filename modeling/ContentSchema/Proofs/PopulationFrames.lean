import ContentSchema.Proofs.FieldVisits
import ContentSchema.Proofs.PopulationBudget
import ContentSchema.Proofs.Regions

/-!
# Population frames — what a population leaves as it was

A population goes down into a value through members and changes something only where it comes to a
relation (`RelationAt`).  The members are those of the value as it was stored, and what a relation
puts in its place is never a text; so the entries that name a variant or a block name the same one
throughout, and no relation is found that was not there before (`RelationAt.covered`).
-/

namespace ContentSchema

/-! ### Members of agreeing values -/

namespace AgreesOff

variable {T : Region} {v w x y : Value} {π : List Nat}

/-- Outside the region a member was there before. -/
theorem get? (h : AgreesOff T v w) {key : String} (hw : w.get? key = some y) :
    [] ∈ T ∨ ∃ i x, v.get? key = some x ∧ w.node.position? key = some i ∧
      w.parts[i]? = some y ∧ AgreesOff (T.below [i]) x y := by
  cases h with
  | inside hT _ => exact .inl hT
  | outside node parts =>
    right
    cases w with
    | object ns =>
      obtain ⟨ms, rfl, -⟩ := Value.node_object node.symm
      obtain ⟨i, hi, hy⟩ := Path.exists_position?_of_descend (v := .object ns) hw
      have hlt : i < (Value.object ms).parts.length := by
        rw [← Value.length_parts node]
        exact (List.getElem?_eq_some_iff.mp hy).1
      have hx := List.getElem?_eq_getElem hlt
      exact ⟨i, _, Path.descend_of_position? (v := .object ms) (node ▸ hi) hx, hi, hy,
        parts i _ y hx hy⟩
    | _ => cases hw

theorem string? (h : AgreesOff T v w) {s : String} (hw : w.string? = some s) :
    v.string? = some s := by
  cases w with
  | string t => rw [h.string rfl, ← hw]
  | _ => cases hw

/-- Outside the region a text was there before. -/
theorem get?_string? (h : AgreesOff T v w) (hT : [] ∉ T) {key s : String}
    (hw : (w.get? key).bind Value.string? = some s) :
    (v.get? key).bind Value.string? = some s := by
  obtain ⟨y, hy, hs⟩ := Option.bind_eq_some_iff.mp hw
  obtain ⟨i, x, hx, -, -, hxy⟩ := (h.get? hy).resolve_left hT
  rw [hx]
  exact hxy.string? hs

theorem variantOf? (h : AgreesOff T v w) (hT : [] ∉ T) {d : Declaration} {schema : Schema}
    (hw : d.variantOf? w = some schema) : d.variantOf? v = some schema := by
  obtain ⟨y, hy, hw⟩ := Option.bind_eq_some_iff.mp hw
  obtain ⟨key, hkey, hschema⟩ := Option.bind_eq_some_iff.mp hw
  obtain ⟨x, hx, hs⟩ := Option.bind_eq_some_iff.mp
    (h.get?_string? hT (Option.bind_eq_some_iff.mpr ⟨y, hy, hkey⟩))
  exact Option.bind_eq_some_iff.mpr ⟨x, hx, Option.bind_eq_some_iff.mpr ⟨key, hs, hschema⟩⟩

theorem blockOf? {ms ns : Entries Value} (h : AgreesOff T (.object ms) (.object ns)) (hT : [] ∉ T)
    {c : Catalog} {block : Block} (hw : c.blockOf? ns = some block) :
    c.blockOf? ms = some block := by
  obtain ⟨y, hy, hw⟩ := Option.bind_eq_some_iff.mp hw
  obtain ⟨name, hname, hblock⟩ := Option.bind_eq_some_iff.mp hw
  obtain ⟨x, hx, hs⟩ := Option.bind_eq_some_iff.mp
    (h.get?_string? hT (Option.bind_eq_some_iff.mpr ⟨y, hy, hname⟩))
  exact Option.bind_eq_some_iff.mpr ⟨x, hx, Option.bind_eq_some_iff.mpr ⟨name, hs, hblock⟩⟩

/-- Every present member of one value, outside the region, is a member of another. -/
def MembersFrom (T : Region) (f : Value → List Member) (v w : Value) : Prop :=
  ∀ m ∈ f w, ∀ π, m.relative.place? w = some π → T.Covers π ∨ m ∈ f v

/-- The members of the items of a list are outside the region members of items as they were. -/
theorem ofItems {others : List Value} (h : AgreesOff T v (.list others)) {f : Value → List Member}
    (hf : ∀ x, ∀ y ∈ others, ∀ U, AgreesOff U x y → MembersFrom U f x y) {m : Member}
    (hm : m ∈ Member.ofItems f others) (hπ : m.relative.place? (.list others) = some π) :
    T.Covers π ∨ ∃ items, v = .list items ∧ m ∈ Member.ofItems f items := by
  cases h with
  | inside hT _ => exact .inl (Region.covers_of_nil hT π)
  | outside node parts =>
    obtain ⟨items, rfl, hlen⟩ := Value.node_list node.symm
    obtain ⟨i, y, n, hy, hn, rfl⟩ := Member.mem_ofItems hm
    have hlt : i < items.length := by
      rw [hlen]
      exact (List.getElem?_eq_some_iff.mp hy).1
    have hx := List.getElem?_eq_getElem hlt
    have hi : (Value.list others).node.position? (Path.indexText i) = some i :=
      Path.readIndex?_indexText i
    have hplace : (n.relative.place? y).map (i :: ·) = some π := by
      rw [← hπ]
      exact (Path.placeOf?_cons (v := .list others) hi hy _).symm
    obtain ⟨ρ, hρ, rfl⟩ := Option.map_eq_some_iff.mp hplace
    rcases hf _ y (List.mem_of_getElem? hy) _ (parts i _ y hx hy) n hn ρ hρ with hcov | hmem
    · exact .inl (Region.Covers.of_below (π := [i]) hcov)
    · refine .inr ⟨items, rfl, List.mem_flatMap.mpr ⟨(items[i], i), ?_, ?_⟩⟩
      · exact List.mem_zipIdx_iff_getElem?.mpr hx
      · exact List.mem_map.mpr ⟨n, hmem, rfl⟩

/-- The members of a block entry. -/
theorem blockMembers (c : Catalog) (h : AgreesOff T v w) :
    MembersFrom T (c.blockMembers .root) v w := by
  induction w using Value.weightInduction generalizing T v with
  | step w ih =>
    intro m hm π hπ
    by_cases hT : [] ∈ T
    · exact .inl (Region.covers_of_nil hT π)
    cases w with
    | object ns =>
      cases hblock : c.blockOf? ns with
      | none =>
        rw [c.blockMembers_object_none hblock] at hm
        cases hm
      | some block =>
        have hv : ∃ ms, v = .object ms := by
          cases h with
          | inside hT' _ => exact absurd hT' hT
          | outside node _ =>
            obtain ⟨ms, rfl, -⟩ := Value.node_object node.symm
            exact ⟨ms, rfl⟩
        obtain ⟨ms, rfl⟩ := hv
        rw [c.blockMembers_object (h.blockOf? hT hblock)]
        rw [c.blockMembers_object hblock] at hm
        rcases List.mem_append.mp hm with hm | hm
        · exact .inr (List.mem_append_left _ hm)
        · obtain ⟨slot, hslot, hm⟩ := List.mem_flatMap.mp hm
          obtain ⟨n, hn, rfl⟩ := List.mem_map.mp hm
          have hne : Catalog.slotItems ns slot ≠ [] := fun hnil => by
            rw [hnil] at hn
            cases hn
          obtain ⟨es, hes, hlist⟩ := lookup_slotPath hne
          -- the entries are those that were there, seen through `slots` and the slot
          obtain ⟨i, xs, hxs, hi, hi', hslots⟩ := (h.get? hes).resolve_left hT
          have hplace := Path.placeOf?_cons hi hi' (slot :: n.relative.segments)
          obtain ⟨ρ, hρ, rfl⟩ := Option.map_eq_some_iff.mp (hplace.symm.trans hπ)
          by_cases hT' : [] ∈ T.below [i]
          · exact .inl (Region.Covers.of_below (π := [i]) (Region.covers_of_nil hT' ρ))
          obtain ⟨j, list, hlist', hj, hj', hitems⟩ :=
            (hslots.get? (w := .object es) hlist).resolve_left hT'
          have hplace' := Path.placeOf?_cons hj hj' n.relative.segments
          obtain ⟨κ, hκ, rfl⟩ := Option.map_eq_some_iff.mp (hplace'.symm.trans hρ)
          rcases hitems.ofItems (fun x y hy U hxy =>
            ih y (Catalog.weight_slotItems hy) hxy) hn hκ with hcov | ⟨items, rfl, hmem⟩
          · exact .inl (Region.Covers.of_below (π := [i, j]) hcov)
          · have hslot' : Catalog.slotItems ms slot = items := by
              unfold Catalog.slotItems
              rw [show Entries.get? "slots" ms = some xs from hxs, Option.bind_some, hlist']
              rfl
            refine .inr (List.mem_append_right _ (List.mem_flatMap.mpr ⟨slot, hslot, ?_⟩))
            rw [hslot']
            exact List.mem_map.mpr ⟨n, hmem, rfl⟩
    | _ =>
      rw [c.blockMembers_of_not_object .root rfl] at hm
      cases hm

/-- The members of a declared value. -/
theorem members (c : Catalog) (d : Declaration) (h : AgreesOff T v w) :
    MembersFrom T (c.members d) v w := by
  have hentry : ∀ U x y, AgreesOff U x y → MembersFrom U (c.entryMembers d) x y := by
    intro U x y hxy m hm π hπ
    by_cases hU : [] ∈ U
    · exact .inl (Region.covers_of_nil hU π)
    unfold Catalog.entryMembers at hm ⊢
    cases hk : d.kind with
    | repeater =>
      simp only [hk] at hm ⊢
      cases hxy with
      | inside hU' _ => exact absurd hU' hU
      | outside node _ =>
        refine .inr ?_
        split at hm
        · next hy =>
          obtain ⟨ns, rfl⟩ := Value.isObject_iff.mp hy
          obtain ⟨ms, rfl, -⟩ := Value.node_object node.symm
          exact hm
        · cases hm
    | structured =>
      simp only [hk] at hm ⊢
      cases hschema : d.variantOf? y with
      | none =>
        rw [hschema] at hm
        cases hm
      | some schema =>
        rw [hschema] at hm
        rw [hxy.variantOf? hU hschema]
        exact .inr hm
    | blocks =>
      simp only [hk] at hm ⊢
      exact hxy.blockMembers c m hm π hπ
    | _ =>
      simp only [hk] at hm
      cases hm
  intro m hm π hπ
  cases w with
  | list others =>
    rw [c.members_list d others] at hm
    rcases h.ofItems (fun x y _ U hxy => hentry U x y hxy) hm hπ with hcov | ⟨items, rfl, hmem⟩
    · exact .inl hcov
    · refine .inr ?_
      rw [c.members_list d items]
      exact hmem
  | object ns =>
    cases h with
    | inside hT _ => exact .inl (Region.covers_of_nil hT π)
    | outside node _ =>
      obtain ⟨ms, rfl, -⟩ := Value.node_object node.symm
      rw [c.members_object d ns] at hm
      rw [c.members_object d ms]
      exact .inr hm
  | _ =>
    rw [c.members_eq_nil d rfl rfl] at hm
    cases hm

end AgreesOff

/-! ### Relations -/

section

variable {c : Catalog} {d : Declaration} {T : Region} {u v w : Value} {p : Path} {π ρ : List Nat}

/-- A kind that names other records. -/
def FieldKind.isRelation (k : FieldKind) : Prop := k = .record ∨ k = .records

/-- A population comes to a relation at the path: it is the value itself, or a relation in a member
of it.  A declaration that asks not to be populated ends the way. -/
inductive RelationAt (c : Catalog) : Declaration → Value → Path → Prop
  | here {d : Declaration} {v : Value} (populated : d.additional.population ≠ some false)
      (relation : d.kind.isRelation) : RelationAt c d v .root
  | member {d : Declaration} {v u : Value} {m : Member} {p : Path}
      (populated : d.additional.population ≠ some false) (hm : m ∈ c.members d v)
      (hu : m.relative.lookup v = some u) (below : RelationAt c m.declaration u p) :
      RelationAt c d v (m.relative ++ p)

/-- The places of the relations in a declared value. -/
def relationPlaces (c : Catalog) (d : Declaration) (v : Value) : Region :=
  {π | ∃ p, RelationAt c d v p ∧ p.place? v = some π}

theorem above_relationPlaces (h : d.additional.population ≠ some false) {m : Member}
    (hm : m ∈ c.members d v) (hu : m.relative.lookup v = some u)
    (hπ : m.relative.place? v = some π) :
    (relationPlaces c m.declaration u).above π ⊆ relationPlaces c d v := by
  rintro _ ⟨ρ, ⟨p, hp, hρ⟩, rfl⟩
  exact ⟨m.relative ++ p, .member h hm hu hp, Path.placeOf?_append.mpr ⟨u, π, ρ, hu, hπ, hρ, rfl⟩⟩

/-- Where the values agree off the relations, there are no others than those that were there. -/
theorem RelationAt.covered (hp : RelationAt c d w p) (h : AgreesOff T v w)
    (hT : relationPlaces c d v ⊆ T) (hπ : p.place? w = some π) : T.Covers π := by
  induction hp generalizing v T π with
  | here populated relation =>
    obtain rfl := Option.some.inj hπ
    exact Region.covers_of_mem (hT ⟨.root, .here populated relation, rfl⟩)
  | @member d w u' m p populated hm hu' below ih =>
    obtain ⟨x, κ, ρ, hx, hκ, hρ, rfl⟩ := Path.placeOf?_append.mp hπ
    obtain rfl := Option.some.inj (hu'.symm.trans hx)
    rcases h.members c d m hm κ hκ with hcov | hmem
    · exact hcov.append ρ
    · rcases h.lookup hu' hκ with hcov | ⟨u, hu, hκ', agrees⟩
      · exact hcov.append ρ
      · refine Region.Covers.of_below (ih agrees (fun ρ hρ => ?_) hρ)
        exact hT (above_relationPlaces populated hmem hu hκ' ⟨ρ, hρ, rfl⟩)

end

/-! ### Ways inward -/

/-- A population goes from a record to one of its fields, and from a value to one of its members
unless the declaration asks not to be populated. -/
inductive Engine.Inward (e : Engine) : PopulationTask → PopulationTask → Prop
  | field {name : String} {record u : Value} {collection : Collection} {m : Member}
      (registered : e.catalog.collection? name = some collection)
      (hm : Found (Member.ofSchema .root collection.fields) record m u) :
      Inward e (.record name record) (.field (some name) m.relative m.declaration u)
  | member {collection : Option String} {path : Path} {d : Declaration} {v u : Value} {m : Member}
      (populated : d.additional.population ≠ some false)
      (hm : Found (e.catalog.members d v) v m u) :
      Inward e (.field collection path d v)
        (.field collection (path ++ m.relative) m.declaration u)

/-- What a population comes to inward has no populator of its own. -/
structure Engine.Plain (e : Engine) (D : PopulationTask → Prop) : Prop where
  closed : ∀ {task inner}, D task → e.Inward task inner → D inner
  populator : ∀ {collection path d v}, D (.field collection path d v) →
    d.additional.population ≠ some false → d.additional.populator = none

/-- The value of a declaration in use, wherever it is. -/
inductive Catalog.ValueInUse (c : Catalog) (fields : Schema) : PopulationTask → Prop
  | field {collection : Option String} {path : Path} {d : Declaration} {v : Value}
      (h : c.InUse fields d) : ValueInUse c fields (.field collection path d v)

theorem Engine.plain_inUse {e : Engine} {fields : Schema}
    (populators : ∀ d, e.catalog.InUse fields d → d.additional.populator = none) :
    e.Plain (e.catalog.ValueInUse fields) where
  closed := by
    rintro _ _ ⟨hd⟩ (_ | ⟨_, hm⟩)
    exact ⟨hd.member hm.mem⟩
  populator := by
    rintro collection path d v ⟨hd⟩ -
    exact populators d hd

/-! ### Runs -/

namespace Engine

variable {e : Engine} {populate : Member → Value → PopulationM (Except EngineError Value)}

/-- A run over members keeps what each populated member keeps of the value that it is in. -/
theorem populateMembers_keeps {P : Value → Prop} {ms : List Member} {v w : Value}
    {s t : PopulationState}
    (hstep : ∀ m u, Found ms v m u → ∀ x y s t, P x → m.relative.lookup x = some u →
      populate m u s = (.ok y, t) → P (m.relative.set y x))
    (hv : P v) (hrun : populateMembers populate ms v s = (.ok w, t)) : P w := by
  induction ms generalizing v s with
  | nil =>
    cases hrun
    exact hv
  | cons m ms ih =>
    cases hu : m.relative.lookup v with
    | none =>
      unfold populateMembers at hrun
      rw [hu] at hrun
      exact ih (fun n x hn => hstep n x (.absent hu hn)) hv hrun
    | some u =>
      rw [populateMembers_cons hu] at hrun
      obtain ⟨⟨result, s'⟩, hhere⟩ : ∃ r, populate m u s = r := ⟨_, rfl⟩
      rw [hhere] at hrun
      cases result with
      | error err => cases hrun
      | ok y =>
        exact ih (fun n x hn => hstep n x (.after hu hn))
          (hstep m u (.here hu) v y s s' hv hu hhere) hrun

/-- Populating members one after the other changes something at their relations only. -/
theorem populateMembers_agreesOff (c : Catalog) {T : Region} {ms : List Member} {v w z : Value}
    {s t : PopulationState}
    (hpopulate : ∀ m u, Found ms w m u → ∀ z s t, populate m u s = (.ok z, t) →
      AgreesOff (relationPlaces c m.declaration u) u z)
    (hT : ∀ m ∈ ms, ∀ u π, m.relative.lookup v = some u → m.relative.place? v = some π →
      (relationPlaces c m.declaration u).above π ⊆ T)
    (h : AgreesOff T v w) (hrun : populateMembers populate ms w s = (.ok z, t)) :
    AgreesOff T v z := by
  refine populateMembers_keeps (P := AgreesOff T v) (fun m u hm x y s t hx hu hhere => ?_) h hrun
  obtain ⟨π, hπ⟩ := Path.exists_placeOf? hu
  refine hx.trans ((hpopulate m u hm y s t hhere).set hu hπ) ?_
  -- the relations of the member are relations of the value as it was stored
  rintro _ ⟨ρ, ⟨p, hp, hρ⟩, rfl⟩
  rcases hx.lookup hu hπ with hcov | ⟨z, hz, hπ', agrees⟩
  · exact hcov.append ρ
  · refine Region.Covers.of_below (hp.covered agrees (fun κ hκ => ?_) hρ)
    exact hT m hm.mem z π hz hπ' ⟨κ, hκ, rfl⟩

/-- A population of a record gives an object. -/
theorem isObject_populateMembers {ms : List Member} (hms : ∀ m ∈ ms, m.relative.segments ≠ [])
    {v w : Value} {s t : PopulationState} (hv : v.isObject = true)
    (hrun : populateMembers populate ms v s = (.ok w, t)) : w.isObject = true :=
  populateMembers_keeps (P := fun x => x.isObject = true)
    (fun m _ hm _ y _ _ hx _ _ => Path.isObject_set (hms m hm.mem) y hx) hv hrun

theorem isObject_populateFieldsOf {fuel : Nat} {name : String} {record w : Value}
    {s t : PopulationState} (h : record.isObject = true)
    (hrun : populateFieldsOf e fuel name record s = (.ok w, t)) : w.isObject = true := by
  cases fuel with
  | zero =>
    rw [populateFieldsOf] at hrun
    cases hrun
    exact h
  | succ fuel =>
    rw [populateFieldsOf] at hrun
    cases hcol : e.collection name with
    | error err =>
      rw [hcol] at hrun
      cases hrun
    | ok collection =>
      rw [hcol] at hrun
      simp only [populateFields_eq] at hrun
      exact isObject_populateMembers (fun m hm => Catalog.mem_ofSchema_ne hm) h hrun

/-- A plan for fetched records makes of them what it would make of others, populated or not. -/
theorem run_ofQuery {follow : String → Value → PopulationM (Except EngineError Value)}
    {query : Query} {records : List Value} {gather : List Value → Value} {w : Value}
    {s t : PopulationState}
    (hrun : (Plan.ofQuery query records gather).run follow s = (.ok w, t)) :
    ∃ others, w = gather others ∧ (others = records ∨
      Plan.followAll follow query.request.collection records s = (.ok others, t)) := by
  unfold Plan.ofQuery at hrun
  split at hrun
  · rw [Plan.run_follow] at hrun
    obtain ⟨⟨result, t'⟩, hfollow⟩ : ∃ r, Plan.followAll follow query.request.collection records s =
      r := ⟨_, rfl⟩
    rw [hfollow] at hrun
    cases result with
    | error err => cases hrun
    | ok others =>
      cases hrun
      exact ⟨others, rfl, .inr hfollow⟩
  · cases hrun
    exact ⟨records, rfl, .inl rfl⟩

/-- What a relation makes of a value is no text. -/
theorem plan_not_text (hstored : e.Stored) {kind : FieldKind} (hkind : kind.isRelation)
    {o : Options} {v w : Value} {fuel : Nat} {s t : PopulationState}
    (hrun : (Plan.ofKind kind e.source o v).run (populateFieldsOf e fuel) s = (.ok w, t)) :
    w.string? = none := by
  rcases hkind with rfl | rfl
  · unfold Plan.ofKind Plan.ofId at hrun
    simp only at hrun
    split at hrun
    · cases hrun
      rfl
    · split at hrun
      · cases hrun
      · next query hquery =>
        split at hrun
        · cases hrun
        · cases hrun
          rfl
        · next record hfirst =>
          -- the related record is an object, and stays one when it is populated
          obtain ⟨fetched, hfetch, hhead⟩ := Except.map_eq_ok_iff.mp hfirst
          obtain ⟨_, -, hpart⟩ :=
            fetched_stored hstored hquery hfetch record (List.mem_of_head? hhead)
          have hobject : w.isObject = true := by
            obtain ⟨others, rfl, rfl | hfollow⟩ := run_ofQuery hrun
            · exact hpart.isObject
            · rw [Plan.followAll_cons] at hfollow
              obtain ⟨⟨result, t'⟩, hone⟩ : ∃ r, populateFieldsOf e fuel query.request.collection
                record s = r := ⟨_, rfl⟩
              rw [hone] at hfollow
              cases result with
              | error err => cases hfollow
              | ok populated =>
                cases hfollow
                exact isObject_populateFieldsOf hpart.isObject hone
          obtain ⟨ms, rfl⟩ := Value.isObject_iff.mp hobject
          rfl
  · unfold Plan.ofKind Plan.ofIds at hrun
    simp only at hrun
    split at hrun
    · cases hrun
      rfl
    · split at hrun
      · cases hrun
      · split at hrun
        · cases hrun
        · obtain ⟨others, rfl, -⟩ := run_ofQuery hrun
          rfl

theorem isRelation_of_population {kind : FieldKind} {population : Population}
    (h : kind.definition.population = some population) :
    kind.isRelation ∧ population.terminal.string? = none := by
  cases kind with
  | record =>
    obtain rfl := Option.some.inj h
    exact ⟨.inl rfl, rfl⟩
  | records =>
    obtain rfl := Option.some.inj h
    exact ⟨.inr rfl, rfl⟩
  | _ => cases h

/-- A relation leaves a text only where there was one. -/
theorem callPopulator_text (hstored : e.Stored) {d : Declaration} {population : Population}
    (h : d.kind.definition.population = some population) {o : Options} {v : Value} {fuel : Nat}
    {collection : Option String} {path : Path} {s : PopulationState} {text : String}
    (hrun : (callPopulator ⟨path, d.kind, o, collection, e.source, populateFieldsOf e fuel⟩
      population v s).1 = .string text) : v = .string text := by
  obtain ⟨hkind, hterminal⟩ := isRelation_of_population h
  rw [callPopulator_run] at hrun
  simp only at hrun
  split at hrun
  · rw [population_run h] at hrun
    simp only at hrun
    obtain ⟨⟨result, t⟩, hplan⟩ : ∃ r, (Plan.ofKind d.kind e.source o v).run
      (populateFieldsOf e fuel) (s.take (populationKey collection path)) = r := ⟨_, rfl⟩
    rw [hplan] at hrun
    cases result with
    | error err => exact hrun
    | ok w =>
      have hnone := plan_not_text hstored hkind hplan
      rw [show w = .string text from hrun] at hnone
      cases hnone
  · rw [show population.terminal = .string text from hrun] at hterminal
    cases hterminal

/-- A relation has no members. -/
theorem members_relation (c : Catalog) {d : Declaration} (h : d.kind.isRelation) (v : Value) :
    c.members d v = [] := by
  refine c.members_leaf ?_ v
  rcases h with h | h <;> rw [h] <;> rfl

/-- Populating a declared value changes it at its relations only. -/
theorem populateValue_agreesOff (builtin : e.registry = .builtin) (stored : e.Stored)
    {D : PopulationTask → Prop} (hD : e.Plain D) {fuel : Nat} {collection : Option String}
    {path : Path} {d : Declaration} {v w : Value} {s t : PopulationState}
    (hd : D (.field collection path d v))
    (hrun : populateValue e fuel collection path d v s = (.ok w, t)) :
    AgreesOff (relationPlaces e.catalog d v) v w := by
  induction fuel generalizing path d v w s t with
  | zero =>
    rw [populateValue] at hrun
    cases hrun
    exact .refl _ v
  | succ fuel ih =>
    rw [populateValue_run builtin (hD.populator hd)] at hrun
    split at hrun
    · cases hrun
      exact .refl _ v
    · next hpopulated =>
      obtain ⟨⟨o, cache⟩, hoptions⟩ : ∃ r, s.cache.resolve .builtin path.name d = r := ⟨_, rfl⟩
      rw [hoptions] at hrun
      cases o with
      | error err => cases hrun
      | ok o =>
        simp only at hrun
        obtain ⟨⟨result, s'⟩, hmembers⟩ : ∃ r, populateMembers (fun m => populateValue e fuel
          collection (path ++ m.relative) m.declaration) (e.catalog.members d v) v
            { s with cache := cache } = r := ⟨_, rfl⟩
        rw [hmembers] at hrun
        cases result with
        | error err => cases hrun
        | ok x =>
          simp only at hrun
          cases hpop : d.kind.definition.population with
          | none =>
            rw [hpop] at hrun
            cases hrun
            exact populateMembers_agreesOff e.catalog
              (fun m u hm z s t hrun => ih (hD.closed hd (.member hpopulated hm)) hrun)
              (fun m hm u π hu hπ => above_relationPlaces hpopulated hm hu hπ) (.refl _ v) hmembers
          | some population =>
            rw [hpop] at hrun
            have hrelation := (isRelation_of_population hpop).1
            rw [members_relation e.catalog hrelation] at hmembers
            cases hmembers
            cases hrun
            exact .inside ⟨.root, .here hpopulated hrelation, rfl⟩ fun text =>
              callPopulator_text stored hpop

end Engine

/-! ### Records -/

/-- A path leads to the place that another one has in a value, or through it. -/
def Path.AtOrBelow (v : Value) (p q : Path) : Prop :=
  ∃ r s π, p.segments = r ++ s ∧ placeOf? r v = some π ∧ q.place? v = some π

/-- A relation of a record: a declared field, or a relation in the value of a declared field. -/
def RelationIn (c : Catalog) (fields : Schema) (record : Value) (p : Path) : Prop :=
  ∃ name d v q, (name, d) ∈ fields ∧ (Path.root.child name).lookup record = some v ∧
    RelationAt c d v q ∧ p = Path.root.child name ++ q

/-- The places of the relations of a record. -/
def recordRelations (c : Catalog) (fields : Schema) (record : Value) : Region :=
  {π | ∃ p, RelationIn c fields record p ∧ p.place? record = some π}

/-- Two records are the same outside the relations of the first. -/
structure SameOffRelations (c : Catalog) (fields : Schema) (record result : Value) : Prop where
  /-- They have the same keys. -/
  keys : result.node = record.node
  /-- At a path that is at no relation and below none, there is nothing in both, the same scalar, or
  containers of the same keys or length. -/
  nodes : ∀ p, (∀ q, RelationIn c fields record q → ¬ Path.AtOrBelow record p q) →
    (p.lookup result).map Value.node = (p.lookup record).map Value.node
  /-- At a path with no relation above, at or below it, there is the same value. -/
  values : ∀ p, (∀ q, RelationIn c fields record q →
      ¬ Path.AtOrBelow record p q ∧ ¬ Path.AtOrBelow record q p) →
    p.lookup result = p.lookup record
  /-- Without relations they are the same. -/
  unchanged : (∀ q, ¬ RelationIn c fields record q) → result = record

theorem AgreesOff.sameOffRelations {c : Catalog} {fields : Schema} {record result : Value}
    (h : AgreesOff (recordRelations c fields record) record result) :
    SameOffRelations c fields record result := by
  have hclear : ∀ p : Path,
      (∀ q, RelationIn c fields record q → ¬ Path.AtOrBelow record p q) →
        ∀ q r π, p.segments = q ++ r → Path.placeOf? q record = some π →
          π ∉ recordRelations c fields record := by
    rintro p hp q r π hpath hπ ⟨q', hq', hplace⟩
    exact hp q' hq' ⟨q, r, π, hpath, hπ, hplace⟩
  have hroot : (Path.root.lookup result).map Value.node =
      (Path.root.lookup record).map Value.node := by
    refine h.node_lookup ?_
    rintro q r π hpath hπ ⟨_, ⟨field, d, v, q', -, -, -, rfl⟩, hplace⟩
    obtain ⟨rfl, -⟩ := List.append_eq_nil_iff.mp hpath.symm
    exact Path.placeOf?_cons_ne hplace (Option.some.inj hπ).symm
  refine ⟨Option.some.inj hroot, fun p hp => h.node_lookup (hclear p hp), fun p hp => ?_,
    fun hnone => h.eq_of_empty ?_⟩
  · refine h.lookup_eq (hclear p fun q hq => (hp q hq).1) fun π hπ ρ => ?_
    rintro ⟨q, hq, hplace⟩
    obtain ⟨r, s, hpath, hr⟩ := Path.exists_append_of_placeOf? hplace
    exact (hp q hq).2 ⟨r, s, π, hpath, hr, hπ⟩
  · rintro π ⟨q, hq, -⟩
    exact hnone q hq

namespace Engine

variable {e : Engine}

/-- Populating the fields of a record, each with some fuel, changes it at its relations only. -/
theorem populateSchema_agreesOff (builtin : e.registry = .builtin) (stored : e.Stored)
    {D : PopulationTask → Prop} (hD : e.Plain D) {fields : Schema} {collection : Option String}
    {record result : Value} (hfields : ∀ m u, Found (Member.ofSchema .root fields) record m u →
      D (.field collection m.relative m.declaration u))
    (fuel : Member → Value → Nat) {s t : PopulationState}
    (hrun : populateMembers (fun m u => populateValue e (fuel m u) collection m.relative
      m.declaration u) (Member.ofSchema .root fields) record s = (.ok result, t)) :
    AgreesOff (recordRelations e.catalog fields record) record result := by
  refine populateMembers_agreesOff e.catalog
    (fun m u hm z s t hrun => populateValue_agreesOff builtin stored hD (hfields m u hm) hrun)
    (fun m hm u π hu hπ => ?_) (.refl _ record) hrun
  obtain ⟨field, hfield, hrelative⟩ := Member.mem_ofSchema hm
  rintro _ ⟨ρ, ⟨p, hp, hρ⟩, rfl⟩
  refine ⟨m.relative ++ p, ⟨field, m.declaration, u, p, hfield, hrelative ▸ hu, hp, ?_⟩, ?_⟩
  · rw [hrelative]
  · exact Path.placeOf?_append.mpr ⟨u, π, ρ, hu, hπ, hρ, rfl⟩

/-- The fuel that a population of a record has for a field. -/
def fieldFuel (e : Engine) (name : String) (m : Member) (v : Value) : Nat :=
  e.populationFuel (valueKeys e.catalog (some name) v.weight m.relative m.declaration v) v

/-- A population of a record populates its declared fields one after the other. -/
theorem populateRecord_run {name : String} {collection : Collection}
    (registered : e.catalog.collection? name = some collection) (record : Value) :
    (e.populateRecord name record).1 =
      (populateMembers (fun m u => populateValue e (e.fieldFuel name m u) (some name) m.relative
        m.declaration u) (Member.ofSchema .root collection.fields) record e.populationStart).1 := by
  unfold populateRecord
  rw [Engine.collection, registered]
  simp only [populateFields_eq]
  rfl

/-- A population that ends well leaves a record as it was outside its relations. -/
theorem populateRecord_frame (builtin : e.registry = .builtin) (stored : e.Stored)
    {name : String} {collection : Collection}
    (registered : e.catalog.collection? name = some collection)
    (populators : ∀ d, e.catalog.InUse collection.fields d → d.additional.populator = none)
    {ms : Entries Value} {result : Value}
    (h : (e.populateRecord name (.object ms)).1 = .ok result) :
    SameOffRelations e.catalog collection.fields (.object ms) result := by
  rw [populateRecord_run registered] at h
  refine (populateSchema_agreesOff builtin stored (plain_inUse populators) (fun m u hm => ?_)
    (e.fieldFuel name) (Prod.ext h rfl)).sameOffRelations
  obtain ⟨field, hfield, -⟩ := Member.mem_ofSchema hm.mem
  exact ⟨.field hfield⟩

end Engine

/-! ### Journals -/

/-- A user, as journals refer to one. -/
def editorRelation : Declaration := relatedRecord "users" ["name"] false

/-- Rows that each have an editor and a note. -/
def journalRows : Declaration :=
  ((Declaration.ofKind .repeater).subfield "editor" editorRelation).subfield "note" (.ofKind .text)

/-- Journals with an author, rows, and rows that are shown as they are stored. -/
def journals : Collection where
  name := "journals"
  fields := [("author", editorRelation), ("rows", journalRows),
    ("drafts", journalRows.withoutPopulation)]

def journalsEngine : Engine :=
  (Engine.ofCatalog ⟨[("journals", journals)], []⟩).withSource
    (Store.source ⟨[("users", [.object [("id", .ofInt 1), ("name", .string "Al")]])]⟩)

/-- A journal whose author and whose first editor are shown as given. -/
def journal (author editor : Value) : Value :=
  let row (editor : Value) : Value := .object [("editor", editor), ("note", .string "n")]
  .object [("author", author), ("drafts", .list [row (.ofInt 1)]),
    ("rows", .list [row editor, .object [("note", .string "m")]]), ("title", .string "t")]

/-- The author and the editor of the first row are shown, and nothing else of the journal
changes. -/
theorem populateRecord_frame_journal :
    let user : Value := .object [("id", .ofInt 1), ("name", .string "Al")]
    let stored := journal (.ofInt 1) (.ofInt 1)
    (journalsEngine.populateRecord "journals" stored).1 = .ok (journal user user) ∧
      ∀ p, (∀ q, RelationIn journalsEngine.catalog journals.fields stored q →
          ¬ Path.AtOrBelow stored p q ∧ ¬ Path.AtOrBelow stored q p) →
        p.lookup (journal user user) = p.lookup stored := by
  intro user stored
  have hrun : (journalsEngine.populateRecord "journals" stored).1 = .ok (journal user user) := by
    decide +kernel
  have hplain : ∀ d ∈ [editorRelation, journalRows, journalRows.withoutPopulation, .ofKind .text],
      d.additional.populator = none := by
    simp only [List.forall_mem_cons, List.not_mem_nil, false_imp_iff, implies_true, and_true]
    exact ⟨rfl, rfl, rfl, rfl⟩
  refine ⟨hrun, (Engine.populateRecord_frame rfl ?_ rfl (fun d hd => ?_) hrun).values⟩
  · exact fun _ h => ⟨_, (Option.some.inj h).symm⟩
  · refine hplain d (hd.inPlay.among ?_ ?_ ?_)
    · simp [journals]
    · nofun
    · simp [editorRelation, journalRows, relatedRecord, Declaration.subfield, Declaration.option,
        Declaration.ofKind, Declaration.withoutPopulation, Entries.put, -Prod.forall]

end ContentSchema
