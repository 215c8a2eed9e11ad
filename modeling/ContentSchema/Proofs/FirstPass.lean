import ContentSchema.Proofs.CacheGrowth
import ContentSchema.Proofs.InPlay
import ContentSchema.Proofs.Visits

/-!
# The first pass — what sanitizing makes of a field and of all that is below it

`SanitizeStep` describes one run of the first pass on a field: the record changes at the path of the
field only, the value there fits at every depth, and there are no new errors exactly when the value
was tidy.  It holds of every run with fuel for the value (`sanitize_step`), by induction on the
fuel: a member lies inside its value and weighs less.
-/

namespace ContentSchema

/-- What is in use has distinct names and no sanitizers of its own. -/
structure Catalog.Plain (c : Catalog) (fields : Schema) : Prop where
  keyed : c.Keyed
  distinct : c.Distinct
  names : ∀ d, c.InUse fields d → d.Distinct
  sanitizers : ∀ d, c.InUse fields d → d.additional.sanitizers = []

/-- No field in use stands in the place of a variant key. -/
def Catalog.KeepsVariants (c : Catalog) (fields : Schema) : Prop :=
  ∀ d, c.InUse fields d → d.KeepsVariant

/-- The sanitizers of the kind leave the value, and all its members have values. -/
def Settled (c : Catalog) (d : Declaration) (v : Value) : Prop :=
  d.clean v = v ∧ ∀ m ∈ c.members d v, (m.relative.lookup v).isSome = true

/-- What becomes of the value of a field, if it had one. -/
structure Sanitizes (c : Catalog) (fields : Schema) (path : Path) (d : Declaration)
    (before : Option Value) (x : Value) : Prop where
  fits : c.KeepsVariants fields → Everywhere c (fun _ d v => Fits c true false d v) path d x
  strict : c.KeepsVariants fields → (∀ v, before = some v → Tidy c d v) →
    Everywhere c (fun _ d v => Fits c false false d v) path d x
  /-- A tidy value that comes out as it went in fits strictly and was settled. -/
  settled : before = some x → Tidy c d x →
    Everywhere c (fun _ d v => d.opened v = v) path d x →
      Everywhere c (fun _ d v => Fits c false false d v ∧ Settled c d v) path d x

/-- One run of the first pass on a field. -/
structure SanitizeStep (c : Catalog) (fields : Schema) (path : Path) (d : Declaration)
    (s s' : PassState) : Prop where
  sound : s'.cache.Sound
  record : ∃ x, s'.record = path.set x s.record ∧
    Sanitizes c fields path d (path.lookup s.record) x
  clear : s'.errors.isEmpty = true ↔
    s.errors.isEmpty = true ∧ ∀ v, path.lookup s.record = some v → Tidy c d v

section

variable {c : Catalog} {fields : Schema} {d : Declaration} {v : Value} {nulls bare : Bool}

/-! ### Values without members -/

theorem fits_leaf (hd : d.kind.isComposite = false) (v : Value) : Fits c nulls bare d v := by
  cases v with
  | list items =>
    intro x _
    unfold ItemFits
    split <;> first
      | trivial
      | next hk => rw [hk] at hd; cases hd
  | object ms =>
    intro hk
    rw [hk] at hd
    cases hd
  | _ => trivial

theorem tidy_leaf (hd : d.kind.isComposite = false) (v : Value) : Tidy c d v := by
  refine .mk (fits_leaf hd _) fun m hm => ?_
  rw [c.members_leaf hd] at hm
  cases hm

theorem tidy_null (d : Declaration) : Tidy c d .null := by
  have hnull : d.opened .null = .null := opened_of_container (.inl rfl)
  refine .mk (by rw [hnull]; trivial) fun m hm => ?_
  rw [hnull, c.members_eq_nil d rfl rfl] at hm
  cases hm

theorem fits_fallback (d : Declaration) : Fits c nulls bare d d.fallback := by
  cases hd : d.kind.isComposite with
  | false => exact fits_leaf hd _
  | true =>
    by_cases hk : d.kind = .object
    · rw [fallback_object hk]
      exact fun _ _ h => nomatch h
    · rw [fallback_list hd hk]
      exact fun _ h => nomatch h

/-- What a field falls back to has no value at any member. -/
theorem lookup_fallback {m : Member} (hm : m ∈ c.members d d.fallback) :
    m.relative.lookup d.fallback = none := by
  cases hd : d.kind.isComposite with
  | false =>
    rw [c.members_leaf hd] at hm
    cases hm
  | true =>
    by_cases hk : d.kind = .object
    · rw [fallback_object hk] at hm ⊢
      rw [c.members_object, if_pos hk] at hm
      obtain ⟨name, -, hrel⟩ := Member.mem_ofSchema hm
      rw [hrel, Path.lookup_child_root]
      rfl
    · rw [fallback_list hd hk, c.members_list] at hm
      cases hm

theorem Everywhere.fallback {P : Path → Declaration → Value → Prop} {path : Path}
    (h : P path d d.fallback) : Everywhere c P path d d.fallback :=
  .bare h fun _ hm => lookup_fallback hm

/-! ### Members -/

/-- Storing at members keeps the fit and the list of members. -/
theorem StoredAt.fits (hv : d.kind = .structured → d.KeepsVariant)
    (hfits : Fits c nulls false d v) {v' : Value}
    (h : StoredAt ((c.members d v).map (·.relative)) v v') :
    Fits c nulls false d v' ∧ c.members d v' = c.members d v := by
  induction h with
  | refl => exact ⟨hfits, rfl⟩
  | @store u _ p hp hroom w ih =>
    obtain ⟨m, hm, rfl⟩ := List.mem_map.mp hp
    have hkeeps := ih.1.keeps hv m (ih.2 ▸ hm) hroom w
    exact ⟨hkeeps.1, hkeeps.2.trans ih.2⟩

end

/-! ### Fields -/

section

variable {c : PassContext} {fields : Schema} {d : Declaration} {o : Options} {path : Path}
  {s s' : PassState}

/-- A value of a plain kind becomes what the sanitizers of the kind make of it. -/
theorem sanitizes_leaf {cat : Catalog} (hd : d.kind.isComposite = false) (path : Path) (v : Value) :
    Sanitizes cat fields path d (some v) (d.clean v) := by
  refine ⟨fun _ => .leaf (fits_leaf hd _) (cat.members_leaf hd _),
    fun _ _ => .leaf (fits_leaf hd _) (cat.members_leaf hd _), fun hx _ _ => ?_⟩
  refine .leaf ⟨fits_leaf hd _, ?_, fun m hm => ?_⟩ (cat.members_leaf hd _)
  · rw [← Option.some.inj hx, ← Option.some.inj hx]
  · rw [cat.members_leaf hd] at hm
    cases hm

/-- A composite value that cannot be brought into shape becomes empty. -/
theorem sanitizes_fallback {cat : Catalog} (path : Path) (before : Option Value)
    (h : ∀ v, before = some v → ¬ Tidy cat d v) :
    Sanitizes cat fields path d before d.fallback :=
  ⟨fun _ => .fallback (fits_fallback d), fun _ _ => .fallback (fits_fallback d),
    fun hx htidy _ => (h _ hx htidy).elim⟩

/-- The loop over the members of a value that was brought into shape. -/
theorem sanitizeMembers_step (hp : c.catalog.Plain fields) (hd : c.catalog.InUse fields d)
    {descend : Path → Declaration → PassM Unit} {v : Value} (hfits : Fits c.catalog true false d v)
    (hdescend : ∀ m ∈ c.catalog.members d v, ∀ t t' : PassState, t.cache.Sound →
      (path ++ m.relative).HasRoom t.record →
      (path ++ m.relative).lookup t.record = m.relative.lookup v →
        descend (path ++ m.relative) m.declaration t = .ok () t' →
          SanitizeStep c.catalog fields (path ++ m.relative) m.declaration t t')
    (hs : s.cache.Sound) (hv : path.lookup s.record = some v)
    (h : (c.catalog.members d v).forM (fun m => descend (path ++ m.relative) m.declaration) s =
      .ok () s') :
    s'.cache.Sound ∧
      (∃ v', StoredAt ((c.catalog.members d v).map (·.relative)) v v' ∧
        s'.record = path.set v' s.record ∧
        (∀ m ∈ c.catalog.members d v, ∃ x, m.relative.lookup v' = some x ∧
          Sanitizes c.catalog fields (path ++ m.relative) m.declaration
            (m.relative.lookup v) x) ∧
        ((∀ m ∈ c.catalog.members d v, m.relative.lookup v' = m.relative.lookup v) → v' = v)) ∧
      (s'.errors.isEmpty = true ↔ s.errors.isEmpty = true ∧
        ∀ m ∈ c.catalog.members d v, ∀ u, m.relative.lookup v = some u →
          Tidy c.catalog m.declaration u) := by
  have hloop := forM_places (b := path) (v := v) (r := Member.relative)
    (I := fun done t => t.cache.Sound ∧ (t.errors.isEmpty = true ↔ s.errors.isEmpty = true ∧
      ∀ m ∈ done, ∀ u, m.relative.lookup v = some u → Tidy c.catalog m.declaration u))
    (Q := fun m after => ∃ x, after = some x ∧
      Sanitizes c.catalog fields (path ++ m.relative) m.declaration (m.relative.lookup v) x)
    (fun done m hm t t' hI hroom hlook hrun => ?_) hv (hfits.places hp.distinct (hp.names d hd))
    ⟨hs, by simp⟩ h
  · obtain ⟨⟨hsound, hclear⟩, v', hstored, hrec, hQ, hsame⟩ := hloop
    exact ⟨hsound, ⟨v', hstored, hrec, hQ, hsame⟩, hclear⟩
  · have hstep := hdescend m hm t t' hI.1 hroom hlook hrun
    obtain ⟨x, hx, hsan⟩ := hstep.record
    rw [hlook] at hsan
    refine ⟨⟨hstep.sound, ?_⟩, .inr ⟨x, hx⟩, x, ?_, hsan⟩
    · rw [hstep.clear, hI.2, hlook]
      simp only [List.mem_append, List.mem_singleton, or_imp, forall_and, forall_eq, and_assoc]
    · rw [hx]
      exact Path.lookup_set hroom x

/-- A composite value that was brought into shape, after the loop over its members. -/
theorem sanitizes_shaped (hd : c.catalog.InUse fields d)
    (hcomp : d.kind.isComposite = true) {v v' : Value} {shaped : Shaped Value}
    (hr : Reshapes (c.catalog.members d) (fun nulls bare => Fits c.catalog nulls bare d)
      (d.opened v) shaped) (hvalid : shaped.valid = true)
    (hstored : StoredAt ((c.catalog.members d shaped.value).map (·.relative)) shaped.value v')
    (hmembers : ∀ m ∈ c.catalog.members d shaped.value, ∃ x, m.relative.lookup v' = some x ∧
      Sanitizes c.catalog fields (path ++ m.relative) m.declaration
        (m.relative.lookup shaped.value) x)
    (hsame : (∀ m ∈ c.catalog.members d shaped.value,
      m.relative.lookup v' = m.relative.lookup shaped.value) → v' = shaped.value) :
    Sanitizes c.catalog fields path d (some v) v' := by
  refine ⟨fun hk => ?_, fun hk htidy => ?_, fun hx htidy he => ?_⟩
  · obtain ⟨hfits, hsame⟩ := hstored.fits (fun _ => hk d hd) (hr.fits hvalid)
    refine .mk hfits fun m hm u hu => ?_
    rw [hsame] at hm
    obtain ⟨x, hx, hsan⟩ := hmembers m hm
    rw [hu] at hx
    rw [Option.some.inj hx]
    exact hsan.fits hk
  · obtain ⟨hopened, hbelow⟩ := htidy v rfl
    have hclean : shaped.problems = [] := hr.clean.mpr hopened
    obtain ⟨hfits, hsame⟩ := hstored.fits (fun _ => hk d hd) (hr.strict hclean)
    refine .mk hfits fun m hm u hu => ?_
    rw [hsame] at hm
    obtain ⟨x, hx, hsan⟩ := hmembers m hm
    rw [hu] at hx
    rw [Option.some.inj hx]
    rw [hr.members hclean] at hm
    refine hsan.strict hk fun w hw => hbelow m hm w ?_
    rw [← hr.lookups hclean m hm, hw]
  · obtain rfl := Option.some.inj hx
    obtain ⟨hfits, hbelow⟩ := htidy
    have hopened : d.opened v = v := he.here
    rw [hopened] at hr hfits hbelow
    have hclean : shaped.problems = [] := hr.clean.mpr hfits
    have hlook := hr.lookups hclean
    rw [hr.members hclean] at hmembers hsame
    have hshaped : v = shaped.value := hsame fun m hm => (hlook m hm).symm
    refine .mk ⟨hshaped ▸ hr.strict hclean, ?_, fun m hm => ?_⟩ fun m hm u hu => ?_
    · rw [clean_composite hcomp, hopened]
    · obtain ⟨x, hx, -⟩ := hmembers m hm
      rw [hx]
      rfl
    · obtain ⟨x, hx, hsan⟩ := hmembers m hm
      rw [hlook m hm] at hsan
      rw [hu] at hx
      obtain rfl := Option.some.inj hx
      exact hsan.settled hu (hbelow m hm u hu) (he.member hm hu)

/-- The members of a value lie inside it, and null has none. -/
theorem fuel_member {cat : Catalog} {fuel : Nat} {v : Value} {shaped : Shaped Value}
    (hr : Reshapes (cat.members d) (fun nulls bare => Fits cat nulls bare d) (d.opened v) shaped)
    (hvalid : shaped.valid = true) (hv : v = .null ∨ v.weight ≤ fuel) {m : Member}
    (hm : m ∈ cat.members d shaped.value) :
    0 < fuel ∧ ∀ u, m.relative.lookup shaped.value = some u → u.weight < fuel := by
  rcases hv with rfl | hv
  · have hnull : d.opened .null = .null := opened_of_container (.inl rfl)
    rw [hnull] at hr
    have hsame : shaped.value = .null := hr.same (by trivial)
    rw [hsame, cat.members_eq_nil d rfl rfl] at hm
    cases hm
  · refine ⟨Nat.lt_of_lt_of_le (Path.weight_pos v) hv, fun u hu => ?_⟩
    have hlook := hr.kept hvalid m hm u hu
    have hlt := Path.weight_lookup hlook (Catalog.members_ne hm)
    have hle := weight_opened d v
    omega

theorem sanitizePresent_step (hp : c.catalog.Plain fields) {fuel : Nat}
    (ih : ∀ {path : Path} {d : Declaration} {s s' : PassState}, c.catalog.InUse fields d →
      s.cache.Sound → path.HasRoom s.record → 0 < fuel →
      (∀ v, path.lookup s.record = some v → v.weight < fuel) →
        c.sanitize fuel path d s = .ok () s' → SanitizeStep c.catalog fields path d s s')
    (hd : c.catalog.InUse fields d) (hs : s.cache.Sound)
    (ho : d.Resolves ∧ o.values = d.values) (hroom : path.HasRoom s.record) {v : Value}
    (hv : v = .null ∨ v.weight ≤ fuel)
    (h : c.sanitizePresent (c.sanitize fuel) path d d.kind.definition o v s = .ok () s') :
    s'.cache.Sound ∧
      (∃ x, s'.record = path.set x s.record ∧ Sanitizes c.catalog fields path d (some v) x) ∧
      (s'.errors.isEmpty = true ↔ s.errors.isEmpty = true ∧ Tidy c.catalog d v) := by
  rw [PassContext.sanitizePresent_run _ hroom, cleaned_eq (hp.sanitizers d hd) ho.2,
    composite_definition, default_eq ho.2] at h
  cases hcomp : d.kind.isComposite with
  | false =>
    simp only [hcomp, Bool.false_eq_true, if_false] at h
    obtain ⟨-, rfl⟩ := EStateM.Result.ok.inj h
    exact ⟨hs, ⟨_, rfl, sanitizes_leaf hcomp path v⟩, by simp [tidy_leaf hcomp v]⟩
  | true =>
    simp only [hcomp, if_true, clean_composite hcomp] at h
    have hr := reshapes_shape hp.keyed (fun hk => allowedBlocks_of_resolves hk ho.1 ho.2) path
      (d.opened v)
    obtain ⟨shaped, hshaped⟩ : ∃ x, c.catalog.shape d o path (d.opened v) = x := ⟨_, rfl⟩
    rw [hshaped] at h hr
    cases hvalid : shaped.valid with
    | false =>
      have hne : ¬ shaped.problems = [] := fun hclean => by
        rw [hr.valid hclean] at hvalid
        cases hvalid
      simp only [hvalid, Bool.false_eq_true, if_false] at h
      obtain ⟨-, rfl⟩ := EStateM.Result.ok.inj h
      refine ⟨hs, ⟨_, rfl, sanitizes_fallback path _ fun w hw htidy => hne ?_⟩, ?_⟩
      · rw [Option.some.inj hw] at hr
        obtain ⟨hfits, -⟩ := htidy
        exact hr.clean.mpr hfits
      · rw [ErrorMap.isEmpty_report]
        refine ⟨fun h => (hne h.2).elim, fun h => ?_⟩
        obtain ⟨hfits, -⟩ := h.2
        exact (hne (hr.clean.mpr hfits)).elim
    | true =>
      simp only [hvalid, if_true] at h
      obtain ⟨hsound, ⟨v', hstored, hrec, hmembers, hsame⟩, hclear⟩ :=
        sanitizeMembers_step (s := { s with
            record := path.set shaped.value s.record, errors := s.errors.report shaped.problems })
          hp hd (hr.fits hvalid) (fun m hm t t' ht hroom hlook hrun => by
          obtain ⟨hfuel, hweight⟩ := fuel_member hr hvalid hv hm
          exact ih (hd.member hm) ht hroom hfuel (fun u hu => hweight u (hlook ▸ hu)) hrun)
        hs (Path.lookup_set hroom shaped.value) h
      refine ⟨hsound, ⟨v', ?_, sanitizes_shaped hd hcomp hr hvalid hstored hmembers hsame⟩, ?_⟩
      · rw [hrec, Path.set_set]
      · rw [hclear, ErrorMap.isEmpty_report, and_assoc]
        refine and_congr_right fun _ => ⟨fun ⟨hclean, hall⟩ => ?_, fun ⟨hfits, hbelow⟩ => ?_⟩
        · refine .mk (hr.clean.mp hclean) fun m hm u hu => ?_
          rw [hr.members hclean] at hall
          exact hall m hm u ((hr.lookups hclean m hm).trans hu)
        · have hclean := hr.clean.mpr hfits
          refine ⟨hclean, fun m hm u hu => ?_⟩
          rw [hr.members hclean] at hm
          exact hbelow m hm u ((hr.lookups hclean m hm).symm.trans hu)

/-- Every run of the first pass on a field, with fuel for its value. -/
theorem sanitize_step (hc : c.registry = .builtin) (hp : c.catalog.Plain fields) {fuel : Nat}
    (hd : c.catalog.InUse fields d) (hs : s.cache.Sound) (hroom : path.HasRoom s.record)
    (hfuel : 0 < fuel) (hweight : ∀ v, path.lookup s.record = some v → v.weight < fuel)
    (h : c.sanitize fuel path d s = .ok () s') : SanitizeStep c.catalog fields path d s s' := by
  induction fuel generalizing path d s s' with
  | zero => exact (Nat.lt_irrefl 0 hfuel).elim
  | succ fuel ih =>
    obtain ⟨o, cache, hoptions, hends⟩ := PassContext.sanitize_ends hc h
    obtain ⟨hsound, ho⟩ := hs.of_resolve hoptions
    cases hends with
    | present hlook hrun =>
      obtain ⟨hsound', hrec, hclear⟩ := sanitizePresent_step (s := { s with cache := cache })
        hp ih hd hsound ho hroom (.inr (Nat.le_of_lt_succ (hweight _ hlook))) hrun
      refine ⟨hsound', hlook ▸ hrec, ?_⟩
      rw [hclear, hlook]
      simp
    | required hlook _ hrun =>
      obtain ⟨hsound', ⟨x, hrec, hsan⟩, hclear⟩ :=
        sanitizePresent_step (s := { s with cache := cache }) hp ih hd hsound ho hroom
          (.inl rfl) hrun
      refine ⟨hsound', ⟨x, hrec, hlook ▸ ?_⟩, ?_⟩
      · refine ⟨hsan.fits, fun hk _ => hsan.strict hk fun w hw => ?_, nofun⟩
        rw [← Option.some.inj hw]
        exact tidy_null d
      · rw [hclear, hlook]
        simp [tidy_null]
    | absent hlook =>
      refine ⟨hsound, ⟨_, rfl, ?_⟩, by simp [hlook]⟩
      rw [default_eq ho.2, hlook]
      exact sanitizes_fallback path none nofun

end

/-! ### Records -/

theorem Places.sublist {v : Value} {ps qs : List Path} (h : Places v ps) (hs : qs.Sublist ps) :
    Places v qs :=
  ⟨fun q hq => h.room q (hs.subset hq), h.apart.sublist hs⟩

namespace PassContext

variable {c : PassContext} {collection : Collection} {r r' : Value}

/-- The fields that take part in an update depend on which of them have values. -/
theorem fieldsFor_congr (h : c.operation = .update → ∀ e ∈ collection.fields,
    ((Path.root.child e.1).lookup r).isSome = ((Path.root.child e.1).lookup r').isSome) :
    c.fieldsFor collection r = c.fieldsFor collection r' := by
  refine List.filter_congr fun x hx => ?_
  obtain ⟨e, he, rfl⟩ := List.mem_map.mp hx
  cases hop : c.operation with
  | update => simp only [h hop e he]
  | _ => rfl

theorem mem_fieldsFor_of {e : String × Declaration} (he : e ∈ collection.fields)
    (h : c.operation = .update → ((Path.root.child e.1).lookup r).isSome = true) :
    (Path.root.child e.1, e.2) ∈ c.fieldsFor collection r := by
  refine List.mem_filter.mpr ⟨List.mem_map_of_mem he, ?_⟩
  cases hop : c.operation with
  | update => exact h hop
  | _ => rfl

theorem isSome_of_mem_fieldsFor (hop : c.operation = .update) {x : Path × Declaration}
    (hx : x ∈ c.fieldsFor collection r) : (x.1.lookup r).isSome = true := by
  have hpart := (List.mem_filter.mp hx).2
  rw [hop] at hpart
  exact hpart

theorem mem_fieldsFor_update (hop : c.operation = .update) {e : String × Declaration}
    (he : e ∈ collection.fields) :
    (Path.root.child e.1, e.2) ∈ c.fieldsFor collection r ↔
      ((Path.root.child e.1).lookup r).isSome = true :=
  ⟨isSome_of_mem_fieldsFor hop, fun h => mem_fieldsFor_of he fun _ => h⟩

/-- There is fuel for the value of a field. -/
theorem weight_lt_fuelAt {path : Path} {v : Value} (hv : path.lookup r = some v) :
    v.weight < fuelAt r path := by
  unfold fuelAt
  rw [hv]
  exact Nat.lt_add_of_pos_right (Nat.succ_pos _)

/-- The fields of a record are places of it. -/
theorem places_fieldsFor (hnames : (Entries.keys collection.fields).Nodup) (ms : Entries Value) :
    Places (.object ms) ((c.fieldsFor collection r).map (·.1)) := by
  refine (Places.keys ms hnames).sublist ?_
  have hpaths : (collection.fields.map fun e => (Path.root.child e.1, e.2)).map (·.1) =
      (Entries.keys collection.fields).map (Path.root.child ·) := by
    unfold Entries.keys
    rw [List.map_map, List.map_map]
    rfl
  rw [← hpaths]
  exact List.filter_sublist.map _

theorem nodup_fieldsFor (hnames : (Entries.keys collection.fields).Nodup) :
    (c.fieldsFor collection r).Nodup := by
  refine (List.Nodup.of_map (fun x => x.1.name) ?_).filter _
  rw [List.map_map]
  exact hnames

end PassContext

/-- One run of the first pass on a record with the members `ms`. -/
structure RecordStep (c : PassContext) (collection : Collection) (ms : Entries Value)
    (s s' : PassState) : Prop where
  sound : s'.cache.Sound
  keys : ∃ ms', s'.record = .object ms' ∧ KeysWithin (PassContext.ownKey collection) ms'
  fields : ∀ x ∈ c.fieldsFor collection (.object ms), ∃ w, x.1.lookup s'.record = some w ∧
    Sanitizes c.catalog collection.fields x.1 x.2 (x.1.lookup (.object ms)) w
  /-- The fields that take part stay the same. -/
  same : c.fieldsFor collection s'.record = c.fieldsFor collection (.object ms)
  clear : s'.errors.isEmpty = true ↔ s.errors.isEmpty = true ∧
    KeysWithin (PassContext.ownKey collection) ms ∧
      ∀ x ∈ c.fieldsFor collection (.object ms), ∀ v, x.1.lookup (.object ms) = some v →
        Tidy c.catalog x.2 v

section

variable {c : PassContext} {collection : Collection} {s s' : PassState}

/-- Storing at fields keeps to the keys of the record and touches no other field. -/
theorem StoredAt.fields {ms : Entries Value} {k : String → Bool} {ps : List Path}
    (hps : ∀ p ∈ ps, ∃ name, k name = true ∧ p = Path.root.child name)
    (hms : KeysWithin k ms) {v' : Value} (h : StoredAt ps (.object ms) v') :
    ∃ ms', v' = .object ms' ∧ KeysWithin k ms' ∧
      ∀ name, Path.root.child name ∉ ps → Entries.get? name ms' = Entries.get? name ms := by
  induction h with
  | refl => exact ⟨ms, rfl, hms, fun _ _ => rfl⟩
  | @store u _ p hp hroom w ih =>
    obtain ⟨us, rfl, hus, hget⟩ := ih
    obtain ⟨name, hname, rfl⟩ := hps p hp
    refine ⟨Entries.insert name w us, Path.set_eq (Path.store?_object name w us),
      hus.insert hname w, fun other hother => ?_⟩
    rw [Entries.get?_insert_of_ne fun e => hother (by rw [← e]; exact hp)]
    exact hget other hother

/-- Once fields that take part were stored at, no others take part. -/
theorem PassContext.fieldsFor_of_stored {ms : Entries Value} {v' : Value}
    (h : StoredAt ((c.fieldsFor collection (.object ms)).map Prod.fst) (.object ms) v') :
    ∃ ms', v' = .object ms' ∧ ∀ x ∈ c.fieldsFor collection (.object ms'),
      x ∈ c.fieldsFor collection (.object ms) := by
  obtain ⟨ms', rfl, -, hothers⟩ := h.fields (k := fun _ => true)
    (fun p hp => by
      obtain ⟨y, hy, rfl⟩ := List.mem_map.mp hp
      obtain ⟨other, -, hpath⟩ := PassContext.mem_fieldsFor hy
      exact ⟨other, rfl, hpath⟩)
    (fun _ _ => rfl)
  refine ⟨ms', rfl, ?_⟩
  rintro ⟨path, d⟩ hx
  obtain ⟨name, hname, hpath⟩ := PassContext.mem_fieldsFor hx
  obtain rfl : path = Path.root.child name := hpath
  refine PassContext.mem_fieldsFor_of hname fun hop => ?_
  by_cases hmem : Path.root.child name ∈ (c.fieldsFor collection (.object ms)).map Prod.fst
  · obtain ⟨y, hy, hplace⟩ := List.mem_map.mp hmem
    rw [← hplace]
    exact PassContext.isSome_of_mem_fieldsFor hop hy
  · -- nothing was stored at a field that took no part
    have hsome := PassContext.isSome_of_mem_fieldsFor hop hx
    rw [Path.lookup_child_root, Path.descend_object] at hsome ⊢
    rw [← hothers name hmem]
    exact hsome

/-- Once every field that takes part has a value, the same fields take part. -/
theorem PassContext.fieldsFor_eq_of_stored {ms : Entries Value} {v' : Value}
    (h : StoredAt ((c.fieldsFor collection (.object ms)).map Prod.fst) (.object ms) v')
    (hvalues : ∀ x ∈ c.fieldsFor collection (.object ms), (x.1.lookup v').isSome = true) :
    c.fieldsFor collection v' = c.fieldsFor collection (.object ms) := by
  obtain ⟨ms', rfl, hback⟩ := PassContext.fieldsFor_of_stored h
  refine PassContext.fieldsFor_congr fun hop e he => Bool.eq_iff_iff.mpr ?_
  rw [← PassContext.mem_fieldsFor_update hop he, ← PassContext.mem_fieldsFor_update hop he]
  exact ⟨hback _, fun hx =>
    (PassContext.mem_fieldsFor_update hop he).mpr (hvalues _ hx)⟩

theorem ownKey_of_mem {e : String × Declaration} (h : e ∈ collection.fields) :
    PassContext.ownKey collection e.1 = true := by
  unfold PassContext.ownKey Collection.declares
  rw [Entries.contains_of_mem h, Bool.or_true]

/-- The fields of a record stay when its undeclared members are dropped. -/
theorem lookup_kept {e : String × Declaration} (he : e ∈ collection.fields) (ms : Entries Value) :
    (Path.root.child e.1).lookup
        (.object (ms.filter fun m => PassContext.ownKey collection m.1)) =
      (Path.root.child e.1).lookup (.object ms) := by
  rw [Path.lookup_child_root, Path.lookup_child_root, Path.descend_object, Path.descend_object,
    Entries.get?_filter (PassContext.ownKey collection), if_pos (ownKey_of_mem he)]

theorem sanitizeRecord_step (hc : c.registry = .builtin) (hp : c.catalog.Plain collection.fields)
    (hnames : (Entries.keys collection.fields).Nodup) (hs : s.cache.Sound) {ms : Entries Value}
    (hms : s.record = .object ms) {accepted : Bool}
    (h : c.sanitizeRecord collection s = .ok accepted s') :
    accepted = true ∧ RecordStep c collection ms s s' := by
  rw [PassContext.sanitizeRecord_object collection hms] at h
  obtain ⟨⟨kept, problems⟩, hprune⟩ :
    ∃ p, prune .root (PassContext.ownKey collection) ms = p := ⟨_, rfl⟩
  obtain rfl : kept = ms.filter fun m => PassContext.ownKey collection m.1 :=
    (congrArg Prod.fst hprune).symm
  have hproblems : problems = [] ↔ KeysWithin (PassContext.ownKey collection) ms := by
    rw [← @prune_problems .root, hprune]
  rw [hprune] at h
  obtain ⟨⟨⟩, s₁, hloop, ht⟩ := bind_ok.mp h
  obtain ⟨rfl, rfl⟩ := EStateM.Result.ok.inj ht
  have hfields : c.fieldsFor collection
      (.object (ms.filter fun m => PassContext.ownKey collection m.1)) =
        c.fieldsFor collection (.object ms) :=
    PassContext.fieldsFor_congr fun _ e he => by rw [lookup_kept he]
  have hlook : ∀ x ∈ c.fieldsFor collection (.object ms),
      x.1.lookup (.object (ms.filter fun m => PassContext.ownKey collection m.1)) =
        x.1.lookup (.object ms) := by
    intro x hx
    obtain ⟨name, hname, hpath⟩ := PassContext.mem_fieldsFor hx
    rw [hpath]
    exact lookup_kept hname ms
  have hvisit := forM_places (b := .root) (r := Prod.fst)
    (s := { s with
      record := .object (ms.filter fun m => PassContext.ownKey collection m.1)
      errors := s.errors.report problems })
    (I := fun done t => t.cache.Sound ∧
      (t.errors.isEmpty = true ↔ (s.errors.report problems).isEmpty = true ∧
        ∀ x ∈ done, ∀ v, x.1.lookup (.object ms) = some v → Tidy c.catalog x.2 v))
    (Q := fun x after => ∃ w, after = some w ∧
      Sanitizes c.catalog collection.fields x.1 x.2 (x.1.lookup (.object ms)) w)
    (fun done x hx t t' hI hroom hfound hrun => ?_) (Path.lookup_root _)
    (PassContext.places_fieldsFor hnames _) ⟨hs, by simp⟩ hloop
  · obtain ⟨⟨hsound, hclear⟩, v', hstored, hrec, hQ, -⟩ := hvisit
    have hrec' : s₁.record = v' := hrec
    rw [← hrec'] at hstored hQ
    obtain ⟨ms', hms', hkeys, -⟩ := hstored.fields (k := PassContext.ownKey collection)
      (fun p hp => by
        obtain ⟨x, hx, rfl⟩ := List.mem_map.mp hp
        obtain ⟨name, hname, hpath⟩ := PassContext.mem_fieldsFor hx
        exact ⟨name, ownKey_of_mem hname, hpath⟩)
      (keysWithin_filter _ ms)
    have hsame := PassContext.fieldsFor_eq_of_stored hstored fun x hx => by
      obtain ⟨w, hw, -⟩ := hQ x hx
      rw [hw]
      rfl
    rw [hfields] at hQ hsame hclear
    refine ⟨rfl, hsound, ⟨ms', hms', hkeys⟩, hQ, hsame, ?_⟩
    rw [hclear, ErrorMap.isEmpty_report, hproblems, and_assoc]
  · have hpath : Path.root ++ x.1 = x.1 := Path.root_append x.1
    rw [hfields] at hx
    rw [hpath] at hroom hfound ⊢
    rw [hlook x hx] at hfound
    have hstep := sanitize_step hc hp (PassContext.inUse_fieldsFor hx) hI.1 hroom
      (Nat.succ_pos _) (fun v hv => PassContext.weight_lt_fuelAt (hfound ▸ hv)) hrun
    obtain ⟨w, hw, hsan⟩ := hstep.record
    rw [hfound] at hsan
    refine ⟨⟨hstep.sound, ?_⟩, .inr ⟨w, hw⟩, w, ?_, hsan⟩
    · rw [hstep.clear, hI.2, hfound]
      simp only [List.mem_append, List.mem_singleton, or_imp, forall_and, forall_eq, and_assoc]
    · rw [hw]
      exact Path.lookup_set hroom w

end

end ContentSchema
