import ContentSchema.Proofs.RejectedValues

/-!
# Sweeps — the places that the first pass comes to

The first pass goes down from a field to its members as the second does, through values that could
be brought into shape (`PassContext.Sweeps`).  It comes once to each place with a value in what it
makes of a field, and the members that it went through there are those that have values in the end
(`sanitize_sweeps`): storing at a member leaves its value the members that it has
(`Catalog.KeepsMembers`), and members that are stored at have values.
-/

namespace ContentSchema

/-! ### Members that stay -/

namespace Catalog

variable {c : Catalog} {fields : Schema} {d : Declaration} {v : Value}

/-- The members of a value that have values themselves. -/
def presentMembers (c : Catalog) (d : Declaration) (v : Value) : List Member :=
  (c.members d v).filter fun m => (m.relative.lookup v).isSome

theorem mem_presentMembers {m : Member} :
    m ∈ c.presentMembers d v ↔ m ∈ c.members d v ∧ ∃ u, m.relative.lookup v = some u := by
  unfold presentMembers
  rw [List.mem_filter, Option.isSome_iff_exists]

theorem presentMembers_bare (h : ∀ m ∈ c.members d v, m.relative.lookup v = none) :
    c.presentMembers d v = [] := by
  refine List.filter_eq_nil_iff.mpr fun m hm => ?_
  simp [h m hm]

theorem presentMembers_full (h : ∀ m ∈ c.members d v, ∃ u, m.relative.lookup v = some u) :
    c.presentMembers d v = c.members d v :=
  List.filter_eq_self.mpr fun m hm => Option.isSome_iff_exists.mpr (h m hm)

/-- Storing at members of a value leaves it the members that it has: names are told apart, no
variant has a field in the place of its key, and composite values have no sanitizers but those of
their kinds. -/
structure KeepsMembers (c : Catalog) (fields : Schema) : Prop where
  keyed : c.Keyed
  names : c.NamesApart fields
  variants : ∀ d, c.InUse fields d → d.kind = .structured → d.KeepsVariant
  sanitizers : ∀ d, c.InUse fields d → d.kind.isComposite = true → d.additional.sanitizers = []

end Catalog

/-! ### One place -/

section

variable {c : PassContext} {d : Declaration} {o : Options} {path : Path} {s t : PassState}
  {goes : Bool} {fuel : Nat} {v x : Value}

/-- A composite value is opened by the sanitizers of its kind, whatever its options. -/
theorem cleaned_composite (hd : d.kind.isComposite = true) (hs : d.additional.sanitizers = [])
    (path : Path) (o : Options) (record v : Value) :
    c.cleaned path d o record v = d.opened v := by
  have hcontext : (c.fieldContext path d.kind.definition o record).options.values =
      (FieldContext.options { d.context with options := o }).values := rfl
  unfold PassContext.cleaned
  rw [hs, List.append_nil, sanitizeValue_builtin d.kind hcontext v]
  obtain ⟨kind, options, subfields, variants, additional⟩ := d
  cases kind <;> first | rfl | cases hd

/-- What takes the place of a value has no members with values. -/
theorem lookup_default {m : Member} (o : Options)
    (hm : m ∈ c.catalog.members d (d.kind.definition.default o)) :
    m.relative.lookup (d.kind.definition.default o) = none := by
  by_cases hd : d.kind.isComposite = true
  · have hsame : d.kind.definition.default o = d.fallback := by
      obtain ⟨kind, options, subfields, variants, additional⟩ := d
      cases kind <;> first | rfl | cases hd
    rw [hsame] at hm ⊢
    exact lookup_fallback hm
  · rw [c.catalog.members_leaf (Bool.not_eq_true _ ▸ hd)] at hm
    cases hm

/-- A value with whose members the first pass goes on: its containers are as its declaration wants
them, and there is fuel for each member. -/
structure Opened (c : Catalog) (d : Declaration) (fuel : Nat) (v : Value) : Prop where
  fits : ∃ o, Fits c true false (d.under o) v
  fuel : ∀ m ∈ c.members d v, 0 < fuel ∧ ∀ u, m.relative.lookup v = some u → u.weight < fuel

/-- The first pass stores one value at a place before it turns to the members.  It goes on to them
from an opened value; elsewhere no member has a value. -/
structure StoresHere (c : Catalog) (d : Declaration) (fuel : Nat) (path : Path) (s t : PassState)
    (goes : Bool) (x : Value) : Prop where
  record : t.record = path.set x s.record
  opened : goes = true → Opened c d fuel x
  bare : goes = false → ∀ m ∈ c.members d x, m.relative.lookup x = none

/-- Sanitizing a value itself does this, where there is fuel for the value. -/
theorem sanitizeOwn_stores (hkeyed : c.catalog.Keyed)
    (hs : d.kind.isComposite = true → d.additional.sanitizers = []) (hroom : path.HasRoom s.record)
    (hv : v = .null ∨ v.weight ≤ fuel)
    (h : c.sanitizeOwn path d d.kind.definition o v s = .ok goes t) :
    ∃ x, StoresHere c.catalog d fuel path s t goes x := by
  rw [PassContext.sanitizeOwn_run hroom, composite_definition] at h
  by_cases hd : d.kind.isComposite = true
  · simp only [hd, if_true, cleaned_composite hd (hs hd)] at h
    have hreshapes := reshapes_under hkeyed d o path (d.opened v)
    by_cases hvalid : (c.catalog.shape d o path (d.opened v)).valid = true
    · rw [if_pos hvalid] at h
      obtain ⟨rfl, rfl⟩ := EStateM.Result.ok.inj h
      refine ⟨_, rfl, fun _ => ⟨⟨o, hreshapes.fits hvalid⟩, fun m hm => ?_⟩, nofun⟩
      exact fuel_member (d := d.under o) hreshapes hvalid hv hm
    · rw [if_neg hvalid] at h
      obtain ⟨rfl, rfl⟩ := EStateM.Result.ok.inj h
      exact ⟨_, rfl, nofun, fun _ m hm => lookup_default (c := c) o hm⟩
  · simp only [hd] at h
    obtain ⟨rfl, rfl⟩ := EStateM.Result.ok.inj h
    refine ⟨_, rfl, nofun, fun _ m hm => ?_⟩
    rw [c.catalog.members_leaf (Bool.not_eq_true _ ▸ hd)] at hm
    cases hm

theorem sanitizeHere_stores (hc : c.registry = .builtin) (hkeyed : c.catalog.Keyed)
    (hs : d.kind.isComposite = true → d.additional.sanitizers = []) (hroom : path.HasRoom s.record)
    (hfuel : ∀ v, path.lookup s.record = some v → v.weight ≤ fuel)
    (h : c.sanitizeHere path d s = .ok goes t) :
    ∃ x, StoresHere c.catalog d fuel path s t goes x := by
  unfold PassContext.sanitizeHere at h
  rw [bind_run (PassContext.definition_run hc d.kind)] at h
  obtain ⟨o, s₁, ho, h⟩ := bind_ok.mp h
  have hsame : s₁.record = s.record := by
    rw [PassContext.options_run] at ho
    split at ho
    · obtain ⟨-, rfl⟩ := EStateM.Result.ok.inj ho
      rfl
    · cases ho
  have hown : ∀ v, v = .null ∨ v.weight ≤ fuel →
      c.sanitizeOwn path d d.kind.definition o v s₁ = .ok goes t →
        ∃ x, StoresHere c.catalog d fuel path s t goes x := by
    intro v hv h
    obtain ⟨x, hrecord, hopened, hbare⟩ := sanitizeOwn_stores hkeyed hs (hsame ▸ hroom) hv h
    exact ⟨x, hsame ▸ hrecord, hopened, hbare⟩
  rw [bind_run get_run, hsame] at h
  cases hlook : path.lookup s.record with
  | some v =>
    rw [hlook] at h
    exact hown v (.inr (hfuel v hlook)) h
  | none =>
    rw [hlook] at h
    simp only at h
    split at h
    · exact hown .null (.inl rfl) h
    · obtain ⟨⟨⟩, s₂, hset, h⟩ := bind_ok.mp h
      obtain ⟨rfl, rfl⟩ := EStateM.Result.ok.inj h
      obtain ⟨-, rfl⟩ := EStateM.Result.ok.inj hset
      exact ⟨_, congrArg (path.set _) hsame, nofun, fun _ m hm => lookup_default (c := c) o hm⟩

end

/-! ### Visits -/

namespace PassContext

/-- The first pass comes from one place to another: to the same, or from a value whose members it
goes on to to one of them, once it is done with the members before that one. -/
inductive Sweeps (c : PassContext) : Visit → Visit → Prop
  | here (a : Visit) : Sweeps c a a
  | member {fuel : Nat} {path : Path} {d : Declaration} {s t u : PassState}
      {before after : List Member} {m : Member} {b : Visit}
      (hgoes : c.sanitizeHere path d s = .ok true t)
      (hmembers : c.membersAt path d t.record = before ++ m :: after)
      (hbefore : before.forM (fun n => c.sanitize fuel (path ++ n.relative) n.declaration) t =
        .ok () u)
      (hbelow : Sweeps c ⟨fuel, path ++ m.relative, m.declaration, u⟩ b) :
      Sweeps c ⟨fuel + 1, path, d, s⟩ b

end PassContext

/-- The members that the first pass sanitizes at a place, in their order. -/
def Visit.sanitized (a : Visit) (c : PassContext) : List Member :=
  match a.fuel, c.sanitizeHere a.path a.declaration a.state with
  | _ + 1, .ok true t => c.membersAt a.path a.declaration t.record
  | _, _ => []

/-- From a place on the first pass does what it does there itself, and then goes through these
members. -/
theorem Visit.sanitized_run {a : Visit} {c : PassContext} (hfuel : 0 < a.fuel) {goes : Bool}
    {t : PassState} (hgoes : c.sanitizeHere a.path a.declaration a.state = .ok goes t) :
    c.sanitize a.fuel a.path a.declaration a.state = (a.sanitized c).forM
      (fun m => c.sanitize (a.fuel - 1) (a.path ++ m.relative) m.declaration) t := by
  obtain ⟨fuel, path, d, s⟩ := a
  obtain ⟨fuel, rfl⟩ := Nat.exists_eq_succ_of_ne_zero hfuel.ne'
  simp only at hgoes
  unfold Visit.sanitized
  simp only [Nat.succ_eq_add_one, PassContext.sanitize_succ, bind_run hgoes, hgoes]
  cases goes <;> rfl

/-- A pass that ends well from a place on comes to an end with what it does there itself. -/
theorem Visit.exists_sanitized_run {a : Visit} {c : PassContext} (hfuel : 0 < a.fuel)
    {s' : PassState} (h : c.sanitize a.fuel a.path a.declaration a.state = .ok () s') :
    ∃ goes t, c.sanitizeHere a.path a.declaration a.state = .ok goes t ∧
      c.sanitize a.fuel a.path a.declaration a.state = (a.sanitized c).forM
        (fun m => c.sanitize (a.fuel - 1) (a.path ++ m.relative) m.declaration) t := by
  obtain ⟨fuel, hsucc⟩ := Nat.exists_eq_succ_of_ne_zero hfuel.ne'
  rw [hsucc, PassContext.sanitize_succ] at h
  obtain ⟨goes, t, hgoes, -⟩ := bind_ok.mp h
  exact ⟨goes, t, hgoes, sanitized_run hfuel hgoes⟩

/-- A pass that ends well from one place on does so at every place that it comes to. -/
theorem PassContext.Sweeps.run {c : PassContext} {a b : Visit} (h : c.Sweeps a b) {s' : PassState}
    (ha : c.sanitize a.fuel a.path a.declaration a.state = .ok () s') :
    ∃ t, c.sanitize b.fuel b.path b.declaration b.state = .ok () t := by
  induction h generalizing s' with
  | here => exact ⟨s', ha⟩
  | @member fuel path d s t u before after m b hgoes hmembers hbefore _ ih =>
    have hrun : (c.membersAt path d t.record).forM
        (fun n => c.sanitize fuel (path ++ n.relative) n.declaration) t = .ok () s' := by
      rw [PassContext.sanitize_succ, bind_run hgoes] at ha
      exact ha
    rw [hmembers] at hrun
    obtain ⟨u', t', hbefore', hhere, -⟩ := forM_cut hrun
    obtain ⟨-, rfl⟩ := EStateM.Result.ok.inj (hbefore.symm.trans hbefore')
    exact ih hhere

/-- Among the visits `R` there is one to a path, with fuel and for this declaration, and no
other. -/
structure OnlyVisit (R : Visit → Prop) (path : Path) (d : Declaration) (b : Visit) : Prop where
  comes : R b
  place : b.path = path
  declared : b.declaration = d
  fuel : 0 < b.fuel
  once : ∀ b', R b' → b'.path = path → b' = b

/-- Members of a value do not meet, and the one of the visits `R` to its place sanitized those of
them that have values. -/
structure SweptOnce (c : PassContext) (R : Visit → Prop) (path : Path) (d : Declaration)
    (v : Value) : Prop where
  apart : MembersApart v (c.catalog.members d v)
  visit : ∃ b, OnlyVisit R path d b ∧ b.sanitized c = c.catalog.presentMembers d v

section

variable {c : PassContext} {fields : Schema} {a b b' : Visit} {fuel : Nat} {path q : Path}
  {d e : Declaration} {s t u s' : PassState} {before after : List Member} {m : Member} {v w : Value}

namespace PassContext.Sweeps

/-- The pass goes down. -/
theorem under (h : c.Sweeps a b) : a.path.Under b.path := by
  induction h with
  | here a => exact ⟨.root, (Path.append_root _).symm⟩
  | @member _ path _ _ _ _ _ _ m b _ _ _ _ ih =>
    obtain ⟨q, hq⟩ := ih
    exact ⟨m.relative ++ q, by rw [hq, Path.append_assoc]⟩

end PassContext.Sweeps

/-- A member lies below its value, not in its place. -/
theorem not_under_self (hm : m ∈ c.catalog.members d v) : ¬ (path ++ m.relative).Under path := by
  rintro ⟨q, hq⟩
  have hlength := congrArg List.length (Path.ext_iff.mp hq)
  simp only [Path.segments_append, List.length_append] at hlength
  have hpos := List.length_pos_iff.mpr (Catalog.members_ne hm)
  omega

/-- The pass comes back to no place. -/
theorem PassContext.Sweeps.eq_of_path (h : c.Sweeps a b) (hpath : b.path = a.path) : b = a := by
  cases h with
  | here => rfl
  | @member fuel path d s t u before after m b hgoes hmembers hbefore hbelow =>
    have hm : m ∈ c.membersAt path d t.record := hmembers ▸ List.mem_append_cons_self
    have hunder := hbelow.under
    rw [hpath] at hunder
    exact (not_under_self hm hunder).elim

/-- Nothing lies below two members that do not meet. -/
theorem Places.not_under_both {n n' : Member}
    (h : Places v ((before ++ n :: after).map Member.relative)) (hn' : n' ∈ after)
    (hq : (path ++ n.relative).Under q) (hq' : (path ++ n'.relative).Under q) : False := by
  have hapart := h.apart
  rw [List.map_append, List.map_cons] at hapart
  obtain ⟨hfirst, -⟩ := List.pairwise_cons.mp (List.pairwise_append.mp hapart).2.1
  exact (hfirst _ (List.mem_map_of_mem hn')).not_under hq hq'

/-- What was swept from a member on was swept from its value on. -/
theorem SweptOnce.member (hgoes : c.sanitizeHere path d s = .ok true t)
    (hmembers : c.membersAt path d t.record = before ++ m :: after)
    (hplaces : Places v ((c.membersAt path d t.record).map Member.relative))
    (hbefore : before.forM (fun n => c.sanitize fuel (path ++ n.relative) n.declaration) t =
      .ok () u)
    (h : SweptOnce c (c.Sweeps ⟨fuel, path ++ m.relative, m.declaration, u⟩) q e w) :
    SweptOnce c (c.Sweeps ⟨fuel + 1, path, d, s⟩) q e w := by
  obtain ⟨hapart, b, hb, hsanitized⟩ := h
  refine ⟨hapart, b, ⟨.member hgoes hmembers hbefore hb.comes, hb.place, hb.declared, hb.fuel,
    fun b' hb' hpath => ?_⟩, hsanitized⟩
  have hunder : (path ++ m.relative).Under b'.path := by
    rw [hpath, ← hb.place]
    exact hb.comes.under
  cases hb' with
  | here =>
    have hm : m ∈ c.membersAt path d t.record := hmembers ▸ List.mem_append_cons_self
    exact (not_under_self hm hunder).elim
  | @member _ _ _ _ t' u' before' after' m' _ hgoes' hmembers' hbefore' hbelow' =>
    obtain ⟨-, rfl⟩ := EStateM.Result.ok.inj (hgoes.symm.trans hgoes')
    -- through another member the pass would come to a place that this one does not meet
    rcases entries_of_append_eq (hmembers.symm.trans hmembers') with ⟨rfl, rfl⟩ | hlater | hlater
    · obtain ⟨-, rfl⟩ := EStateM.Result.ok.inj (hbefore.symm.trans hbefore')
      exact hb.once b' hbelow' hpath
    · rw [hmembers] at hplaces
      exact (hplaces.not_under_both hlater hunder hbelow'.under).elim
    · rw [hmembers'] at hplaces
      exact (hplaces.not_under_both hlater hbelow'.under hunder).elim

/-- Members that have no values do not meet. -/
theorem membersApart_bare {ms : List Member} (h : ∀ m ∈ ms, m.relative.lookup v = none) :
    MembersApart v ms := by
  refine List.pairwise_iff_forall_sublist.mpr fun {m n} hmn y hy => ?_
  rw [h m (hmn.subset List.mem_cons_self)] at hy
  cases hy

/-- The loop over the members of a value that was opened leaves it these members, each with a
value. -/
theorem sanitizeMembers_sweeps (hk : c.catalog.KeepsMembers fields) (hd : c.catalog.InUse fields d)
    (hv : Opened c.catalog d fuel v) (hgoes : c.sanitizeHere path d s = .ok true t)
    (hlook : path.lookup t.record = some v)
    (hdescend : ∀ m ∈ c.catalog.members d v, ∀ t t', (path ++ m.relative).HasRoom t.record →
      (path ++ m.relative).lookup t.record = m.relative.lookup v →
        c.sanitize fuel (path ++ m.relative) m.declaration t = .ok () t' →
          ∃ u, t'.record = (path ++ m.relative).set u t.record ∧ Everywhere c.catalog
            (SweptOnce c (c.Sweeps ⟨fuel, path ++ m.relative, m.declaration, t⟩))
            (path ++ m.relative) m.declaration u)
    (h : (c.catalog.members d v).forM
      (fun m => c.sanitize fuel (path ++ m.relative) m.declaration) t = .ok () s') :
    ∃ v', s'.record = path.set v' t.record ∧ c.catalog.members d v' = c.catalog.members d v ∧
      MembersApart v' (c.catalog.members d v') ∧
      ∀ m ∈ c.catalog.members d v, ∃ u, m.relative.lookup v' = some u ∧ Everywhere c.catalog
        (SweptOnce c (c.Sweeps ⟨fuel + 1, path, d, s⟩)) (path ++ m.relative) m.declaration u := by
  obtain ⟨⟨o, hfits⟩, -⟩ := hv
  have hplaces : ∀ {w}, Fits c.catalog true false (d.under o) w →
      Places w ((c.catalog.members d w).map Member.relative) := fun hw =>
    Fits.places (d := d.under o) hk.names.blocks (hk.names.nested d hd) hw
  have hmembersAt := c.membersAt_of_lookup hlook d
  -- what the loop has done so far is the way to the next member
  have hloop := forM_places_in_order (b := path) (v := v) (r := Member.relative)
    (I := fun done t' => done.forM
      (fun n => c.sanitize fuel (path ++ n.relative) n.declaration) t = .ok () t')
    (Q := fun m after => ∃ u, after = some u ∧ Everywhere c.catalog
      (SweptOnce c (c.Sweeps ⟨fuel + 1, path, d, s⟩)) (path ++ m.relative) m.declaration u)
    (fun done m todo hmembers t₁ t₂ hbefore hroom hplace hrun => ?_) hlook (hplaces hfits) rfl h
  · obtain ⟨-, v', hstored, hrecord, hswept, -⟩ := hloop
    obtain ⟨hfits', hsame⟩ := hstored.fits (d := d.under o) (hk.variants d hd) hfits
    exact ⟨v', hrecord, hsame, (hplaces hfits').membersApart, hswept⟩
  · have hm : m ∈ c.catalog.members d v := hmembers ▸ List.mem_append_cons_self
    obtain ⟨u, hu, hbelow⟩ := hdescend m hm t₁ t₂ hroom hplace hrun
    refine ⟨?_, .inr ⟨u, hu⟩, u, ?_, hbelow.imp fun q e w hw => ?_⟩
    · exact forM_append_ok.mpr ⟨t₁, hbefore, forM_cons_ok.mpr ⟨t₂, hrun, rfl⟩⟩
    · rw [hu]
      exact Path.lookup_set hroom u
    · exact hw.member hgoes (hmembersAt.trans hmembers) (hmembersAt ▸ hplaces hfits) hbefore

/-- The first pass comes once to each place with a value in what it makes of a field, and sanitizes
there the members that have values. -/
theorem sanitize_sweeps (hc : c.registry = .builtin) (hk : c.catalog.KeepsMembers fields)
    (hd : c.catalog.InUse fields d) (hroom : path.HasRoom s.record) (hfuel : 0 < fuel)
    (hweight : ∀ v, path.lookup s.record = some v → v.weight < fuel)
    (h : c.sanitize fuel path d s = .ok () s') :
    ∃ x, s'.record = path.set x s.record ∧
      Everywhere c.catalog (SweptOnce c (c.Sweeps ⟨fuel, path, d, s⟩)) path d x := by
  induction fuel generalizing path d s s' with
  | zero => exact (Nat.lt_irrefl 0 hfuel).elim
  | succ fuel ih =>
    obtain ⟨goes, t, hgoes, -⟩ := bind_ok.mp (PassContext.sanitize_succ fuel path d ▸ h)
    obtain ⟨x, hx⟩ := sanitizeHere_stores hc hk.keyed (hk.sanitizers d hd) hroom
      (fun v hv => Nat.le_of_lt_succ (hweight v hv)) hgoes
    have hlook : path.lookup t.record = some x := by
      rw [hx.record]
      exact Path.lookup_set hroom x
    have honly : OnlyVisit (c.Sweeps ⟨fuel + 1, path, d, s⟩) path d ⟨fuel + 1, path, d, s⟩ :=
      ⟨.here _, rfl, rfl, hfuel, fun b' hb' hpath => hb'.eq_of_path hpath⟩
    have hsanitized : (Visit.mk (fuel + 1) path d s).sanitized c =
        if goes then c.catalog.members d x else [] := by
      unfold Visit.sanitized
      cases goes <;> simp [hgoes, c.membersAt_of_lookup hlook]
    have hmembers := (Visit.sanitized_run (a := ⟨fuel + 1, path, d, s⟩) hfuel hgoes).symm.trans h
    rw [hsanitized] at hmembers
    cases goes with
    | false =>
      -- a plain value, or one in whose place there is the default now
      obtain ⟨-, rfl⟩ := EStateM.Result.ok.inj hmembers
      have hbare := hx.bare rfl
      refine ⟨x, hx.record, .bare ⟨membersApart_bare hbare, _, honly, ?_⟩ hbare⟩
      rw [hsanitized, Catalog.presentMembers_bare hbare]
      rfl
    | true =>
      have hopened := hx.opened rfl
      obtain ⟨v, hrecord, hsame, hapart, hswept⟩ :=
        sanitizeMembers_sweeps hk hd hopened hgoes hlook (fun m hm t₁ t₂ hroom₁ hfound hrun => by
          obtain ⟨hpos, hlight⟩ := hopened.fuel m hm
          exact ih (hd.member hm) hroom₁ hpos (fun w hw => hlight w (hfound ▸ hw)) hrun) hmembers
      refine ⟨v, by rw [hrecord, hx.record, Path.set_set], .mk ⟨hapart, _, honly, ?_⟩ ?_⟩
      · rw [hsanitized, if_pos rfl, Catalog.presentMembers_full, hsame]
        intro m hm
        obtain ⟨u, hu, -⟩ := hswept m (hsame ▸ hm)
        exact ⟨u, hu⟩
      · intro m hm u hu
        obtain ⟨w, hw, hbelow⟩ := hswept m (hsame ▸ hm)
        obtain rfl := Option.some.inj (hw.symm.trans hu)
        exact hbelow

end

/-! ### Records -/

namespace PassContext

/-- The first pass over a record, begun in `s`, comes to a field in the state `t`. -/
def Begins (c : PassContext) (collection : Collection) (s : PassState) (x : Path × Declaration)
    (t : PassState) : Prop :=
  ∃ before after, c.fieldsFor collection (s.pruned collection).record = before ++ x :: after ∧
    before.forM (fun x => c.sanitize (fuelAt s.record x.1) x.1 x.2) (s.pruned collection) = .ok () t

/-- The first pass over a record, begun in `s`, comes to a place at a field or below one. -/
def Cleans (c : PassContext) (collection : Collection) (s : PassState) (a : Visit) : Prop :=
  ∃ x t, c.Begins collection s x t ∧ c.Sweeps ⟨fuelAt s.record x.1, x.1, x.2, t⟩ a

end PassContext

section

variable {c : PassContext} {collection : Collection} {s s' t u : PassState}
  {x y : Path × Declaration} {q : Path} {e : Declaration} {w : Value}

/-- Fields that take part and lie around one place are the same. -/
theorem eq_of_under_fieldsFor (hnames : (Entries.keys collection.fields).Nodup) {r : Value}
    (hx : x ∈ c.fieldsFor collection r) (hy : y ∈ c.fieldsFor collection r)
    (hxq : x.1.Under q) (hyq : y.1.Under q) : x = y := by
  obtain ⟨field, hfield, hpath⟩ := PassContext.mem_fieldsFor hx
  obtain ⟨other, hother, hpath'⟩ := PassContext.mem_fieldsFor hy
  rw [hpath] at hxq
  rw [hpath'] at hyq
  obtain ⟨rest, hrest⟩ := hxq.segments
  obtain ⟨rest', hrest'⟩ := hyq.segments
  obtain ⟨rfl, -⟩ := List.cons.inj (hrest.symm.trans hrest')
  have hsame := (Prod.mk.inj (List.inj_on_of_nodup_map hnames hfield hother rfl)).2
  exact Prod.ext (hpath.trans hpath'.symm) hsame

/-- The first pass comes to a field once. -/
theorem PassContext.Begins.unique (hnames : (Entries.keys collection.fields).Nodup)
    (ht : c.Begins collection s x t) (hu : c.Begins collection s x u) : t = u := by
  obtain ⟨before, after, hlist, hbefore⟩ := ht
  obtain ⟨before', after', hlist', hbefore'⟩ := hu
  exact forM_before_unique (PassContext.nodup_fieldsFor hnames) hlist hlist' hbefore hbefore'

/-- A pass over a record that ends well does so at every place that it comes to. -/
theorem PassContext.Cleans.run {a : Visit} (ha : c.Cleans collection s a)
    (h : c.sanitizeRecord collection s = .ok true s') :
    ∃ t, c.sanitize a.fuel a.path a.declaration a.state = .ok () t := by
  obtain ⟨x, u, ⟨before, after, hlist, hbefore⟩, hsweeps⟩ := ha
  obtain ⟨-, hloop⟩ := sanitizeRecord_loop h
  rw [hlist] at hloop
  obtain ⟨u', t, hbefore', hhere, -⟩ := forM_cut hloop
  obtain ⟨-, rfl⟩ := EStateM.Result.ok.inj (hbefore.symm.trans hbefore')
  exact hsweeps.run hhere

/-- It comes to fields that take part. -/
theorem PassContext.Begins.mem (h : c.Begins collection s x t) :
    x ∈ c.fieldsFor collection (s.pruned collection).record := by
  obtain ⟨before, after, hlist, -⟩ := h
  exact hlist ▸ List.mem_append_cons_self

/-- What was swept from a field on was swept in the record. -/
theorem SweptOnce.field (hnames : (Entries.keys collection.fields).Nodup)
    (ht : c.Begins collection s x t)
    (h : SweptOnce c (c.Sweeps ⟨PassContext.fuelAt s.record x.1, x.1, x.2, t⟩) q e w) :
    SweptOnce c (c.Cleans collection s) q e w := by
  obtain ⟨hapart, b, hb, hsanitized⟩ := h
  refine ⟨hapart, b, ⟨⟨x, t, ht, hb.comes⟩, hb.place, hb.declared, hb.fuel, ?_⟩, hsanitized⟩
  rintro b' ⟨y, t', ht', hsweeps⟩ hpath
  have hunder : x.1.Under b'.path := by
    rw [hpath, ← hb.place]
    exact hb.comes.under
  obtain rfl := eq_of_under_fieldsFor hnames ht.mem ht'.mem hunder hsweeps.under
  obtain rfl := ht.unique hnames ht'
  exact hb.once b' hsweeps hpath

/-- The first pass over a record comes once to each place with a value in what it makes of a field,
and sanitizes there the members that have values. -/
theorem sanitizeRecord_sweeps (hc : c.registry = .builtin)
    (hk : c.catalog.KeepsMembers collection.fields)
    (h : c.sanitizeRecord collection s = .ok true s') (hx : x ∈ c.fieldsFor collection s'.record) :
    ∃ v, x.1.lookup s'.record = some v ∧
      Everywhere c.catalog (SweptOnce c (c.Cleans collection s)) x.1 x.2 v := by
  obtain ⟨hobject, hloop⟩ := sanitizeRecord_loop h
  obtain ⟨kept, hkept⟩ : ∃ ms, (s.pruned collection).record = .object ms := ⟨_, rfl⟩
  have hloop := forM_places_in_order (b := .root) (v := .object kept) (r := Prod.fst)
    (I := fun done t => done.forM
      (fun x => c.sanitize (PassContext.fuelAt s.record x.1) x.1 x.2) (s.pruned collection) =
        .ok () t)
    (Q := fun x after => ∃ v, after = some v ∧
      Everywhere c.catalog (SweptOnce c (c.Cleans collection s)) x.1 x.2 v)
    (fun done y todo hfields t₁ t₂ hbefore hroom hfound hrun => ?_) (congrArg some hkept)
    (PassContext.places_fieldsFor hk.names.top kept) rfl hloop
  · obtain ⟨-, v', hstored, hrecord, hswept, -⟩ := hloop
    obtain ⟨ms, rfl, hpart⟩ := PassContext.fieldsFor_of_stored (hkept ▸ hstored)
    rw [show s'.record = .object ms from hrecord] at hx ⊢
    exact hswept x (hkept ▸ hpart x hx)
  · have hbegins : c.Begins collection s y t₁ := ⟨done, todo, hfields, hbefore⟩
    obtain ⟨name, hname, hpath⟩ := PassContext.mem_fieldsFor hbegins.mem
    rw [Path.root_append] at hroom hfound ⊢
    rw [← hkept, hpath, lookup_pruned hobject hname, ← hpath] at hfound
    obtain ⟨u, hu, hall⟩ := sanitize_sweeps hc hk (.field hname) hroom (Nat.succ_pos _)
      (fun v hv => PassContext.weight_lt_fuelAt (hfound ▸ hv)) hrun
    refine ⟨?_, .inr ⟨u, hu⟩, u, ?_, hall.imp fun q e w hw => hw.field hk.names.top hbegins⟩
    · exact forM_append_ok.mpr ⟨t₁, hbefore, forM_cons_ok.mpr ⟨t₂, hrun, rfl⟩⟩
    · rw [hu]
      exact Path.lookup_set hroom u

end

end ContentSchema
