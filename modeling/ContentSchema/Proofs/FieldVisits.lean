import ContentSchema.Proofs.FieldErrors
import ContentSchema.Proofs.ImmutableValues
import Mathlib.Data.List.Nodup

/-!
# Field visits — one field of a record among the others

Both passes treat the fields that take part one after the other.  Whatever is done to one of them
is confined to it (`confined_sanitize`, `confined_check`), so another field finds its own value and
its own entries of the error map as if the first had not been treated.  The first pass leaves a
value at every field that takes part (`sanitizeRecord_fields`); the second comes to each of them
(`exists_comesTo`), treats it, and goes on with the others (`ComesTo.rest`).
-/

namespace ContentSchema

/-! ### Members of a record -/

theorem lookup_object {record : Value} (h : record.isObject = true) (field : String) :
    (Path.root.child field).lookup record = record.get? field := by
  obtain ⟨ms, rfl⟩ := Value.isObject_iff.mp h
  exact Path.lookup_child_root field _

namespace Path

variable {p : Path} {r : Value}

theorem set_child_root (key : String) (w : Value) (ms : Entries Value) :
    (root.child key).set w (.object ms) = .object (Entries.insert key w ms) :=
  set_eq (store?_object key w ms)

/-- Storing inside an object gives one of its members a value, or changes nothing. -/
theorem set_object (hp : p.segments ≠ []) (w : Value) (ms : Entries Value) :
    p.set w (.object ms) = .object ms ∨
      ∃ key x, p.set w (.object ms) = .object (Entries.insert key x ms) := by
  obtain ⟨segments⟩ := p
  cases segments with
  | nil => exact (hp rfl).elim
  | cons segment rest =>
    cases hset : setSegments? w (segment :: rest) (.object ms) with
    | none =>
      refine .inl ?_
      unfold set set?
      rw [hset]
      rfl
    | some v' =>
      obtain ⟨x, hx⟩ := exists_store?_of_setSegments? hset
      rw [store?_object] at hx
      exact .inr ⟨segment, x, (set_eq hset).trans (Option.some.inj hx).symm⟩

theorem isObject_set (hp : p.segments ≠ []) (w : Value) (hr : r.isObject = true) :
    (p.set w r).isObject = true := by
  obtain ⟨ms, rfl⟩ := Value.isObject_iff.mp hr
  rcases set_object hp w ms with h | ⟨key, x, h⟩
  · rw [h]
    rfl
  · rw [h]
    rfl

/-- Storing takes no member away. -/
theorem isSome_get?_set (hp : p.segments ≠ []) (w : Value) (hr : r.isObject = true) {key : String}
    (hkey : (r.get? key).isSome = true) : ((p.set w r).get? key).isSome = true := by
  obtain ⟨ms, rfl⟩ := Value.isObject_iff.mp hr
  rcases set_object hp w ms with h | ⟨other, x, h⟩
  · rw [h]
    exact hkey
  · rw [h]
    show (Entries.get? key (Entries.insert other x ms)).isSome = true
    by_cases hne : other = key
    · rw [hne, Entries.get?_insert_self]
      rfl
    · rw [Entries.get?_insert_of_ne hne]
      exact hkey

/-- Below a member of a record the path goes through its key. -/
theorem Under.segments {name : String} (h : (root.child name).Under p) :
    ∃ rest, p.segments = name :: rest := by
  obtain ⟨q, rfl⟩ := h
  exact ⟨q.segments, rfl⟩

end Path

/-! ### Frames -/

section Frames

variable {P : PassState → Prop} {S S' R R' : Path → Prop}

theorem Frame.mono (h : Frame P S R) (hS : ∀ p, S' p → S p) (hR : ∀ p, R' p → R p) :
    Frame P S' R' where
  resolve name d hs := h.resolve name d hs
  store w hp hs := h.store w (hS _ hp) hs
  report message hp hs := h.report message (hR _ hp) hs

/-- A record stays an object. -/
theorem frame_object :
    Frame (fun s => s.record.isObject = true) (fun p => p.segments ≠ []) fun _ => True where
  resolve _ _ h := h
  store w hp h := Path.isObject_set hp w h
  report _ _ h := h

/-- A member of a record stays. -/
theorem frame_present (key : String) :
    Frame (fun s => s.record.isObject = true ∧ (s.record.get? key).isSome = true)
      (fun p => p.segments ≠ []) fun _ => True where
  resolve _ _ h := h
  store w hp h := ⟨Path.isObject_set hp w h.1, Path.isSome_get?_set hp w h.1 h.2⟩
  report _ _ h := h

/-- What the cache keeps stays sound. -/
theorem frame_sound : Frame (fun s => s.cache.Sound) (fun _ => True) fun _ => True where
  resolve name d h := (h.resolve name d).1
  store _ _ h := h
  report _ _ h := h

/-- The entries of a name survive whatever is reported elsewhere. -/
theorem frame_under (name : String) (entries : ErrorMap) :
    Frame (fun s => s.errors.under name = entries) (fun _ => True)
      fun p => ¬ KeyAt name p.text where
  resolve _ _ h := h
  store _ _ h := h
  report message hp h := (ErrorMap.under_add_of_not hp _ message).trans h

end Frames

/-! ### Confinement -/

/-- All that a part of a pass stores and reports stands at a path or below it. -/
def Confined (path : Path) (m : PassM Unit) : Prop :=
  ∀ P : PassState → Prop, Frame P path.Under path.Under → Maintains P m

section Confinement

variable {c : PassContext} {m : PassM Unit} {name other : String}

theorem confined_sanitize (hc : c.registry = .builtin) (fuel : Nat) (path : Path)
    (d : Declaration) : Confined path (c.sanitize fuel path d) :=
  fun _ h => .sanitize h hc fuel (fun q => ⟨⟨q, rfl⟩, ⟨q, rfl⟩⟩) d

theorem confined_check (hc : c.registry = .builtin) (fuel : Nat) (path : Path) (d : Declaration) :
    Confined path (c.check fuel path d) :=
  fun _ h => .check h hc fuel (fun q => ⟨⟨q, rfl⟩, ⟨q, rfl⟩⟩) d

/-- `P` survives whatever is done inside the member of a record with this name. -/
def FramedOff (P : PassState → Prop) (name : String) : Prop :=
  Frame P (Path.root.child name).Under (Path.root.child name).Under

theorem Path.Under.ne_root {p : Path} (h : (Path.root.child name).Under p) : p.segments ≠ [] := by
  obtain ⟨rest, hrest⟩ := h.segments
  rw [hrest]
  exact List.cons_ne_nil _ _

namespace FramedOff

theorem get? (h : other ≠ name) (v : Option Value) :
    FramedOff (fun s => s.record.get? name = v) other :=
  (frame_get? name v).mono
    (fun _ hp => let ⟨rest, hrest⟩ := hp.segments; ⟨other, rest, hrest, h⟩) fun _ _ => trivial

theorem object (other : String) : FramedOff (fun s => s.record.isObject = true) other :=
  frame_object.mono (fun _ hp => hp.ne_root) fun _ _ => trivial

theorem present (key other : String) : FramedOff
    (fun s => s.record.isObject = true ∧ (s.record.get? key).isSome = true) other :=
  (frame_present key).mono (fun _ hp => hp.ne_root) fun _ _ => trivial

theorem sound (other : String) : FramedOff (fun s => s.cache.Sound) other :=
  frame_sound.mono (fun _ _ => trivial) fun _ _ => trivial

theorem under (h : NamesPart name other) (entries : ErrorMap) :
    FramedOff (fun s => s.errors.under name = entries) other := by
  refine (frame_under name entries).mono (fun _ _ => trivial) fun p hp => h.not_keyAt ?_
  obtain ⟨rest, hrest⟩ := hp.segments
  obtain ⟨segments⟩ := p
  rw [show segments = other :: rest from hrest]
  exact keyAt_text other rest

end FramedOff

end Confinement

/-! ### Loops over fields -/

section Loops

variable {c : PassContext} {collection : Collection} {P : PassState → Prop} {s t t' s' : PassState}
  {field : String} {d : Declaration} {f : Path × Declaration → PassM Unit}

/-- A loop that ends well, cut at one of its entries. -/
theorem forM_cut {α : Type} {f : α → PassM Unit} {x : α} {before after : List α}
    (h : (before ++ x :: after).forM f s = .ok () s') :
    ∃ t t', before.forM f s = .ok () t ∧ f x t = .ok () t' ∧ after.forM f t' = .ok () s' := by
  obtain ⟨t, hbefore, h⟩ := forM_append_ok.mp h
  obtain ⟨t', hx, hafter⟩ := forM_cons_ok.mp h
  exact ⟨t, t', hbefore, hx, hafter⟩

/-- A loop comes to an entry that stands once in one state. -/
theorem forM_before_unique {α : Type} {f : α → PassM Unit} {x : α} {xs : List α} (hxs : xs.Nodup)
    {before after before' after' : List α} {t u : PassState} (h : xs = before ++ x :: after)
    (h' : xs = before' ++ x :: after') (ht : before.forM f s = .ok () t)
    (hu : before'.forM f s = .ok () u) : t = u := by
  rw [h] at hxs
  obtain ⟨-, hafter, hapart⟩ := List.nodup_append.mp hxs
  obtain ⟨rfl, -, -⟩ := (List.append_cons_inj_of_notMem
    (fun hmem => hapart x hmem x List.mem_cons_self rfl) (List.nodup_cons.mp hafter).1).mp
      (h.symm.trans h')
  exact (EStateM.Result.ok.inj (ht.symm.trans hu)).2

/-- Treating fields keeps what is framed off from each of them. -/
theorem forM_framed {xs : List (Path × Declaration)} (hf : ∀ x, Confined x.1 (f x))
    (hxs : ∀ x ∈ xs, ∃ name, x.1 = Path.root.child name ∧ FramedOff P name) (hs : P s)
    (h : xs.forM f s = .ok () s') : P s' := by
  refine (Maintains.forM fun x hx => ?_).ok hs h
  obtain ⟨name, hpath, hframe⟩ := hxs x hx
  refine hf x P ?_
  rw [hpath]
  exact hframe

namespace PassContext

/-- The fields that take part, cut where the collection is. -/
theorem fieldsFor_split {earlier later : Schema}
    (hfields : collection.fields = earlier ++ (field, d) :: later) {r : Value}
    (hx : (Path.root.child field, d) ∈ c.fieldsFor collection r) :
    ∃ before after, c.fieldsFor collection r = before ++ (Path.root.child field, d) :: after ∧
      (∀ x ∈ before, ∃ e ∈ earlier, x = (Path.root.child e.1, e.2)) ∧
      ∀ x ∈ after, ∃ e ∈ later, x = (Path.root.child e.1, e.2) := by
  have hpart := (List.mem_filter.mp hx).2
  obtain ⟨takesPart, htakes⟩ : ∃ p : Path × Declaration → Bool, p = fun x =>
      c.operation != .update || (x.1.lookup r).isSome := ⟨_, rfl⟩
  have hpart' : takesPart (Path.root.child field, d) = true := by rw [htakes]; exact hpart
  have hof : ∀ {schema : Schema} {x}, x ∈ (schema.map fun e => (Path.root.child e.1, e.2)).filter
      takesPart → ∃ e ∈ schema, x = (Path.root.child e.1, e.2) := by
    intro schema x hx
    obtain ⟨e, he, rfl⟩ := List.mem_map.mp (List.mem_filter.mp hx).1
    exact ⟨e, he, rfl⟩
  refine ⟨(earlier.map fun e => (Path.root.child e.1, e.2)).filter takesPart,
    (later.map fun e => (Path.root.child e.1, e.2)).filter takesPart, ?_, fun _ => hof,
    fun _ => hof⟩
  have hlist : c.fieldsFor collection r =
      (collection.fields.map fun e => (Path.root.child e.1, e.2)).filter takesPart := by
    rw [htakes]
    rfl
  rw [hlist, hfields, List.map_append, List.map_cons, List.filter_append,
    List.filter_cons_of_pos hpart']

/-- All fields that take part have other names than one that does not. -/
theorem ne_of_not_mem_fieldsFor (hnames : (Entries.keys collection.fields).Nodup)
    (hd : (field, d) ∈ collection.fields) {r : Value}
    (hx : (Path.root.child field, d) ∉ c.fieldsFor collection r) :
    ∀ x ∈ c.fieldsFor collection r, ∃ e ∈ collection.fields,
      x.1 = Path.root.child e.1 ∧ e.1 ≠ field := by
  intro x hmem
  obtain ⟨name, hname, hpath⟩ := mem_fieldsFor hmem
  refine ⟨_, hname, hpath, ?_⟩
  rintro rfl
  have hsame : x.2 = d := (Prod.mk.inj (List.inj_on_of_nodup_map hnames hname hd rfl)).2
  have hx' : x = (Path.root.child name, d) := Prod.ext hpath hsame
  exact hx (hx' ▸ hmem)

/-- The other fields that take part are declared under other names. -/
theorem others_of_fieldsFor (hnames : (Entries.keys collection.fields).Nodup) {r : Value}
    {before after : List (Path × Declaration)}
    (h : c.fieldsFor collection r = before ++ (Path.root.child field, d) :: after) :
    ∀ x ∈ before ++ after, ∃ e ∈ collection.fields, x.1 = Path.root.child e.1 ∧ e.1 ≠ field := by
  intro x hx
  have hmem : x ∈ c.fieldsFor collection r := by
    rw [h]
    exact (List.mem_append.mp hx).elim (List.mem_append_left _)
      fun hx => List.mem_append_right _ (List.mem_cons_of_mem _ hx)
  obtain ⟨name, hname, hpath⟩ := mem_fieldsFor hmem
  obtain ⟨other, hother, hne⟩ := ne_of_fieldsFor hnames h x hx
  rw [hpath] at hother
  obtain rfl := (List.cons.inj (Path.ext_iff.mp hother)).1
  exact ⟨_, hname, hpath, hne⟩

/-- A loop over the fields that take part, cut at one of them.  What the others leave alone is there
as in the beginning, and in the end as that field left it. -/
theorem forM_fieldsFor_cut (hnames : (Entries.keys collection.fields).Nodup) {r : Value}
    (hf : ∀ x, Confined x.1 (f x))
    (hx : (Path.root.child field, d) ∈ c.fieldsFor collection r)
    (h : (c.fieldsFor collection r).forM f s = .ok () s') :
    ∃ t t', f (Path.root.child field, d) t = .ok () t' ∧
      ∀ P : PassState → Prop, (∀ e ∈ collection.fields, e.1 ≠ field → FramedOff P e.1) →
        (P s → P t) ∧ (P t' → P s') := by
  obtain ⟨before, after, hlist⟩ := List.append_of_mem hx
  have hothers := others_of_fieldsFor hnames hlist
  rw [hlist] at h
  obtain ⟨t, t', hbefore, hhere, hafter⟩ := forM_cut h
  refine ⟨t, t', hhere, fun P hP => ⟨fun hs => ?_, fun ht' => ?_⟩⟩
  · refine forM_framed hf (fun x hx => ?_) hs hbefore
    obtain ⟨e, he, hpath, hne⟩ := hothers x (List.mem_append_left _ hx)
    exact ⟨e.1, hpath, hP e he hne⟩
  · refine forM_framed hf (fun x hx => ?_) ht' hafter
    obtain ⟨e, he, hpath, hne⟩ := hothers x (List.mem_append_right _ hx)
    exact ⟨e.1, hpath, hP e he hne⟩

/-- A loop over the fields that take part keeps what they leave alone. -/
theorem forM_fieldsFor_others (hnames : (Entries.keys collection.fields).Nodup)
    (hd : (field, d) ∈ collection.fields) {r : Value} (hf : ∀ x, Confined x.1 (f x))
    (hx : (Path.root.child field, d) ∉ c.fieldsFor collection r)
    (h : (c.fieldsFor collection r).forM f s = .ok () s')
    (hP : ∀ e ∈ collection.fields, e.1 ≠ field → FramedOff P e.1) (hs : P s) : P s' := by
  refine forM_framed hf (fun x hmem => ?_) hs h
  obtain ⟨e, he, hpath, hne⟩ := ne_of_not_mem_fieldsFor hnames hd hx x hmem
  exact ⟨e.1, hpath, hP e he hne⟩

end PassContext

end Loops

/-! ### The first pass -/

/-- The state of a record once its undeclared members are dropped. -/
def PassState.pruned (s : PassState) (collection : Collection) : PassState :=
  let p := prune .root (PassContext.ownKey collection) s.record.members
  { s with record := .object p.1, errors := s.errors.report p.2 }

section FirstPass

variable {c : PassContext} {collection : Collection} {s s' : PassState} {name : String}
  {d : Declaration}

theorem get?_pruned (s : PassState) (collection : Collection) (key : String) :
    (s.pruned collection).record.get? key =
      if PassContext.ownKey collection key then s.record.get? key else none :=
  Entries.get?_filter (PassContext.ownKey collection) key s.record.members

/-- Nothing that is at a field is dropped. -/
theorem lookup_pruned (hobject : s.record.isObject = true) {e : String × Declaration}
    (h : e ∈ collection.fields) :
    (Path.root.child e.1).lookup (s.pruned collection).record =
      (Path.root.child e.1).lookup s.record := by
  rw [lookup_object rfl, lookup_object hobject, get?_pruned, if_pos (ownKey_of_mem h)]

/-- A first pass that accepts a record drops what is undeclared and sanitizes the fields that take
part. -/
theorem sanitizeRecord_loop (h : c.sanitizeRecord collection s = .ok true s') :
    s.record.isObject = true ∧
      (c.fieldsFor collection (s.pruned collection).record).forM
        (fun x => c.sanitize (PassContext.fuelAt s.record x.1) x.1 x.2) (s.pruned collection) =
          .ok () s' := by
  cases hobject : s.record.isObject with
  | false =>
    rw [PassContext.sanitizeRecord_other collection hobject] at h
    exact nomatch (EStateM.Result.ok.inj h).1
  | true =>
    obtain ⟨record, errors, cache⟩ := s
    obtain ⟨ms, rfl⟩ := Value.isObject_iff.mp hobject
    rw [PassContext.sanitizeRecord_object collection rfl] at h
    obtain ⟨⟨⟩, t, hloop, ht⟩ := bind_ok.mp h
    obtain ⟨-, rfl⟩ := EStateM.Result.ok.inj ht
    exact ⟨rfl, hloop⟩

/-- Sanitizing a field stores something at it first.  What holds from then on, whatever follows at
the field and below it, holds in the end. -/
theorem sanitize_stores (hc : c.registry = .builtin) {path : Path} {P : PassState → Prop}
    (hP : Frame P path.Under path.Under) (hroom : path.HasRoom s.record) {fuel : Nat}
    (hstore : ∀ w errors cache, P ⟨path.set w s.record, errors, cache⟩)
    (h : c.sanitize (fuel + 1) path d s = .ok () s') : P s' := by
  have hpresent : ∀ (o : Options) (v : Value) (cache : OptionCache),
      c.sanitizePresent (c.sanitize fuel) path d d.kind.definition o v { s with cache := cache } =
        .ok () s' → P s' := by
    intro o v cache hrun
    rw [PassContext.sanitizePresent_run (s := { s with cache := cache }) _ hroom] at hrun
    simp only at hrun
    split at hrun
    · split at hrun
      · refine Maintains.ok (.forM fun m _ => ?_) (hstore _ _ _) hrun
        refine .sanitize hP hc fuel (fun q => ?_) m.declaration
        rw [Path.append_assoc]
        exact ⟨⟨_, rfl⟩, ⟨_, rfl⟩⟩
      · obtain ⟨-, rfl⟩ := EStateM.Result.ok.inj hrun
        exact hstore _ _ _
    · obtain ⟨-, rfl⟩ := EStateM.Result.ok.inj hrun
      exact hstore _ _ _
  obtain ⟨o, cache, -, hends⟩ := PassContext.sanitize_ends hc h
  cases hends with
  | present _ hrun => exact hpresent _ _ _ hrun
  | required _ _ hrun => exact hpresent _ _ _ hrun
  | absent => exact hstore _ _ _

/-- Sanitizing leaves a value at the field. -/
theorem sanitize_present (hc : c.registry = .builtin) (hobject : s.record.isObject = true)
    {fuel : Nat} (h : c.sanitize (fuel + 1) (Path.root.child name) d s = .ok () s') :
    s'.record.isObject = true ∧ (s'.record.get? name).isSome = true := by
  obtain ⟨record, errors, cache⟩ := s
  obtain ⟨ms, rfl⟩ := Value.isObject_iff.mp hobject
  have hstored : ∀ w : Value, ((Path.root.child name).set w (.object ms)).isObject = true ∧
      (((Path.root.child name).set w (.object ms)).get? name).isSome = true := by
    intro w
    rw [Path.set_child_root]
    refine ⟨rfl, ?_⟩
    show (Entries.get? name (Entries.insert name w ms)).isSome = true
    rw [Entries.get?_insert_self]
    rfl
  exact sanitize_stores (s := ⟨.object ms, errors, cache⟩) hc (FramedOff.present name name)
    (Path.room_singleton name ms) (fun w _ _ => hstored w) h

/-- The first pass keeps what is framed off from every field. -/
theorem sanitizeRecord_framed (hc : c.registry = .builtin)
    (h : c.sanitizeRecord collection s = .ok true s') {P : PassState → Prop}
    (hP : ∀ e ∈ collection.fields, FramedOff P e.1) (hs : P (s.pruned collection)) : P s' := by
  obtain ⟨-, hloop⟩ := sanitizeRecord_loop h
  refine forM_framed (P := P) (fun x => confined_sanitize hc _ x.1 x.2) (fun x hx => ?_) hs hloop
  obtain ⟨name, hname, hpath⟩ := PassContext.mem_fieldsFor hx
  exact ⟨name, hpath, hP _ hname⟩

/-- The first pass keeps the members that belong to the collection. -/
theorem sanitizeRecord_keeps (hc : c.registry = .builtin)
    (h : c.sanitizeRecord collection s = .ok true s') {key : String}
    (hkey : PassContext.ownKey collection key = true) (hs : (s.record.get? key).isSome = true) :
    (s'.record.get? key).isSome = true := by
  have hstart : (s.pruned collection).record.isObject = true ∧
      ((s.pruned collection).record.get? key).isSome = true := by
    rw [get?_pruned, if_pos hkey]
    exact ⟨rfl, hs⟩
  exact (sanitizeRecord_framed hc h (fun e _ => FramedOff.present key e.1) hstart).2

/-- The first pass leaves a value at every field that takes part. -/
theorem sanitizeRecord_fields (hc : c.registry = .builtin)
    (h : c.sanitizeRecord collection s = .ok true s') :
    s'.record.isObject = true ∧ ∀ field d,
      (Path.root.child field, d) ∈ c.fieldsFor collection s'.record →
        (s'.record.get? field).isSome = true := by
  have hobject : s'.record.isObject = true :=
    sanitizeRecord_framed hc h (fun e _ => FramedOff.object e.1) rfl
  refine ⟨hobject, fun field d hx => ?_⟩
  by_cases hop : c.operation = .update
  · rw [← lookup_object hobject]
    exact PassContext.isSome_of_mem_fieldsFor hop hx
  · -- outside of updates the same fields take part in both passes
    have hsame : c.fieldsFor collection s'.record =
        c.fieldsFor collection (s.pruned collection).record :=
      PassContext.fieldsFor_congr fun hup => (hop hup).elim
    rw [hsame] at hx
    obtain ⟨-, hloop⟩ := sanitizeRecord_loop h
    obtain ⟨before, after, hlist⟩ := List.append_of_mem hx
    have hpaths : ∀ x ∈ before ++ (Path.root.child field, d) :: after,
        ∃ name, x.1 = Path.root.child name := by
      intro x hx
      obtain ⟨name, -, hpath⟩ := PassContext.mem_fieldsFor (hlist ▸ hx)
      exact ⟨name, hpath⟩
    have hconfined : ∀ x : Path × Declaration,
        Confined x.1 (c.sanitize (PassContext.fuelAt s.record x.1) x.1 x.2) :=
      fun x => confined_sanitize hc _ x.1 x.2
    rw [hlist] at hloop
    obtain ⟨t, t', hbefore, hhere, hafter⟩ := forM_cut hloop
    have ht : t.record.isObject = true :=
      forM_framed (P := fun s => s.record.isObject = true) hconfined (fun x hx =>
        let ⟨name, hpath⟩ := hpaths x (List.mem_append_left _ hx)
        ⟨name, hpath, .object name⟩) rfl hbefore
    exact (forM_framed (P := fun s => s.record.isObject = true ∧
      (s.record.get? field).isSome = true) hconfined (fun x hx =>
        let ⟨name, hpath⟩ := hpaths x (List.mem_append_right _ (List.mem_cons_of_mem _ hx))
        ⟨name, hpath, .present field name⟩) (sanitize_present hc ht hhere) hafter).2

end FirstPass

/-! ### The second pass -/

section SecondPass

variable {c : PassContext} {collection : Collection} {P : PassState → Prop} {s t u s' : PassState}
  {field : String} {d : Declaration}

/-- A second pass that ends well comes to every field that takes part. -/
theorem exists_comesTo {x : Path × Declaration} (hx : x ∈ c.fieldsFor collection s.record)
    (h : c.checkRecord collection s = .ok () s') : ∃ t, c.ComesTo collection s x t := by
  obtain ⟨before, after, hlist⟩ := List.append_of_mem hx
  rw [PassContext.checkRecord_run, hlist] at h
  obtain ⟨t, -, hbefore, -⟩ := forM_cut h
  exact ⟨t, before, after, hlist, hbefore⟩

namespace PassContext.ComesTo

/-- The second pass comes to a field once. -/
theorem unique (hnames : (Entries.keys collection.fields).Nodup) {x : Path × Declaration}
    (ht : c.ComesTo collection s x t) (hu : c.ComesTo collection s x u) : t = u := by
  obtain ⟨before, after, hlist, hbefore⟩ := ht
  obtain ⟨before', after', hlist', hbefore'⟩ := hu
  exact forM_before_unique (nodup_fieldsFor hnames) hlist hlist' hbefore hbefore'

/-- What the other fields leave alone is as it was when the second pass comes to a field. -/
theorem arrives (hc : c.registry = .builtin) (hnames : (Entries.keys collection.fields).Nodup)
    (h : c.ComesTo collection s (Path.root.child field, d) t)
    (hP : ∀ e ∈ collection.fields, e.1 ≠ field → FramedOff P e.1) (hs : P s) : P t := by
  obtain ⟨before, after, hlist, hbefore⟩ := h
  refine forM_framed (fun x => confined_check hc _ x.1 x.2) (fun x hx => ?_) hs hbefore
  obtain ⟨e, he, hpath, hne⟩ := others_of_fieldsFor hnames hlist x (List.mem_append_left _ hx)
  exact ⟨e.1, hpath, hP e he hne⟩

/-- The pass finds a field as it was in the beginning. -/
theorem lookup_same (hc : c.registry = .builtin) (hnames : (Entries.keys collection.fields).Nodup)
    (hobject : s.record.isObject = true)
    (h : c.ComesTo collection s (Path.root.child field, d) t) :
    (Path.root.child field).lookup t.record = (Path.root.child field).lookup s.record := by
  have ht := h.arrives hc hnames (fun e _ _ => .object e.1) hobject
  have hsame := h.arrives (P := fun t => t.record.get? field = s.record.get? field) hc hnames
    (fun e _ hne => .get? hne _) rfl
  rw [lookup_object ht, lookup_object hobject, hsame]

/-- The pass treats the field it comes to, and the others leave alone what it made of it. -/
theorem rest (hc : c.registry = .builtin) (hnames : (Entries.keys collection.fields).Nodup)
    (h : c.ComesTo collection s (Path.root.child field, d) t)
    (hrun : c.checkRecord collection s = .ok () s') :
    ∃ t', c.check (fuelAt s.record (Path.root.child field)) (Path.root.child field) d t =
        .ok () t' ∧
      ∀ P : PassState → Prop, (∀ e ∈ collection.fields, e.1 ≠ field → FramedOff P e.1) →
        P t' → P s' := by
  obtain ⟨before, after, hlist, hbefore⟩ := h
  rw [checkRecord_run, hlist] at hrun
  obtain ⟨t₁, t', hbefore₁, hhere, hafter⟩ := forM_cut hrun
  obtain ⟨-, rfl⟩ := EStateM.Result.ok.inj (hbefore.symm.trans hbefore₁)
  refine ⟨t', hhere, fun P hP ht' => ?_⟩
  refine forM_framed (fun x => confined_check hc _ x.1 x.2) (fun x hx => ?_) ht' hafter
  obtain ⟨e, he, hpath, hne⟩ := others_of_fieldsFor hnames hlist x (List.mem_append_right _ hx)
  exact ⟨e.1, hpath, hP e he hne⟩

end PassContext.ComesTo

end SecondPass

end ContentSchema
