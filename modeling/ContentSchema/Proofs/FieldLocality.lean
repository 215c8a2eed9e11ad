import ContentSchema.Proofs.HiddenFields

/-!
# Field locality — a field comes out as if it were alone

Without conditions and without stages of its own, what becomes of a field depends on its value, on
the id of the record and on what stays the same during a pass.  Two runs from states that agree on
these (`Agree`) are followed operation by operation as long as they work inside the field
(`Mirrors`), and what they do to other fields is framed off from it.  So neither the values of the
other fields nor the order in which they are declared make a difference
(`Engine.processRecord_local`).
-/

namespace ContentSchema

/-! ### Catalogs with the same blocks -/

namespace Catalog

variable {c c' : Catalog}

theorem blockOf?_congr (h : c.blocks = c'.blocks) (ms : Entries Value) :
    c.blockOf? ms = c'.blockOf? ms := by
  unfold blockOf? block?
  rw [h]

mutual

theorem blockMembers_congr (h : c.blocks = c'.blocks) (base : Path) :
    (v : Value) → c.blockMembers base v = c'.blockMembers base v
  | .object ms => by
    have hslots := fun slot => slotMembers_congr h (base.child "slots") slot ms
    simp only [blockMembers, blockOf?_congr h, hslots]
  | .null | .bool _ | .number _ | .string _ | .list _ => by simp only [blockMembers]

theorem slotMembers_congr (h : c.blocks = c'.blocks) (base : Path) (slot : String) :
    (ms : List (String × Value)) → c.slotMembers base slot ms = c'.slotMembers base slot ms
  | [] => by simp only [slotMembers]
  | (key, .object slots) :: rest => by
    simp only [slotMembers, slotMembers_congr h base slot rest,
      childMembers_congr h (base.child slot) slot slots]
  | (key, .null) :: rest | (key, .bool _) :: rest | (key, .number _) :: rest
  | (key, .string _) :: rest | (key, .list _) :: rest => by
    simp only [slotMembers, slotMembers_congr h base slot rest]

theorem childMembers_congr (h : c.blocks = c'.blocks) (base : Path) (slot : String) :
    (ms : List (String × Value)) → c.childMembers base slot ms = c'.childMembers base slot ms
  | [] => by simp only [childMembers]
  | (key, .list items) :: rest => by
    simp only [childMembers, childMembers_congr h base slot rest,
      blockListMembers_congr h base 0 items]
  | (key, .null) :: rest | (key, .bool _) :: rest | (key, .number _) :: rest
  | (key, .string _) :: rest | (key, .object _) :: rest => by
    simp only [childMembers, childMembers_congr h base slot rest]

theorem blockListMembers_congr (h : c.blocks = c'.blocks) (base : Path) (i : Nat) :
    (items : List Value) → c.blockListMembers base i items = c'.blockListMembers base i items
  | [] => by simp only [blockListMembers]
  | v :: vs => by
    simp only [blockListMembers, blockMembers_congr h (base.index i) v,
      blockListMembers_congr h base (i + 1) vs]

end

mutual

theorem shapeBlock_congr (h : c.blocks = c'.blocks) (allowed : Option (List String)) (base : Path) :
    (v : Value) → c.shapeBlock allowed base v = c'.shapeBlock allowed base v
  | .object ms => by
    have hslots := fun block => shapeSlots_congr h block (base.child "slots") ms
    simp only [shapeBlock, blockOf?_congr h, hslots]
  | .null | .bool _ | .number _ | .string _ | .list _ => by simp only [shapeBlock]

theorem shapeSlots_congr (h : c.blocks = c'.blocks) (block : Block) (base : Path) :
    (ms : List (String × Value)) → c.shapeSlots block base ms = c'.shapeSlots block base ms
  | [] => by simp only [shapeSlots]
  | (key, .object slots) :: rest => by
    simp only [shapeSlots, shapeSlots_congr h block base rest,
      shapeSlotList_congr h block base slots]
  | (key, .null) :: rest | (key, .bool _) :: rest | (key, .number _) :: rest
  | (key, .string _) :: rest | (key, .list _) :: rest => by
    simp only [shapeSlots, shapeSlots_congr h block base rest]

theorem shapeSlotList_congr (h : c.blocks = c'.blocks) (block : Block) (base : Path) :
    (ms : List (String × Value)) → c.shapeSlotList block base ms = c'.shapeSlotList block base ms
  | [] => by simp only [shapeSlotList]
  | (key, .list items) :: rest => by
    have hitems := fun allowed => shapeBlocks_congr h allowed (base.child key) 0 items
    simp only [shapeSlotList, shapeSlotList_congr h block base rest, hitems]
  | (key, .null) :: rest | (key, .bool _) :: rest | (key, .number _) :: rest
  | (key, .string _) :: rest | (key, .object _) :: rest => by
    simp only [shapeSlotList, shapeSlotList_congr h block base rest]

theorem shapeBlocks_congr (h : c.blocks = c'.blocks) (allowed : Option (List String))
    (base : Path) (i : Nat) :
    (items : List Value) → c.shapeBlocks allowed base i items = c'.shapeBlocks allowed base i items
  | [] => by simp only [shapeBlocks]
  | v :: vs => by
    simp only [shapeBlocks, shapeBlock_congr h allowed (base.index i) v,
      shapeBlocks_congr h allowed base (i + 1) vs]

end

/-- Catalogs with the same blocks show the same members. -/
theorem members_congr (h : c.blocks = c'.blocks) (d : Declaration) (v : Value) :
    c.members d v = c'.members d v := by
  unfold members
  simp only [blockListMembers_congr h]

/-- Catalogs with the same blocks bring values into the same shape. -/
theorem shape_congr (h : c.blocks = c'.blocks) (d : Declaration) {o o' : Options}
    (ho : o.values = o'.values) (base : Path) (v : Value) :
    c.shape d o base v = c'.shape d o' base v := by
  have hallowed : o.strings? "allowed-blocks" = o'.strings? "allowed-blocks" := by
    unfold Options.strings? Options.get
    rw [ho]
  unfold shape
  simp only [shapeBlocks_congr h, hallowed]

end Catalog

/-! ### Places inside a field -/

/-- What stands inside a field after storing there. -/
theorem get?_set_below {r : Value} (hr : r.isObject = true) (field : String) (q : Path)
    (w : Value) : ((Path.root.child field ++ q).set w r).get? field =
      if q.segments = [] then some w else (r.get? field).map (q.set w) := by
  obtain ⟨ms, rfl⟩ := Value.isObject_iff.mp hr
  obtain ⟨segments⟩ := q
  cases segments with
  | nil =>
    show ((Path.root.child field).set w (.object ms)).get? field = some w
    rw [Path.set_child_root]
    exact Entries.get?_insert_self field w ms
  | cons t rest =>
    show ((Path.setSegments? w (field :: t :: rest) (.object ms)).getD (.object ms)).get? field =
      (Entries.get? field ms).map (Path.set ⟨t :: rest⟩ w)
    cases hfield : Entries.get? field ms with
    | none =>
      have hnone : Path.descend (.object ms) field = none := hfield
      rw [Path.setSegments?_of_descend_none hnone, if_neg (List.cons_ne_nil _ _)]
      exact hfield
    | some x =>
      have hsome : Path.descend (.object ms) field = some x := hfield
      rw [Path.setSegments?_of_descend hsome]
      show _ = some ((Path.setSegments? w (t :: rest) x).getD x)
      cases Path.setSegments? w (t :: rest) x with
      | none => exact hfield
      | some x' => exact Entries.get?_insert_self field x' ms

theorem lookup_below {r : Value} (hr : r.isObject = true) (field : String) (q : Path) :
    (Path.root.child field ++ q).lookup r = (r.get? field).bind q.lookup := by
  obtain ⟨ms, rfl⟩ := Value.isObject_iff.mp hr
  exact lookup_key ms field q

/-! ### Runs that agree on a field -/

/-- States that agree on the value of a field, on the entries of its name and on the id. -/
structure Agree (field : String) (s s' : PassState) : Prop where
  object : s.record.isObject = true
  object' : s'.record.isObject = true
  value : s.record.get? field = s'.record.get? field
  id : s.record.get? "id" = s'.record.get? "id"
  errors : s.errors.under field = s'.errors.under field
  sound : s.cache.Sound
  sound' : s'.cache.Sound

theorem Agree.lookup {field : String} {s s' : PassState} (h : Agree field s s') (q : Path) :
    (Path.root.child field ++ q).lookup s.record =
      (Path.root.child field ++ q).lookup s'.record := by
  rw [lookup_below h.object, lookup_below h.object', h.value]

/-- Two runs that end well from states that agree on a field have answers in `Q`, and end in states
that agree on it. -/
def Mirrors {α : Type} (field : String) (Q : α → α → Prop) (m m' : PassM α) : Prop :=
  ∀ (s s' t t' : PassState) (a a' : α), m s = .ok a t → m' s' = .ok a' t' → Agree field s s' →
    Q a a' ∧ Agree field t t'

namespace Mirrors

variable {α β : Type} {field : String} {Q : α → α → Prop} {Q' : β → β → Prop}

theorem pure {a a' : α} (h : Q a a') : Mirrors field Q (pure a) (pure a') := by
  intro s s' t t' b b' hrun hrun' hs
  obtain ⟨rfl, rfl⟩ := EStateM.Result.ok.inj hrun
  obtain ⟨rfl, rfl⟩ := EStateM.Result.ok.inj hrun'
  exact ⟨h, hs⟩

theorem throw (e : EngineError) (m' : PassM α) : Mirrors field Q (throw e) m' :=
  fun _ _ _ _ _ _ hrun => nomatch hrun

theorem bind {m m' : PassM α} {f f' : α → PassM β} (hm : Mirrors field Q m m')
    (hf : ∀ a a', Q a a' → Mirrors field Q' (f a) (f' a')) :
    Mirrors field Q' (m >>= f) (m' >>= f') := by
  intro s s' t t' b b' hrun hrun' hs
  obtain ⟨a, u, ha, hb⟩ := bind_ok.mp hrun
  obtain ⟨a', u', ha', hb'⟩ := bind_ok.mp hrun'
  obtain ⟨hQ, hu⟩ := hm _ _ _ _ a a' ha ha' hs
  exact hf a a' hQ _ _ _ _ b b' hb hb' hu

/-- One operation after another when the first has nothing to answer. -/
theorem seq {m m' : PassM Unit} {f f' : Unit → PassM β} (hm : Mirrors field Eq m m')
    (hf : Mirrors field Q' (f ()) (f' ())) : Mirrors field Q' (m >>= f) (m' >>= f') :=
  bind hm fun _ _ _ => hf

theorem get {f f' : PassState → PassM β}
    (hf : ∀ s s', Agree field s s' → Mirrors field Q' (f s) (f' s')) :
    Mirrors field Q' (get >>= f) (get >>= f') := by
  intro s s' t t' b b' hrun hrun' hs
  rw [bind_run get_run] at hrun hrun'
  exact hf s s' hs _ _ _ _ b b' hrun hrun' hs

theorem forM {f f' : α → PassM Unit} {xs : List α}
    (h : ∀ x ∈ xs, Mirrors field Eq (f x) (f' x)) :
    Mirrors field Eq (xs.forM f) (xs.forM f') := by
  induction xs with
  | nil => exact pure rfl
  | cons x xs ih =>
    exact seq (h x List.mem_cons_self) (ih fun y hy => h y (List.mem_cons_of_mem _ hy))

theorem setField (hid : field ≠ "id") (q : Path) (v : Value) :
    Mirrors field Eq (setField (Path.root.child field ++ q) v)
      (setField (Path.root.child field ++ q) v) := by
  intro s s' t t' a a' hrun hrun' hs
  obtain ⟨rfl, rfl⟩ := EStateM.Result.ok.inj hrun
  obtain ⟨rfl, rfl⟩ := EStateM.Result.ok.inj hrun'
  have hbelow : (Path.root.child field).Under (Path.root.child field ++ q) := ⟨q, rfl⟩
  have hframe : ∀ v, FramedOff (fun s => s.record.get? "id" = v) field := FramedOff.get? hid
  refine ⟨rfl, Path.isObject_set hbelow.ne_root v hs.object,
    Path.isObject_set hbelow.ne_root v hs.object', ?_, ?_, hs.errors, hs.sound, hs.sound'⟩
  · show ((Path.root.child field ++ q).set v s.record).get? field =
      ((Path.root.child field ++ q).set v s'.record).get? field
    rw [get?_set_below hs.object, get?_set_below hs.object', hs.value]
  · exact ((hframe _).store v hbelow rfl).trans
      (hs.id.trans ((hframe _).store v hbelow rfl).symm)

theorem reportProblem (q : Path) (message : String) :
    Mirrors field Eq (reportProblem (Path.root.child field ++ q, message))
      (reportProblem (Path.root.child field ++ q, message)) := by
  intro s s' t t' a a' hrun hrun' hs
  obtain ⟨rfl, rfl⟩ := EStateM.Result.ok.inj hrun
  obtain ⟨rfl, rfl⟩ := EStateM.Result.ok.inj hrun'
  refine ⟨rfl, hs.object, hs.object', hs.value, hs.id, ?_, hs.sound, hs.sound'⟩
  have hkey : KeyAt field (Path.root.child field ++ q).text := keyAt_text field q.segments
  exact (ErrorMap.under_add hkey _ _).trans
    ((congrArg (ErrorMap.add · _ message) hs.errors).trans (ErrorMap.under_add hkey _ _).symm)

end Mirrors

/-! ### Fields without additions -/

/-- No conditions and no further stages. -/
structure Additional.Bare (a : Additional) : Prop where
  logic : a.logic = none
  sanitizers : a.sanitizers = []
  validators : a.validators = []

/-- Neither a declaration nor one nested in it has conditions or further stages. -/
def Catalog.BareFrom (c : Catalog) (d : Declaration) : Prop :=
  ∀ d', d' = d ∨ c.Nested d d' → d'.additional.Bare

namespace Catalog.BareFrom

variable {c : Catalog} {d : Declaration}

theorem here (h : c.BareFrom d) : d.additional.Bare := h d (.inl rfl)

theorem member (h : c.BareFrom d) {v : Value} {m : Member} (hm : m ∈ c.members d v) :
    c.BareFrom m.declaration := by
  rintro d' (rfl | hd')
  · exact h _ (.inr (.member hm))
  · exact h _ (.inr (.trans (.member hm) hd'))

theorem of_leaf (h : d.additional.Bare) (hd : d.kind.isComposite = false) : c.BareFrom d := by
  rintro d' (rfl | hd')
  · exact h
  · rw [hd'.composite] at hd
    cases hd

end Catalog.BareFrom

/-- A judgement without further validators looks at the path, the options, the id, and what stays
the same during a pass. -/
theorem judge_congr {k : FieldKind} {a : Additional} (ha : a.validators = [])
    {x y : FieldContext} (hpath : x.path = y.path) (hvalues : x.options.values = y.options.values)
    (hoperation : x.operation = y.operation) (hid : x.input.get? "id" = y.input.get? "id")
    (hcollection : x.collection = y.collection) (hbatch : x.batch = y.batch)
    (hsource : x.source = y.source) (v : Value) :
    judge x k.definition a v = judge y k.definition a v := by
  have hbuiltin := validators_builtin k
  have hrun : runValidators x v (k.definition.validators ++ a.validators) =
      runValidators y v (k.definition.validators ++ a.validators) := by
    rw [ha, List.append_nil]
    generalize k.definition.validators = validators at hbuiltin
    induction validators with
    | nil => rfl
    | cons l ls ih =>
      obtain ⟨-, hl⟩ := hbuiltin l List.mem_cons_self
      unfold runValidators
      rw [hoperation, hl hvalues hsource v, ih fun l hl => hbuiltin l (List.mem_cons_of_mem _ hl)]
  have hrecord : x.recordId? = y.recordId? := by
    unfold FieldContext.recordId?
    rw [hid]
  have hunique : checkUnique x v = checkUnique y v := by
    unfold checkUnique FieldContext.name
    rw [hpath, hbatch, hsource, hcollection, hrecord]
  have himmutable : checkImmutable x v = checkImmutable y v := by
    unfold checkImmutable FieldContext.name
    rw [hpath, hsource, hcollection, hrecord]
  unfold judge
  rw [hrun, hunique, himmutable, hoperation]

/-- Passes that differ in the collections of their catalogs only. -/
structure PassContext.Akin (c c' : PassContext) : Prop where
  registry : c.registry = .builtin
  registry' : c'.registry = .builtin
  blocks : c.catalog.blocks = c'.catalog.blocks
  source : c.source = c'.source
  operation : c.operation = c'.operation
  collection : c.collection = c'.collection
  batch : c.batch = c'.batch

namespace Mirrors

variable {field : String} {c c' : PassContext} {d : Declaration} {o o' : Options}

theorem options (hc : c.Akin c') (name : String) (d : Declaration) :
    Mirrors field (fun o o' => o.values = o'.values) (c.options name d) (c'.options name d) := by
  intro s s' t t' o o' hrun hrun' hs
  rw [PassContext.options_run, hc.registry] at hrun
  rw [PassContext.options_run, hc.registry'] at hrun'
  obtain ⟨hsound, hvalues⟩ := hs.sound.resolve name d
  obtain ⟨hsound', hvalues'⟩ := hs.sound'.resolve name d
  obtain ⟨⟨result, cache⟩, hp⟩ : ∃ p, s.cache.resolve .builtin name d = p := ⟨_, rfl⟩
  obtain ⟨⟨result', cache'⟩, hp'⟩ : ∃ p, s'.cache.resolve .builtin name d = p := ⟨_, rfl⟩
  rw [hp] at hrun hsound hvalues
  rw [hp'] at hrun' hsound' hvalues'
  cases result with
  | error e => cases hrun
  | ok =>
    cases result' with
    | error e => cases hrun'
    | ok =>
      obtain ⟨rfl, rfl⟩ := EStateM.Result.ok.inj hrun
      obtain ⟨rfl, rfl⟩ := EStateM.Result.ok.inj hrun'
      exact ⟨(hvalues _ rfl).2.trans (hvalues' _ rfl).2.symm, hs.object, hs.object', hs.value,
        hs.id, hs.errors, hsound, hsound'⟩

theorem shapeField (hc : c.Akin c') (hid : field ≠ "id") (ho : o.values = o'.values) (q : Path)
    (d : Declaration) :
    Mirrors field Eq (c.shapeField (Path.root.child field ++ q) d o)
      (c'.shapeField (Path.root.child field ++ q) d o') := by
  unfold PassContext.shapeField
  refine get fun s s' hs => ?_
  rw [hs.lookup q]
  split
  · exact pure rfl
  · next v _ =>
    rw [Catalog.shape_congr hc.blocks d ho]
    refine seq (setField hid q _) (seq (forM fun problem hproblem => ?_) (pure rfl))
    obtain ⟨r, hr⟩ := reports_shape c'.catalog d o' _ v problem hproblem
    obtain ⟨path, message⟩ := problem
    obtain rfl : path = _ := hr
    rw [Path.append_assoc]
    exact reportProblem _ message

theorem sanitizePresent (hc : c.Akin c') (hid : field ≠ "id") (hd : d.additional.Bare)
    (ho : o.values = o'.values) {descend descend' : Path → Declaration → PassM Unit} (q : Path)
    (h : ∀ v, ∀ m ∈ c.catalog.members d v,
      Mirrors field Eq (descend (Path.root.child field ++ q ++ m.relative) m.declaration)
        (descend' (Path.root.child field ++ q ++ m.relative) m.declaration)) (v : Value) :
    Mirrors field Eq
      (c.sanitizePresent descend (Path.root.child field ++ q) d d.kind.definition o v)
      (c'.sanitizePresent descend' (Path.root.child field ++ q) d d.kind.definition o' v) := by
  unfold PassContext.sanitizePresent
  refine get fun s s' hs => ?_
  have hclean : sanitizeValue (c.fieldContext (Path.root.child field ++ q) d.kind.definition o
      s.record) (d.kind.definition.sanitizers ++ d.additional.sanitizers) v =
        sanitizeValue (c'.fieldContext (Path.root.child field ++ q) d.kind.definition o' s'.record)
          (d.kind.definition.sanitizers ++ d.additional.sanitizers) v := by
    rw [hd.sanitizers, List.append_nil]
    exact sanitizeValue_builtin d.kind ho v
  simp only [hclean]
  refine seq (setField hid q _) ?_
  split
  · refine bind (shapeField hc hid ho q d) fun valid _ hvalid => ?_
    rw [← hvalid]
    split
    · refine get fun s s' hs => ?_
      rw [hs.lookup q, ← Catalog.members_congr hc.blocks]
      exact forM fun m hm => h _ m hm
    · rw [default_values d.kind ho]
      exact setField hid q _
  · exact pure rfl

/-- The first pass over a field or a part of it. -/
theorem sanitize (hc : c.Akin c') (hid : field ≠ "id") (fuel : Nat) (q : Path)
    (hd : c.catalog.BareFrom d) :
    Mirrors field Eq (c.sanitize fuel (Path.root.child field ++ q) d)
      (c'.sanitize fuel (Path.root.child field ++ q) d) := by
  induction fuel generalizing q d with
  | zero => exact pure rfl
  | succ fuel ih =>
    unfold PassContext.sanitize
    rw [definition_builtin hc.registry, definition_builtin hc.registry', pure_bind, pure_bind]
    refine bind (options hc _ d) fun o o' ho => get fun s s' hs => ?_
    have hpresent : ∀ v, Mirrors field Eq
        (c.sanitizePresent (c.sanitize fuel) (Path.root.child field ++ q) d d.kind.definition o v)
        (c'.sanitizePresent (c'.sanitize fuel) (Path.root.child field ++ q) d d.kind.definition o'
          v) :=
      sanitizePresent hc hid hd.here ho q fun v m hm => by
        rw [Path.append_assoc]
        exact ih (q ++ m.relative) (hd.member hm)
    have hflag : o.flag "required" = o'.flag "required" := by
      unfold Options.flag Options.get
      rw [ho]
    rw [hs.lookup q]
    split
    · rw [hflag]
      split
      · exact hpresent .null
      · rw [default_values d.kind ho]
        exact setField hid q _
    · exact hpresent _

/-- The second pass over a field or a part of it. -/
theorem check (hc : c.Akin c') (hid : field ≠ "id") (fuel : Nat) (q : Path)
    (hd : c.catalog.BareFrom d) :
    Mirrors field Eq (c.check fuel (Path.root.child field ++ q) d)
      (c'.check fuel (Path.root.child field ++ q) d) := by
  induction fuel generalizing q d with
  | zero => exact pure rfl
  | succ fuel ih =>
    unfold PassContext.check
    rw [definition_builtin hc.registry, definition_builtin hc.registry', pure_bind, pure_bind]
    refine bind (options hc _ d) fun o o' ho => get fun s s' hs => ?_
    simp only
    rw [hs.lookup q]
    split
    · exact pure rfl
    · next v _ =>
      have hjudge : judge (c.fieldContext (Path.root.child field ++ q) d.kind.definition o
          s.record) d.kind.definition d.additional v =
            judge (c'.fieldContext (Path.root.child field ++ q) d.kind.definition o' s'.record)
              d.kind.definition d.additional v := by
        refine judge_congr hd.here.validators ?_ ho hc.operation hs.id hc.collection hc.batch
          hc.source v
        rfl
      have hmatch : ∀ f : Logic → Except LogicError MatchOutcome,
          d.additional.logic.mapM f = .ok none := by
        rw [hd.here.logic]
        exact fun _ => rfl
      simp only [hmatch]
      rw [hjudge, default_values d.kind ho]
      split
      · exact throw _ _
      · exact seq (reportProblem q _) (setField hid q _)
      · split
        · rw [← Catalog.members_congr hc.blocks]
          refine forM fun m hm => ?_
          rw [Path.append_assoc]
          exact ih (q ++ m.relative) (hd.member hm)
        · exact pure rfl

end Mirrors

/-! ### Fields among others -/

section Fields

variable {c c' : PassContext} {collection collection' : Collection} {s s' t t' : PassState}
  {field : String} {d : Declaration}

/-- What a pass over another field leaves alone. -/
structure Kept (field : String) (s t : PassState) : Prop where
  object : t.record.isObject = true
  value : t.record.get? field = s.record.get? field
  id : t.record.get? "id" = s.record.get? "id"
  errors : t.errors.under field = s.errors.under field
  sound : t.cache.Sound

theorem Kept.refl (hobject : s.record.isObject = true) (hsound : s.cache.Sound) : Kept field s s :=
  ⟨hobject, rfl, rfl, rfl, hsound⟩

theorem Agree.kept (h : Agree field s s') (ht : Kept field s t) (ht' : Kept field s' t') :
    Agree field t t' :=
  ⟨ht.object, ht'.object, ht.value.trans (h.value.trans ht'.value.symm),
    ht.id.trans (h.id.trans ht'.id.symm), ht.errors.trans (h.errors.trans ht'.errors.symm),
    ht.sound, ht'.sound⟩

theorem FramedOff.kept {other : String} (hfield : NamesPart field other) (hid : other ≠ "id")
    (s : PassState) : FramedOff (Kept field s) other := by
  have hobject := FramedOff.object other
  have hvalue := FramedOff.get? hfield.ne.symm (s.record.get? field)
  have hkey := FramedOff.get? hid (s.record.get? "id")
  have herrors := FramedOff.under hfield (s.errors.under field)
  have hsound := FramedOff.sound other
  refine ⟨fun name d h => ?_, fun w hp h => ?_, fun message hp h => ?_⟩
  · exact ⟨h.object, h.value, h.id, h.errors, hsound.resolve name d h.sound⟩
  · exact ⟨hobject.store w hp h.object, hvalue.store w hp h.value, hkey.store w hp h.id, h.errors,
      h.sound⟩
  · exact ⟨h.object, h.value, h.id, herrors.report message hp h.errors, h.sound⟩

/-- A declared field whose entries are told apart from those of the others, none of which is the
id. -/
structure Collection.Parts (collection : Collection) (field : String) (d : Declaration) : Prop where
  names : (Entries.keys collection.fields).Nodup
  mem : (field, d) ∈ collection.fields
  others : ∀ e ∈ collection.fields, e.1 ≠ field → NamesPart field e.1 ∧ e.1 ≠ "id"

theorem Collection.Parts.framed (hp : collection.Parts field d) (s : PassState) :
    ∀ e ∈ collection.fields, e.1 ≠ field → FramedOff (Kept field s) e.1 := by
  intro e he hne
  obtain ⟨hparts, hid⟩ := hp.others e he hne
  exact .kept hparts hid s

/-- A field takes part in an update when the record has it, and in all else anyway. -/
theorem mem_fieldsFor_iff (hd : (field, d) ∈ collection.fields) {r : Value}
    (hr : r.isObject = true) : (Path.root.child field, d) ∈ c.fieldsFor collection r ↔
      (c.operation != .update || (r.get? field).isSome) = true := by
  rw [← lookup_object hr]
  exact List.mem_filter.trans
    (and_iff_right (List.mem_map.mpr ⟨(field, d), hd, rfl⟩))

/-- Two passes that treat a field alike agree on it in the end, wherever they come to it. -/
theorem Agree.loops (hp : collection.Parts field d) (hp' : collection'.Parts field d)
    {f f' : Path × Declaration → PassM Unit} (hf : ∀ x, Confined x.1 (f x))
    (hf' : ∀ x, Confined x.1 (f' x))
    (hhere : Mirrors field Eq (f (Path.root.child field, d)) (f' (Path.root.child field, d)))
    (hoperation : c.operation = c'.operation) (hs : Agree field s s')
    (h : (c.fieldsFor collection s.record).forM f s = .ok () t)
    (h' : (c'.fieldsFor collection' s'.record).forM f' s' = .ok () t') : Agree field t t' := by
  have hiff : (Path.root.child field, d) ∈ c.fieldsFor collection s.record ↔
      (Path.root.child field, d) ∈ c'.fieldsFor collection' s'.record := by
    rw [mem_fieldsFor_iff hp.mem hs.object, mem_fieldsFor_iff hp'.mem hs.object', hoperation,
      hs.value]
  have hstart : Kept field s s := .refl hs.object hs.sound
  have hstart' : Kept field s' s' := .refl hs.object' hs.sound'
  by_cases hx : (Path.root.child field, d) ∈ c.fieldsFor collection s.record
  · obtain ⟨u, v, hu, hcut⟩ := PassContext.forM_fieldsFor_cut hp.names hf hx h
    obtain ⟨u', v', hu', hcut'⟩ := PassContext.forM_fieldsFor_cut hp'.names hf' (hiff.mp hx) h'
    have harrive := hs.kept ((hcut _ (hp.framed s)).1 hstart) ((hcut' _ (hp'.framed s')).1 hstart')
    obtain ⟨-, hagree⟩ := hhere _ _ _ _ () () hu hu' harrive
    exact hagree.kept
      ((hcut _ (hp.framed v)).2 (.refl hagree.object hagree.sound))
      ((hcut' _ (hp'.framed v')).2 (.refl hagree.object' hagree.sound'))
  · exact hs.kept
      (PassContext.forM_fieldsFor_others hp.names hp.mem hf hx h (hp.framed s) hstart)
      (PassContext.forM_fieldsFor_others hp'.names hp'.mem hf' (mt hiff.mpr hx) h' (hp'.framed s')
        hstart')

theorem fuelAt_congr {r r' : Value} (hr : r.isObject = true) (hr' : r'.isObject = true)
    (h : r.get? field = r'.get? field) :
    PassContext.fuelAt r (Path.root.child field) =
      PassContext.fuelAt r' (Path.root.child field) := by
  unfold PassContext.fuelAt
  rw [lookup_object hr, lookup_object hr', h]

/-- First passes over records that agree on a field once their undeclared members are dropped. -/
theorem Agree.sanitizeRecord (hc : c.Akin c') (hid : field ≠ "id") (hd : c.catalog.BareFrom d)
    (hp : collection.Parts field d) (hp' : collection'.Parts field d)
    (hvalue : s.record.get? field = s'.record.get? field)
    (hs : Agree field (s.pruned collection) (s'.pruned collection'))
    (h : c.sanitizeRecord collection s = .ok true t)
    (h' : c'.sanitizeRecord collection' s' = .ok true t') : Agree field t t' := by
  obtain ⟨hobject, hloop⟩ := sanitizeRecord_loop h
  obtain ⟨hobject', hloop'⟩ := sanitizeRecord_loop h'
  refine hs.loops hp hp' (fun x => confined_sanitize hc.registry _ x.1 x.2)
    (fun x => confined_sanitize hc.registry' _ x.1 x.2) ?_ hc.operation hloop hloop'
  rw [fuelAt_congr hobject hobject' hvalue]
  exact Mirrors.sanitize hc hid _ .root hd

theorem Agree.checkRecord (hc : c.Akin c') (hid : field ≠ "id") (hd : c.catalog.BareFrom d)
    (hp : collection.Parts field d) (hp' : collection'.Parts field d) (hs : Agree field s s')
    (h : c.checkRecord collection s = .ok () t) (h' : c'.checkRecord collection' s' = .ok () t') :
    Agree field t t' := by
  rw [PassContext.checkRecord_run] at h h'
  refine hs.loops hp hp' (fun x => confined_check hc.registry _ x.1 x.2)
    (fun x => confined_check hc.registry' _ x.1 x.2) ?_ hc.operation h h'
  rw [fuelAt_congr hs.object hs.object' hs.value]
  exact Mirrors.check hc hid _ .root hd

end Fields

/-! ### Records -/

/-- The first pass accepts every object. -/
theorem accepted_of_isObject {c : PassContext} {collection : Collection} {s t : PassState}
    {accepted : Bool} (hs : s.record.isObject = true)
    (h : c.sanitizeRecord collection s = .ok accepted t) : accepted = true := by
  obtain ⟨ms, hms⟩ := Value.isObject_iff.mp hs
  rw [PassContext.sanitizeRecord_object collection hms] at h
  obtain ⟨⟨⟩, u, -, hu⟩ := bind_ok.mp h
  exact (EStateM.Result.ok.inj hu).1.symm

/-- Two records are processed by engines that differ in the order of a collection's fields, in
other collections and in their caches at most.  A field without conditions and further stages
comes out alike, value and entries, when the records agree on it and on the id. -/
theorem Engine.processRecord_local {e e' : Engine} (hreg : e.registry = .builtin)
    (hreg' : e'.registry = .builtin) (hcache : e.cache.Sound) (hcache' : e'.cache.Sound)
    (hsource : e.source = e'.source) (hblocks : e.catalog.blocks = e'.catalog.blocks)
    {name : String} {collection collection' : Collection}
    (hcol : e.catalog.collection? name = some collection)
    (hcol' : e'.catalog.collection? name = some collection')
    (hfields : collection.fields.Perm collection'.fields)
    (hnames : (Entries.keys collection.fields).Nodup)
    (hdots : ∀ f ∈ collection.fields, '.' ∉ f.1.toList ∧ f.1 ≠ "id") {field : String}
    {d : Declaration} (hd : (field, d) ∈ collection.fields) (hbare : e.catalog.BareFrom d)
    {record record' : Value} (hobject : record.isObject = true)
    (hobject' : record'.isObject = true)
    (hkeys : ∀ key, (record.get? key).isSome = true → '.' ∉ key.toList)
    (hkeys' : ∀ key, (record'.get? key).isSome = true → '.' ∉ key.toList)
    (hvalue : record.get? field = record'.get? field)
    (hid : record.get? "id" = record'.get? "id") {operation : Operation} {batch : List Value}
    {errors errors' : ErrorMap}
    (h : (e.processRecord name record operation batch).result = .ok errors)
    (h' : (e'.processRecord name record' operation batch).result = .ok errors') :
    (e.processRecord name record operation batch).records.get? field =
        (e'.processRecord name record' operation batch).records.get? field ∧
      errors.under field = errors'.under field := by
  obtain ⟨accepted, s₁, s₂, h₁, h₂, hprocessed, rfl⟩ := processRecord_ok hcol h
  obtain ⟨accepted', s₁', s₂', h₁', h₂', hprocessed', rfl⟩ := processRecord_ok hcol' h'
  obtain rfl := accepted_of_isObject (s := ⟨record, .empty, e.cache⟩) hobject h₁
  obtain rfl := accepted_of_isObject (s := ⟨record', .empty, e'.cache⟩) hobject' h₁'
  have hc : (e.passContext operation name batch).Akin (e'.passContext operation name batch) :=
    ⟨hreg, hreg', hblocks, hsource, rfl, rfl, rfl⟩
  have hfield := hdots _ hd
  have hp : collection.Parts field d := ⟨hnames, hd, fun f hf hne =>
    ⟨.of_dotFree hne.symm hfield.1 (hdots f hf).1, (hdots f hf).2⟩⟩
  have hp' : collection'.Parts field d :=
    ⟨(hfields.map _).nodup_iff.mp hnames, hfields.mem_iff.mp hd,
      fun f hf hne => hp.others f (hfields.mem_iff.mpr hf) hne⟩
  have hstart : Agree field (PassState.pruned ⟨record, .empty, e.cache⟩ collection)
      (PassState.pruned ⟨record', .empty, e'.cache⟩ collection') := by
    refine ⟨rfl, rfl, ?_, ?_, ?_, hcache, hcache'⟩
    · rw [get?_pruned, get?_pruned, if_pos (ownKey_of_mem hp.mem), if_pos (ownKey_of_mem hp'.mem)]
      exact hvalue
    · rw [get?_pruned, get?_pruned]
      exact hid
    · rw [under_pruned hp.mem rfl fun key hkey hat => hat.eq (hkeys key hkey),
        under_pruned hp'.mem rfl fun key hkey hat => hat.eq (hkeys' key hkey)]
  have hmiddle := Agree.sanitizeRecord hc hfield.2 hbare hp hp' hvalue hstart h₁ h₁'
  have hend := Agree.checkRecord hc hfield.2 hbare hp hp' hmiddle h₂ h₂'
  rw [hprocessed, hprocessed']
  exact ⟨hend.value, hend.errors⟩

/-! ### An instance -/

/-- Events with a short code and a number of seats, declared in this order or the other one. -/
def eventFields : Schema :=
  [("code", (Declaration.ofKind .text).option "max-length" (.number 3)),
    ("seats", .ofKind .number)]

def eventEngine (fields : Schema) : Engine :=
  .ofCatalog ⟨[("events", { name := "events", fields := fields })], []⟩

def event (seats : Value) : Value := .object [("code", .string "long"), ("seats", seats)]

theorem processRecord_local_event :
    let e := eventEngine eventFields
    let f := eventEngine eventFields.reverse
    let errors : ErrorMap := ⟨[("code", "The value must be at most 3 characters long")]⟩
    let errors' : ErrorMap := ⟨[("seats", Message.invalidInputType),
      ("code", "The value must be at most 3 characters long")]⟩
    (e.processRecord "events" (event (.number 1)) .create []).result = .ok errors ∧
      (f.processRecord "events" (event (.bool true)) .create []).result = .ok errors' ∧
      (e.processRecord "events" (event (.number 1)) .create []).records.get? "code" =
        (f.processRecord "events" (event (.bool true)) .create []).records.get? "code" ∧
      errors.under "code" = errors'.under "code" := by
  intro e f errors errors'
  have h : (e.processRecord "events" (event (.number 1)) .create []).result = .ok errors := rfl
  have h' : (f.processRecord "events" (event (.bool true)) .create []).result = .ok errors' := rfl
  have hkeys : ∀ seats key, ((event seats).get? key).isSome = true → '.' ∉ key.toList := by
    intro seats key hkey
    obtain ⟨v, hv⟩ := Option.isSome_iff_exists.mp hkey
    rcases List.mem_cons.mp (Entries.mem_of_get? hv) with hmem | hmem
    · obtain rfl := (Prod.mk.inj hmem).1
      decide
    · obtain rfl := (Prod.mk.inj (List.mem_singleton.mp hmem)).1
      decide
  have hcol : e.catalog.collection? "events" = some { name := "events", fields := eventFields } :=
    rfl
  have hcol' : f.catalog.collection? "events" =
    some { name := "events", fields := eventFields.reverse } := rfl
  have hsource : e.source = f.source := rfl
  have hvalue : (event (.number 1)).get? "code" = (event (.bool true)).get? "code" := rfl
  exact ⟨h, h', Engine.processRecord_local rfl rfl OptionCache.sound_empty OptionCache.sound_empty
    hsource rfl hcol hcol' (List.reverse_perm eventFields).symm (by decide) (by decide)
    List.mem_cons_self (.of_leaf ⟨rfl, rfl, rfl⟩ rfl) rfl rfl (hkeys _) (hkeys _) hvalue rfl h h'⟩

end ContentSchema
