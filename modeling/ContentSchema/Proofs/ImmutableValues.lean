import ContentSchema.Proofs.Conformance
import ContentSchema.Proofs.SameValues
import ContentSchema.Proofs.UniqueValues

/-!
# Immutable values — an update is held against the stored record

The constraint looks up the stored record with the id of the record and compares the member that
has the name of the field (`checkImmutable_store`).  For a field of the collection that member is
its stored value, so the update reports exactly a changed value
(`Engine.processRecord_immutable_iff`).  For a field further inside it is another value or none,
and a changed value passes (`processRecord_immutable_nested`).
-/

namespace ContentSchema

/-! ### The stored record -/

namespace Store

variable {store : Store} {name : String}

/-- A stored record whose value at a key is told apart is the only one that is found by it. -/
theorem found_eq_of_unique {key : String} (hunique : UniqueColumn key (store.records name))
    {stored v w : Value} (hstored : stored ∈ store.records name) (hw : stored.get? key = some w)
    (hnull : v.isNull = false) (hsame : w.same v = true) :
    ∀ r ∈ store.found { collection := name, filters := [.eq key v] }, r = stored := by
  intro r hr
  obtain ⟨hr, haccepts⟩ := List.mem_filter.mp hr
  have hsame' : ((r.get? key).getD .null).same v = true := by
    simpa only [List.all_cons, List.all_nil, Bool.and_true, Filter.accepts] using haccepts
  obtain ⟨u, hu⟩ : ∃ u, r.get? key = some u := by
    cases hu : r.get? key with
    | some u => exact ⟨u, rfl⟩
    | none =>
      rw [hu, Option.getD_none, Value.null_same, hnull] at hsame'
      cases hsame'
  rw [hu, Option.getD_some] at hsame'
  have hheld : ∀ {x y : Value}, x.same v = true → y.same v = true → x.same y = true :=
    fun hx hy => Value.same_trans _ v _ hx ((Value.same_comm ..).trans hy)
  have hcolumn : ∀ {s x : Value}, s.get? key = some x → x.same v = true →
      (s.get? key).filter (!·.isNull) = some x := by
    intro s x hs hx
    rw [hs, Option.filter_some, Value.isNull_of_same hx, hnull]
    rfl
  -- two places with values that are the same would be two entries of the column
  have hpairs := List.pairwise_iff_getElem.mp (List.pairwise_filterMap.mp
    (uniqueColumn_iff.mp hunique))
  obtain ⟨i, hi, rfl⟩ := List.getElem_of_mem hr
  obtain ⟨j, hj, rfl⟩ := List.getElem_of_mem hstored
  rcases Nat.lt_trichotomy i j with hij | rfl | hij
  · have hdiffer := hpairs i j hi hj hij u (hcolumn hu hsame') w (hcolumn hw hsame)
    rw [hheld hsame' hsame] at hdiffer
    cases hdiffer
  · rfl
  · have hdiffer := hpairs j i hj hi hij w (hcolumn hw hsame) u (hcolumn hu hsame')
    rw [hheld hsame hsame'] at hdiffer
    cases hdiffer

end Store

/-- The constraint holds the value of a field, wherever it stands, against the member of the stored
record that has the name of the field. -/
theorem checkImmutable_store {context : FieldContext} {v : Value} {store : Store} {name : String}
    {id stored w : Value} (hsource : context.source = some store.source)
    (hname : context.collection = some name) (hid : context.recordId? = some id)
    (hunique : UniqueColumn Kinds.idField (store.records name))
    (hstored : stored ∈ store.records name) (hw : stored.get? Kinds.idField = some w)
    (hsame : w.same id = true) :
    checkImmutable context v =
      match stored.get? context.name with
      | some previous =>
        if previous.same v then .ok () else .error (.message Message.immutable)
      | none => .ok () := by
  have hnull : id.isNull = false := by
    obtain ⟨-, hnull⟩ := Option.filter_eq_some_iff.mp hid
    simpa using hnull
  have hfound := Store.found_eq_of_unique hunique hstored hw hnull hsame
  obtain ⟨request, hrequest⟩ : ∃ request : Request, request =
    { collection := name, select := [context.name], filters := [.eq Kinds.idField id] } := ⟨_, rfl⟩
  have hquery : ((store.source.query name).select [context.name]).whereEq Kinds.idField id =
      ⟨store.source, request⟩ := by
    rw [hrequest]
    rfl
  have hmem : stored ∈ store.found request := by
    rw [hrequest]
    refine List.mem_filter.mpr ⟨hstored, ?_⟩
    simp only [List.all_cons, List.all_nil, Bool.and_true, Filter.accepts, hw, Option.getD_some,
      hsame]
  have hknown : (store.collections.get? request.collection).isSome = true := by
    cases hknown : store.collections.get? request.collection with
    | some records => rfl
    | none =>
      have hnone : store.found request = [] := by
        unfold Store.found Store.records
        rw [hknown]
        rfl
      rw [hnone] at hmem
      cases hmem
  have hfirst : (store.found request).head? = some stored := by
    obtain ⟨r, rest, hlist⟩ := List.exists_cons_of_ne_nil (List.ne_nil_of_mem hmem)
    rw [hlist, List.head?_cons]
    refine congrArg some (hfound r ?_)
    have hr : r ∈ store.found request := hlist ▸ List.mem_cons_self
    rw [hrequest] at hr
    exact hr
  unfold checkImmutable
  simp only [hsource, hname, hid, hquery, Store.first_query hknown, hfirst, Option.map_some,
    Option.bind_some]
  rw [hrequest]
  cases hget : stored.get? context.name <;>
    simp only [Store.get?_project (List.mem_singleton_self _), hget]

/-! ### Messages at a field -/

/-- A path reads as a name without dots only if that is all of the path. -/
theorem Path.text_eq_name {p : Path} {segment : String} {rest : List String}
    (hp : p.segments = segment :: rest) {name : String} (hdot : '.' ∉ name.toList)
    (h : p.text = name) : segment = name ∧ rest = [] := by
  unfold text at h
  rw [hp] at h
  cases rest with
  | nil => exact ⟨h, rfl⟩
  | cons t rest =>
    refine (hdot ?_).elim
    rw [← h, Text.join_cons_cons, String.toList_append, String.toList_append]
    exact List.mem_append_left _ (List.mem_append_right _ List.mem_cons_self)

/-- Messages at a name survive whatever is reported at other paths. -/
theorem frame_errors {name : String} (message : Option String) :
    Frame (fun s => s.errors.get? name = message) (fun _ => True) fun p => p.text ≠ name where
  resolve _ _ h := h
  store _ _ h := h
  report m hp h := (ErrorMap.get?_add_of_ne hp _ m).trans h

/-! ### One field of a record -/

section

variable {c : PassContext} {collection : Collection} {s t t' : PassState} {field : String}
  {d : Declaration} {v : Value}

theorem forM_append_ok {α : Type} {f : α → PassM Unit} {xs ys : List α} :
    (xs ++ ys).forM f s = .ok () t' ↔ ∃ t, xs.forM f s = .ok () t ∧ ys.forM f t = .ok () t' := by
  induction xs generalizing s with
  | nil =>
    constructor
    · exact fun h => ⟨s, rfl, h⟩
    · rintro ⟨t, ht, h⟩
      obtain ⟨-, rfl⟩ := EStateM.Result.ok.inj ht
      exact h
  | cons x xs ih =>
    rw [List.cons_append, forM_cons_ok]
    constructor
    · rintro ⟨u, hx, h⟩
      obtain ⟨t, hxs, hys⟩ := ih.mp h
      exact ⟨t, forM_cons_ok.mpr ⟨u, hx, hxs⟩, hys⟩
    · rintro ⟨t, hxs, hys⟩
      obtain ⟨u, hx, hxs⟩ := forM_cons_ok.mp hxs
      exact ⟨u, hx, ih.mpr ⟨t, hxs, hys⟩⟩

/-- Where the validators and the constraint on unique values accept, the other one decides. -/
theorem judge_of_others {context : FieldContext} {definition : Definition}
    {additional : Additional} {v : Value}
    (hvalidators : runValidators context v (definition.validators ++ additional.validators) =
      .ok ())
    (hunique : additional.unique = true → checkUnique context v = .ok ())
    (himmutable : additional.immutable = true) (hop : context.operation = .update) :
    judge context definition additional v = checkImmutable context v := by
  obtain ⟨unique, immutable, logic, population, populator, sanitizers, validators⟩ := additional
  simp only at hvalidators hunique himmutable
  unfold judge
  simp only [hvalidators, himmutable, hop]
  cases unique with
  | false => rfl
  | true =>
    rw [hunique rfl]
    rfl

namespace PassContext

/-- The second pass over a record, begun in `s`, comes to a field in the state `t`. -/
def ComesTo (c : PassContext) (collection : Collection) (s : PassState) (x : Path × Declaration)
    (t : PassState) : Prop :=
  ∃ before after, c.fieldsFor collection s.record = before ++ x :: after ∧
    before.forM (fun x => c.check (fuelAt s.record x.1) x.1 x.2) s = .ok () t

/-- The conditions of a field hold, and nothing but the constraint on immutable values can refuse
its value. -/
structure PassesOthers (c : PassContext) (path : Path) (d : Declaration) (o : Options)
    (record v : Value) : Prop where
  conditions : ∀ logic, d.additional.logic = some logic → d.kind.definition.matcher
    (c.fieldContext path d.kind.definition o record) logic = .ok .proceed
  validators : runValidators (c.fieldContext path d.kind.definition o record) v
    (d.kind.definition.validators ++ d.additional.validators) = .ok ()
  unique : d.additional.unique = true →
    checkUnique (c.fieldContext path d.kind.definition o record) v = .ok ()

/-- The names of the fields that take part are told apart. -/
theorem ne_of_fieldsFor (hnames : (Entries.keys collection.fields).Nodup) {r : Value}
    {before after : List (Path × Declaration)}
    (h : c.fieldsFor collection r = before ++ (Path.root.child field, d) :: after) :
    ∀ x ∈ before ++ after, ∃ other, x.1 = Path.root.child other ∧ other ≠ field := by
  have hnodup : ((c.fieldsFor collection r).map Prod.fst).Nodup := by
    have hall : (collection.fields.map fun e => Path.root.child e.1).Nodup :=
      List.pairwise_map.mpr ((List.pairwise_map.mp hnames).imp fun hne heq =>
        hne (List.cons.inj (Path.ext_iff.mp heq)).1)
    have hpaths : collection.fields.map (fun e => Path.root.child e.1) =
        (collection.fields.map fun e => (Path.root.child e.1, e.2)).map Prod.fst := by
      rw [List.map_map]
      rfl
    rw [hpaths] at hall
    exact hall.sublist (List.filter_sublist.map _)
  rw [h, List.map_append, List.map_cons] at hnodup
  obtain ⟨-, hafter, hbefore⟩ := List.nodup_append.mp hnodup
  intro x hx
  have hne : x.1 ≠ Path.root.child field := by
    rcases List.mem_append.mp hx with hx | hx
    · exact hbefore _ (List.mem_map_of_mem hx) _ List.mem_cons_self
    · intro heq
      have hpath := List.mem_map_of_mem (f := Prod.fst) hx
      rw [heq] at hpath
      exact (List.nodup_cons.mp hafter).1 hpath
  have hmem : x ∈ c.fieldsFor collection r := by
    rw [h]
    exact (List.mem_append.mp hx).elim (List.mem_append_left _)
      fun hx => List.mem_append_right _ (List.mem_cons_of_mem _ hx)
  obtain ⟨other, -, hpath⟩ := mem_fieldsFor hmem
  refine ⟨other, hpath, ?_⟩
  rintro rfl
  exact hne hpath

theorem PassesOthers.verdict {path : Path} {o : Options} {record : Value}
    (h : c.PassesOthers path d o record v) :
    c.verdict path d o record v = .ofJudgement (d.kind.definition.default o) (judge
      (c.fieldContext path d.kind.definition o record) d.kind.definition d.additional v) := by
  unfold PassContext.verdict
  cases hlogic : d.additional.logic with
  | none => rfl
  | some logic =>
    have hmatch := h.conditions logic hlogic
    simp only [Option.mapM_some, hmatch]
    rfl

/-- A field that passes everything else is refused exactly when the constraint refuses it. -/
theorem check_immutable (hc : c.registry = .builtin) {fuel : Nat} (hdot : '.' ∉ field.toList)
    (hop : c.operation = .update) (himmutable : d.additional.immutable = true)
    (hv : t.record.get? field = some v) (hreported : t.errors.get? field = none)
    (hothers : ∀ o, (t.cache.resolve .builtin field d).1 = .ok o →
      c.PassesOthers (Path.root.child field) d o t.record v)
    {kept : Bool}
    (hkept : ∀ o, checkImmutable
      (c.fieldContext (Path.root.child field) d.kind.definition o t.record) v =
        if kept then .ok () else .error (.message Message.immutable))
    (h : c.check (fuel + 1) (Path.root.child field) d t = .ok () t') :
    t'.errors.get? field = if kept then none else some Message.immutable := by
  obtain ⟨o, cache, hoptions, hends⟩ := check_ends hc h
  have hothers := hothers o (congrArg Prod.fst hoptions)
  -- what is left of the judgement is the constraint
  have hjudge : c.verdict (Path.root.child field) d o t.record v =
      .ofJudgement (d.kind.definition.default o)
        (if kept then .ok () else .error (.message Message.immutable)) := by
    rw [← hkept o, hothers.verdict, judge_of_others hothers.validators hothers.unique
      himmutable hop]
  have hvalue : (Path.root.child field).lookup t.record = some v := lookup_field hv
  cases hends with
  | absent hnone => cases hvalue.symm.trans hnone
  | reset hu hverdict =>
    obtain rfl := Option.some.inj (hvalue.symm.trans hu)
    cases kept <;> cases hjudge.symm.trans hverdict
  | refuse hu hverdict =>
    obtain rfl := Option.some.inj (hvalue.symm.trans hu)
    cases kept with
    | true => cases hjudge.symm.trans hverdict
    | false =>
      obtain ⟨rfl, -⟩ := Verdict.refuse.inj (hjudge.symm.trans hverdict)
      refine ErrorMap.get?_add_self t.errors field _ ?_
      exact (Entries.contains_eq field t.errors.entries).trans (by
        show (t.errors.get? field).isSome = false
        rw [hreported]
        rfl)
  | accept hu hverdict hmembers =>
    obtain rfl := Option.some.inj (hvalue.symm.trans hu)
    cases kept with
    | false => cases hjudge.symm.trans hverdict
    | true =>
      have hkeeps : Maintains (fun s => s.errors.get? field = none)
          ((c.catalog.members d v).forM fun m =>
            c.check fuel (Path.root.child field ++ m.relative) m.declaration) := by
        refine .forM fun m hm => .check (frame_errors none) hc fuel (fun q => ⟨trivial, ?_⟩) _
        intro htext
        have hsegments : (Path.root.child field ++ m.relative ++ q).segments =
          field :: (m.relative.segments ++ q.segments) := rfl
        obtain ⟨-, hrest⟩ := Path.text_eq_name hsegments hdot htext
        exact Catalog.members_ne hm (List.append_eq_nil_iff.mp hrest).1
      exact hkeeps.ok (s := { t with cache := cache }) hreported hmembers

end PassContext

end

/-! ### Updates -/

/-- An update of a record whose id is that of a stored one reports a flagged field of the
collection exactly when its value is not the stored one: the value the first pass left, if nothing
else is wrong with it.  The id is the one that the check of the field finds, since a collection may
declare a field of that name. -/
theorem Engine.processRecord_immutable_iff {e : Engine} (hreg : e.registry = .builtin)
    {store : Store} (hsource : e.source = some store.source) {name : String}
    {collection : Collection} (hcol : e.catalog.collection? name = some collection)
    (hnames : (Entries.keys collection.fields).Nodup) {field : String} {d : Declaration}
    (hdot : '.' ∉ field.toList) (himmutable : d.additional.immutable = true) {record : Value}
    {batch : List Value} {errors : ErrorMap}
    (h : (e.processRecord name record .update batch).result = .ok errors) {s t : PassState}
    (hfirst : (e.passContext .update name batch).sanitizeRecord collection
      ⟨record, .empty, e.cache⟩ = .ok true s)
    (hcomes : (e.passContext .update name batch).ComesTo collection s
      (Path.root.child field, d) t)
    {v : Value} (hv : s.record.get? field = some v) (hreported : s.errors.get? field = none)
    (hothers : ∀ o, (t.cache.resolve .builtin field d).1 = .ok o →
      (e.passContext .update name batch).PassesOthers (Path.root.child field) d o t.record v)
    {id w stored previous : Value} (hid : t.record.get? Kinds.idField = some id)
    (hnull : id.isNull = false) (hids : UniqueColumn Kinds.idField (store.records name))
    (hstored : stored ∈ store.records name) (hw : stored.get? Kinds.idField = some w)
    (hsame : w.same id = true) (hprevious : stored.get? field = some previous) :
    errors.get? field = some Message.immutable ↔ previous.same v = false := by
  obtain ⟨accepted, s₁, s₂, h₁, h₂, -, rfl⟩ := processRecord_ok hcol h
  obtain ⟨rfl, rfl⟩ := EStateM.Result.ok.inj (h₁.symm.trans hfirst)
  obtain ⟨before, after, hfields, hbefore⟩ := hcomes
  obtain ⟨c, hc⟩ : ∃ c, e.passContext .update name batch = c := ⟨_, rfl⟩
  have hother := PassContext.ne_of_fieldsFor hnames hfields
  simp only [if_true] at h₂
  rw [PassContext.checkRecord_run, hfields, forM_append_ok] at h₂
  obtain ⟨t', hbefore', h₂⟩ := h₂
  obtain ⟨-, rfl⟩ := EStateM.Result.ok.inj (hbefore.symm.trans hbefore')
  obtain ⟨u, hcheck, hafter⟩ := forM_cons_ok.mp h₂
  -- the other fields neither report at the field nor store into it
  have herrors : ∀ message, ∀ x ∈ before ++ after,
      Maintains (fun s => s.errors.get? field = message)
        ((e.passContext .update name batch).check (PassContext.fuelAt s₁.record x.1) x.1 x.2) := by
    intro message x hx
    obtain ⟨other, hpath, hne⟩ := hother x hx
    refine .check (frame_errors message) hreg _ (fun q => ⟨trivial, fun htext => hne ?_⟩) _
    rw [hpath] at htext
    have hsegments : (Path.root.child other ++ q).segments = other :: q.segments := rfl
    exact (Path.text_eq_name hsegments hdot htext).1
  have hvalue : ∀ x ∈ before ++ after, Maintains (fun s => s.record.get? field = some v)
      ((e.passContext .update name batch).check (PassContext.fuelAt s₁.record x.1) x.1 x.2) := by
    intro x hx
    obtain ⟨other, hpath, hne⟩ := hother x hx
    refine .check (frame_get? field (some v)) hreg _ (fun q => ⟨⟨other, q.segments, ?_, hne⟩,
      trivial⟩) _
    rw [hpath]
    rfl
  have hbeforeErrors := (Maintains.forM fun x hx =>
    herrors none x (List.mem_append_left _ hx)).ok hreported hbefore
  have hbeforeValue := (Maintains.forM fun x hx =>
    hvalue x (List.mem_append_left _ hx)).ok hv hbefore
  have hhere : u.errors.get? field =
      if previous.same v then none else some Message.immutable := by
    refine PassContext.check_immutable hreg hdot rfl himmutable hbeforeValue hbeforeErrors hothers
      (fun o => ?_) hcheck
    have hrecordId : FieldContext.recordId? ((e.passContext .update name batch).fieldContext
        (Path.root.child field) d.kind.definition o t.record) = some id := by
      show (t.record.get? Kinds.idField).filter (!·.isNull) = some id
      rw [hid, Option.filter_some, hnull]
      rfl
    rw [checkImmutable_store hsource rfl hrecordId hids hstored hw hsame]
    show (match stored.get? field with | some _ => _ | none => _) = _
    rw [hprevious]
  have hlast := (Maintains.forM fun x hx =>
    herrors _ x (List.mem_append_right _ hx)).ok hhere hafter
  rw [hlast]
  cases previous.same v <;> simp

/-! ### Instances -/

/-- Articles whose address never changes. -/
def articles : Collection where
  name := "articles"
  fields := [("title", .ofKind .text), ("slug", (Declaration.ofKind .text).immutable)]

def articlesCatalog : Catalog := ⟨[("articles", articles)], []⟩

def article (id slug : String) : Value :=
  .object [("id", .string id), ("slug", .string slug), ("title", .string "T")]

def articleStore : Store := ⟨[("articles", [article "1" "a", article "2" "b"])]⟩

theorem processRecord_immutable_article :
    let e := (Engine.ofCatalog articlesCatalog).withSource articleStore.source
    (e.processRecord "articles" (article "2" "c") .update []).result =
        .ok ⟨[("slug", Message.immutable)]⟩ ∧
      (ErrorMap.get? ⟨[("slug", Message.immutable)]⟩ "slug" = some Message.immutable ↔
        (Value.string "b").same (.string "c") = false) := by
  intro e
  have hresult : (e.processRecord "articles" (article "2" "c") .update []).result =
      .ok ⟨[("slug", Message.immutable)]⟩ := rfl
  have hcol : e.catalog.collection? "articles" = some articles := rfl
  have hstored : article "2" "b" ∈ articleStore.records "articles" := by decide
  have hid : (article "2" "b").get? Kinds.idField = some (.string "2") := rfl
  refine ⟨hresult, Engine.processRecord_immutable_iff (d := (Declaration.ofKind .text).immutable)
    rfl rfl hcol (by decide) (by decide) rfl hresult rfl
    ⟨[(Path.root.child "title", .ofKind .text)], [], rfl, rfl⟩ rfl rfl (fun o ho => ?_) rfl rfl
    (uniqueColumn_iff.mpr (by decide)) hstored hid (by decide) rfl⟩
  obtain rfl := Except.ok.inj ho
  exact ⟨nofun, rfl, nofun⟩

/-- Pages whose title, inside an object, never changes. -/
def titledPages : Collection where
  name := "titled"
  fields := [("meta", (Declaration.ofKind .object).subfield "title"
    (Declaration.ofKind .text).immutable)]

def titledPage (title : String) : Value :=
  .object [("id", .string "1"), ("meta", .object [("title", .string title)])]

/-- Another title is not reported, as no member of the stored record itself has that name. -/
theorem processRecord_immutable_nested :
    let path := (Path.root.child "meta").child "title"
    let e := (Engine.ofCatalog ⟨[("titled", titledPages)], []⟩).withSource
      (Store.source ⟨[("titled", [titledPage "a"])]⟩)
    path.lookup (titledPage "a") = some (.string "a") ∧
      path.lookup (titledPage "b") = some (.string "b") ∧
      (Value.string "a").same (.string "b") = false ∧
      (e.processRecord "titled" (titledPage "b") .update []).result = .ok .empty ∧
      (e.processRecord "titled" (titledPage "b") .update []).records = titledPage "b" :=
  ⟨rfl, rfl, by decide, rfl, rfl⟩

end ContentSchema
