import ContentSchema.Proofs.PopulationFuel

/-!
# Population budget — every population ends within its budgets

A population of a record is a run in which, of the populators under one key, exactly the first are
called, as many as the engine follows a relation (`Engine.populateRecord_budgeted`).

This needs that no block has two fields for one index.  The members of a block are its fields, also
where the value has a list in their place.  Two fields whose names read as one index are then one
value: what a relation puts there through the first is populated through the second, at a longer
path and so under keys that nothing was taken from yet.  Records that hold such blocks again are
climbed without end (`populates_tower_none`).
-/

namespace ContentSchema

namespace Engine

variable {e : Engine}

/-- A population of a record ends, and within its budgets: it is a run, and the only one, of the
populators that the record comes to.  Of those under one key, in their order, exactly the first ones
are called, as many as the engine follows a relation; every later one gives its terminal value. -/
theorem populateRecord_budgeted (he : e.Populatable) (hi : e.catalog.IndicesApart)
    (name : String) (record : Value) :
    ∃ evaluations final,
      Populates e (.record name record) e.populationStart evaluations
        (e.populateRecord name record).1 final ∧
      (e.populateRecord name record).2 = { e with cache := final.cache } ∧
      (∀ evaluations' result final',
        Populates e (.record name record) e.populationStart evaluations' result final' →
          evaluations' = evaluations ∧ result = (e.populateRecord name record).1) ∧
      ∀ key i x, (evaluations.filter (·.key == key))[i]? = some x →
        (x.called = true ↔ i < e.maxDepth) ∧
          (x.called = false →
            x.kind.definition.population.map Population.terminal = some x.value) := by
  obtain ⟨evaluations, hrun⟩ := populateRecord_carriesOut he hi name record
  refine ⟨evaluations, _, hrun, rfl, fun _ _ _ hrun' => ?_, fun key i x hx => ?_⟩
  · obtain ⟨hevaluations, hresult, -⟩ := hrun.unique hrun'
    exact ⟨hevaluations, hresult⟩
  · exact hrun.charged.called_iff key hx

end Engine

/-! ### Instances -/

/-- A declaration without others in it and without a populator. -/
def Declaration.Flat (d : Declaration) : Prop :=
  d.subfields = [] ∧ d.variants = [] ∧ d.additional.populator = none

theorem Engine.Populatable.of_flat {e : Engine} (builtin : e.registry = .builtin)
    (stored : e.Stored)
    (collections : ∀ name collection, e.catalog.collection? name = some collection →
      (Entries.keys collection.fields).Nodup ∧ ∀ f ∈ collection.fields, f.2.Flat)
    (blocks : ∀ key block, e.catalog.block? key = some block →
      (Entries.keys block.fields).Nodup ∧ block.slots.keys.Nodup ∧ ∀ f ∈ block.fields, f.2.Flat) :
    e.Populatable := by
  have hflat : ∀ name collection, e.catalog.collection? name = some collection →
      ∀ d, e.catalog.InUse collection.fields d → d.Flat := fun name collection hcol d hd =>
    hd.inPlay.flat (fun _ h => ⟨h.1, h.2.1⟩) (collections name collection hcol).2
      fun key block hb => (blocks key block hb).2.2
  refine ⟨builtin, stored, fun name collection hcol => ⟨fun key block hb => ?_, ?_, ?_⟩,
    fun name collection hcol d hd => (hflat name collection hcol d hd).2.2⟩
  · exact ⟨(blocks key block hb).1, (blocks key block hb).2.1⟩
  · exact (collections name collection hcol).1
  · intro d hd
    obtain ⟨hsubfields, hvariants, -⟩ := hflat name collection hcol d hd
    unfold Declaration.Distinct
    rw [hsubfields, hvariants]
    exact ⟨List.nodup_nil, fun _ h => nomatch h⟩

/-- A related record, with the members to show, which may be populated in turn. -/
def relatedRecord (collection : String) (shown : List String) (populate : Bool) : Declaration :=
  (((Declaration.ofKind .record).option "collection" (.string collection)).option "fields"
    (.list (shown.map .string))).option "populate" (.bool populate)

/-- Records that name the one after them. -/
def ring : Collection where
  name := "ring"
  fields := [("next", relatedRecord "ring" ["next"] true)]

def ringRecord (id next : Nat) : Value := .object [("id", .ofInt id), ("next", .ofInt next)]

/-- Two records that name each other, and relations that are followed twice. -/
def ringEngine : Engine :=
  ((Engine.ofCatalog ⟨[("ring", ring)], []⟩).withSource
    (Store.source ⟨[("ring", [ringRecord 1 2, ringRecord 2 1])]⟩)).withMaxDepth 2

theorem populatable_ring : ringEngine.Populatable := by
  refine .of_flat rfl (fun _ h => ⟨_, (Option.some.inj h).symm⟩) (fun name collection hcol => ?_)
    nofun
  obtain ⟨-, rfl⟩ := Prod.mk.inj (List.mem_singleton.mp (Entries.mem_of_get? hcol))
  exact ⟨by decide, fun f hf => by rw [List.mem_singleton.mp hf]; exact ⟨rfl, rfl, rfl⟩⟩

/-- Each record is read twice before the relation is cut. -/
theorem populateRecord_budgeted_ring :
    (ringEngine.populateRecord "ring" (ringRecord 1 2)).1 =
        .ok (.object [("id", .ofInt 1), ("next", .object [("id", .ofInt 2),
          ("next", .object [("id", .ofInt 1), ("next", .null)])])]) ∧
      ∃ evaluations final,
        Populates ringEngine (.record "ring" (ringRecord 1 2)) ringEngine.populationStart
          evaluations (ringEngine.populateRecord "ring" (ringRecord 1 2)).1 final ∧
        ∀ key i x, (evaluations.filter (·.key == key))[i]? = some x →
          (x.called = true ↔ i < 2) := by
  refine ⟨by decide +kernel, ?_⟩
  obtain ⟨evaluations, final, hrun, -, -, hcalled⟩ :=
    Engine.populateRecord_budgeted populatable_ring nofun "ring" (ringRecord 1 2)
  exact ⟨evaluations, final, hrun, fun key i x hx => (hcalled key i x hx).1⟩

/-- Posts whose authors are users. -/
def postsEngine (author : Declaration) : Engine :=
  let users : Collection := { name := "users", fields := [("name", .ofKind .text)] }
  let posts : Collection := { name := "posts", fields := [("author", author)] }
  (Engine.ofCatalog ⟨[("users", users), ("posts", posts)], []⟩).withSource
    (Store.source ⟨[("users", [.object [("id", .ofInt 1), ("name", .string "Al")]])]⟩)

/-- A relation that asks not to be populated is come to, and its populator is not called although
its budget is full and the record is there. -/
theorem populateRecord_opted_out :
    let author := relatedRecord "users" ["name"] false
    let post := Value.object [("author", .ofInt 1), ("id", .ofInt 9)]
    let e := postsEngine author.withoutPopulation
    (∀ key, e.populationStart.budget.remaining key = 30) ∧
      (e.populateRecord "posts" post).1 = .ok post ∧
      Populates e (.record "posts" post) e.populationStart [] (.ok post) e.populationStart ∧
      ((postsEngine author).populateRecord "posts" post).1 =
        .ok (.object [("author", .object [("id", .ofInt 1), ("name", .string "Al")]),
          ("id", .ofInt 9)]) := by
  refine ⟨fun _ => rfl, by decide +kernel, ?_, by decide +kernel⟩
  exact .record rfl (.member rfl (.kept rfl) .membersDone)

/-! ### Two fields for one index -/

theorem Text.length_join {sep : String} {s : String} (rest : List String) :
    (Text.join sep (s :: rest)).length =
      s.length + total (rest.map fun t => sep.length + t.length) := by
  induction rest generalizing s with
  | nil => rfl
  | cons t rest ih =>
    rw [Text.join_cons_cons, String.length_append, String.length_append, ih, List.map_cons,
      total_cons, Nat.add_assoc, Nat.add_assoc]

/-- A longer path has a longer key. -/
theorem length_populationKey (collection : Option String) {p : Path} (hp : p.segments ≠ [])
    (q : Path) : (Engine.populationKey collection (p ++ q)).length =
      (Engine.populationKey collection p).length +
        total (q.segments.map fun s => 1 + s.length) := by
  unfold Engine.populationKey Path.text
  rw [Path.segments_append]
  obtain ⟨s, rest, hs⟩ := List.exists_cons_of_ne_nil hp
  rw [hs, List.cons_append, String.length_append, String.length_append _ (Text.join _ _),
    Text.length_join, Text.length_join, List.map_append, total_append]
  show _ + (_ + (_ + total (q.segments.map fun s => 1 + s.length))) = _
  omega

/-- Every key of some length or more has some budget left. -/
def Fresh (n : Nat) (s : PopulationState) : Prop :=
  ∀ key : String, n ≤ key.length → 0 < s.budget.remaining key

theorem Fresh.take {n m : Nat} {s : PopulationState} (h : Fresh n s) {key : String}
    (hn : n ≤ m) (hkey : key.length < m) : Fresh m (s.take key) := by
  intro key' hkey'
  show 0 < (s.budget.take key).2.remaining key'
  rw [DepthBudget.remaining_take, if_neg fun heq => by rw [heq] at hkey'; omega]
  exact h key' (hn.trans hkey')

/-- The floors above, as they are stored. -/
def floorsAbove : Declaration :=
  (((Declaration.ofKind .records).option "collection" (.string "floors")).option "fields"
    (.list [.string "name", .string "fields"]))

/-- A block whose two fields name one index. -/
def floorBlock : Block where
  name := "floor"
  fields := [("0", floorsAbove), ("00", .ofKind .blocks)]
  slots := []

def floors : Collection where
  name := "floors"
  fields := [("blocks", .ofKind .blocks)]

/-- A block that gives its fields as a list, and as a record the one that it refers to. -/
def floor : Value :=
  .object [("fields", .list [.list [.ofInt 1]]), ("id", .ofInt 1), ("name", .string "floor")]

def tower (maxDepth : Nat) : Engine :=
  ((Engine.ofCatalog ⟨[("floors", floors)], [("floor", floorBlock)]⟩).withSource
    (Store.source ⟨[("floors", [floor])]⟩)).withMaxDepth maxDepth

/-- The places of the two fields in a list of floors. -/
def abovePath : Path := ⟨["0", "fields", "0"]⟩

def stairsPath : Path := ⟨["0", "fields", "00"]⟩

variable {maxDepth : Nat}

/-- What a relation to the floors above answers, which does not follow them. -/
theorem plan_floorsAbove {o : Options} (ho : o.values = floorsAbove.values) :
    Plan.ofKind .records (tower maxDepth).source o (.list [.ofInt 1]) =
      .answer (.ok (.list [floor])) := by
  obtain ⟨values, subfields, variants⟩ := o
  obtain rfl := ho
  have hids : (Value.list [.ofInt 1]).items.filterMap Value.id? = [1] := by decide +kernel
  have hquery : Kinds.wantedQuery (tower maxDepth).source
      ⟨floorsAbove.values, subfields, variants⟩ =
        .ok (((Store.source ⟨[("floors", [floor])]⟩).query "floors").select
          ["id", "name", "fields"]) := rfl
  have hall : ((((Store.source ⟨[("floors", [floor])]⟩).query "floors").select
      ["id", "name", "fields"]).whereIn Kinds.idField [.ofInt 1]).all = .ok [floor] := by
    decide +kernel
  have hrelated : Plan.related [floor] [1] = [floor] := by decide +kernel
  unfold Plan.ofKind Plan.ofIds
  simp only [hids, hquery, List.map_cons, List.map_nil, Nat.cast_one, hall]
  unfold Plan.ofQuery
  rw [hrelated]
  rfl

/-- A sound cache answers for a declaration whose options resolve. -/
theorem OptionCache.Sound.resolve_ok {cache : OptionCache} (h : cache.Sound) {d : Declaration}
    {o : Options} (hd : Registry.builtin.resolve "" d = .ok o) (name : String) :
    ∃ o' cache', cache.resolve .builtin name d = (.ok o', cache') ∧ o'.values = d.values ∧
      cache'.Sound := by
  obtain ⟨⟨result, cache'⟩, hresolve⟩ : ∃ r, cache.resolve .builtin name d = r := ⟨_, rfl⟩
  obtain ⟨hsound, hvalues⟩ := h.resolve name d
  rw [hresolve] at hsound hvalues
  cases result with
  | ok o' => exact ⟨o', cache', hresolve, (hvalues o' rfl).2, hsound⟩
  | error err =>
    unfold OptionCache.resolve at hresolve
    rw [resolve_name hd name] at hresolve
    simp only at hresolve
    split at hresolve <;> cases hresolve

/-- Where a population of the tower is on its way up: at a list of floors, before its fields, or
between them. -/
inductive Climbing : PopulationTask → PopulationState → Prop
  | field {p : Path} {s : PopulationState} (hp : p.segments ≠ []) (hcache : s.cache.Sound)
      (hfresh : Fresh (Engine.populationKey (some "floors") p).length s) :
      Climbing (.field (some "floors") p (.ofKind .blocks) (.list [floor])) s
  | members {p : Path} {s : PopulationState} (hp : p.segments ≠ []) (hcache : s.cache.Sound)
      (hfresh : Fresh (Engine.populationKey (some "floors") p).length s) :
      Climbing (.members (some "floors") p
        [⟨abovePath, floorsAbove⟩, ⟨stairsPath, .ofKind .blocks⟩] (.list [floor])) s
  | stairs {p : Path} {v : Value} {s : PopulationState} (hp : p.segments ≠ [])
      (hv : stairsPath.lookup v = some (.list [floor])) (hcache : s.cache.Sound)
      (hfresh : Fresh (Engine.populationKey (some "floors") (p ++ stairsPath)).length s) :
      Climbing (.members (some "floors") p [⟨stairsPath, .ofKind .blocks⟩] v) s

/-- The floor above is put in place, and the keys of the stairs are not touched. -/
theorem populates_floorsAbove {p : Path} (hp : p.segments ≠ []) {s : PopulationState}
    (hcache : s.cache.Sound)
    (hfresh : Fresh (Engine.populationKey (some "floors") p).length s) :
    ∃ xs t, Populates (tower maxDepth) (.field (some "floors") (p ++ abovePath) floorsAbove
        (.list [.ofInt 1])) s xs (.ok (.list [floor])) t ∧ t.cache.Sound ∧
      Fresh (Engine.populationKey (some "floors") (p ++ stairsPath)).length t := by
  have habove := length_populationKey (some "floors") hp abovePath
  have hstairs := length_populationKey (some "floors") hp stairsPath
  change _ = _ + 11 at habove
  change _ = _ + 12 at hstairs
  obtain ⟨o, ho⟩ : ∃ o, Registry.builtin.resolve "" floorsAbove = .ok o := ⟨_, rfl⟩
  obtain ⟨o', cache', hresolve, hvalues, hsound⟩ := hcache.resolve_ok ho (p ++ abovePath).name
  have hleft : 0 < s.budget.remaining (Engine.populationKey (some "floors") (p ++ abovePath)) :=
    hfresh _ (by omega)
  have hcall := Populates.answered (e := tower maxDepth) (s := { s with cache := cache' })
    (d := floorsAbove) rfl hleft (plan_floorsAbove hvalues)
  refine ⟨_, _, .field nofun hresolve .membersDone hcall, hsound, ?_⟩
  exact Fresh.take hfresh (by omega) (by omega)

/-- No population that is climbing ends. -/
theorem Populates.not_climbing {task : PopulationTask} {s t : PopulationState}
    {xs : List Evaluation} {result : Except EngineError Value}
    (h : Populates (tower maxDepth) task s xs result t) : ¬ Climbing task s := by
  obtain ⟨o, ho⟩ : ∃ o, Registry.builtin.resolve "" (.ofKind .blocks) = .ok o := ⟨_, rfl⟩
  induction h with
  | kept h =>
    intro hclimb
    cases hclimb
    cases h
  | unresolved _ hoptions =>
    intro hclimb
    cases hclimb with
    | field _ hcache _ =>
      obtain ⟨_, _, hresolve, -⟩ := hcache.resolve_ok ho _
      cases hoptions.symm.trans hresolve
  | membersFailed _ hoptions _ ih | field _ hoptions _ _ ih =>
    intro hclimb
    cases hclimb with
    | field hp hcache hfresh =>
      obtain ⟨_, _, hresolve, -, hsound⟩ := hcache.resolve_ok ho _
      cases hoptions.symm.trans hresolve
      exact ih (.members hp hsound hfresh)
  | absent h =>
    intro hclimb
    cases hclimb with
    | members => cases h
    | stairs _ hv => cases hv.symm.trans h
  | memberFailed h here ih =>
    intro hclimb
    cases hclimb with
    | members hp hcache hfresh =>
      cases h
      obtain ⟨_, _, hrun, -⟩ := populates_floorsAbove hp hcache hfresh
      cases (hrun.unique here).2.1
    | stairs hp hv hcache hfresh =>
      cases hv.symm.trans h
      exact ih (.field (List.append_ne_nil_of_left_ne_nil hp _) hcache hfresh)
  | member h here _ ihh ihr =>
    intro hclimb
    cases hclimb with
    | members hp hcache hfresh =>
      cases h
      obtain ⟨_, _, hrun, hsound, hstairs⟩ := populates_floorsAbove hp hcache hfresh
      obtain ⟨-, hpop, rfl⟩ := hrun.unique here
      cases hpop
      exact ihr (.stairs hp rfl hsound hstairs)
    | stairs hp hv hcache hfresh =>
      cases hv.symm.trans h
      exact ihh (.field (List.append_ne_nil_of_left_ne_nil hp _) hcache hfresh)
  | membersDone | plain | spent | answered | followed | unknown | record | followDone
  | followFailed | follow => nofun

/-- The tower lacks nothing else that a population asks for to end. -/
theorem populatable_tower : (tower maxDepth).Populatable := by
  refine .of_flat rfl (fun _ h => ⟨_, (Option.some.inj h).symm⟩) (fun name collection hcol => ?_)
    fun key block hb => ?_
  · obtain ⟨-, rfl⟩ := Prod.mk.inj (List.mem_singleton.mp (Entries.mem_of_get? hcol))
    exact ⟨by decide, fun f hf => by rw [List.mem_singleton.mp hf]; exact ⟨rfl, rfl, rfl⟩⟩
  · obtain ⟨-, rfl⟩ := Prod.mk.inj (List.mem_singleton.mp (Entries.mem_of_get? hb))
    refine ⟨by decide, by decide, fun f hf => ?_⟩
    rcases List.mem_cons.mp hf with rfl | hf
    · exact ⟨rfl, rfl, rfl⟩
    · rw [List.mem_singleton.mp hf]
      exact ⟨rfl, rfl, rfl⟩

/-- If a relation is followed at all, a population of the tower does not end. -/
theorem populates_tower_none (h : 0 < maxDepth) (evaluations : List Evaluation)
    (result : Except EngineError Value) (final : PopulationState) :
    ¬ Populates (tower maxDepth) (.record "floors" (.object [("blocks", .list [floor])]))
      (tower maxDepth).populationStart evaluations result final := by
  intro hrun
  have hclimb : Climbing (.field (some "floors") (Path.root ++ Path.root.child "blocks")
      (.ofKind .blocks) (.list [floor])) (tower maxDepth).populationStart :=
    .field (List.cons_ne_nil _ _) OptionCache.sound_empty fun _ _ => h
  cases hrun with
  | unknown hcol => cases hcol
  | record hcol fields =>
    cases hcol
    cases fields with
    | absent habsent => cases habsent
    | memberFailed hv here =>
      cases hv
      exact here.not_climbing hclimb
    | member hv here =>
      cases hv
      exact here.not_climbing hclimb

/-- Where budgets do not decide: a relation that asks not to be populated is not called although its
key has all of its budget left, and with two fields for one index a population need not end. -/
theorem populateRecord_exceptions :
    (let e := postsEngine (relatedRecord "users" ["name"] false).withoutPopulation
      let post := Value.object [("author", .ofInt 1), ("id", .ofInt 9)]
      0 < e.populationStart.budget.remaining "posts:author" ∧
        (e.populateRecord "posts" post).1 = .ok post ∧
        Populates e (.record "posts" post) e.populationStart [] (.ok post) e.populationStart) ∧
      (tower 30).Populatable ∧
      ¬ ∃ evaluations result final,
        Populates (tower 30) (.record "floors" (.object [("blocks", .list [floor])]))
          (tower 30).populationStart evaluations result final := by
  obtain ⟨hbudget, hvalue, hrun, -⟩ := populateRecord_opted_out
  refine ⟨⟨?_, hvalue, hrun⟩, populatable_tower,
    fun ⟨evaluations, result, final, hrun⟩ => ?_⟩
  · rw [hbudget]
    decide
  · exact populates_tower_none (by decide) evaluations result final hrun

end ContentSchema
