import ContentSchema.Proofs.PopulationReach

/-!
# Population fuel — the fuel of a population is not felt

A populator that is called takes from the budget of its key, and the keys within reach are those of
the first record and of the stored ones.  Between two calls a population only goes down into a
value.  So what is left of the budgets, times the nesting of values, bounds how deep calls nest
(`carriesOut`), and what a population does is a run without fuel.
-/

namespace ContentSchema

/-! ### States -/

namespace PopulationState

/-- No key has more left than in another state. -/
def AtMost (t s : PopulationState) : Prop :=
  ∀ key, t.budget.remaining key ≤ s.budget.remaining key

/-- What the keys have left together. -/
def left (keys : List String) (s : PopulationState) : Nat := total (keys.map s.budget.remaining)

/-- The state after a call under the key was asked for. -/
def take (s : PopulationState) (key : String) : PopulationState :=
  { s with budget := (s.budget.take key).2 }

variable {s t u : PopulationState} {keys : List String} {key : String}

theorem AtMost.refl (s : PopulationState) : s.AtMost s := fun _ => Nat.le_refl _

theorem AtMost.trans (h : u.AtMost t) (h' : t.AtMost s) : u.AtMost s :=
  fun key => (h key).trans (h' key)

theorem atMost_take (s : PopulationState) (key : String) : (s.take key).AtMost s := by
  intro key'
  show (s.budget.take key).2.remaining key' ≤ _
  rw [DepthBudget.remaining_take]
  split
  · next h =>
    rw [h]
    exact Nat.sub_le _ _
  · exact Nat.le_refl _

theorem AtMost.left_le (h : t.AtMost s) (keys : List String) : t.left keys ≤ s.left keys := by
  induction keys with
  | nil => exact Nat.le_refl _
  | cons key keys ih => exact Nat.add_le_add (h key) ih

/-- A call takes from what is left. -/
theorem left_take (hkey : key ∈ keys) (hleft : 0 < s.budget.remaining key) :
    (s.take key).left keys < s.left keys := by
  induction keys with
  | nil => cases hkey
  | cons k keys ih =>
    have hrest := (atMost_take s key).left_le keys
    have hk := atMost_take s key k
    show (s.take key).budget.remaining k + (s.take key).left keys <
      s.budget.remaining k + s.left keys
    rcases List.mem_cons.mp hkey with rfl | hkey
    · have hself : (s.take key).budget.remaining key = s.budget.remaining key - 1 := by
        show (s.budget.take key).2.remaining key = _
        rw [DepthBudget.remaining_take, if_pos rfl]
      omega
    · have := ih hkey
      omega

theorem left_le_mul {n : Nat} (h : ∀ key, s.budget.remaining key ≤ n) (keys : List String) :
    s.left keys ≤ n * keys.length := by
  induction keys with
  | nil => exact Nat.zero_le _
  | cons key keys ih =>
    rw [List.length_cons, Nat.mul_succ, Nat.add_comm]
    exact Nat.add_le_add (h key) ih

end PopulationState

section

variable {e : Engine} {task : PopulationTask} {s t : PopulationState} {xs : List Evaluation}
  {result : Except EngineError Value}

theorem Populates.atMost (h : Populates e task s xs result t) : t.AtMost s :=
  h.charged.remaining_le

end

/-! ### Carrying out a task -/

/-- What a computation does from a state is a run of the task. -/
def CarriesOut (e : Engine) (task : PopulationTask) (m : PopulationM (Except EngineError Value))
    (s : PopulationState) : Prop :=
  ∃ evaluations, Populates e task s evaluations (m s).1 (m s).2

/-- Whatever is stored at the members before it, the value of a member is one with `Q`. -/
def Steady (Q : Member → Value → Prop) : List Member → Value → Prop
  | [], _ => True
  | m :: ms, v =>
    match m.relative.lookup v with
    | none => Steady Q ms v
    | some u => Q m u ∧ ∀ w, Steady Q ms (m.relative.set w v)

/-- A run over members comes to this one and finds this value there, whatever it has stored at the
members before it. -/
inductive Found : List Member → Value → Member → Value → Prop
  | here {m : Member} {ms : List Member} {v u : Value} (hu : m.relative.lookup v = some u) :
      Found (m :: ms) v m u
  | absent {m n : Member} {ms : List Member} {v u : Value} (hm : m.relative.lookup v = none)
      (h : Found ms v n u) : Found (m :: ms) v n u
  | after {m n : Member} {ms : List Member} {v x w u : Value} (hm : m.relative.lookup v = some x)
      (h : Found ms (m.relative.set w v) n u) : Found (m :: ms) v n u

section

variable {Q : Member → Value → Prop}

theorem Found.mem {ms : List Member} {v u : Value} {m : Member} (h : Found ms v m u) : m ∈ ms := by
  induction h with
  | here => exact List.mem_cons_self
  | absent _ _ ih => exact List.mem_cons_of_mem _ ih
  | after _ _ ih => exact List.mem_cons_of_mem _ ih

theorem Found.append {ms : List Member} {v u : Value} {m : Member} (h : Found ms v m u)
    (ns : List Member) : Found (ms ++ ns) v m u := by
  induction h with
  | here hu => exact .here hu
  | absent hm _ ih => exact .absent hm ih
  | after hm _ ih => exact .after hm ih

theorem Steady.found {ms : List Member} {v u : Value} {m : Member} (h : Steady Q ms v)
    (hfound : Found ms v m u) : Q m u := by
  induction hfound with
  | here hu =>
    unfold Steady at h
    rw [hu] at h
    exact h.1
  | absent hm _ ih =>
    unfold Steady at h
    rw [hm] at h
    exact ih h
  | after hm _ ih =>
    unfold Steady at h
    rw [hm] at h
    exact ih (h.2 _)

theorem Steady.of_forall (h : ∀ m u, Q m u) (ms : List Member) (v : Value) : Steady Q ms v := by
  induction ms generalizing v with
  | nil => trivial
  | cons m ms ih =>
    unfold Steady
    split
    · exact ih v
    · exact ⟨h m _, fun w => ih _⟩

/-- Members that do not meet keep their values. -/
theorem MembersApart.steady {v : Value} {ms : List Member} (h : MembersApart v ms)
    (hQ : ∀ m ∈ ms, ∀ u, m.relative.lookup v = some u → Q m u) : Steady Q ms v := by
  induction ms generalizing v with
  | nil => trivial
  | cons m ms ih =>
    unfold Steady
    split
    · exact ih (List.pairwise_cons.mp h).2 fun n hn => hQ n (List.mem_cons_of_mem _ hn)
    · next u hu =>
      refine ⟨hQ m List.mem_cons_self u hu, fun w => ?_⟩
      obtain ⟨hlook, hapart⟩ := h.set hu w
      refine ih hapart fun n hn x hx => hQ n (List.mem_cons_of_mem _ hn) x ?_
      rwa [hlook n hn] at hx

end

namespace Engine

variable {e : Engine} {collection : Option String} {path : Path}

theorem populateMembers_cons {populate : Member → Value → PopulationM (Except EngineError Value)}
    {m : Member} {v u : Value} (hu : m.relative.lookup v = some u) (ms : List Member)
    (s : PopulationState) :
    populateMembers populate (m :: ms) v s =
      match populate m u s with
      | (.error err, t) => (.error err, t)
      | (.ok populated, t) => populateMembers populate ms (m.relative.set populated v) t := by
  rw [populateMembers, hu]
  simp only
  rw [populationBind_run]
  obtain ⟨⟨result, t⟩, hrun⟩ : ∃ r, populate m u s = r := ⟨_, rfl⟩
  rw [hrun]
  cases result <;> rfl

theorem populateFields_eq
    (populate : Path → Declaration → Value → PopulationM (Except EngineError Value))
    (fields : Schema) (record : Value) :
    populateFields populate fields record =
      populateMembers (fun m => populate m.relative m.declaration)
        (Member.ofSchema .root fields) record := by
  induction fields generalizing record with
  | nil => rfl
  | cons f fields ih =>
    unfold populateFields Member.ofSchema populateMembers
    simp only [List.map_cons]
    cases (Path.root.child f.1).lookup record with
    | none => exact ih record
    | some v =>
      simp only
      congr 1
      funext result
      cases result with
      | error err => rfl
      | ok populated => exact ih _

/-- Populating the members of a value one after the other. -/
theorem populateMembers_carriesOut
    {populate : Member → Value → PopulationM (Except EngineError Value)}
    {Q : Member → Value → Prop} {ms : List Member} {v : Value} (h : Steady Q ms v)
    {s : PopulationState}
    (hpopulate : ∀ m ∈ ms, ∀ u, Q m u → ∀ t : PopulationState, t.AtMost s →
      CarriesOut e (.field collection (path ++ m.relative) m.declaration u) (populate m u) t) :
    CarriesOut e (.members collection path ms v) (populateMembers populate ms v) s := by
  induction ms generalizing v s with
  | nil => exact ⟨[], .membersDone⟩
  | cons m ms ih =>
    unfold Steady at h
    cases hu : m.relative.lookup v with
    | none =>
      rw [hu] at h
      obtain ⟨xs, hrest⟩ := ih h fun n hn => hpopulate n (List.mem_cons_of_mem _ hn)
      refine ⟨xs, ?_⟩
      unfold populateMembers
      rw [hu]
      exact .absent hu hrest
    | some u =>
      rw [hu] at h
      obtain ⟨hQ, hset⟩ := h
      obtain ⟨xs, hhere⟩ := hpopulate m List.mem_cons_self u hQ s (.refl s)
      unfold CarriesOut
      rw [populateMembers_cons hu]
      obtain ⟨⟨result, t⟩, hrun⟩ : ∃ r, populate m u s = r := ⟨_, rfl⟩
      rw [hrun] at hhere ⊢
      cases result with
      | error err => exact ⟨xs, .memberFailed hu hhere⟩
      | ok populated =>
        obtain ⟨ys, hrest⟩ := ih (hset populated) (s := t) fun n hn w hw t' ht' =>
          hpopulate n (List.mem_cons_of_mem _ hn) w hw t' (ht'.trans hhere.atMost)
        exact ⟨xs ++ ys, .member hu hhere hrest⟩

/-- Following records one after the other. -/
theorem followAll_carriesOut {populate : String → Value → PopulationM (Except EngineError Value)}
    {name : String} {records : List Value} {s : PopulationState}
    (h : ∀ record ∈ records, ∀ t : PopulationState, t.AtMost s →
      CarriesOut e (.record name record) (populate name record) t) :
    ∃ xs, Populates e (.follow name records) s xs
      ((Plan.followAll populate name records s).1.map .list)
      (Plan.followAll populate name records s).2 := by
  induction records generalizing s with
  | nil => exact ⟨[], .followDone⟩
  | cons record records ih =>
    obtain ⟨xs, hhere⟩ := h record List.mem_cons_self s (.refl s)
    rw [Plan.followAll_cons]
    obtain ⟨⟨result, t⟩, hrun⟩ : ∃ r, populate name record s = r := ⟨_, rfl⟩
    rw [hrun] at hhere ⊢
    cases result with
    | error err => exact ⟨xs, .followFailed hhere⟩
    | ok populated =>
      obtain ⟨ys, hrest⟩ := ih (s := t) fun r hr t' ht' =>
        h r (List.mem_cons_of_mem _ hr) t' (ht'.trans hhere.atMost)
      obtain ⟨⟨others, u⟩, hfollow⟩ : ∃ r, Plan.followAll populate name records t = r := ⟨_, rfl⟩
      rw [hfollow] at hrest
      simp only [hfollow]
      have hall := Populates.follow hhere hrest
      cases others <;> exact ⟨xs ++ ys, hall⟩

/-- A populator is called when its key has some budget left. -/
theorem callPopulator_run (context : PopulateContext) (population : Population) (v : Value)
    (s : PopulationState) :
    callPopulator context population v s =
      let key := populationKey context.collection context.path
      if 0 < s.budget.remaining key then
        (settle v (population.run context v (s.take key)).1,
          (population.run context v (s.take key)).2)
      else (population.terminal, s.take key) := by
  have hrun : callPopulator context population v s =
      (if (s.budget.take (populationKey context.collection context.path)).1 then do
        return settle v (← population.run context v)
      else return population.terminal : PopulationM Value)
        (s.take (populationKey context.collection context.path)) := rfl
  rw [hrun]
  simp only [DepthBudget.take_called]
  split
  · rfl
  · rfl

/-- Populating a field whose declaration asks not to be populated or has no populator of its own. -/
theorem populateValue_run (he : e.registry = .builtin) {d : Declaration}
    (hd : d.additional.population ≠ some false → d.additional.populator = none) (fuel : Nat)
    (v : Value) (s : PopulationState) :
    populateValue e (fuel + 1) collection path d v s =
      if d.additional.population = some false then (.ok v, s)
      else
        match s.cache.resolve .builtin path.name d with
        | (.error err, cache) => (.error (.schema err), { s with cache := cache })
        | (.ok o, cache) =>
          match populateMembers (fun m => populateValue e fuel collection (path ++ m.relative)
              m.declaration) (e.catalog.members d v) v { s with cache := cache } with
          | (.error err, t) => (.error err, t)
          | (.ok w, t) =>
            match d.kind.definition.population with
            | none => (.ok w, t)
            | some population =>
              let context : PopulateContext :=
                ⟨path, d.kind, o, collection, e.source, populateFieldsOf e fuel⟩
              (.ok (callPopulator context population w t).1,
                (callPopulator context population w t).2) := by
  have hmembers : (if d.kind.definition.composite then e.catalog.members d v else []) =
      e.catalog.members d v := by
    rw [composite_definition]
    split
    · rfl
    · next h => exact (e.catalog.members_leaf (by simpa using h) v).symm
  rw [populateValue]
  split
  · next h =>
    rw [if_pos (beq_iff_eq.mp h)]
    rfl
  · next h =>
    have hpopulated : d.additional.population ≠ some false := fun heq => h (beq_iff_eq.mpr heq)
    rw [if_neg hpopulated, he, get_builtin]
    simp only
    rw [populationBind_run]
    have hoptions : e.populationOptions path.name d s =
        ((s.cache.resolve .builtin path.name d).1,
          { s with cache := (s.cache.resolve .builtin path.name d).2 }) := by
      rw [← he]
      rfl
    rw [hoptions]
    obtain ⟨⟨o, cache⟩, hresolve⟩ : ∃ r, s.cache.resolve .builtin path.name d = r := ⟨_, rfl⟩
    rw [hresolve]
    cases o with
    | error err => rfl
    | ok o =>
      simp only
      rw [populationBind_run, hmembers]
      obtain ⟨⟨w, t⟩, hrun⟩ : ∃ r, populateMembers (fun m => populateValue e fuel collection
        (path ++ m.relative) m.declaration) (e.catalog.members d v) v
          { s with cache := cache } = r := ⟨_, rfl⟩
      rw [hrun]
      cases w with
      | error err => rfl
      | ok w =>
        simp only [hd hpopulated, Option.none_or]
        cases d.kind.definition.population <;> rfl

/-- Calling a populator, when related records can be populated. -/
theorem callPopulator_carriesOut (hstored : e.Stored) {d : Declaration} {population : Population}
    (h : d.kind.definition.population = some population) (o : Options) (v : Value)
    {populate : String → Value → PopulationM (Except EngineError Value)} {s : PopulationState}
    (hfollow : 0 < s.budget.remaining (populationKey collection path) → ∀ name record,
      (∃ stored ∈ e.storedRecords name, PartOf record stored) →
        ∀ t : PopulationState, t.AtMost (s.take (populationKey collection path)) →
          CarriesOut e (.record name record) (populate name record) t) :
    ∃ xs, Populates e (.call collection path d o v) s xs
      (.ok (callPopulator ⟨path, d.kind, o, collection, e.source, populate⟩ population v s).1)
      (callPopulator ⟨path, d.kind, o, collection, e.source, populate⟩ population v s).2 := by
  rw [callPopulator_run]
  simp only
  split
  · next hleft =>
    rw [population_run h]
    simp only
    cases hplan : Plan.ofKind d.kind e.source o v with
    | answer answer => exact ⟨_, .answered h hleft hplan⟩
    | follow name records gather =>
      obtain ⟨xs, hrun⟩ := followAll_carriesOut fun record hr =>
        hfollow hleft name record (plan_stored hstored hplan record hr)
      rw [Plan.run_follow]
      have hcall := Populates.followed (v := v) (o := o) h hleft hplan hrun
      obtain ⟨⟨result, t⟩, hresult⟩ : ∃ r, Plan.followAll populate name records
        (s.take (populationKey collection path)) = r := ⟨_, rfl⟩
      rw [hresult] at hcall ⊢
      cases result <;> exact ⟨_, hcall⟩
  · next hspent => exact ⟨_, .spent h (Nat.eq_zero_of_not_pos hspent)⟩

end Engine

/-! ### Enough fuel -/

/-- The engines that population is about: over the built-in kinds and a store, with no populator
given in a declaration.  Names of fields are told apart as in every schema. -/
structure Engine.Populatable (e : Engine) : Prop where
  builtin : e.registry = .builtin
  stored : e.Stored
  names : ∀ name collection, e.catalog.collection? name = some collection →
    e.catalog.NamesApart collection.fields
  populators : ∀ name collection, e.catalog.collection? name = some collection →
    ∀ d, e.catalog.InUse collection.fields d → d.additional.populator = none

namespace Engine

variable {e : Engine} {keys : List String}

/-- Populating a field, when its members and the related records can be populated. -/
theorem populateValue_carriesOut (he : e.Populatable) (hi : e.catalog.IndicesApart) {fuel : Nat}
    {collection : Option String} {path : Path} {d : Declaration} {v : Value} {s : PopulationState}
    (hd : ∃ name collection, e.catalog.collection? name = some collection ∧
      e.catalog.InUse collection.fields d)
    (hmembers : ∀ m ∈ e.catalog.members d v, ∀ u, m.relative.lookup v = some u →
      ∀ t : PopulationState, t.AtMost s →
        CarriesOut e (.field collection (path ++ m.relative) m.declaration u)
          (populateValue e fuel collection (path ++ m.relative) m.declaration u) t)
    (hfollow : ∀ t : PopulationState, t.AtMost s →
      0 < t.budget.remaining (populationKey collection path) → ∀ name record,
        (∃ stored ∈ e.storedRecords name, PartOf record stored) →
          ∀ u : PopulationState, u.AtMost (t.take (populationKey collection path)) →
            CarriesOut e (.record name record) (populateFieldsOf e fuel name record) u) :
    CarriesOut e (.field collection path d v)
      (populateValue e (fuel + 1) collection path d v) s := by
  obtain ⟨name, registered, hcol, huse⟩ := hd
  have hsteady := (members_apart (he.names name registered hcol) hi huse v).steady
    (Q := fun m u => m ∈ e.catalog.members d v ∧ m.relative.lookup v = some u)
    fun m hm u hu => ⟨hm, hu⟩
  unfold CarriesOut
  rw [populateValue_run he.builtin fun _ => he.populators name registered hcol d huse]
  split
  · next h => exact ⟨[], .kept h⟩
  · next h =>
    obtain ⟨⟨o, cache⟩, hoptions⟩ : ∃ r, s.cache.resolve .builtin path.name d = r := ⟨_, rfl⟩
    rw [hoptions]
    cases o with
    | error err => exact ⟨[], .unresolved h hoptions⟩
    | ok o =>
      have hrun : CarriesOut e (.members collection path (e.catalog.members d v) v)
          (populateMembers (fun m => populateValue e fuel collection (path ++ m.relative)
            m.declaration) (e.catalog.members d v) v) { s with cache := cache } :=
        populateMembers_carriesOut hsteady fun m _ u hu t ht => hmembers m hu.1 u hu.2 t ht
      obtain ⟨xs, hrun⟩ := hrun
      simp only
      obtain ⟨⟨w, t⟩, hresult⟩ : ∃ r, populateMembers (fun m => populateValue e fuel collection
        (path ++ m.relative) m.declaration) (e.catalog.members d v) v
          { s with cache := cache } = r := ⟨_, rfl⟩
      rw [hresult] at hrun ⊢
      cases w with
      | error err => exact ⟨xs, .membersFailed h hoptions hrun⟩
      | ok w =>
        simp only
        cases hpop : d.kind.definition.population with
        | none => exact ⟨xs ++ [], .field h hoptions hrun (.plain hpop)⟩
        | some population =>
          obtain ⟨ys, hcall⟩ := callPopulator_carriesOut he.stored hpop o w (s := t)
            (hfollow t hrun.atMost)
          exact ⟨xs ++ ys, .field h hoptions hrun hcall⟩

/-- Populating a record, when its fields can be populated. -/
theorem populateFields_carriesOut {name : String} {record : Value} {collection : Collection}
    {s : PopulationState} (hcol : e.catalog.collection? name = some collection)
    {populate : Path → Declaration → Value → PopulationM (Except EngineError Value)}
    {Q : Member → Value → Prop} (h : Steady Q (Member.ofSchema .root collection.fields) record)
    (hpopulate : ∀ m ∈ Member.ofSchema .root collection.fields, ∀ u, Q m u →
      ∀ t : PopulationState, t.AtMost s →
        CarriesOut e (.field (some name) m.relative m.declaration u)
          (populate m.relative m.declaration u) t) :
    CarriesOut e (.record name record) (populateFields populate collection.fields record) s := by
  rw [populateFields_eq]
  have hrun : CarriesOut e (.members (some name) .root
      (Member.ofSchema .root collection.fields) record) _ s :=
    populateMembers_carriesOut h hpopulate
  obtain ⟨xs, hrun⟩ := hrun
  exact ⟨xs, .record hcol hrun⟩

/-- What is left of the budgets, times the nesting of values, is fuel enough. -/
theorem carriesOut (he : e.Populatable) (hi : e.catalog.IndicesApart)
    (hkeys : ∀ key ∈ e.storedKeys, key ∈ keys) (fuel : Nat) :
    (∀ {collection path d v bound} {s : PopulationState},
      Within e.catalog keys collection path d v bound →
        s.left keys * (e.storedWeight + 2) + bound ≤ fuel →
          CarriesOut e (.field collection path d v) (populateValue e fuel collection path d v) s) ∧
    (∀ {name record} {s : PopulationState},
      (∃ stored ∈ e.storedRecords name, PartOf record stored) →
        s.left keys * (e.storedWeight + 2) + e.storedWeight + 1 ≤ fuel →
          CarriesOut e (.record name record) (populateFieldsOf e fuel name record) s) := by
  -- a member weighs less; a call may begin with a stored record again, but then a budget is less
  induction fuel with
  | zero =>
    refine ⟨fun {_ _ _ v _ _} hv hfuel => ?_, fun _ hfuel => absurd hfuel (by omega)⟩
    have := Path.weight_pos v
    have := hv.weight
    omega
  | succ fuel ih =>
    obtain ⟨ihfield, ihrecord⟩ := ih
    constructor
    · intro collection path d v bound s hv hfuel
      have hpos : 0 < bound := Nat.lt_of_lt_of_le (Path.weight_pos v) hv.weight
      refine populateValue_carriesOut he hi hv.inUse (fun m hm u hu t ht => ?_)
        fun t ht hleft name record hpart u hu => ?_
      · obtain ⟨bound, rfl⟩ := Nat.exists_eq_succ_of_ne_zero hpos.ne'
        refine ihfield (hv.member hm hu) ?_
        have := Nat.mul_le_mul_right (e.storedWeight + 2) (ht.left_le keys)
        omega
      · -- the call has taken from a key within reach
        refine ihrecord hpart ?_
        have htake := PopulationState.left_take hv.keys.here hleft
        have hlt : u.left keys + 1 ≤ s.left keys := by
          have := hu.left_le keys
          have := ht.left_le keys
          omega
        have hmul := Nat.mul_le_mul_right (e.storedWeight + 2) hlt
        rw [Nat.add_mul, Nat.one_mul] at hmul
        omega
    · intro name record s hpart hfuel
      cases hcol : e.catalog.collection? name with
      | none =>
        refine ⟨[], ?_⟩
        rw [populateFieldsOf, Engine.collection, hcol]
        exact .unknown hcol
      | some collection =>
        obtain ⟨stored, hstored, hpart⟩ := hpart
        have hwithin := (recordWithin_stored hkeys hstored).of_partOf hpart collection hcol
        obtain ⟨ms, rfl⟩ := Value.isObject_iff.mp hpart.isObject
        have hsteady := (MembersApart.ofSchema_object (he.names name collection hcol).top ms).steady
          (Q := fun m u => Within e.catalog keys (some name) m.relative m.declaration u
            e.storedWeight) fun m hm u hu => by
              obtain ⟨e, he, rfl⟩ := List.mem_map.mp hm
              exact hwithin e he u hu
        unfold CarriesOut
        rw [populateFieldsOf, Engine.collection, hcol]
        refine populateFields_carriesOut hcol hsteady fun m _ u hu t ht => ihfield hu ?_
        have := Nat.mul_le_mul_right (e.storedWeight + 2) (ht.left_le keys)
        omega

/-- The fuel that a field gets is enough for it. -/
theorem populateField_carriesOut (he : e.Populatable) (hi : e.catalog.IndicesApart)
    (collection : Option String) (path : Path) {d : Declaration}
    (hd : ∃ name collection, e.catalog.collection? name = some collection ∧
      e.catalog.InUse collection.fields d) (v : Value) {s : PopulationState}
    (hs : ∀ key, s.budget.remaining key ≤ e.maxDepth) :
    CarriesOut e (.field collection path d v) (e.populateField collection path d v) s := by
  obtain ⟨keys, hkeys⟩ : ∃ keys, valueKeys e.catalog collection v.weight path d v = keys := ⟨_, rfl⟩
  have hwithin : Within e.catalog (keys ++ e.storedKeys) collection path d v v.weight := by
    refine ⟨hd, ?_, Nat.le_refl _⟩
    rw [← hkeys]
    exact (everywhere_valueKeys e.catalog collection path d (Nat.le_refl v.weight)).imp
      fun p _ _ hp => List.mem_append_left _ hp
  refine (carriesOut he hi (fun key hkey => List.mem_append_right keys hkey) _).1 hwithin ?_
  have hmul := Nat.mul_le_mul (PopulationState.left_le_mul hs (keys ++ e.storedKeys))
    (Nat.le_add_left (e.storedWeight + 2) v.weight)
  rw [← Nat.add_assoc] at hmul
  unfold populationFuel
  rw [hkeys, Nat.add_mul, Nat.one_mul]
  omega

/-- The budgets that a population begins with. -/
def populationStart (e : Engine) : PopulationState := ⟨.ofLimit e.maxDepth, e.cache⟩

theorem populateRecord_carriesOut (he : e.Populatable) (hi : e.catalog.IndicesApart)
    (name : String) (record : Value) :
    CarriesOut e (.record name record)
      (match e.collection name with
      | .error err => pure (.error err)
      | .ok collection => populateFields (e.populateField name) collection.fields record)
      e.populationStart := by
  cases hcol : e.catalog.collection? name with
  | none =>
    refine ⟨[], ?_⟩
    rw [collection, hcol]
    exact .unknown hcol
  | some collection =>
    unfold CarriesOut
    rw [Engine.collection, hcol]
    -- each field has fuel for whatever the fields before it have made of its value
    refine populateFields_carriesOut hcol (Steady.of_forall (Q := fun _ _ => True)
      (fun _ _ => trivial) _ record) fun m hm u _ t ht => ?_
    obtain ⟨field, hfield, -⟩ := Member.mem_ofSchema hm
    exact populateField_carriesOut he hi (some name) m.relative
      ⟨name, collection, hcol, .field hfield⟩ u ht

end Engine

end ContentSchema
