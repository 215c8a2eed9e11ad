import ContentSchema.Engine.Populate
import ContentSchema.Proofs.Stages

/-!
# Population runs — population without fuel

`Populates e task s evaluations result t` says how a population of the built-in kinds goes from the
state `s` to `t`: which populators it comes to in order, which of them it calls, and what it
answers.  The rules know nothing of fuel, so what has a run terminates.  Every populator that is
come to takes from the budget of its key (`Populates.charged`), and of one key exactly the first
ones that the budget has are called (`Charged.called_iff`).
-/

namespace ContentSchema

/-! ### Plans -/

/-- What a relation makes of a value: an answer, or the stored records to follow and what to make
of them. -/
inductive Plan
  | answer (result : Except FieldError Value)
  | follow (collection : String) (records : List Value) (gather : List Value → Value)

namespace Plan

/-- Populate records one after the other, up to the first that fails. -/
def followAll (populate : String → Value → PopulationM (Except EngineError Value))
    (collection : String) : List Value → PopulationM (Except EngineError (List Value))
  | [] => return .ok []
  | record :: rest => do
    match ← populate collection record with
    | .error e => return .error e
    | .ok populated =>
      match ← followAll populate collection rest with
      | .error e => return .error e
      | .ok others => return .ok (populated :: others)

/-- Carry out a plan. -/
def run (populate : String → Value → PopulationM (Except EngineError Value)) :
    Plan → PopulationM (Except FieldError Value)
  | answer result => return result
  | follow collection records gather => do
    match ← followAll populate collection records with
    | .error e => return .error (.engine e)
    | .ok populated => return .ok (gather populated)

/-- Follow the records of a query that asks for it, or answer with them. -/
def ofQuery (query : Query) (records : List Value) (gather : List Value → Value) : Plan :=
  if query.request.populate then .follow query.request.collection records gather
  else .answer (.ok (gather records))

/-- The plan for one related record. -/
def ofId (source : Option RecordSource) (options : Options) (v : Value) : Plan :=
  match v.id? with
  | none => .answer (.ok .null)
  | some id =>
    match Kinds.wantedQuery source options with
    | .error e => .answer (.error e)
    | .ok query =>
      match (query.whereEq Kinds.idField (.ofInt id)).first with
      | .error e => .answer (.error (.query e))
      | .ok none => .answer (.ok .null)
      | .ok (some record) => ofQuery query [record] fun populated => populated.headD .null

/-- The records that are found among those fetched, in the order of the ids. -/
def related (fetched : List Value) (ids : List Nat) : List Value :=
  ids.filterMap fun id =>
    fetched.find? fun record => (record.get? Kinds.idField).bind Value.id? == some id

/-- The plan for a list of related records. -/
def ofIds (source : Option RecordSource) (options : Options) (v : Value) : Plan :=
  match v.items.filterMap Value.id? with
  | [] => .answer (.ok (.list []))
  | ids =>
    match Kinds.wantedQuery source options with
    | .error e => .answer (.error e)
    | .ok query =>
      match (query.whereIn Kinds.idField (ids.map fun id : Nat => Value.ofInt id)).all with
      | .error e => .answer (.error (.query e))
      | .ok fetched =>
        ofQuery query (related fetched ids) .list

/-- The plan of a kind; one that is no relation has nothing to follow. -/
def ofKind (kind : FieldKind) (source : Option RecordSource) (options : Options) (v : Value) :
    Plan :=
  match kind with
  | .record => ofId source options v
  | .records => ofIds source options v
  | _ => .answer (.ok v)

end Plan

theorem populationBind_run {α β : Type} (m : PopulationM α) (f : α → PopulationM β)
    (s : PopulationState) : (m >>= f) s = f (m s).1 (m s).2 := rfl

namespace Plan

variable {populate : String → Value → PopulationM (Except EngineError Value)} {collection : String}

theorem followAll_cons (record : Value) (rest : List Value) (s : PopulationState) :
    followAll populate collection (record :: rest) s =
      match populate collection record s with
      | (.error e, t) => (.error e, t)
      | (.ok populated, t) =>
        match followAll populate collection rest t with
        | (.error e, u) => (.error e, u)
        | (.ok others, u) => (.ok (populated :: others), u) := by
  rw [followAll, populationBind_run]
  obtain ⟨⟨result, t⟩, hrun⟩ : ∃ r, populate collection record s = r := ⟨_, rfl⟩
  rw [hrun]
  cases result with
  | error e => rfl
  | ok populated =>
    simp only
    rw [populationBind_run]
    obtain ⟨⟨others, u⟩, hrest⟩ : ∃ r, followAll populate collection rest t = r := ⟨_, rfl⟩
    rw [hrest]
    cases others <;> rfl

theorem run_follow (records : List Value) (gather : List Value → Value) (s : PopulationState) :
    (follow collection records gather).run populate s =
      match followAll populate collection records s with
      | (.error e, t) => (.error (.engine e), t)
      | (.ok populated, t) => (.ok (gather populated), t) := by
  rw [run, populationBind_run]
  obtain ⟨⟨result, t⟩, hrun⟩ : ∃ r, followAll populate collection records s = r := ⟨_, rfl⟩
  rw [hrun]
  cases result <;> rfl

end Plan

section

variable {context : PopulateContext} {query : Query}

theorem finish_follow (hpop : query.request.populate = true) (record : Value)
    (s : PopulationState) :
    Kinds.finish context query record s =
      match context.populateRecord query.request.collection record s with
      | (.ok populated, t) => (.ok populated, t)
      | (.error e, t) => (.error (.engine e), t) := by
  unfold Kinds.finish
  rw [hpop, if_pos rfl, populationBind_run]
  obtain ⟨⟨result, t⟩, hrun⟩ :
    ∃ r, context.populateRecord query.request.collection record s = r := ⟨_, rfl⟩
  rw [hrun]
  cases result <;> rfl

theorem finish_answer (hpop : query.request.populate = false) (record : Value) :
    Kinds.finish context query record = pure (.ok record) := by
  unfold Kinds.finish
  rw [hpop]
  rfl

theorem finishAll_follow (hpop : query.request.populate = true) (fetched : List Value)
    (ids : List Nat) (s : PopulationState) :
    Kinds.finishAll context query fetched ids s =
      match Plan.followAll context.populateRecord query.request.collection
        (Plan.related fetched ids) s with
      | (.ok populated, t) => (.ok populated, t)
      | (.error e, t) => (.error (.engine e), t) := by
  induction ids generalizing s with
  | nil => rfl
  | cons id ids ih =>
    unfold Kinds.finishAll Plan.related
    rw [List.filterMap_cons]
    cases fetched.find? fun record => (record.get? Kinds.idField).bind Value.id? == some id with
    | none => exact ih s
    | some record =>
      simp only
      rw [populationBind_run, Plan.followAll_cons, finish_follow hpop]
      obtain ⟨⟨result, t⟩, hrun⟩ :
        ∃ r, context.populateRecord query.request.collection record s = r := ⟨_, rfl⟩
      rw [hrun]
      cases result with
      | error e => rfl
      | ok populated =>
        simp only
        rw [populationBind_run, ih t]
        unfold Plan.related
        obtain ⟨⟨others, u⟩, hrest⟩ : ∃ r, Plan.followAll context.populateRecord
          query.request.collection (ids.filterMap fun id => fetched.find? fun record =>
            (record.get? Kinds.idField).bind Value.id? == some id) t = r := ⟨_, rfl⟩
        rw [hrest]
        cases others <;> rfl

theorem finishAll_answer (hpop : query.request.populate = false) (fetched : List Value)
    (ids : List Nat) :
    Kinds.finishAll context query fetched ids = pure (.ok (Plan.related fetched ids)) := by
  induction ids with
  | nil => rfl
  | cons id ids ih =>
    unfold Kinds.finishAll Plan.related
    rw [List.filterMap_cons]
    cases fetched.find? fun record => (record.get? Kinds.idField).bind Value.id? == some id with
    | none => exact ih
    | some record =>
      simp only
      rw [finish_answer hpop, ih]
      rfl

theorem populateId_run (v : Value) :
    Kinds.populateId context v =
      (Plan.ofId context.source context.options v).run context.populateRecord := by
  unfold Kinds.populateId Plan.ofId
  cases v.id? with
  | none => rfl
  | some id =>
    simp only
    cases Kinds.wantedQuery context.source context.options with
    | error e => rfl
    | ok query =>
      simp only
      rcases (query.whereEq Kinds.idField (.ofInt id)).first with e | _ | record
      · rfl
      · rfl
      · simp only
        unfold Plan.ofQuery
        cases hpop : query.request.populate with
        | false => exact finish_answer hpop record
        | true =>
          funext s
          rw [finish_follow hpop, if_pos rfl, Plan.run_follow, Plan.followAll_cons]
          obtain ⟨⟨result, t⟩, hrun⟩ :
            ∃ r, context.populateRecord query.request.collection record s = r := ⟨_, rfl⟩
          rw [hrun]
          cases result <;> rfl

theorem populateIds_run (v : Value) :
    Kinds.populateIds context v =
      (Plan.ofIds context.source context.options v).run context.populateRecord := by
  unfold Kinds.populateIds Plan.ofIds
  cases v.items.filterMap Value.id? with
  | nil => rfl
  | cons id ids =>
    simp only
    cases Kinds.wantedQuery context.source context.options with
    | error e => rfl
    | ok query =>
      simp only
      cases (query.whereIn Kinds.idField
          ((id :: ids).map fun id : Nat => Value.ofInt id)).all with
      | error e => rfl
      | ok fetched =>
        simp only
        unfold Plan.ofQuery
        cases hpop : query.request.populate with
        | false =>
          rw [finishAll_answer hpop]
          rfl
        | true =>
          funext s
          rw [populationBind_run, finishAll_follow hpop, if_pos rfl, Plan.run_follow]
          obtain ⟨⟨result, t⟩, hrun⟩ : ∃ r, Plan.followAll context.populateRecord
            query.request.collection (Plan.related fetched (id :: ids)) s = r := ⟨_, rfl⟩
          rw [hrun]
          cases result <;> rfl

/-- A populator of a built-in kind carries out the plan of the kind. -/
theorem population_run {kind : FieldKind} {population : Population}
    (h : kind.definition.population = some population) (context : PopulateContext) (v : Value) :
    population.run context v =
      (Plan.ofKind kind context.source context.options v).run context.populateRecord := by
  cases kind with
  | record =>
    obtain rfl := Option.some.inj h
    exact populateId_run v
  | records =>
    obtain rfl := Option.some.inj h
    exact populateIds_run v
  | _ => cases h

end

/-! ### Runs -/

/-- A populator that a population came to. -/
structure Evaluation where
  key : String
  kind : FieldKind
  /-- It was called. -/
  called : Bool
  /-- What takes the place of the value. -/
  value : Value

/-- What there is to populate. -/
inductive PopulationTask
  /-- The value of a field, at its path in a record of the collection. -/
  | field (collection : Option String) (path : Path) (d : Declaration) (v : Value)
  /-- Members of a value, which stands at the path. -/
  | members (collection : Option String) (path : Path) (ms : List Member) (v : Value)
  /-- The value of a field whose members are done, with its options. -/
  | call (collection : Option String) (path : Path) (d : Declaration) (options : Options)
    (v : Value)
  | record (name : String) (record : Value)
  /-- Records one after the other; the answer is a list. -/
  | follow (name : String) (records : List Value)

section

variable (e : Engine)

/-- A population of the built-in kinds. -/
inductive Populates : PopulationTask → PopulationState → List Evaluation →
    Except EngineError Value → PopulationState → Prop
  /-- The declaration asks not to be populated. -/
  | kept {collection path d v s} (h : d.additional.population = some false) :
      Populates (.field collection path d v) s [] (.ok v) s
  | unresolved {collection path d v s error cache} (h : d.additional.population ≠ some false)
      (hoptions : s.cache.resolve .builtin path.name d = (.error error, cache)) :
      Populates (.field collection path d v) s [] (.error (.schema error))
        { s with cache := cache }
  | membersFailed {collection path d v s o cache evaluations error t}
      (h : d.additional.population ≠ some false)
      (hoptions : s.cache.resolve .builtin path.name d = (.ok o, cache))
      (members : Populates (.members collection path (e.catalog.members d v) v)
        { s with cache := cache } evaluations (.error error) t) :
      Populates (.field collection path d v) s evaluations (.error error) t
  | field {collection path d v s o cache inner w t evaluations result u}
      (h : d.additional.population ≠ some false)
      (hoptions : s.cache.resolve .builtin path.name d = (.ok o, cache))
      (members : Populates (.members collection path (e.catalog.members d v) v)
        { s with cache := cache } inner (.ok w) t)
      (call : Populates (.call collection path d o w) t evaluations result u) :
      Populates (.field collection path d v) s (inner ++ evaluations) result u
  | membersDone {collection path v s} : Populates (.members collection path [] v) s [] (.ok v) s
  | absent {collection path m ms v s evaluations result t} (h : m.relative.lookup v = none)
      (rest : Populates (.members collection path ms v) s evaluations result t) :
      Populates (.members collection path (m :: ms) v) s evaluations result t
  | memberFailed {collection path m ms v child s evaluations error t}
      (h : m.relative.lookup v = some child)
      (here : Populates (.field collection (path ++ m.relative) m.declaration child) s evaluations
        (.error error) t) :
      Populates (.members collection path (m :: ms) v) s evaluations (.error error) t
  | member {collection path m ms v child s evaluations populated t others result u}
      (h : m.relative.lookup v = some child)
      (here : Populates (.field collection (path ++ m.relative) m.declaration child) s evaluations
        (.ok populated) t)
      (rest : Populates (.members collection path ms (m.relative.set populated v)) t others
        result u) :
      Populates (.members collection path (m :: ms) v) s (evaluations ++ others) result u
  /-- The kind has no populator. -/
  | plain {collection path d o v s} (h : d.kind.definition.population = none) :
      Populates (.call collection path d o v) s [] (.ok v) s
  /-- The budget of the key is spent. -/
  | spent {collection path d o v s population}
      (h : d.kind.definition.population = some population)
      (hspent : s.budget.remaining (Engine.populationKey collection path) = 0) :
      Populates (.call collection path d o v) s
        [⟨Engine.populationKey collection path, d.kind, false, population.terminal⟩]
        (.ok population.terminal)
        { s with budget := (s.budget.take (Engine.populationKey collection path)).2 }
  | answered {collection path d o v s population answer}
      (h : d.kind.definition.population = some population)
      (hleft : 0 < s.budget.remaining (Engine.populationKey collection path))
      (hplan : Plan.ofKind d.kind e.source o v = .answer answer) :
      Populates (.call collection path d o v) s
        [⟨Engine.populationKey collection path, d.kind, true, Engine.settle v answer⟩]
        (.ok (Engine.settle v answer))
        { s with budget := (s.budget.take (Engine.populationKey collection path)).2 }
  | followed {collection path d o v s population name records gather evaluations result t}
      (h : d.kind.definition.population = some population)
      (hleft : 0 < s.budget.remaining (Engine.populationKey collection path))
      (hplan : Plan.ofKind d.kind e.source o v = .follow name records gather)
      (follow : Populates (.follow name records)
        { s with budget := (s.budget.take (Engine.populationKey collection path)).2 } evaluations
        result t) :
      Populates (.call collection path d o v) s
        (⟨Engine.populationKey collection path, d.kind, true,
          Engine.settle v (result.map fun populated => gather populated.items)⟩ :: evaluations)
        (.ok (Engine.settle v (result.map fun populated => gather populated.items))) t
  | unknown {name record s} (h : e.catalog.collection? name = none) :
      Populates (.record name record) s [] (.error (.schema (.unknownCollection name))) s
  | record {name record s collection evaluations result t}
      (h : e.catalog.collection? name = some collection)
      (fields : Populates (.members (some name) .root (Member.ofSchema .root collection.fields)
        record) s evaluations result t) :
      Populates (.record name record) s evaluations result t
  | followDone {name s} : Populates (.follow name []) s [] (.ok (.list [])) s
  | followFailed {name record records s evaluations error t}
      (here : Populates (.record name record) s evaluations (.error error) t) :
      Populates (.follow name (record :: records)) s evaluations (.error error) t
  | follow {name record records s evaluations populated t others result u}
      (here : Populates (.record name record) s evaluations (.ok populated) t)
      (rest : Populates (.follow name records) t others result u) :
      Populates (.follow name (record :: records)) s (evaluations ++ others)
        (result.map fun rest => .list (populated :: rest.items)) u

end

section

variable {e : Engine} {task : PopulationTask} {s t t' : PopulationState} {xs xs' : List Evaluation}
  {result result' : Except EngineError Value}

/-- A population goes one way only. -/
theorem Populates.unique (h : Populates e task s xs result t)
    (h' : Populates e task s xs' result' t') : xs' = xs ∧ result' = result ∧ t' = t := by
  induction h generalizing xs' result' t' with
  | kept h =>
    cases h' with
    | kept => exact ⟨rfl, rfl, rfl⟩
    | unresolved h' | membersFailed h' | field h' => exact absurd h h'
  | unresolved h hoptions =>
    cases h' with
    | kept h' => exact absurd h' h
    | unresolved _ hoptions' =>
      cases hoptions.symm.trans hoptions'
      exact ⟨rfl, rfl, rfl⟩
    | membersFailed _ hoptions' | field _ hoptions' =>
      cases hoptions.symm.trans hoptions'
  | membersFailed h hoptions _ ih =>
    cases h' with
    | kept h' => exact absurd h' h
    | unresolved _ hoptions' =>
      cases hoptions.symm.trans hoptions'
    | membersFailed _ hoptions' members' =>
      cases hoptions.symm.trans hoptions'
      obtain ⟨rfl, herror, rfl⟩ := ih members'
      exact ⟨rfl, herror, rfl⟩
    | field _ hoptions' members' =>
      cases hoptions.symm.trans hoptions'
      cases (ih members').2.1
  | field h hoptions _ _ ihm ihc =>
    cases h' with
    | kept h' => exact absurd h' h
    | unresolved _ hoptions' =>
      cases hoptions.symm.trans hoptions'
    | membersFailed _ hoptions' members' =>
      cases hoptions.symm.trans hoptions'
      cases (ihm members').2.1
    | field _ hoptions' members' call' =>
      cases hoptions.symm.trans hoptions'
      obtain ⟨rfl, hw, rfl⟩ := ihm members'
      cases hw
      obtain ⟨rfl, rfl, rfl⟩ := ihc call'
      exact ⟨rfl, rfl, rfl⟩
  | membersDone =>
    cases h'
    exact ⟨rfl, rfl, rfl⟩
  | absent h _ ih =>
    cases h' with
    | absent _ rest' => exact ih rest'
    | memberFailed h' | member h' =>
      cases h.symm.trans h'
  | memberFailed h _ ih =>
    cases h' with
    | absent h' =>
      cases h.symm.trans h'
    | memberFailed h' here' =>
      cases h.symm.trans h'
      obtain ⟨rfl, herror, rfl⟩ := ih here'
      exact ⟨rfl, herror, rfl⟩
    | member h' here' =>
      cases h.symm.trans h'
      cases (ih here').2.1
  | member h _ _ ihh ihr =>
    cases h' with
    | absent h' =>
      cases h.symm.trans h'
    | memberFailed h' here' =>
      cases h.symm.trans h'
      cases (ihh here').2.1
    | member h' here' rest' =>
      cases h.symm.trans h'
      obtain ⟨rfl, hpop, rfl⟩ := ihh here'
      cases hpop
      obtain ⟨rfl, rfl, rfl⟩ := ihr rest'
      exact ⟨rfl, rfl, rfl⟩
  | plain h =>
    cases h' with
    | plain => exact ⟨rfl, rfl, rfl⟩
    | spent h' | answered h' | followed h' =>
      cases h.symm.trans h'
  | spent h hspent =>
    cases h' with
    | plain h' =>
      cases h.symm.trans h'
    | spent h' =>
      cases h.symm.trans h'
      exact ⟨rfl, rfl, rfl⟩
    | answered _ hleft' | followed _ hleft' => omega
  | answered h hleft hplan =>
    cases h' with
    | plain h' =>
      cases h.symm.trans h'
    | spent _ hspent' => omega
    | answered _ _ hplan' =>
      cases hplan.symm.trans hplan'
      exact ⟨rfl, rfl, rfl⟩
    | followed _ _ hplan' =>
      cases hplan.symm.trans hplan'
  | followed h hleft hplan _ ih =>
    cases h' with
    | plain h' =>
      cases h.symm.trans h'
    | spent _ hspent' => omega
    | answered _ _ hplan' =>
      cases hplan.symm.trans hplan'
    | followed _ _ hplan' follow' =>
      cases hplan.symm.trans hplan'
      obtain ⟨rfl, rfl, rfl⟩ := ih follow'
      exact ⟨rfl, rfl, rfl⟩
  | unknown h =>
    cases h' with
    | unknown => exact ⟨rfl, rfl, rfl⟩
    | record h' =>
      cases h.symm.trans h'
  | record h _ ih =>
    cases h' with
    | unknown h' =>
      cases h.symm.trans h'
    | record h' fields' =>
      cases h.symm.trans h'
      exact ih fields'
  | followDone =>
    cases h'
    exact ⟨rfl, rfl, rfl⟩
  | followFailed _ ih =>
    cases h' with
    | followFailed here' =>
      obtain ⟨rfl, herror, rfl⟩ := ih here'
      exact ⟨rfl, herror, rfl⟩
    | follow here' => cases (ih here').2.1
  | follow _ _ ihh ihr =>
    cases h' with
    | followFailed here' => cases (ihh here').2.1
    | follow here' rest' =>
      obtain ⟨rfl, hpop, rfl⟩ := ihh here'
      cases hpop
      obtain ⟨rfl, rfl, rfl⟩ := ihr rest'
      exact ⟨rfl, rfl, rfl⟩

end

/-! ### Budgets -/

namespace DepthBudget

variable (budget : DepthBudget) (key key' : String)

theorem take_called : (budget.take key).1 = true ↔ 0 < budget.remaining key := by
  unfold take
  cases budget.remaining key <;> simp

theorem remaining_take :
    (budget.take key).2.remaining key' =
      if key' = key then budget.remaining key - 1 else budget.remaining key' := by
  have hput : ∀ n, DepthBudget.remaining { budget with left := budget.left.put key n } key' =
      if key' = key then n else budget.remaining key' := by
    intro n
    show (Entries.get? key' (budget.left.put key n)).getD budget.limit = _
    by_cases h : key' = key
    · rw [if_pos h, h, Entries.get?_put_self, Option.getD_some]
    · rw [if_neg h, Entries.get?_put_of_ne (Ne.symm h)]
      rfl
  unfold take
  cases h : budget.remaining key with
  | zero => exact hput 0
  | succ n => exact hput n

end DepthBudget

/-- The evaluations take from a budget one after the other: each is called exactly when its key has
some left, and gives the terminal value of its kind when it is not. -/
inductive Charged : DepthBudget → List Evaluation → DepthBudget → Prop
  | nil (budget : DepthBudget) : Charged budget [] budget
  | cons {budget final : DepthBudget} {x : Evaluation} {rest : List Evaluation}
      (called : x.called = (budget.take x.key).1)
      (terminal : x.called = false →
        x.kind.definition.population.map Population.terminal = some x.value)
      (after : Charged (budget.take x.key).2 rest final) : Charged budget (x :: rest) final

namespace Charged

variable {budget middle final : DepthBudget} {xs ys : List Evaluation}

theorem append (h : Charged budget xs middle) (h' : Charged middle ys final) :
    Charged budget (xs ++ ys) final := by
  induction h with
  | nil => exact h'
  | cons called terminal _ ih => exact .cons called terminal (ih h')

theorem remaining_le (h : Charged budget xs final) (key : String) :
    final.remaining key ≤ budget.remaining key := by
  induction h with
  | nil => exact Nat.le_refl _
  | @cons budget final x rest _ _ _ ih =>
    rw [DepthBudget.remaining_take] at ih
    split at ih
    · next hkey =>
      rw [← hkey] at ih
      omega
    · exact ih

/-- Of the evaluations under one key, in order, the first ones are called, as many as the key has
left, and each later one gives the terminal value of its kind. -/
theorem called_iff (h : Charged budget xs final) (key : String) {i : Nat} {x : Evaluation}
    (hx : (xs.filter (·.key == key))[i]? = some x) :
    (x.called = true ↔ i < budget.remaining key) ∧
      (x.called = false →
        x.kind.definition.population.map Population.terminal = some x.value) := by
  induction h generalizing i with
  | nil => cases hx
  | @cons budget final y rest called terminal _ ih =>
    rw [List.filter_cons] at hx
    by_cases hkey : y.key = key
    · rw [if_pos (beq_iff_eq.mpr hkey)] at hx
      cases i with
      | zero =>
        obtain rfl := Option.some.inj hx
        refine ⟨?_, terminal⟩
        rw [called, DepthBudget.take_called, hkey]
      | succ i =>
        obtain ⟨hcalled, hterminal⟩ := ih hx
        rw [DepthBudget.remaining_take, if_pos hkey.symm, hkey] at hcalled
        exact ⟨hcalled.trans (by omega), hterminal⟩
    · rw [if_neg (fun h => hkey (beq_iff_eq.mp h))] at hx
      obtain ⟨hcalled, hterminal⟩ := ih hx
      rw [DepthBudget.remaining_take, if_neg (Ne.symm hkey)] at hcalled
      exact ⟨hcalled, hterminal⟩

end Charged

section

variable {e : Engine} {task : PopulationTask} {s t : PopulationState} {xs : List Evaluation}
  {result : Except EngineError Value}

/-- A population charges every populator that it comes to. -/
theorem Populates.charged (h : Populates e task s xs result t) : Charged s.budget xs t.budget := by
  induction h with
  | kept | unresolved | membersDone | plain | unknown | followDone => exact .nil _
  | membersFailed _ _ _ ih | absent _ _ ih | memberFailed _ _ ih | record _ _ ih
  | followFailed _ ih => exact ih
  | field _ _ _ _ ihm ihc => exact ihm.append ihc
  | member _ _ _ ihh ihr | follow _ _ ihh ihr => exact ihh.append ihr
  | spent h hspent =>
    refine .cons ?_ (fun _ => by rw [h]; rfl) (.nil _)
    refine (Bool.eq_false_iff.mpr fun hcalled => ?_).symm
    exact (Nat.pos_iff_ne_zero.mp ((DepthBudget.take_called _ _).mp hcalled)) hspent
  | answered h hleft _ =>
    exact .cons ((DepthBudget.take_called _ _).mpr hleft).symm nofun (.nil _)
  | followed h hleft _ _ ih =>
    exact .cons ((DepthBudget.take_called _ _).mpr hleft).symm nofun ih

end

end ContentSchema
