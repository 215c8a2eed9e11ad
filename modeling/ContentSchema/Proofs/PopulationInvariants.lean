import Mathlib.Logic.Relation
import ContentSchema.Proofs.PopulationFrames

/-!
# Population invariants — what a population keeps of its state, and when it ends well

`Upholds I m` says that a computation keeps `I` of the budgets and the cache.  A population does so
when every value that it comes to does: inward, and onward to the records that relations follow
(`Guards`).  With a sound cache it ends well where the options resolve of what it comes to inward
(`populateValue_ok`).
-/

namespace ContentSchema

/-! ### Invariants -/

/-- A computation keeps what `I` says of the state. -/
def Upholds (I : PopulationState → Prop) {α : Type} (m : PopulationM α) : Prop :=
  ∀ s, I s → I (m s).2

namespace Upholds

variable {I : PopulationState → Prop} {α β : Type}

theorem pure (a : α) : Upholds I (Pure.pure a : PopulationM α) := fun _ h => h

theorem bind {m : PopulationM α} {f : α → PopulationM β} (hm : Upholds I m)
    (hf : ∀ a, Upholds I (f a)) : Upholds I (m >>= f) := fun s hs => hf _ _ (hm s hs)

theorem populateMembers {populate : Member → Value → PopulationM (Except EngineError Value)}
    {ms : List Member} {v : Value} (h : ∀ m u, Found ms v m u → Upholds I (populate m u)) :
    Upholds I (Engine.populateMembers populate ms v) := by
  induction ms generalizing v with
  | nil => exact .pure _
  | cons m ms ih =>
    unfold Engine.populateMembers
    split
    · next hu => exact ih fun n x hn => h n x (.absent hu hn)
    · next u hu =>
      refine (h m u (.here hu)).bind fun result => ?_
      cases result with
      | error err => exact .pure _
      | ok populated => exact ih fun n x hn => h n x (.after hu hn)

theorem followAll {populate : String → Value → PopulationM (Except EngineError Value)}
    {name : String} {records : List Value}
    (h : ∀ record ∈ records, Upholds I (populate name record)) :
    Upholds I (Plan.followAll populate name records) := by
  induction records with
  | nil => exact .pure _
  | cons record records ih =>
    unfold Plan.followAll
    refine (h record List.mem_cons_self).bind fun result => ?_
    cases result with
    | error err => exact .pure _
    | ok populated =>
      refine (ih fun r hr => h r (List.mem_cons_of_mem record hr)).bind fun result => ?_
      cases result <;> exact .pure _

theorem plan {populate : String → Value → PopulationM (Except EngineError Value)} {plan : Plan}
    (h : ∀ name records gather, plan = .follow name records gather →
      ∀ record ∈ records, Upholds I (populate name record)) : Upholds I (plan.run populate) := by
  cases plan with
  | answer result => exact .pure _
  | follow name records gather =>
    unfold Plan.run
    refine (followAll (h name records gather rfl)).bind fun result => ?_
    cases result <;> exact .pure _

end Upholds

/-! ### Ways onward -/

/-- A population goes inward, and from a relation to the records that it follows. -/
inductive Engine.Onward (e : Engine) : PopulationTask → PopulationTask → Prop
  | inward {task inner : PopulationTask} (h : e.Inward task inner) : Onward e task inner
  | follow {collection : Option String} {path : Path} {d : Declaration} {v record : Value}
      {name : String} {records : List Value} {gather : List Value → Value}
      (populated : d.additional.population ≠ some false)
      (hplan : Plan.ofKind d.kind e.source (Options.ofValues d.values) v =
        .follow name records gather)
      (hrecord : record ∈ records) :
      Onward e (.field collection path d v) (.record name record)

/-- What is come to from a start, however many steps there are. -/
def PopulationTask.From (step : PopulationTask → PopulationTask → Prop)
    (start : PopulationTask → Prop) (task : PopulationTask) : Prop :=
  ∃ first, start first ∧ Relation.ReflTransGen step first task

namespace PopulationTask.From

variable {step step' : PopulationTask → PopulationTask → Prop}
  {start start' : PopulationTask → Prop} {task inner : PopulationTask}

theorem here (h : start task) : From step start task := ⟨task, h, .refl⟩

theorem next (h : From step start task) (hstep : step task inner) : From step start inner := by
  obtain ⟨first, hfirst, hsteps⟩ := h
  exact ⟨first, hfirst, hsteps.tail hstep⟩

theorem mono (hstep : ∀ a b, step a b → step' a b) (hstart : ∀ a, start a → start' a)
    (h : From step start task) : From step' start' task := by
  obtain ⟨first, hfirst, hsteps⟩ := h
  exact ⟨first, hstart first hfirst, Relation.ReflTransGen.mono hstep _ _ hsteps⟩

/-- What the start has and every step keeps. -/
theorem induction {P : PopulationTask → Prop} (h : From step start task)
    (hstart : ∀ a, start a → P a) (hstep : ∀ a b, P a → step a b → P b) : P task := by
  obtain ⟨first, hfirst, hsteps⟩ := h
  induction hsteps with
  | refl => exact hstart _ hfirst
  | tail _ hlast ih => exact hstep _ _ ih hlast

theorem onward {e : Engine} (h : From e.Inward start task) : From e.Onward start task :=
  h.mono (fun _ _ => .inward) fun _ => id

end PopulationTask.From

/-- A plan reads the values of the options. -/
theorem Plan.ofKind_ofValues (kind : FieldKind) (source : Option RecordSource) {o : Options}
    {values : Entries Value} (ho : o.values = values) (v : Value) :
    Plan.ofKind kind source o v = Plan.ofKind kind source (Options.ofValues values) v := by
  rw [Options.eq_ofValues ho]
  cases kind <;> rfl

/-! ### Guarded values -/

/-- A population comes from what is in `D` to nothing else, and keeps `I` on every way. -/
structure Guards (e : Engine) (I : PopulationState → Prop) (D : PopulationTask → Prop) : Prop where
  sound : ∀ s, I s → s.cache.Sound
  resolve : ∀ s name d, I s → I { s with cache := (s.cache.resolve .builtin name d).2 }
  closed : ∀ {task inner}, D task → e.Onward task inner → D inner
  populator : ∀ {collection path d v}, D (.field collection path d v) →
    d.additional.population ≠ some false → d.additional.populator = none
  take : ∀ {collection path d v}, D (.field collection path d v) →
    d.additional.population ≠ some false → d.kind.isRelation →
      ∀ s, I s → I (s.take (Engine.populationKey collection path))

namespace Guards

variable {e : Engine} {I : PopulationState → Prop} {D : PopulationTask → Prop}

/-- A value is populated within the guards when members and records of relations are, with less
fuel. -/
theorem upholds_value (builtin : e.registry = .builtin) (h : Guards e I D) {fuel : Nat}
    (hvalue : ∀ {collection path d v}, D (.field collection path d v) →
      Upholds I (e.populateValue fuel collection path d v))
    (hrecord : ∀ {name record}, D (.record name record) →
      Upholds I (e.populateFieldsOf fuel name record))
    {collection : Option String} {path : Path} {d : Declaration} {v : Value}
    (hd : D (.field collection path d v)) :
    Upholds I (e.populateValue (fuel + 1) collection path d v) := by
  intro s hs
  rw [Engine.populateValue_run builtin (h.populator hd)]
  split
  · exact hs
  · next hpopulated =>
    have hresolve := h.resolve s path.name d hs
    have hvalues := ((h.sound s hs).resolve path.name d).2
    obtain ⟨⟨o, cache⟩, hoptions⟩ : ∃ r, s.cache.resolve .builtin path.name d = r := ⟨_, rfl⟩
    rw [hoptions] at hresolve hvalues ⊢
    cases o with
    | error err => exact hresolve
    | ok o =>
      have hmembers : Upholds I (Engine.populateMembers (fun m => e.populateValue fuel
          collection (path ++ m.relative) m.declaration) (e.catalog.members d v) v) :=
        .populateMembers fun m u hm => hvalue (h.closed hd (.inward (.member hpopulated hm)))
      replace hmembers := hmembers _ hresolve
      simp only
      obtain ⟨⟨w, t⟩, hrun⟩ : ∃ r, Engine.populateMembers (fun m => e.populateValue fuel
        collection (path ++ m.relative) m.declaration) (e.catalog.members d v) v
          { s with cache := cache } = r := ⟨_, rfl⟩
      rw [hrun] at hmembers ⊢
      cases w with
      | error err => exact hmembers
      | ok w =>
        simp only
        cases hpop : d.kind.definition.population with
        | none => exact hmembers
        | some population =>
          have hrelation := (Engine.isRelation_of_population hpop).1
          have htake := h.take hd hpopulated hrelation t hmembers
          -- a relation has no members, so it follows what is stored
          rw [Engine.members_relation e.catalog hrelation] at hrun
          cases hrun
          simp only
          rw [Engine.callPopulator_run]
          simp only
          split
          · rw [population_run hpop]
            refine Upholds.plan (fun name records gather hplan record hr => ?_) _ htake
            rw [Plan.ofKind_ofValues _ _ (hvalues o rfl).2] at hplan
            exact hrecord (h.closed hd (.follow hpopulated hplan hr))
          · exact htake

/-- So is a record when its fields are. -/
theorem upholds_record (h : Guards e I D) {fuel : Nat}
    (hvalue : ∀ {collection path d v}, D (.field collection path d v) →
      Upholds I (e.populateValue fuel collection path d v))
    {name : String} {record : Value} (hd : D (.record name record)) :
    Upholds I (e.populateFieldsOf (fuel + 1) name record) := by
  rw [Engine.populateFieldsOf]
  cases hcol : e.catalog.collection? name with
  | none =>
    rw [Engine.collection, hcol]
    exact .pure _
  | some collection =>
    rw [Engine.collection, hcol]
    simp only [Engine.populateFields_eq]
    exact .populateMembers fun m u hm => hvalue (h.closed hd (.inward (.field hcol hm)))

/-- A population within the guards keeps the invariant. -/
theorem upholds (builtin : e.registry = .builtin) (h : Guards e I D) (fuel : Nat) :
    (∀ {collection path d v}, D (.field collection path d v) →
      Upholds I (e.populateValue fuel collection path d v)) ∧
    ∀ {name record}, D (.record name record) → Upholds I (e.populateFieldsOf fuel name record) := by
  induction fuel with
  | zero =>
    refine ⟨fun _ => ?_, fun _ => ?_⟩
    · rw [Engine.populateValue]
      exact .pure _
    · rw [Engine.populateFieldsOf]
      exact .pure _
  | succ fuel ih =>
    exact ⟨h.upholds_value builtin ih.1 ih.2, h.upholds_record ih.1⟩

end Guards

/-! ### Populations that end well -/

namespace Engine

variable {e : Engine} {start : PopulationTask → Prop}

/-- A population keeps the cache sound when nothing that it comes to has a populator of its own. -/
theorem guards_sound
    (populator : ∀ {collection path d v},
      PopulationTask.From e.Onward start (.field collection path d v) →
      d.additional.population ≠ some false → d.additional.populator = none) :
    Guards e (fun s => s.cache.Sound) (PopulationTask.From e.Onward start) where
  sound _ hs := hs
  resolve _ name d hs := (hs.resolve name d).1
  closed := .next
  populator := populator
  take _ _ _ _ hs := hs

theorem populateMembers_ok {populate : Member → Value → PopulationM (Except EngineError Value)}
    {ms : List Member} {v : Value}
    (hok : ∀ m u, Found ms v m u → ∀ s, s.cache.Sound → ∃ w, (populate m u s).1 = .ok w)
    (hsound : ∀ m u, Found ms v m u → Upholds (fun s => s.cache.Sound) (populate m u))
    {s : PopulationState} (hs : s.cache.Sound) :
    ∃ w, (populateMembers populate ms v s).1 = .ok w := by
  induction ms generalizing v s with
  | nil => exact ⟨v, rfl⟩
  | cons m ms ih =>
    cases hu : m.relative.lookup v with
    | none =>
      unfold populateMembers
      rw [hu]
      exact ih (fun n x hn => hok n x (.absent hu hn)) (fun n x hn => hsound n x (.absent hu hn)) hs
    | some u =>
      obtain ⟨w, hw⟩ := hok m u (.here hu) s hs
      have ht := hsound m u (.here hu) s hs
      rw [populateMembers_cons hu]
      obtain ⟨⟨result, t⟩, hrun⟩ : ∃ r, populate m u s = r := ⟨_, rfl⟩
      rw [hrun] at hw ht ⊢
      obtain rfl : result = .ok w := hw
      exact ih (fun n x hn => hok n x (.after hu hn)) (fun n x hn => hsound n x (.after hu hn)) ht

/-- Populating a value ends well when the options resolve of what it comes to inward. -/
theorem populateValue_ok (builtin : e.registry = .builtin)
    (guards : Guards e (fun s => s.cache.Sound) (PopulationTask.From e.Onward start))
    (resolves : ∀ {collection path d v},
      PopulationTask.From e.Inward start (.field collection path d v) →
      d.additional.population ≠ some false → ∃ o, Registry.builtin.resolve "" d = .ok o)
    (fuel : Nat) {collection : Option String} {path : Path} {d : Declaration} {v : Value}
    (hd : PopulationTask.From e.Inward start (.field collection path d v)) {s : PopulationState}
    (hs : s.cache.Sound) : ∃ w, (populateValue e fuel collection path d v s).1 = .ok w := by
  induction fuel generalizing path d v s with
  | zero =>
    rw [populateValue]
    exact ⟨v, rfl⟩
  | succ fuel ih =>
    rw [populateValue_run builtin (guards.populator hd.onward)]
    split
    · exact ⟨v, rfl⟩
    · next hpopulated =>
      obtain ⟨o, ho⟩ := resolves hd hpopulated
      obtain ⟨o', cache, hoptions, -, hcache⟩ := hs.resolve_ok ho path.name
      have hmember : ∀ m u, Found (e.catalog.members d v) v m u → PopulationTask.From e.Inward start
          (.field collection (path ++ m.relative) m.declaration u) :=
        fun m u hm => hd.next (.member hpopulated hm)
      obtain ⟨w, hw⟩ : ∃ w, (populateMembers (fun m => populateValue e fuel collection
          (path ++ m.relative) m.declaration) (e.catalog.members d v) v
            { s with cache := cache }).1 = .ok w :=
        populateMembers_ok (fun m u hm t ht => ih (hmember m u hm) ht)
          (fun m u hm => (guards.upholds builtin fuel).1 (hmember m u hm).onward) hcache
      rw [hoptions]
      simp only
      obtain ⟨⟨result, t⟩, hrun⟩ : ∃ r, populateMembers (fun m => populateValue e fuel collection
        (path ++ m.relative) m.declaration) (e.catalog.members d v) v
          { s with cache := cache } = r := ⟨_, rfl⟩
      rw [hrun] at hw ⊢
      obtain rfl : result = .ok w := hw
      simp only
      split
      · exact ⟨w, rfl⟩
      · exact ⟨_, rfl⟩

end Engine

end ContentSchema
