import ContentSchema.Engine.Process
import ContentSchema.Proofs.FirstMessages
import ContentSchema.Proofs.OwnOptions
import ContentSchema.Proofs.PathLaws

/-!
# Pass runs — the two passes as functions of the state

One equation for each step of a pass over the built-in kinds, so that nothing later has to unfold
the monad: `sanitizePresent_run` for a value that is there, `sanitize_run` and `check_run` for a
field.  What the first pass does at a place before it turns to the members is `sanitizeHere`
(`sanitize_succ`); the decision of the second pass about one value is a `Verdict`.
-/

namespace ContentSchema

/-! ### The monad -/

section Monad

variable {α β : Type} {s t : PassState}

theorem bind_ok {ε σ : Type} {m : EStateM ε σ α} {f : α → EStateM ε σ β} {b : β} {s t : σ} :
    (m >>= f) s = .ok b t ↔ ∃ a u, m s = .ok a u ∧ f a u = .ok b t := by
  show EStateM.bind m f s = .ok b t ↔ _
  unfold EStateM.bind
  cases hm : m s with
  | ok a u =>
    simp only
    constructor
    · exact fun h => ⟨a, u, rfl, h⟩
    · rintro ⟨a', u', hu, h⟩
      obtain ⟨rfl, rfl⟩ := EStateM.Result.ok.inj hu
      exact h
  | error e u =>
    simp only
    constructor
    · exact fun h => nomatch h
    · rintro ⟨a, u', hu, -⟩
      cases hu

theorem bind_run {ε σ : Type} {m : EStateM ε σ α} {f : α → EStateM ε σ β} {a : α} {s t : σ}
    (h : m s = .ok a t) : (m >>= f) s = f a t := by
  show EStateM.bind m f s = _
  unfold EStateM.bind
  rw [h]

theorem bind_run_error {ε σ : Type} {m : EStateM ε σ α} {f : α → EStateM ε σ β} {e : ε} {s t : σ}
    (h : m s = .error e t) : (m >>= f) s = .error e t := by
  show EStateM.bind m f s = _
  unfold EStateM.bind
  rw [h]

theorem get_run {ε σ : Type} {s : σ} : (get : EStateM ε σ σ) s = .ok s s := rfl

theorem forM_cons (f : α → PassM Unit) (x : α) (xs : List α) :
    (x :: xs).forM f s = (f x >>= fun _ => xs.forM f) s := rfl

theorem forM_cons_ok {f : α → PassM Unit} {x : α} {xs : List α} :
    (x :: xs).forM f s = .ok () t ↔ ∃ u, f x s = .ok () u ∧ xs.forM f u = .ok () t := by
  rw [forM_cons, bind_ok]
  constructor
  · rintro ⟨⟨⟩, u, hx, hxs⟩
    exact ⟨u, hx, hxs⟩
  · rintro ⟨u, hx, hxs⟩
    exact ⟨(), u, hx, hxs⟩

/-- A loop whose steps leave the state as it is. -/
theorem forM_same {f : α → PassM Unit} {xs : List α} (h : ∀ x ∈ xs, f x s = .ok () s) :
    xs.forM f s = .ok () s := by
  induction xs with
  | nil => rfl
  | cons x xs ih =>
    rw [forM_cons, bind_run (h x List.mem_cons_self)]
    exact ih fun y hy => h y (List.mem_cons_of_mem _ hy)

end Monad

/-! ### Problems -/

/-- The error map with some problems added. -/
def ErrorMap.report (errors : ErrorMap) (problems : List Problem) : ErrorMap :=
  problems.foldl (fun errors p => errors.insert p.1 p.2) errors

namespace ErrorMap

/-- Problems are added one after the other. -/
theorem report_eq (errors : ErrorMap) (problems : List Problem) :
    errors.report problems = errors.addAll (problems.map fun p => (p.1.text, p.2)) := by
  unfold addAll
  rw [List.foldl_map]
  rfl

/-- The first of the problems at a key is found where nothing was before. -/
theorem get?_report (errors : ErrorMap) (problems : List Problem) (key : String) :
    (errors.report problems).get? key = (errors.get? key).or
      (Entries.get? key (problems.map fun p => (p.1.text, p.2))) := by
  rw [report_eq, get?_addAll]

/-- A map is empty after problems exactly when it was before and there were none. -/
theorem isEmpty_report (errors : ErrorMap) (problems : List Problem) :
    (errors.report problems).isEmpty = true ↔ errors.isEmpty = true ∧ problems = [] := by
  rw [report_eq, isEmpty_addAll, List.map_eq_nil_iff]

theorem Distinct.report {errors : ErrorMap} (h : errors.Distinct) (problems : List Problem) :
    (errors.report problems).Distinct := by
  rw [report_eq]
  exact h.addAll _

theorem report_nil (errors : ErrorMap) : errors.report [] = errors := rfl

end ErrorMap

theorem forM_reportProblem (problems : List Problem) (s : PassState) :
    problems.forM reportProblem s = .ok () { s with errors := s.errors.report problems } := by
  induction problems generalizing s with
  | nil => rfl
  | cons p ps ih =>
    rw [forM_cons]
    exact ih { s with errors := s.errors.insert p.1 p.2 }

/-! ### Steps -/

/-- What the second pass decides about a value. -/
inductive Verdict
  /-- The pass ends. -/
  | stop (e : EngineError)
  /-- The conditions of the field fail, and this value takes its place. -/
  | reset (value : Value)
  /-- The value is refused with a message, and this one takes its place. -/
  | refuse (message : String) (value : Value)
  | accept

/-- The decision that follows from a judgement. -/
def Verdict.ofJudgement (fallback : Value) : Except FieldError Unit → Verdict
  | .error (.engine e) => .stop e
  | .error e => .refuse e.messageText fallback
  | .ok () => .accept

namespace PassContext

variable (c : PassContext)

/-- The decision about the value of a field. -/
def verdict (path : Path) (d : Declaration) (options : Options) (record v : Value) : Verdict :=
  let context := c.fieldContext path d.kind.definition options record
  match d.additional.logic.mapM (d.kind.definition.matcher context) with
  | .error e => .stop (.logic e)
  | .ok (some (.skip value)) => .reset value
  | .ok _ =>
    .ofJudgement (d.kind.definition.default options)
      (judge context d.kind.definition d.additional v)

/-- The value of a field after the sanitizers of its kind and its own. -/
def cleaned (path : Path) (d : Declaration) (options : Options) (record v : Value) : Value :=
  sanitizeValue (c.fieldContext path d.kind.definition options record)
    (d.kind.definition.sanitizers ++ d.additional.sanitizers) v

/-- What the first pass does to a value itself; whether it goes on to the members. -/
def sanitizeOwn (path : Path) (d : Declaration) (definition : Definition) (options : Options)
    (v : Value) : PassM Bool := do
  let context := c.fieldContext path definition options (← get).record
  setField path (sanitizeValue context (definition.sanitizers ++ d.additional.sanitizers) v)
  if definition.composite then
    if ← c.shapeField path d options then return true
    else do
      setField path (definition.default options)
      return false
  else return false

/-- What the first pass does at a place itself; whether it goes on to the members. -/
def sanitizeHere (path : Path) (d : Declaration) : PassM Bool := do
  let definition ← c.definition d.kind
  let options ← c.options path.name d
  match path.lookup (← get).record with
  | none =>
    if definition.required && options.flag "required" then
      c.sanitizeOwn path d definition options .null
    else do
      setField path (definition.default options)
      return false
  | some v => c.sanitizeOwn path d definition options v

/-- The members of the value at a place of a record. -/
def membersAt (path : Path) (d : Declaration) (record : Value) : List Member :=
  c.catalog.members d ((path.lookup record).getD .null)

variable {c} {s : PassState}

theorem membersAt_of_lookup {path : Path} {record v : Value} (h : path.lookup record = some v)
    (d : Declaration) : c.membersAt path d record = c.catalog.members d v := by
  unfold membersAt
  rw [h, Option.getD_some]

theorem definition_run (hc : c.registry = .builtin) (k : FieldKind) :
    c.definition k s = .ok k.definition s := by
  unfold definition
  rw [hc, get_builtin]
  rfl

theorem options_run (name : String) (d : Declaration) :
    c.options name d s =
      match s.cache.resolve c.registry name d with
      | (.ok o, cache) => .ok o { s with cache := cache }
      | (.error e, cache) => .error (.schema e) { s with cache := cache } := by
  obtain ⟨⟨result, cache⟩, h⟩ : ∃ p, s.cache.resolve c.registry name d = p := ⟨_, rfl⟩
  unfold options
  rw [bind_run get_run]
  simp only [h]
  cases result <;> rfl

/-- Sanitizing a value is what is done to itself and then, if it comes to that, to its members. -/
theorem sanitizePresent_eq (descend : Path → Declaration → PassM Unit) (path : Path)
    (d : Declaration) (definition : Definition) (o : Options) (v : Value) :
    c.sanitizePresent descend path d definition o v = (do
      if ← c.sanitizeOwn path d definition o v then
        (c.membersAt path d (← get).record).forM
          fun m => descend (path ++ m.relative) m.declaration) := by
  unfold sanitizePresent sanitizeOwn
  cases hcomp : definition.composite with
  | false => simp
  | true =>
    simp only [if_true, bind_assoc]
    congr 1
    funext s
    congr 1
    funext _
    congr 1
    funext valid
    cases valid with
    | true => rfl
    | false => simp

/-- The same at a place. -/
theorem sanitize_succ (fuel : Nat) (path : Path) (d : Declaration) :
    c.sanitize (fuel + 1) path d = (do
      if ← c.sanitizeHere path d then
        (c.membersAt path d (← get).record).forM
          fun m => c.sanitize fuel (path ++ m.relative) m.declaration) := by
  rw [sanitize, sanitizeHere]
  simp only [sanitizePresent_eq, bind_assoc]
  congr 1
  funext definition
  congr 1
  funext o
  congr 1
  funext s
  cases path.lookup s.record with
  | some v => rfl
  | none =>
    simp only
    split
    · rfl
    · simp

/-- Sanitizing a value that is there, up to its members: the sanitizers of its kind and its own, and
for a composite kind the shape. -/
theorem sanitizeOwn_run {path : Path} (hroom : path.HasRoom s.record) (d : Declaration)
    (o : Options) (v : Value) :
    c.sanitizeOwn path d d.kind.definition o v s =
      let w := c.cleaned path d o s.record v
      if d.kind.definition.composite then
        let shaped := c.catalog.shape d o path w
        let errors := s.errors.report shaped.problems
        if shaped.valid then
          .ok true { s with record := path.set shaped.value s.record, errors := errors }
        else
          .ok false { s with
            record := path.set (d.kind.definition.default o) s.record, errors := errors }
      else .ok false { s with record := path.set w s.record } := by
  obtain ⟨w, hw⟩ : ∃ w, c.cleaned path d o s.record v = w := ⟨_, rfl⟩
  have hset : setField path w s = .ok () { s with record := path.set w s.record } := rfl
  have hlook : path.lookup (path.set w s.record) = some w := Path.lookup_set hroom w
  unfold sanitizeOwn
  rw [bind_run get_run]
  show (setField path (c.cleaned path d o s.record v) >>= _) s = _
  rw [hw, bind_run hset]
  cases hcomp : d.kind.definition.composite with
  | false => rfl
  | true =>
    obtain ⟨shaped, hshaped⟩ : ∃ x, c.catalog.shape d o path w = x := ⟨_, rfl⟩
    have hshape : c.shapeField path d o { s with record := path.set w s.record } =
        .ok shaped.valid { s with record := path.set shaped.value s.record,
                                  errors := s.errors.report shaped.problems } := by
      unfold shapeField
      rw [bind_run get_run]
      simp only [hlook, hshaped]
      show (shaped.problems.forM reportProblem >>= fun _ => pure shaped.valid)
        { s with record := path.set shaped.value (path.set w s.record) } = _
      rw [bind_run (forM_reportProblem _ _), Path.set_set]
      rfl
    simp only [if_true]
    rw [bind_run hshape, hshaped]
    cases hvalid : shaped.valid with
    | true => rfl
    | false =>
      show EStateM.Result.ok false _ = _
      simp only [Path.set_set]
      rfl

/-- Sanitizing a value that is there: the sanitizers of its kind and its own, and for a composite
kind the shape and the members. -/
theorem sanitizePresent_run (descend : Path → Declaration → PassM Unit) {path : Path}
    (hroom : path.HasRoom s.record) (d : Declaration) (o : Options) (v : Value) :
    c.sanitizePresent descend path d d.kind.definition o v s =
      let w := c.cleaned path d o s.record v
      if d.kind.definition.composite then
        let shaped := c.catalog.shape d o path w
        let errors := s.errors.report shaped.problems
        if shaped.valid then
          (c.catalog.members d shaped.value).forM
            (fun m => descend (path ++ m.relative) m.declaration)
            { s with record := path.set shaped.value s.record, errors := errors }
        else
          .ok () { s with
            record := path.set (d.kind.definition.default o) s.record, errors := errors }
      else .ok () { s with record := path.set w s.record } := by
  have hown := sanitizeOwn_run (c := c) hroom d o v
  rw [sanitizePresent_eq]
  simp only at hown ⊢
  split
  · next hcomp =>
    rw [if_pos hcomp] at hown
    split
    · next hvalid =>
      rw [if_pos hvalid] at hown
      rw [bind_run hown, if_pos rfl, bind_run get_run,
        membersAt_of_lookup (Path.lookup_set hroom _)]
    · next hvalid =>
      rw [if_neg hvalid] at hown
      rw [bind_run hown]
      rfl
  · next hcomp =>
    rw [if_neg hcomp] at hown
    rw [bind_run hown]
    rfl

/-- Both passes turn to a field with its definition and its options. -/
theorem resolved_run {α : Type} (hc : c.registry = .builtin) (name : String) (d : Declaration)
    (f : Definition → Options → PassM α) :
    (do
      let definition ← c.definition d.kind
      let options ← c.options name d
      f definition options) s =
      match s.cache.resolve .builtin name d with
      | (.error e, cache) => .error (.schema e) { s with cache := cache }
      | (.ok o, cache) => f d.kind.definition o { s with cache := cache } := by
  rw [bind_run (definition_run hc d.kind)]
  have hrun := options_run (c := c) (s := s) name d
  rw [hc] at hrun
  obtain ⟨⟨result, cache⟩, h⟩ : ∃ p, s.cache.resolve .builtin name d = p := ⟨_, rfl⟩
  rw [h] at hrun ⊢
  cases result with
  | error e => exact bind_run_error hrun
  | ok o => exact bind_run hrun

theorem sanitize_run (hc : c.registry = .builtin) (fuel : Nat) (path : Path) (d : Declaration) :
    c.sanitize (fuel + 1) path d s =
      match s.cache.resolve .builtin path.name d with
      | (.error e, cache) => .error (.schema e) { s with cache := cache }
      | (.ok o, cache) =>
        match path.lookup s.record with
        | some v =>
          c.sanitizePresent (c.sanitize fuel) path d d.kind.definition o v
            { s with cache := cache }
        | none =>
          if d.kind.definition.required && o.flag "required" then
            c.sanitizePresent (c.sanitize fuel) path d d.kind.definition o .null
              { s with cache := cache }
          else
            .ok () { s with
              record := path.set (d.kind.definition.default o) s.record, cache := cache } := by
  rw [sanitize]
  refine (resolved_run hc path.name d _).trans ?_
  split
  · rfl
  · next o cache _ =>
    rw [bind_run get_run]
    simp only
    cases path.lookup s.record with
    | some v => rfl
    | none =>
      simp only
      cases d.kind.definition.required && o.flag "required" <;> rfl

/-- What the second pass does about a judgement. -/
theorem judged_run (path : Path) (fallback : Value) (members : PassM Unit)
    (result : Except FieldError Unit) :
    (match result with
      | .error (.engine e) => throw e
      | .error e => do
        reportProblem (path, e.messageText)
        setField path fallback
      | .ok () => members : PassM Unit) s =
      match Verdict.ofJudgement fallback result with
      | .stop e => .error e s
      | .reset value => .ok () { s with record := path.set value s.record }
      | .refuse message value =>
        .ok () { s with
          record := path.set value s.record, errors := s.errors.insert path message }
      | .accept => members s := by
  cases result with
  | ok => rfl
  | error e => cases e <;> rfl

theorem check_run (hc : c.registry = .builtin) (fuel : Nat) (path : Path) (d : Declaration) :
    c.check (fuel + 1) path d s =
      match s.cache.resolve .builtin path.name d with
      | (.error e, cache) => .error (.schema e) { s with cache := cache }
      | (.ok o, cache) =>
        match path.lookup s.record with
        | none => .ok () { s with cache := cache }
        | some v =>
          match c.verdict path d o s.record v with
          | .stop e => .error e { s with cache := cache }
          | .reset value => .ok () { s with record := path.set value s.record, cache := cache }
          | .refuse message value =>
            .ok () ⟨path.set value s.record, s.errors.insert path message, cache⟩
          | .accept =>
            if d.kind.definition.composite then
              (c.catalog.members d v).forM
                (fun m => c.check fuel (path ++ m.relative) m.declaration) { s with cache := cache }
            else .ok () { s with cache := cache } := by
  rw [check]
  refine (resolved_run hc path.name d _).trans ?_
  split
  · rfl
  · next o cache _ =>
    rw [bind_run get_run]
    simp only
    cases path.lookup s.record with
    | none => rfl
    | some v =>
      have hmembers : ∀ t : PassState, (if d.kind.definition.composite then
            (c.catalog.members d v).forM
              fun m => c.check fuel (path ++ m.relative) m.declaration
          else pure () : PassM Unit) t =
          if d.kind.definition.composite then
            (c.catalog.members d v).forM
              (fun m => c.check fuel (path ++ m.relative) m.declaration) t
          else .ok () t := fun t => by
        cases d.kind.definition.composite <;> rfl
      simp only
      unfold verdict
      simp only
      cases d.additional.logic.mapM (d.kind.definition.matcher
          (c.fieldContext path d.kind.definition o s.record)) with
      | error e => rfl
      | ok outcome =>
        cases outcome with
        | none => simp only [← hmembers]; exact judged_run path _ _ _
        | some outcome =>
          cases outcome with
          | proceed => simp only [← hmembers]; exact judged_run path _ _ _
          | skip value => rfl

/-! ### Records -/

/-- The members of a record that belong to a collection. -/
def ownKey (collection : Collection) (key : String) : Bool :=
  key == Kinds.idField || collection.declares key

theorem sanitizeRecord_object (collection : Collection) {ms : Entries Value}
    (hs : s.record = .object ms) :
    c.sanitizeRecord collection s =
      let kept := prune .root (ownKey collection) ms
      ((c.fieldsFor collection (.object kept.1)).forM
          (fun x => c.sanitize (fuelAt (.object ms) x.1) x.1 x.2) >>= fun _ => pure true)
        { s with record := .object kept.1, errors := s.errors.report kept.2 } := by
  unfold sanitizeRecord
  rw [bind_run get_run]
  simp only [hs]
  show (((prune .root (ownKey collection) ms).2.forM reportProblem) >>= _) _ = _
  rw [bind_run (forM_reportProblem _ _)]
  rfl

theorem sanitizeRecord_other (collection : Collection) (hs : s.record.isObject = false) :
    c.sanitizeRecord collection s =
      .ok false { s with errors := s.errors.insert .root Message.invalidInputType } := by
  obtain ⟨record, errors, cache⟩ := s
  unfold sanitizeRecord
  rw [bind_run get_run]
  cases record with
  | object ms => cases hs
  | _ => rfl

theorem checkRecord_run (collection : Collection) :
    c.checkRecord collection s =
      (c.fieldsFor collection s.record).forM
        (fun x => c.check (fuelAt s.record x.1) x.1 x.2) s := by
  unfold checkRecord
  rw [bind_run get_run]

end PassContext

/-! ### Engines -/

namespace Engine

variable {e : Engine} {name : String} {collection : Collection}

theorem collection_run (hcol : e.catalog.collection? name = some collection) :
    e.collection name = .ok collection := by
  unfold Engine.collection
  rw [hcol]

/-- A record goes through the first pass, and through the second one when the first accepts it. -/
theorem processRecord_run (hcol : e.catalog.collection? name = some collection) (record : Value)
    (operation : Operation) (batch : List Value) :
    let c := e.passContext operation name batch
    e.processRecord name record operation batch = e.processed record (do
      if ← c.sanitizeRecord collection then c.checkRecord collection) := by
  unfold processRecord
  rw [collection_run hcol]

/-- A record that is processed to the end went through both passes. -/
theorem processRecord_ok (hcol : e.catalog.collection? name = some collection) {record : Value}
    {operation : Operation} {batch : List Value} {errors : ErrorMap}
    (h : (e.processRecord name record operation batch).result = .ok errors) :
    let c := e.passContext operation name batch
    ∃ accepted s₁ s₂, c.sanitizeRecord collection ⟨record, .empty, e.cache⟩ = .ok accepted s₁ ∧
      (if accepted then c.checkRecord collection else pure () : PassM Unit) s₁ = .ok () s₂ ∧
      e.processRecord name record operation batch =
        ⟨.ok s₂.errors, s₂.record, { e with cache := s₂.cache }⟩ ∧ errors = s₂.errors := by
  intro c
  obtain ⟨pass, hpass⟩ : ∃ pass : PassM Unit, pass = (do
    if ← c.sanitizeRecord collection then c.checkRecord collection) := ⟨_, rfl⟩
  rw [processRecord_run hcol, ← hpass] at h ⊢
  unfold processed runPass at h ⊢
  cases hrun : pass ⟨record, .empty, e.cache⟩ with
  | error err s =>
    simp only [hrun] at h
    cases h
  | ok a s₂ =>
    simp only [hrun] at h ⊢
    rw [hpass] at hrun
    obtain ⟨accepted, s₁, h₁, h₂⟩ := bind_ok.mp hrun
    exact ⟨accepted, s₁, s₂, h₁, h₂, rfl, (Except.ok.inj h).symm⟩

end Engine

end ContentSchema
