import ContentSchema.Proofs.Conditions
import ContentSchema.Proofs.Splitting

/-!
# Dependencies — references of conditions that lead nowhere

A condition on a value that the record lacks ends a pass with an engine error.  Outside of updates
the first pass gives every declared field a value, and nothing takes one away again, so conditions
on declared fields always find them.  An update leaves out the fields that the record lacks, and
there alone a reference to a declared field can lead nowhere (`Engine.processRecord_missing`).
-/

namespace ContentSchema

/-! ### Engine errors of a pass -/

section Errors

variable {α β : Type} {s t : PassState} {e : EngineError}

theorem bind_error {m : PassM α} {f : α → PassM β} :
    (m >>= f) s = .error e t ↔
      m s = .error e t ∨ ∃ a u, m s = .ok a u ∧ f a u = .error e t := by
  cases hm : m s with
  | ok a u =>
    rw [bind_run hm]
    constructor
    · exact fun h => .inr ⟨a, u, rfl, h⟩
    · rintro (h | ⟨_, _, hok, h⟩)
      · cases h
      · obtain ⟨rfl, rfl⟩ := EStateM.Result.ok.inj hok
        exact h
  | error e' u =>
    rw [bind_run_error hm]
    constructor
    · intro h
      obtain ⟨rfl, rfl⟩ := EStateM.Result.error.inj h
      exact .inl rfl
    · rintro (h | ⟨_, _, hok, -⟩)
      · obtain ⟨rfl, rfl⟩ := EStateM.Result.error.inj h
        rfl
      · cases hok

/-- A loop fails at one of its entries, once those before it ended well. -/
theorem forM_error {f : α → PassM Unit} {xs : List α} (h : xs.forM f s = .error e t) :
    ∃ before x after u, xs = before ++ x :: after ∧ before.forM f s = .ok () u ∧
      f x u = .error e t := by
  induction xs generalizing s with
  | nil => cases h
  | cons x xs ih =>
    rw [forM_cons] at h
    rcases bind_error.mp h with h | ⟨⟨⟩, u, hx, h⟩
    · exact ⟨[], x, xs, s, rfl, rfl, h⟩
    · obtain ⟨before, y, after, u', rfl, hbefore, hy⟩ := ih h
      exact ⟨x :: before, y, after, u', rfl, forM_cons_ok.mpr ⟨u, hx, hbefore⟩, hy⟩

/-- Checking a field ends badly by its options, by the verdict about it or at one of its
members. -/
theorem check_error {c : PassContext} (hc : c.registry = .builtin) {fuel : Nat} {path : Path}
    {d : Declaration} (h : c.check (fuel + 1) path d s = .error e t) :
    (∃ err, e = .schema err) ∨ (∃ o v, c.verdict path d o s.record v = .stop e) ∨
      ∃ m v s' t', m ∈ c.catalog.members d v ∧
        c.check fuel (path ++ m.relative) m.declaration s' = .error e t' := by
  rw [PassContext.check_run hc] at h
  split at h
  · next err _ _ =>
    obtain ⟨rfl, -⟩ := EStateM.Result.error.inj h
    exact .inl ⟨err, rfl⟩
  · next o _ _ =>
    split at h
    · cases h
    · next v _ =>
      split at h
      · next hverdict =>
        obtain ⟨rfl, -⟩ := EStateM.Result.error.inj h
        exact .inr (.inl ⟨o, v, hverdict⟩)
      · cases h
      · cases h
      · split at h
        · obtain ⟨before, m, after, s', hlist, -, hm⟩ := forM_error h
          refine .inr (.inr ⟨m, v, s', t, ?_, hm⟩)
          rw [hlist]
          exact List.mem_append_right _ List.mem_cons_self
        · cases h

/-- Whatever error ends the run belongs to `E`. -/
def Raises (E : EngineError → Prop) (m : PassM α) : Prop := ∀ s e t, m s = .error e t → E e

namespace Raises

variable {E : EngineError → Prop} {c : PassContext}

theorem pure (a : α) : Raises E (pure a) := nofun

theorem throw (h : E e) : Raises E (throw e : PassM α) := by
  intro s e' t hrun
  obtain ⟨rfl, -⟩ := EStateM.Result.error.inj hrun
  exact h

theorem get : Raises E (get : PassM PassState) := nofun

theorem setField (path : Path) (v : Value) : Raises E (setField path v) := nofun

theorem reportProblem (problem : Problem) : Raises E (reportProblem problem) := nofun

theorem bind {m : PassM α} {f : α → PassM β} (hm : Raises E m) (hf : ∀ a, Raises E (f a)) :
    Raises E (m >>= f) := by
  intro s e t h
  rcases bind_error.mp h with h | ⟨a, u, -, h⟩
  · exact hm s e t h
  · exact hf a u e t h

theorem forM {f : α → PassM Unit} {xs : List α} (hf : ∀ x ∈ xs, Raises E (f x)) :
    Raises E (xs.forM f) := by
  intro s e t h
  obtain ⟨before, x, after, u, rfl, -, hx⟩ := forM_error h
  exact hf x (List.mem_append_right _ List.mem_cons_self) u e t hx

theorem definition (hschema : ∀ e, E (.schema e)) (k : FieldKind) :
    Raises E (c.definition k) := by
  unfold PassContext.definition
  split
  · exact pure _
  · exact throw (hschema _)

theorem options (hschema : ∀ e, E (.schema e)) (name : String) (d : Declaration) :
    Raises E (c.options name d) := by
  intro s e t h
  rw [PassContext.options_run] at h
  split at h
  · cases h
  · obtain ⟨rfl, -⟩ := EStateM.Result.error.inj h
    exact hschema _

theorem shapeField (path : Path) (d : Declaration) (o : Options) :
    Raises E (c.shapeField path d o) := by
  unfold PassContext.shapeField
  refine bind get fun s => ?_
  split
  · exact pure _
  · exact bind (setField _ _) fun _ => bind (forM fun _ _ => reportProblem _) fun _ => pure _

theorem sanitizePresent {descend : Path → Declaration → PassM Unit}
    (hdescend : ∀ path d, Raises E (descend path d)) (path : Path) (d : Declaration)
    (definition : Definition) (o : Options) (v : Value) :
    Raises E (c.sanitizePresent descend path d definition o v) := by
  unfold PassContext.sanitizePresent
  refine bind get fun s => bind (setField _ _) fun _ => ?_
  split
  · refine bind (shapeField _ _ _) fun valid => ?_
    split
    · exact bind get fun s => forM fun _ _ => hdescend _ _
    · exact setField _ _
  · exact pure _

/-- Sanitizing ends with no other errors than those of a schema. -/
theorem sanitize (hschema : ∀ e, E (.schema e)) (fuel : Nat) (path : Path) (d : Declaration) :
    Raises E (c.sanitize fuel path d) := by
  induction fuel generalizing path d with
  | zero => exact pure ()
  | succ fuel ih =>
    unfold PassContext.sanitize
    refine bind (definition hschema _) fun definition => bind (options hschema _ _) fun o =>
      bind get fun s => ?_
    split
    · split
      · exact sanitizePresent ih _ _ _ _ _
      · exact setField _ _
    · exact sanitizePresent ih _ _ _ _ _

theorem sanitizeRecord (hschema : ∀ e, E (.schema e)) (collection : Collection) :
    Raises E (c.sanitizeRecord collection) := by
  unfold PassContext.sanitizeRecord
  refine bind get fun s => ?_
  split
  · exact bind nofun fun _ => bind (forM fun _ _ => reportProblem _) fun _ =>
      bind (forM fun _ _ => sanitize hschema _ _ _) fun _ => pure _
  · exact bind (reportProblem _) fun _ => pure _

/-- Checking ends with an error of a schema or one that some verdict on the way stops with. -/
theorem check (hc : c.registry = .builtin) (hschema : ∀ e, E (.schema e))
    {D : Declaration → Prop} (hD : ∀ d v, ∀ m ∈ c.catalog.members d v, D d → D m.declaration)
    (hstop : ∀ path d o record v e, D d → c.verdict path d o record v = .stop e → E e)
    (fuel : Nat) (path : Path) {d : Declaration} (hd : D d) : Raises E (c.check fuel path d) := by
  induction fuel generalizing path d with
  | zero => exact pure ()
  | succ fuel ih =>
    intro s e t h
    rcases check_error hc h with ⟨err, rfl⟩ | ⟨o, v, hverdict⟩ | ⟨m, v, s', t', hm, hmember⟩
    · exact hschema err
    · exact hstop _ _ _ _ _ _ hd hverdict
    · exact ih (path ++ m.relative) (hD d v m hm hd) s' e t' hmember

end Raises

end Errors

/-! ### Judgements -/

/-- A judgement that does not end a pass. -/
def Harmless (judgement : Except FieldError Unit) : Prop :=
  ∀ e : EngineError, judgement ≠ .error (.engine e)

namespace Harmless

theorem ok : Harmless (.ok ()) := nofun

theorem message (text : String) : Harmless (.error (.message text)) := nofun

theorem query (e : QueryError) : Harmless (.error (.query e)) := nofun

theorem ensure (holds : Bool) (text : String) : Harmless (Kinds.ensure holds text) := by
  unfold Kinds.ensure
  split
  · exact ok
  · exact message text

theorem bind {m : Except FieldError Unit} {f : Unit → Except FieldError Unit} (hm : Harmless m)
    (hf : Harmless (f ())) : Harmless (m >>= f) := by
  cases m with
  | ok a => exact hf
  | error e => exact fun e' h => hm e' h

theorem countBounds (count : Nat) (options : Options) (lower upper : String)
    (tooFew tooMany : Nat → String) :
    Harmless (Kinds.countBounds count options lower upper tooFew tooMany) := by
  unfold Kinds.countBounds
  repeat' first | exact ensure _ _ | exact ok | refine bind (ensure _ _) ?_ | split

theorem checkBounds (options : Options) (x : Binary64) :
    Harmless (Kinds.checkBounds options x) := by
  unfold Kinds.checkBounds
  repeat' first | exact ensure _ _ | exact ok | refine bind (ensure _ _) ?_ | split

theorem checkRange (options : Options) (first last : Binary64) :
    Harmless (Kinds.checkRange options first last) := by
  unfold Kinds.checkRange
  refine bind (checkBounds _ _) (bind (checkBounds _ _) (bind (ensure _ _) ?_))
  extract_lets distance atMost
  have hatMost : Harmless (atMost ()) := by
    unfold atMost
    split
    · exact ensure _ _
    · exact ok
  split
  · exact bind (ensure _ _) hatMost
  · exact hatMost

theorem checkMoment (write : Int → Option String) (options : Options) (v : Value) :
    Harmless (Kinds.checkMoment write options v) := by
  unfold Kinds.checkMoment
  repeat' first | exact ensure _ _ | exact ok | refine bind (ensure _ _) ?_ | split

theorem checkChips (options : Options) (chips : List String) :
    Harmless (Kinds.checkChips options chips) := by
  unfold Kinds.checkChips
  repeat' first | exact ensure _ _ | exact ok | refine bind (ensure _ _) ?_ | split

theorem recordExistsCheck (context : FieldContext) (v : Value) :
    Harmless (Kinds.recordExistsCheck.run context v) := by
  unfold Kinds.recordExistsCheck
  simp only
  repeat' first | exact ok | exact message _ | exact query _ | split

theorem recordsExistCheck (context : FieldContext) (v : Value) :
    Harmless (Kinds.recordsExistCheck.run context v) := by
  unfold Kinds.recordsExistCheck
  simp only
  repeat' first | exact ok | exact ensure _ _ | exact query _ | split

theorem checkUnique (context : FieldContext) (v : Value) : Harmless (checkUnique context v) := by
  unfold ContentSchema.checkUnique
  simp only
  repeat' first | exact ok | exact message _ | exact query _ | split

theorem checkImmutable (context : FieldContext) (v : Value) :
    Harmless (checkImmutable context v) := by
  unfold ContentSchema.checkImmutable
  simp only
  repeat' first | exact ok | exact message _ | exact query _ | split

end Harmless

/-- No validator of a built-in kind ends a pass. -/
theorem harmless_validators (k : FieldKind) : ∀ l ∈ k.definition.validators,
    ∀ context v, Harmless (l.run context v) := by
  have hrequired : ∀ context v, Harmless (Kinds.requiredCheck.run context v) :=
    fun _ _ => .ensure _ _
  have htype : ∀ accept context v, Harmless ((Kinds.typeCheck accept).run context v) :=
    fun _ _ _ => .ensure _ _
  have hcount : ∀ context v, Harmless (Kinds.entryCountCheck.run context v) := by
    intro context v
    cases v with
    | list items => exact .countBounds _ _ _ _ _ _
    | _ => exact .ok
  -- all kinds but two begin with these checks
  have hchecks : ∀ {accept : Value → Bool} {rest : List Validator},
      (∀ l ∈ rest, ∀ context v, Harmless (l.run context v)) →
        ∀ l ∈ Kinds.requiredCheck :: Kinds.typeCheck accept :: rest,
          ∀ context v, Harmless (l.run context v) := fun hrest =>
    List.forall_mem_cons.mpr ⟨hrequired, List.forall_mem_cons.mpr ⟨htype _, hrest⟩⟩
  cases k with
  | text =>
    refine hchecks (List.forall_mem_singleton.mpr fun context v => ?_)
    cases v with
    | string s => exact .countBounds _ _ _ _ _ _
    | _ => exact .ok
  | slug =>
    refine hchecks (List.forall_mem_singleton.mpr fun context v => ?_)
    cases v with
    | string s => exact .ensure _ _
    | _ => exact .ok
  | number =>
    refine hchecks (List.forall_mem_singleton.mpr fun context v => ?_)
    cases hx : v.binary64? with
    | some x => simpa only [Kinds.check, hx] using .checkBounds _ _
    | none => simpa only [Kinds.check, hx] using .ok
  | range =>
    refine hchecks (List.forall_mem_singleton.mpr fun context v => ?_)
    cases hx : Kinds.rangeEnds? v with
    | some ends => simpa only [Kinds.check, hx] using .checkRange _ _ _
    | none => simpa only [Kinds.check, hx] using .ok
  | checkbox => exact List.forall_mem_singleton.mpr (htype _)
  | select =>
    refine List.forall_mem_cons.mpr ⟨hrequired, List.forall_mem_singleton.mpr fun context v => ?_⟩
    cases v with
    | null => exact .ok
    | string key => exact .ensure _ _
    | _ => exact .message _
  | chips =>
    refine hchecks (List.forall_mem_singleton.mpr fun context v => ?_)
    cases v with
    | list items => exact .checkChips _ _
    | _ => exact .ok
  | date | time | dateTime =>
    exact hchecks (List.forall_mem_singleton.mpr fun _ _ => .checkMoment _ _ _)
  | record => exact hchecks (List.forall_mem_singleton.mpr .recordExistsCheck)
  | records =>
    exact hchecks (List.forall_mem_cons.mpr ⟨fun _ _ => .ensure _ _,
      List.forall_mem_cons.mpr ⟨hcount, List.forall_mem_singleton.mpr .recordsExistCheck⟩⟩)
  | repeater | structured => exact hchecks (List.forall_mem_singleton.mpr hcount)
  | object | blocks => exact hchecks (List.forall_mem_nil _)

section

variable {context : FieldContext} {d : Declaration} {v : Value} {e : EngineError}

theorem runValidators_error {ls : List Validator} {err : FieldError}
    (h : runValidators context v ls = .error err) : ∃ l ∈ ls, l.run context v = .error err := by
  induction ls with
  | nil => cases h
  | cons l ls ih =>
    have hrest : runValidators context v ls = .error err →
        ∃ l' ∈ l :: ls, l'.run context v = .error err := fun h =>
      let ⟨l', hl', hrun⟩ := ih h
      ⟨l', List.mem_cons_of_mem _ hl', hrun⟩
    unfold runValidators at h
    split at h
    · split at h
      · exact hrest h
      · next hrun =>
        obtain rfl := Except.error.inj h
        exact ⟨l, List.mem_cons_self, hrun⟩
    · exact hrest h

/-- A judgement ends a pass by a validator of the declaration alone. -/
theorem validator_of_judge
    (h : judge context d.kind.definition d.additional v = .error (.engine e)) :
    ∃ l ∈ d.additional.validators, l.run context v = .error (.engine e) := by
  unfold judge at h
  cases hrun : runValidators context v
      (d.kind.definition.validators ++ d.additional.validators) with
  | error err =>
    rw [hrun] at h
    obtain rfl : err = .engine e := Except.error.inj h
    obtain ⟨l, hl, hl'⟩ := runValidators_error hrun
    rcases List.mem_append.mp hl with hl | hl
    · exact (harmless_validators d.kind l hl context v e hl').elim
    · exact ⟨l, hl, hl'⟩
  | ok =>
    have himmutable : Harmless (if d.additional.immutable && context.operation == .update then
        checkImmutable context v else pure ()) := by
      split
      · exact .checkImmutable context v
      · exact .ok
    rw [hrun] at h
    refine absurd h (Harmless.bind .ok ?_ e)
    simp only
    split
    · exact .bind (.checkUnique context v) himmutable
    · exact himmutable

theorem Verdict.ofJudgement_stop {fallback : Value} {judgement : Except FieldError Unit}
    (h : Verdict.ofJudgement fallback judgement = .stop e) : judgement = .error (.engine e) := by
  cases judgement with
  | ok => cases h
  | error err =>
    cases err with
    | engine err =>
      obtain rfl := Verdict.stop.inj h
      rfl
    | _ => cases h

/-- A pass ends at a field by a reference of its conditions or by one of its own validators. -/
theorem verdict_stop {c : PassContext} {path : Path} {o : Options} {record : Value}
    (h : c.verdict path d o record v = .stop e) :
    (∃ l err, d.additional.logic = some l ∧ l.matches? record path = .error err ∧
        e = .logic err) ∨
      ∃ l ∈ d.additional.validators, ∃ context, l.run context v = .error (.engine e) := by
  have hjudge : ∀ context, Verdict.ofJudgement (d.kind.definition.default o)
      (judge context d.kind.definition d.additional v) = .stop e →
        ∃ l ∈ d.additional.validators, ∃ context, l.run context v = .error (.engine e) := by
    intro context h
    obtain ⟨l, hl, hrun⟩ := validator_of_judge (Verdict.ofJudgement_stop h)
    exact ⟨l, hl, context, hrun⟩
  cases hl : d.additional.logic with
  | none =>
    unfold PassContext.verdict at h
    simp only [hl] at h
    exact .inr (hjudge _ h)
  | some l =>
    rw [verdict_logic hl] at h
    split at h
    · next err hmatch =>
      obtain rfl := Verdict.stop.inj h
      exact .inl ⟨l, err, rfl, hmatch, rfl⟩
    · cases h
    · exact .inr (hjudge _ h)

end

/-! ### References -/

/-- A reference to a member of the record from anywhere in it. -/
theorem Path.resolve_slash (p : Path) {name : String} (hname : name ≠ "")
    (hdot : '.' ∉ name.toList) (hslash : '/' ∉ name.toList) :
    p.resolve ("/" ++ name) = root.child name := by
  have hlist : ("/" ++ name).toList = '/' :: name.toList := by
    rw [String.toList_append]
    rfl
  have hstep : step [] name = [name] := by
    have hdots : name ≠ "." ∧ name ≠ ".." := by
      constructor <;>
      · rintro rfl
        exact hdot (by decide)
    unfold step
    rw [if_neg (not_or.mpr ⟨hname, hdots.1⟩), if_neg hdots.2, List.nil_append, pieces,
      Text.split_of_not_mem hdot, List.filter_singleton, decide_eq_true hname]
    rfl
  unfold resolve
  rw [hlist]
  simp only
  rw [String.ofList_toList, Text.split_of_not_mem hslash]
  exact congrArg Path.mk hstep

namespace Logic

variable {r : Value} {path : Path} {err : LogicError}

theorem testsHold_error {tests : List (String × Condition)}
    (h : testsHold r path tests = .error err) :
    ∃ ref ∈ tests.map (·.1), (path.resolve ref).lookup r = none ∧
      err = .missingDependency path.text ref (path.resolve ref).text := by
  induction tests with
  | nil => cases h
  | cons test rest ih =>
    obtain ⟨ref, condition⟩ := test
    unfold testsHold at h
    simp only at h
    split at h
    · next hnone => exact ⟨ref, List.mem_cons_self, hnone, (Except.error.inj h).symm⟩
    · split at h
      · obtain ⟨ref', href', hnone⟩ := ih h
        exact ⟨ref', List.mem_cons_of_mem _ href', hnone⟩
      · cases h

mutual

/-- Logic that has no answer names one of its references, which leads nowhere. -/
theorem matches?_error : (l : Logic) → l.matches? r path = .error err →
    ∃ ref ∈ l.references, (path.resolve ref).lookup r = none ∧
      err = .missingDependency path.text ref (path.resolve ref).text
  | .all branches, h => by
    rw [matches?] at h
    exact allMatch_error branches h
  | .any branches, h => by
    rw [matches?] at h
    exact anyMatches_error branches h
  | .conditions tests, h => by
    rw [matches?] at h
    exact testsHold_error h

theorem allMatch_error : (ls : List Logic) → allMatch r path ls = .error err →
    ∃ ref ∈ referencesOf ls, (path.resolve ref).lookup r = none ∧
      err = .missingDependency path.text ref (path.resolve ref).text
  | [], h => by
    rw [allMatch] at h
    cases h
  | l :: ls, h => by
    have here := matches?_error l
    have rest := allMatch_error ls
    rw [allMatch] at h
    split at h
    · next hl =>
      obtain rfl := Except.error.inj h
      obtain ⟨ref, href, hnone⟩ := here hl
      exact ⟨ref, List.mem_append_left _ href, hnone⟩
    · cases h
    · obtain ⟨ref, href, hnone⟩ := rest h
      exact ⟨ref, List.mem_append_right _ href, hnone⟩

theorem anyMatches_error : (ls : List Logic) → anyMatches r path ls = .error err →
    ∃ ref ∈ referencesOf ls, (path.resolve ref).lookup r = none ∧
      err = .missingDependency path.text ref (path.resolve ref).text
  | [], h => by
    rw [anyMatches] at h
    cases h
  | l :: ls, h => by
    have here := matches?_error l
    have rest := anyMatches_error ls
    rw [anyMatches] at h
    split at h
    · next hl =>
      obtain rfl := Except.error.inj h
      obtain ⟨ref, href, hnone⟩ := here hl
      exact ⟨ref, List.mem_append_left _ href, hnone⟩
    · cases h
    · obtain ⟨ref, href, hnone⟩ := rest h
      exact ⟨ref, List.mem_append_right _ href, hnone⟩

end

end Logic

/-- A reference to a declared field, by its name behind a slash. -/
structure Collection.Refers (collection : Collection) (reference name : String) : Prop where
  slash : reference = "/" ++ name
  nonempty : name ≠ ""
  dotFree : '.' ∉ name.toList
  slashFree : '/' ∉ name.toList
  declared : collection.declares name = true

/-- Wherever it stands, such a reference leads to the field. -/
theorem Collection.Refers.resolve {collection : Collection} {ref name : String}
    (h : collection.Refers ref name) (p : Path) : p.resolve ref = Path.root.child name := by
  rw [h.slash]
  exact p.resolve_slash h.nonempty h.dotFree h.slashFree

/-- Conditions stand at the fields of a collection alone and refer to its fields, and no validator
pretends that a reference leads nowhere. -/
structure Catalog.WellConditioned (c : Catalog) (collection : Collection) : Prop where
  refers : ∀ f ∈ collection.fields, ∀ l, f.2.additional.logic = some l →
    ∀ ref ∈ l.references, ∃ name, collection.Refers ref name
  nested : ∀ f ∈ collection.fields, ∀ d, c.Nested f.2 d → d.additional.logic = none
  validators : ∀ f ∈ collection.fields, ∀ d, d = f.2 ∨ c.Nested f.2 d →
    ∀ l ∈ d.additional.validators, ∀ context v field ref resolved,
      l.run context v ≠ .error (.engine (.logic (.missingDependency field ref resolved)))

/-! ### Records -/

section Records

variable {c : PassContext} {collection : Collection} {s s' : PassState} {key : String}

/-- In an update the first pass gives no value to a field that has none. -/
theorem sanitizeRecord_absent (hc : c.registry = .builtin) (hop : c.operation = .update)
    (h : c.sanitizeRecord collection s = .ok true s') (hs : s.record.get? key = none) :
    s'.record.get? key = none := by
  obtain ⟨-, hloop⟩ := sanitizeRecord_loop h
  have hpruned : (s.pruned collection).record.get? key = none := by
    rw [get?_pruned, hs, ite_self]
  refine forM_framed (P := fun s => s.record.get? key = none)
    (fun x => confined_sanitize hc _ x.1 x.2) (fun x hx => ?_) hpruned hloop
  obtain ⟨name, -, hpath⟩ := PassContext.mem_fieldsFor hx
  refine ⟨name, hpath, .get? ?_ none⟩
  rintro rfl
  have hsome := PassContext.isSome_of_mem_fieldsFor hop hx
  rw [hpath, lookup_object rfl, hpruned] at hsome
  cases hsome

/-- The first pass leaves a value at every declared field, unless an update lacks it. -/
theorem sanitizeRecord_declared (hc : c.registry = .builtin)
    (h : c.sanitizeRecord collection s = .ok true s') (hkey : collection.declares key = true)
    (hs : c.operation ≠ .update ∨ (s.record.get? key).isSome = true) :
    (s'.record.get? key).isSome = true := by
  rcases hs with hop | hs
  · obtain ⟨d, hd⟩ := Entries.contains_iff.mp hkey
    refine (sanitizeRecord_fields hc h).2 key d (List.mem_filter.mpr
      ⟨List.mem_map.mpr ⟨(key, d), Entries.mem_of_get? hd, rfl⟩, ?_⟩)
    simp [hop]
  · refine sanitizeRecord_keeps hc h ?_ hs
    unfold PassContext.ownKey
    rw [hkey, Bool.or_true]

/-- The second pass takes no value away. -/
theorem present_of_checks (hc : c.registry = .builtin) {xs : List (Path × Declaration)}
    {r : Value} (hxs : ∀ x ∈ xs, ∃ name, x.1 = Path.root.child name)
    (hobject : s.record.isObject = true) (hs : (s.record.get? key).isSome = true)
    (h : xs.forM (fun x => c.check (PassContext.fuelAt r x.1) x.1 x.2) s = .ok () s') :
    ((Path.root.child key).lookup s'.record).isSome = true := by
  obtain ⟨hobject', hs'⟩ := forM_framed (P := fun s => s.record.isObject = true ∧
    (s.record.get? key).isSome = true) (fun x => confined_check hc _ x.1 x.2)
    (fun x hx => let ⟨name, hpath⟩ := hxs x hx; ⟨name, hpath, .present key name⟩) ⟨hobject, hs⟩ h
  rw [lookup_object hobject']
  exact hs'

/-- The second pass fails at a field whose conditions refer to one that has no value. -/
theorem checkRecord_missing (hc : c.registry = .builtin)
    (hconditioned : c.catalog.WellConditioned collection) (hobject : s.record.isObject = true)
    {field ref resolved : String}
    (h : c.checkRecord collection s = .error (.logic (.missingDependency field ref resolved)) s') :
    ∃ d l, (Path.root.child field, d) ∈ c.fieldsFor collection s.record ∧
      (field, d) ∈ collection.fields ∧ d.additional.logic = some l ∧ ref ∈ l.references ∧
      collection.Refers ref resolved ∧ (s.record.get? resolved).isSome = false := by
  rw [PassContext.checkRecord_run] at h
  obtain ⟨before, ⟨path, d⟩, after, t, hlist, hbefore, hhere⟩ := forM_error h
  have hmem : (path, d) ∈ c.fieldsFor collection s.record := by
    rw [hlist]
    exact List.mem_append_right _ List.mem_cons_self
  obtain ⟨name, hname, hpath⟩ := PassContext.mem_fieldsFor hmem
  obtain rfl : path = Path.root.child name := hpath
  change c.check (_ + 1) (Path.root.child name) d t = _ at hhere
  have hquiet : ∀ d', d' = d ∨ c.catalog.Nested d d' → ∀ l ∈ d'.additional.validators,
      ∀ context v, l.run context v ≠
        .error (.engine (.logic (.missingDependency field ref resolved))) :=
    fun d' hd' l hl context v => hconditioned.validators _ hname d' hd' l hl context v _ _ _
  rcases check_error hc hhere with ⟨err, herr⟩ | ⟨o, v, hverdict⟩ | ⟨m, v, s₁, t₁, hm, hmember⟩
  · cases herr
  · rcases verdict_stop hverdict with ⟨l, err, hl, hmatch, herr⟩ | ⟨l, hl, context, hrun⟩
    · obtain rfl := EngineError.logic.inj herr
      obtain ⟨ref', href, hnone, hmissing⟩ := l.matches?_error hmatch
      obtain ⟨other, hother⟩ := hconditioned.refers _ hname l hl ref' href
      rw [hother.resolve] at hnone hmissing
      obtain ⟨rfl, rfl, rfl⟩ := LogicError.missingDependency.inj hmissing
      refine ⟨d, l, hmem, hname, hl, href, hother, Bool.eq_false_iff.mpr fun hsome => ?_⟩
      have hpresent := present_of_checks hc (fun x hx =>
        let ⟨name, _, hpath⟩ := PassContext.mem_fieldsFor (hlist ▸ List.mem_append_left _ hx)
        ⟨name, hpath⟩) hobject hsome hbefore
      rw [hnone] at hpresent
      cases hpresent
    · exact (hquiet d (.inl rfl) l hl context v hrun).elim
  · -- nothing below the field has conditions
    refine absurd rfl (Raises.check (E := fun err => err ≠ .logic (.missingDependency field ref
      resolved)) hc nofun (D := c.catalog.Nested d) (fun d' v m hm hd' => hd'.deeper hm) ?_ _ _
      (.member hm) _ _ _ hmember)
    rintro path d' o record v err hd' hverdict rfl
    rcases verdict_stop hverdict with ⟨l, -, hl, -, -⟩ | ⟨l, hl, context, hrun⟩
    · rw [hconditioned.nested _ hname d' hd'] at hl
      cases hl
    · exact hquiet d' (.inr hd') l hl context v hrun

end Records

namespace Engine

variable {e : Engine} {name : String} {collection : Collection}

/-- An engine error ends one of the two passes. -/
theorem processRecord_error (hcol : e.catalog.collection? name = some collection) {record : Value}
    {operation : Operation} {batch : List Value} {err : EngineError}
    (h : (e.processRecord name record operation batch).result = .error err) :
    let c := e.passContext operation name batch
    let start : PassState := ⟨record, .empty, e.cache⟩
    (∃ s, c.sanitizeRecord collection start = .error err s) ∨
      ∃ s s', c.sanitizeRecord collection start = .ok true s ∧
        c.checkRecord collection s = .error err s' := by
  intro c start
  obtain ⟨pass, hpass⟩ : ∃ pass : PassM Unit, pass = (do
    if ← c.sanitizeRecord collection then c.checkRecord collection) := ⟨_, rfl⟩
  rw [processRecord_run hcol, ← hpass] at h
  unfold processed runPass at h
  cases hrun : pass ⟨record, .empty, e.cache⟩ with
  | ok a s =>
    simp only [hrun] at h
    cases h
  | error err' s' =>
    simp only [hrun] at h
    obtain rfl := Except.error.inj h
    rw [hpass] at hrun
    rcases bind_error.mp hrun with hfirst | ⟨accepted, s, hfirst, hsecond⟩
    · exact .inl ⟨s', hfirst⟩
    · cases accepted with
      | true => exact .inr ⟨s, s', hfirst, hsecond⟩
      | false => cases hsecond

/-- With conditions on declared fields alone, and only at the fields of the collection, a reference
leads nowhere in no operation but an update, and there only from a field that the record has to one
that it lacks. -/
theorem processRecord_missing (hreg : e.registry = .builtin)
    (hcol : e.catalog.collection? name = some collection)
    (hconditioned : e.catalog.WellConditioned collection) {record : Value} {operation : Operation}
    {batch : List Value} {field ref resolved : String}
    (h : (e.processRecord name record operation batch).result =
      .error (.logic (.missingDependency field ref resolved))) :
    operation = .update ∧ (record.get? field).isSome = true ∧ record.get? resolved = none ∧
      collection.Refers ref resolved ∧
      ∃ d l, (field, d) ∈ collection.fields ∧ d.additional.logic = some l ∧
        ref ∈ l.references := by
  rcases processRecord_error hcol h with ⟨s, hfirst⟩ | ⟨s, s', hfirst, hsecond⟩
  · -- the first pass ends with errors of a schema only
    obtain ⟨err, herr⟩ := Raises.sanitizeRecord (E := fun e => ∃ err, e = .schema err)
      (fun err => ⟨err, rfl⟩) collection _ _ _ hfirst
    cases herr
  · obtain ⟨c, hctx⟩ : ∃ c, c = e.passContext operation name batch := ⟨_, rfl⟩
    have hc : c.registry = .builtin := hctx ▸ hreg
    have hcat : c.catalog.WellConditioned collection := hctx ▸ hconditioned
    rw [← hctx] at hfirst hsecond
    obtain ⟨hobject, -⟩ := sanitizeRecord_fields hc hfirst
    obtain ⟨d, l, hmem, hd, hl, href, hrefers, hlacks⟩ :=
      checkRecord_missing hc hcat hobject hsecond
    have hdeclared := mt (sanitizeRecord_declared hc hfirst hrefers.declared)
      (Bool.not_eq_true _ ▸ hlacks)
    obtain ⟨hupdate, hrecord⟩ := not_or.mp hdeclared
    have hop : c.operation = .update := not_not.mp hupdate
    have hoperation : c.operation = operation := by rw [hctx]; rfl
    refine ⟨hoperation.symm.trans hop, ?_, Option.not_isSome_iff_eq_none.mp hrecord, hrefers, d, l,
      hd, hl, href⟩
    by_contra hfield
    have habsent := sanitizeRecord_absent hc hop hfirst (Option.not_isSome_iff_eq_none.mp hfield)
    have hpresent := PassContext.isSome_of_mem_fieldsFor hop hmem
    rw [lookup_object hobject, habsent] at hpresent
    cases hpresent

end Engine

/-! ### Instances -/

/-- Links to other sites have an address. -/
def externalOnly : Logic := .conditions [("/kind", .literal (.string "external"))]

def links : Collection where
  name := "links"
  fields := [("kind", .ofKind .text), ("url", (Declaration.ofKind .text).conditional externalOnly)]

def linksCatalog : Catalog := ⟨[("links", links)], []⟩

theorem wellConditioned_links : linksCatalog.WellConditioned links where
  refers f hf l hl ref href := by
    rcases List.mem_cons.mp hf with rfl | hf
    · cases hl
    · obtain rfl := List.mem_singleton.mp hf
      obtain rfl := Option.some.inj hl
      obtain rfl := List.mem_singleton.mp href
      exact ⟨"kind", rfl, by decide, by decide, by decide, rfl⟩
  nested f hf d hd := by
    rcases List.mem_cons.mp hf with rfl | hf
    · cases hd.composite
    · obtain rfl := List.mem_singleton.mp hf
      cases hd.composite
  validators f hf d hd l hl := by
    have hnone : ∀ f ∈ links.fields, f.2.kind.isComposite = false ∧
        f.2.additional.validators = [] := by
      refine List.forall_mem_cons.mpr ⟨⟨rfl, rfl⟩, List.forall_mem_singleton.mpr ⟨rfl, rfl⟩⟩
    obtain ⟨hkind, hvalidators⟩ := hnone f hf
    rcases hd with rfl | hd
    · rw [hvalidators] at hl
      cases hl
    · rw [hd.composite] at hkind
      cases hkind

/-- An update of the address alone. -/
def addressUpdate : Value := .object [("url", .string "x")]

theorem processRecord_missing_links :
    let e := Engine.ofCatalog linksCatalog
    (e.processRecord "links" addressUpdate .update []).result =
        .error (.logic (.missingDependency "url" "/kind" "kind")) ∧
      Operation.update = .update ∧ (addressUpdate.get? "url").isSome = true ∧
      addressUpdate.get? "kind" = none ∧ links.Refers "/kind" "kind" ∧
      ∃ d l, ("url", d) ∈ links.fields ∧ d.additional.logic = some l ∧
        "/kind" ∈ l.references := by
  intro e
  have hresult : (e.processRecord "links" addressUpdate .update []).result =
    .error (.logic (.missingDependency "url" "/kind" "kind")) := rfl
  exact ⟨hresult, Engine.processRecord_missing rfl rfl wellConditioned_links hresult⟩

/-- A validator that speaks of conditions. -/
def complaining : Validator where
  run _ _ := .error (.engine (.logic (.missingDependency "url" "/kind" "kind")))

/-- Addresses without conditions, and a validator that pretends there are some. -/
def addresses : Collection where
  name := "addresses"
  fields := [("url", { kind := .text, additional := { validators := [complaining] } })]

/-- An update that lacks a field whose value others depend on ends with an engine error, and so does
any operation when a validator makes one up. -/
theorem processRecord_missing_update :
    linksCatalog.WellConditioned links ∧
      ((Engine.ofCatalog linksCatalog).processRecord "links" addressUpdate .update []).result =
        .error (.logic (.missingDependency "url" "/kind" "kind")) ∧
      (∀ f ∈ addresses.fields, f.2.additional.logic = none) ∧
      ((Engine.ofCatalog ⟨[("addresses", addresses)], []⟩).processRecord "addresses"
        addressUpdate .create []).result =
          .error (.logic (.missingDependency "url" "/kind" "kind")) :=
  ⟨wellConditioned_links, rfl, List.forall_mem_singleton.mpr rfl, rfl⟩

end ContentSchema
