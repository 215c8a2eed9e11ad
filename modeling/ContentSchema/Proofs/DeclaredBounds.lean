import ContentSchema.Proofs.Stages

/-!
# Declared bounds — what a number among the bounds of a field does

An option that bounds the length of a text, the number of entries or a moment holds a number or
nothing (`number_or_null`).  The checks compare with the bound only when they can read it: a natural
integer for counts, a signed integer for moments.  A bound that is read is respected exactly by
every accepted value; any other, such as `2.5`, `3.0` or an upper count `-1`, changes no judgement
(`bounds_judged`).  Values and bounds are compared by their exact values, in units of `2 ^ (-1074)`.
-/

namespace ContentSchema

/-! ### Bounds and what they measure -/

/-- The exact value in units of `2 ^ (-1074)`. -/
def Number.exact : Number → Int
  | .integer i _ => i * Binary64.one
  | .real x => x.scaled

/-- What a bound is compared with: the characters of a text, the entries of a list, a whole
number. -/
def Value.measure? : Value → Option Int
  | .string s => some s.length
  | .list items => some items.length
  | .number (.integer i _) => some i
  | _ => none

/-- Whether a bound is the least or the greatest quantity. -/
inductive Side
  | least
  | most
deriving DecidableEq

/-- A quantity is on the right side of a bound. -/
def Side.Holds : Side → Int → Int → Prop
  | .least, bound, quantity => bound ≤ quantity
  | .most, bound, quantity => quantity ≤ bound

/-- The quantities that bounds are set for. -/
inductive Scale
  /-- A number of characters or entries. -/
  | count
  /-- Milliseconds from a fixed moment. -/
  | moment
deriving DecidableEq

namespace Scale

/-- The integer that a bound stands for, if the checks of the scale can read it. -/
def read? : Scale → Number → Option Int
  | .count, n => n.natural?.map Int.ofNat
  | .moment, n => n.signed?

/-- The quantities that occur on a scale. -/
def Measures : Scale → Int → Prop
  | .count, m => 0 ≤ m
  | .moment, m => minSigned ≤ m ∧ m < signedEnd

end Scale

/-- An option that bounds the values of a field. -/
structure Bound where
  option : String
  side : Side
  scale : Scale
deriving DecidableEq

namespace Bound

/-- A quantity is within a bound, by exact values. -/
def Respected (b : Bound) (n : Number) (m : Int) : Prop := b.side.Holds n.exact (m * Binary64.one)

/-- Every quantity of the scale is within the bound. -/
def Idle (b : Bound) (n : Number) : Prop := ∀ m, b.scale.Measures m → b.Respected n m

/-- A quantity is within what can be read of the bound among the options. -/
def Allows (b : Bound) (o : Options) (m : Int) : Prop :=
  ∀ i, (o.get b.option).number?.bind b.scale.read? = some i → b.side.Holds i m

end Bound

/-- The bounds of a kind that are read as integers. -/
def FieldKind.bounds : FieldKind → List Bound
  | .text => [⟨"min-length", .least, .count⟩, ⟨"max-length", .most, .count⟩]
  | .chips => [⟨"max-items", .most, .count⟩]
  | .repeater | .structured | .records => [⟨"min", .least, .count⟩, ⟨"max", .most, .count⟩]
  | .date | .time | .dateTime => [⟨"min", .least, .moment⟩, ⟨"max", .most, .moment⟩]
  | _ => []

theorem Number.exact_of_read {scale : Scale} {n : Number} {i : Int} (h : scale.read? n = some i) :
    n.exact = i * Binary64.one := by
  cases n with
  | real x => cases scale <;> cases h
  | integer j bounded =>
    have hij : i = j := by
      cases scale with
      | count =>
        simp only [Scale.read?, Number.natural?] at h
        split at h
        · simp only [Option.map_some, Option.some.injEq, Int.ofNat_eq_natCast] at h
          omega
        · cases h
      | moment =>
        simp only [Scale.read?, Number.signed?] at h
        split at h
        · exact (Option.some.inj h).symm
        · cases h
    rw [hij]
    rfl

theorem Side.holds_units {side : Side} {i m : Int} :
    side.Holds (i * Binary64.one) (m * Binary64.one) ↔ side.Holds i m := by
  have hone : (0 : Int) < Binary64.one := Int.natCast_pos.mpr (powTwo_pos 1074)
  cases side with
  | least => exact Int.mul_le_mul_right hone
  | most => exact Int.mul_le_mul_right hone

/-- What is read of a bound is its exact value. -/
theorem Bound.respected_of_read {b : Bound} {n : Number} {i m : Int}
    (h : b.scale.read? n = some i) : b.Respected n m ↔ b.side.Holds i m := by
  unfold Bound.Respected
  rw [Number.exact_of_read h]
  exact Side.holds_units

/-! ### Options of the right type -/

namespace Definition

/-- Option values have the types of their options. -/
def Types (d : Definition) (values : Entries Value) : Prop :=
  ∀ e ∈ values, ∃ spec, (e.1, spec) ∈ d.options ∧ spec.kind.accepts e.2 = true

theorem Types.insert {d : Definition} {values : Entries Value} (h : d.Types values)
    {option : String} {spec : OptionSpec} (hspec : (option, spec) ∈ d.options) {value : Value}
    (hvalue : spec.kind.accepts value = true) : d.Types (values.insert option value) := by
  intro e he
  rcases Entries.mem_insert he with rfl | he
  · exact ⟨spec, hspec, hvalue⟩
  · exact h e he

theorem types_resolveRest {d : Definition} {name : String} {supplied : Entries Value}
    (hdefault : ∀ e ∈ d.options, ∀ resolved name,
      e.2.kind.accepts (e.2.default resolved name) = true)
    {specs : List (String × OptionSpec)} {resolved values : Entries Value}
    (hspecs : ∀ e ∈ specs, e ∈ d.options) (hresolved : d.Types resolved)
    (h : d.resolveRest name supplied specs resolved = .ok values) : d.Types values := by
  induction specs generalizing resolved with
  | nil =>
    rw [← Except.ok.inj h]
    exact hresolved
  | cons e specs ih =>
    obtain ⟨option, spec⟩ := e
    have hmem := hspecs _ List.mem_cons_self
    have hrest := fun e he => hspecs e (List.mem_cons_of_mem _ he)
    unfold Definition.resolveRest at h
    split at h
    · split at h
      · next haccepts => exact ih hrest (hresolved.insert hmem haccepts) h
      · cases h
    · split at h
      · cases h
      · exact ih hrest (hresolved.insert hmem (hdefault _ hmem resolved name)) h

end Definition

/-- The greatest distance of a range is computed from its ends. -/
theorem Kinds.accepts_maxRange (resolved : Entries Value) :
    OptionKind.number.accepts
      (match Kinds.earlierNumber? resolved "min", Kinds.earlierNumber? resolved "max" with
      | some least, some most => Kinds.valueOf (most.sub least)
      | _, _ => .null) = true := by
  split
  · next least most _ _ => cases most.sub least <;> rfl
  · rfl

/-- Every default of a built-in kind has the type of its option. -/
theorem accepts_default (k : FieldKind) : ∀ e ∈ k.definition.options, ∀ resolved name,
    e.2.kind.accepts (e.2.default resolved name) = true := by
  cases k <;>
    · intro e he
      change e ∈ List.cons _ _ at he
      repeat
        rcases List.mem_cons.mp he with rfl | he
        · intro resolved name
          first
            | rfl
            | exact Kinds.accepts_maxRange resolved
      cases he

theorem Declaration.Resolves.types {d : Declaration} (h : d.Resolves) :
    d.kind.definition.Types d.values := by
  obtain ⟨values, hv⟩ := h
  rw [Declaration.values_of_resolveValues hv]
  unfold Definition.resolveValues at hv
  split at hv
  · cases hv
  · exact Definition.types_resolveRest (accepts_default d.kind) (fun _ he => he)
      (fun _ he => (List.not_mem_nil he).elim) hv

/-- The options that bound values are for numbers. -/
theorem number_bound {k : FieldKind} {b : Bound} (hb : b ∈ k.bounds) {spec : OptionSpec}
    (hspec : (b.option, spec) ∈ k.definition.options) : spec.kind = .number := by
  have hall : ∀ b ∈ k.bounds, ∀ e ∈ k.definition.options, e.1 = b.option → e.2.kind = .number := by
    cases k <;> decide
  exact hall b hb _ hspec rfl

/-- A bound that resolves is unset or a number. -/
theorem number_or_null {name : String} {d : Declaration} {o : Options}
    (h : Registry.builtin.resolve name d = .ok o) {b : Bound} (hb : b ∈ d.kind.bounds) :
    o.get b.option = .null ∨ ∃ n, o.get b.option = .number n := by
  obtain ⟨hresolves, hvalues⟩ := values_of_resolve h
  unfold Options.get
  rw [hvalues]
  cases hget : Entries.get? b.option d.values with
  | none => exact .inl rfl
  | some v =>
    obtain ⟨spec, hspec, haccepts⟩ := hresolves.types _ (Entries.mem_of_get? hget)
    rw [number_bound hb hspec] at haccepts
    cases v with
    | null => exact .inl rfl
    | number n => exact .inr ⟨n, rfl⟩
    | _ => cases haccepts

/-! ### Unset options -/

/-- The options with one of them unset. -/
def Options.unset (o : Options) (name : String) : Options :=
  { o with values := Entries.insert name .null o.values }

/-- The context with one option unset. -/
def FieldContext.unset (context : FieldContext) (name : String) : FieldContext :=
  { context with options := context.options.unset name }

@[simp] theorem Options.get_unset_self (o : Options) (name : String) :
    (o.unset name).get name = .null := by
  unfold Options.get Options.unset
  rw [Entries.get?_insert_self]
  rfl

theorem Options.get_unset_of_ne (o : Options) {name other : String} (h : name ≠ other) :
    (o.unset name).get other = o.get other := by
  unfold Options.get Options.unset
  rw [Entries.get?_insert_of_ne h]

namespace Bound

theorem allows_of_number {b : Bound} {o : Options} {n : Number} {m : Int}
    (h : o.get b.option = .number n) :
    b.Allows o m ↔ ((b.scale.read? n).isSome → b.Respected n m) := by
  unfold Bound.Allows
  rw [h]
  change (∀ i, b.scale.read? n = some i → _) ↔ _
  cases hread : b.scale.read? n with
  | none => simp
  | some i => simp [b.respected_of_read hread]

/-- Nothing is read of an option that is unset. -/
theorem allows_unset_self (b : Bound) (o : Options) (m : Int) :
    b.Allows (o.unset b.option) m := by
  intro i hi
  rw [Options.get_unset_self] at hi
  cases hi

theorem allows_unset_of_ne {b : Bound} {option : String} (h : option ≠ b.option) (o : Options)
    (m : Int) : b.Allows (o.unset option) m ↔ b.Allows o m := by
  unfold Bound.Allows
  rw [Options.get_unset_of_ne o h]

end Bound

namespace Kinds

/-! ### Checks with and without a bound -/

/-- A check that does not look at an option. -/
def Blind (option : String) (l : Validator) : Prop :=
  ∀ (context : FieldContext) (v : Value), l.run (context.unset option) v = l.run context v

/-- A check that lets the values of a type pass that it lets pass without the bound and that are
within it. -/
def Enforces (accept : Value → Bool) (b : Bound) (l : Validator) : Prop :=
  ∀ (context : FieldContext) (v : Value), v = .null ∨ accept v = true →
    (l.run context v = .ok () ↔ l.run (context.unset b.option) v = .ok () ∧
      ∀ m, v.measure? = some m → b.Allows context.options m)

theorem blind_requiredCheck {option : String} (h : option ≠ "required") :
    Blind option requiredCheck := by
  intro context v
  change ensure (!((context.options.unset option).flag "required" && _)) _ = ensure _ _
  unfold Options.flag
  rw [Options.get_unset_of_ne _ h]

theorem blind_recordsExistCheck {option : String} (h : option ≠ "collection") :
    Blind option recordsExistCheck := by
  intro context v
  have hquery : relatedQuery? context.source (context.options.unset option) =
      relatedQuery? context.source context.options := by
    unfold relatedQuery? Options.string?
    rw [Options.get_unset_of_ne _ h]
  simp only [recordsExistCheck, FieldContext.unset, hquery]

theorem ensure_bind_ok {holds : Bool} {message : String} {rest : Except FieldError Unit} :
    (ensure holds message >>= fun _ => rest) = .ok () ↔ holds = true ∧ rest = .ok () := by
  cases holds <;> simp [ensure, bind, Except.bind]

theorem allows_count {option : String} {side : Side} {o : Options} {m : Int} :
    (⟨option, side, .count⟩ : Bound).Allows o m ↔
      ∀ k : Nat, o.count? option = some k → side.Holds k m := by
  unfold Bound.Allows Options.count?
  cases (o.get option).number? with
  | none => simp
  | some n => simp [Scale.read?]

/-- The bounds of a count pass exactly the counts that both allow. -/
theorem countBounds_ok {count : Nat} {o : Options} {lower upper : String}
    {tooFew tooMany : Nat → String} :
    countBounds count o lower upper tooFew tooMany = .ok () ↔
      (⟨lower, .least, .count⟩ : Bound).Allows o count ∧
        (⟨upper, .most, .count⟩ : Bound).Allows o count := by
  simp only [allows_count, Side.Holds]
  unfold countBounds
  cases o.count? lower with
  | none =>
    cases o.count? upper with
    | none => simp [pure, Except.pure]
    | some most => simp [ensure_ok]
  | some least =>
    cases o.count? upper with
    | none => simp [ensure_bind_ok, pure, Except.pure]
    | some most => simp [ensure_bind_ok, ensure_ok]

/-- A check of several bounds enforces each of them, if what else it asks does not depend on it. -/
theorem enforces_of_ok {accept : Value → Bool} {l : Validator} (bs : List Bound)
    (rest : FieldContext → Value → Prop)
    (hok : ∀ context v, v = .null ∨ accept v = true → (l.run context v = .ok () ↔
      rest context v ∧ ∀ b ∈ bs, ∀ m, v.measure? = some m → b.Allows context.options m))
    (hapart : ∀ b ∈ bs, ∀ c ∈ bs, b.option = c.option → b = c) {b : Bound} (hb : b ∈ bs)
    (hrest : ∀ context v, rest (context.unset b.option) v ↔ rest context v) :
    Enforces accept b l := by
  intro context v hv
  have hunset : (∀ c ∈ bs, ∀ m, v.measure? = some m → c.Allows (context.unset b.option).options m) ↔
      ∀ c ∈ bs, c ≠ b → ∀ m, v.measure? = some m → c.Allows context.options m := by
    refine forall₂_congr fun c hc => ?_
    by_cases hcb : c = b
    · subst hcb
      exact ⟨fun _ h => (h rfl).elim, fun _ m _ => c.allows_unset_self context.options m⟩
    · have hne : b.option ≠ c.option := fun h => hcb (hapart b hb c hc h).symm
      simp only [hcb, ne_eq, not_false_eq_true, forall_const]
      exact forall₂_congr fun m _ => Bound.allows_unset_of_ne hne context.options m
  rw [hok context v hv, hok _ v hv, hrest, hunset, and_assoc]
  refine and_congr_right fun _ => ⟨fun h => ⟨fun c hc _ => h c hc, h b hb⟩, ?_⟩
  rintro ⟨hothers, hself⟩ c hc
  by_cases hcb : c = b
  · exact hcb ▸ hself
  · exact hothers c hc hcb

theorem enforces_lengthCheck {b : Bound} (hb : b ∈ FieldKind.text.bounds) :
    Enforces Value.isString b lengthCheck := by
  refine enforces_of_ok FieldKind.text.bounds (fun _ _ => True) ?_ (by decide) hb
    fun _ _ => Iff.rfl
  rintro context v (rfl | hv)
  · simp [lengthCheck, check, Value.measure?]
  · cases v with
    | string s =>
      change countBounds _ _ _ _ _ _ = _ ↔ _
      rw [countBounds_ok]
      simp [FieldKind.bounds, Value.measure?]
    | _ => cases hv

/-- What has entries to count is a list. -/
theorem enforces_entryCountCheck {accept : Value → Bool}
    (haccept : ∀ v, accept v = true → v.isList = true) {b : Bound}
    (hb : b ∈ FieldKind.repeater.bounds) : Enforces accept b entryCountCheck := by
  refine enforces_of_ok FieldKind.repeater.bounds (fun _ _ => True) ?_ (by decide) hb
    fun _ _ => Iff.rfl
  rintro context v (rfl | hv)
  · simp [entryCountCheck, check, Value.measure?]
  · cases v with
    | list items =>
      change countBounds _ _ _ _ _ _ = _ ↔ _
      rw [countBounds_ok]
      simp [FieldKind.bounds, Value.measure?]
    | _ => cases haccept _ hv

/-- Every item of a list of texts is counted. -/
theorem length_texts {items : List Value} (h : isTextList (.list items) = true) :
    (items.filterMap Value.string?).length = items.length := by
  rw [List.length_filterMap_eq_countP]
  exact List.countP_eq_length.mpr (List.all_eq_true.mp h)

theorem checkChips_ok {o : Options} {chips : List String} :
    checkChips o chips = .ok () ↔
      ((o.flag "allow-duplicates" || allDistinct chips) = true ∧
        ∀ choices, o.strings? "choices" = some choices → chips.all choices.contains = true) ∧
      ∀ most, o.count? "max-items" = some most → chips.length ≤ most := by
  unfold checkChips
  rw [ensure_bind_ok]
  cases o.strings? "choices" with
  | none => cases o.count? "max-items" <;> simp [pure, Except.pure, ensure_ok]
  | some choices =>
    cases o.count? "max-items" with
    | none => simp [ensure_bind_ok, pure, Except.pure]
    | some most => simp [ensure_bind_ok, ensure_ok, and_assoc]

theorem enforces_checkChips {b : Bound} (hb : b ∈ FieldKind.chips.bounds) :
    Enforces isTextList b (check fun options v =>
      match v with
      | .list items => checkChips options (items.filterMap Value.string?)
      | _ => .ok ()) := by
  have hoption : b.option = "max-items" := by
    rw [List.mem_singleton.mp hb]
  refine enforces_of_ok FieldKind.chips.bounds
    (fun context v =>
      (context.options.flag "allow-duplicates" ||
        allDistinct (v.items.filterMap Value.string?)) = true ∧
      ∀ choices, context.options.strings? "choices" = some choices →
        (v.items.filterMap Value.string?).all choices.contains = true) ?_ (by decide) hb ?_
  · rintro context v (rfl | hv)
    · simp [check, Value.items, allDistinct, Value.measure?]
    · cases v with
      | list items =>
        change checkChips _ _ = _ ↔ _
        rw [checkChips_ok, length_texts hv]
        refine and_congr_right fun _ => ?_
        simp [FieldKind.bounds, Value.measure?, allows_count, Side.Holds]
      | _ => cases hv
  · intro context v
    unfold FieldContext.unset Options.flag Options.strings?
    simp only
    rw [hoption, Options.get_unset_of_ne _ (by decide), Options.get_unset_of_ne _ (by decide)]

/-! ### Moments -/

theorem checkMoment_ok {write : Int → Option String} {o : Options} {v : Value} {m : Int}
    (hv : millis? v = some m) :
    checkMoment write o v = .ok () ↔ ∀ b ∈ FieldKind.date.bounds, b.Allows o m := by
  have hread : ∀ name, millis? (o.get name) = (o.get name).number?.bind Scale.moment.read? :=
    fun _ => rfl
  simp only [FieldKind.bounds, List.forall_mem_cons, List.not_mem_nil, false_implies,
    implies_true, and_true, Bound.Allows, Side.Holds, ← hread]
  unfold checkMoment
  rw [hv]
  simp only
  cases millis? (o.get "min") with
  | none => cases millis? (o.get "max") <;> simp [pure, Except.pure, ensure_ok]
  | some first =>
    cases millis? (o.get "max") with
    | none => simp [ensure_bind_ok, pure, Except.pure]
    | some last => simp [ensure_bind_ok, ensure_ok]

/-- A moment is a whole number of 63 bits and a sign. -/
theorem measure?_of_millis? {v : Value} {m : Int} (h : millis? v = some m) :
    v.measure? = some m ∧ Scale.moment.Measures m := by
  cases v with
  | number n =>
    cases n with
    | integer i bounded =>
      change (if i < signedEnd then some i else none) = some m at h
      split at h
      · next hend =>
        obtain rfl := Option.some.inj h
        exact ⟨rfl, bounded.1, hend⟩
      · cases h
    | real x => cases h
  | _ => cases h

theorem enforces_checkMoment (write : Int → Option String) {b : Bound}
    (hb : b ∈ FieldKind.date.bounds) :
    Enforces (fun v => (millis? v).isSome) b (check (checkMoment write)) := by
  refine enforces_of_ok FieldKind.date.bounds (fun _ _ => True) ?_ (by decide) hb
    fun _ _ => Iff.rfl
  rintro context v (rfl | hv)
  · simp [checkMoment, millis?, check, Value.measure?, Value.number?]
  · obtain ⟨m, hm⟩ := Option.isSome_iff_exists.mp hv
    change checkMoment _ _ _ = _ ↔ _
    rw [checkMoment_ok hm, (measure?_of_millis? hm).1]
    simp

/-! ### Kinds -/

/-- Validators of values of one type, one or more of which enforce a bound while the others do not
look at it. -/
structure Bounded (accept : Value → Bool) (b : Bound) (ls : List Validator) : Prop where
  typed : typeCheck accept ∈ ls
  measured : ∀ {v : Value} {m : Int}, accept v = true → v.measure? = some m → b.scale.Measures m
  each : ∀ l ∈ ls, Blind b.option l ∨ Enforces accept b l
  one : ∃ l ∈ ls, Enforces accept b l

/-- A required field of one type with one check that enforces the bound. -/
theorem Bounded.of_check {accept : Value → Bool} {b : Bound} {l : Validator}
    (hrequired : b.option ≠ "required")
    (hmeasured : ∀ {v : Value} {m : Int}, accept v = true → v.measure? = some m →
      b.scale.Measures m)
    (hl : Enforces accept b l) : Bounded accept b [requiredCheck, typeCheck accept, l] where
  typed := List.mem_cons_of_mem _ List.mem_cons_self
  measured := hmeasured
  each := by
    intro l' hl'
    rcases List.mem_cons.mp hl' with rfl | hl'
    · exact .inl (blind_requiredCheck hrequired)
    rcases List.mem_cons.mp hl' with rfl | hl'
    · exact .inl fun _ _ => rfl
    · rw [List.mem_singleton.mp hl']
      exact .inr hl
  one := ⟨l, List.mem_cons_of_mem _ (List.mem_cons_of_mem _ List.mem_cons_self), hl⟩

theorem bound_ne_required {k : FieldKind} {b : Bound} (hb : b ∈ k.bounds) :
    b.option ≠ "required" := by
  have hall : ∀ b ∈ k.bounds, b.option ≠ "required" := by
    cases k <;> decide
  exact hall b hb

/-- What is counted is not negative. -/
theorem measures_count {v : Value} (hv : v.isString = true ∨ v.isList = true) {m : Int}
    (hm : v.measure? = some m) : Scale.count.Measures m := by
  cases v with
  | string s =>
    rw [← Option.some.inj hm]
    exact Int.natCast_nonneg _
  | list items =>
    rw [← Option.some.inj hm]
    exact Int.natCast_nonneg _
  | _ => rcases hv with hv | hv <;> cases hv

theorem scale_of_mem {k : FieldKind} {b : Bound} (hb : b ∈ k.bounds) :
    b.scale = if k = .date ∨ k = .time ∨ k = .dateTime then .moment else .count := by
  have hall : ∀ b ∈ k.bounds,
      b.scale = if k = .date ∨ k = .time ∨ k = .dateTime then .moment else .count := by
    cases k <;> decide
  exact hall b hb

theorem bounded_moment (write : Int → Option String) {b : Bound}
    (hb : b ∈ FieldKind.date.bounds) :
    Bounded (fun v => (millis? v).isSome) b
      [requiredCheck, typeCheck fun v => (millis? v).isSome, check (checkMoment write)] := by
  refine .of_check (bound_ne_required hb) (fun {v m} hv hm => ?_) (enforces_checkMoment write hb)
  obtain ⟨i, hi⟩ := Option.isSome_iff_exists.mp hv
  obtain ⟨himeasure, hmeasures⟩ := measure?_of_millis? hi
  rw [himeasure] at hm
  rw [scale_of_mem hb, ← Option.some.inj hm]
  exact hmeasures

theorem bounded_entries {b : Bound} (hb : b ∈ FieldKind.repeater.bounds) :
    Bounded Value.isList b [requiredCheck, typeCheck Value.isList, entryCountCheck] := by
  refine .of_check (bound_ne_required hb) (fun hv hm => ?_)
    (enforces_entryCountCheck (fun _ hv => hv) hb)
  rw [scale_of_mem hb]
  exact measures_count (.inr hv) hm

/-- A list of ids is a list. -/
theorem isList_of_isIdList {v : Value} (h : isIdList v = true) : v.isList = true := by
  cases v with
  | list items => rfl
  | _ => cases h

theorem isList_of_isTextList {v : Value} (h : isTextList v = true) : v.isList = true := by
  cases v with
  | list items => rfl
  | _ => cases h

theorem bounded_records {b : Bound} (hb : b ∈ FieldKind.records.bounds) :
    Bounded isIdList b records.validators where
  typed := List.mem_cons_of_mem _ List.mem_cons_self
  measured := by
    intro v m hv hm
    rw [scale_of_mem hb]
    exact measures_count (.inr (isList_of_isIdList hv)) hm
  each := by
    have hcollection : ∀ b ∈ FieldKind.records.bounds, b.option ≠ "collection" := by decide
    intro l hl
    change l ∈ [requiredCheck, typeCheck isIdList, _, entryCountCheck, recordsExistCheck] at hl
    simp only [List.mem_cons, List.not_mem_nil, or_false] at hl
    rcases hl with rfl | rfl | rfl | rfl | rfl
    · exact .inl (blind_requiredCheck (bound_ne_required hb))
    · exact .inl fun _ _ => rfl
    · exact .inl fun _ _ => rfl
    · exact .inr (enforces_entryCountCheck (fun _ => isList_of_isIdList) hb)
    · exact .inl (blind_recordsExistCheck (hcollection b hb))
  one := ⟨entryCountCheck, by simp [records],
    enforces_entryCountCheck (fun _ => isList_of_isIdList) hb⟩

/-- Each bound of a built-in kind is enforced by a validator of the kind. -/
theorem bounded_builtin {k : FieldKind} {b : Bound} (hb : b ∈ k.bounds) :
    ∃ accept, Bounded accept b k.definition.validators := by
  cases k with
  | text =>
    refine ⟨Value.isString, .of_check (bound_ne_required hb) (fun hv hm => ?_)
      (enforces_lengthCheck hb)⟩
    rw [scale_of_mem hb]
    exact measures_count (.inl hv) hm
  | chips =>
    refine ⟨isTextList, .of_check (bound_ne_required hb) (fun hv hm => ?_)
      (enforces_checkChips hb)⟩
    rw [scale_of_mem hb]
    exact measures_count (.inr (isList_of_isTextList hv)) hm
  | repeater => exact ⟨_, bounded_entries hb⟩
  | structured => exact ⟨_, bounded_entries hb⟩
  | records => exact ⟨_, bounded_records hb⟩
  | date => exact ⟨_, bounded_moment _ hb⟩
  | time => exact ⟨_, bounded_moment _ hb⟩
  | dateTime => exact ⟨_, bounded_moment _ hb⟩
  | _ => cases hb

/-- What validators let pass with a bound is what they let pass without it and is within it. -/
theorem Bounded.run {accept : Value → Bool} {b : Bound} {ls : List Validator}
    (h : Bounded accept b ls) (hfilter : ∀ l ∈ ls, l.filter = {}) (context : FieldContext)
    (v : Value) :
    runValidators context v ls = .ok () ↔ runValidators (context.unset b.option) v ls = .ok () ∧
      ∀ m, v.measure? = some m → b.Allows context.options m := by
  have happlies : ∀ l ∈ ls, ∀ operation, l.filter.applies operation = true := by
    intro l hl operation
    rw [hfilter l hl]
    exact OperationFilter.applies_any operation
  simp only [runValidators_ok]
  constructor
  · intro hall
    have hrun := fun l hl => hall l hl (happlies l hl _)
    have htyped := typeCheck_ok (hrun _ h.typed)
    refine ⟨fun l hl _ => ?_, ?_⟩
    · rcases h.each l hl with hblind | henforces
      · rw [hblind]
        exact hrun l hl
      · exact ((henforces context v htyped).mp (hrun l hl)).1
    · obtain ⟨l, hl, henforces⟩ := h.one
      exact ((henforces context v htyped).mp (hrun l hl)).2
  · rintro ⟨hall, hallows⟩ l hl _
    have hrun := fun l hl => hall l hl (happlies l hl _)
    have htyped := typeCheck_ok (hrun _ h.typed)
    rcases h.each l hl with hblind | henforces
    · rw [← hblind]
      exact hrun l hl
    · exact (henforces context v htyped).mpr ⟨hrun l hl, hallows⟩

/-- What passes the check of its type has a quantity of the bound's scale. -/
theorem Bounded.measures {accept : Value → Bool} {b : Bound} {ls : List Validator}
    (h : Bounded accept b ls) {context : FieldContext} {v : Value}
    (hrun : runValidators context v ls = .ok ()) {m : Int}
    (hm : v.measure? = some m) : b.scale.Measures m := by
  have htype := runValidators_ok.mp hrun _ h.typed (OperationFilter.applies_any _)
  rcases typeCheck_ok htype with rfl | hv
  · cases hm
  · exact h.measured hv hm

end Kinds

/-- **Declared bounds.**  Once the options of a field are resolved, each bound is unset or a number.
A value is accepted under the bound exactly when it is accepted without the bound and, should the
bound be readable, is within it by exact value; a bound that cannot be read excludes nothing.  What
is accepted by all validators of the declaration is within every bound that can be read and every
bound that excludes no quantity at all. -/
theorem bounds_judged {name : String} {d : Declaration} {context : FieldContext}
    (h : Registry.builtin.resolve name d = .ok context.options) {b : Bound}
    (hb : b ∈ d.kind.bounds) :
    context.options.get b.option = .null ∨
      ∃ n, context.options.get b.option = .number n ∧ ∀ v : Value,
        (runValidators context v d.kind.definition.validators = .ok () ↔
          runValidators (context.unset b.option) v d.kind.definition.validators = .ok () ∧
            ∀ m, v.measure? = some m → (b.scale.read? n).isSome → b.Respected n m) ∧
        (runValidators context v (d.kind.definition.validators ++ d.additional.validators) =
            .ok () →
          ∀ m, v.measure? = some m → (b.scale.read? n).isSome ∨ b.Idle n → b.Respected n m) := by
  obtain ⟨accept, hbounded⟩ := Kinds.bounded_builtin hb
  have hfilter := fun l hl => (validators_builtin d.kind l hl).1
  refine (number_or_null h hb).imp_right ?_
  rintro ⟨n, hn⟩
  have hrun : ∀ v, runValidators context v d.kind.definition.validators = .ok () ↔
      runValidators (context.unset b.option) v d.kind.definition.validators = .ok () ∧
        ∀ m, v.measure? = some m → (b.scale.read? n).isSome → b.Respected n m := by
    intro v
    rw [hbounded.run hfilter context v]
    exact and_congr_right fun _ => forall₂_congr fun m _ => Bound.allows_of_number hn
  refine ⟨n, hn, fun v => ⟨hrun v, fun haccepted m hm hread => ?_⟩⟩
  have hown := runValidators_append haccepted
  rcases hread with hread | hidle
  · exact ((hrun v).mp hown).2 m hm hread
  · exact hidle m (hbounded.measures hown hm)

/-- A code of a few characters at most. -/
def codeField (most : Number) : Declaration :=
  (Declaration.ofKind .text).option "max-length" (.number most)

theorem bounds_judged_code :
    Registry.builtin.resolve "code" (codeField 3) = .ok (codeField 3).context.options ∧
      (⟨"max-length", .most, .count⟩ : Bound) ∈ (codeField 3).kind.bounds ∧
      ((codeField 3).context.options.get "max-length" = .null ∨
        ∃ n, (codeField 3).context.options.get "max-length" = .number n ∧ ∀ v : Value,
          (runValidators (codeField 3).context v (codeField 3).kind.definition.validators = .ok () ↔
            runValidators ((codeField 3).context.unset "max-length") v
                (codeField 3).kind.definition.validators = .ok () ∧
              ∀ m, v.measure? = some m → (Scale.count.read? n).isSome →
                (⟨"max-length", .most, .count⟩ : Bound).Respected n m) ∧
          (runValidators (codeField 3).context v
              ((codeField 3).kind.definition.validators ++ (codeField 3).additional.validators) =
              .ok () →
            ∀ m, v.measure? = some m →
              (Scale.count.read? n).isSome ∨ (⟨"max-length", .most, .count⟩ : Bound).Idle n →
              (⟨"max-length", .most, .count⟩ : Bound).Respected n m)) :=
  ⟨rfl, by decide,
    @bounds_judged "code" (codeField 3) _ rfl ⟨"max-length", .most, .count⟩ (by decide)⟩

/-- Two and a half. -/
def Binary64.fiveHalves : Binary64 := ⟨false, 5 * powTwo 1073, by decide +kernel⟩

/-- A text of four characters is accepted where two and a half are the most. -/
theorem bounds_ignored :
    ¬ ∀ (name : String) (d : Declaration) (context : FieldContext),
      Registry.builtin.resolve name d = .ok context.options → ∀ b ∈ d.kind.bounds, ∀ n : Number,
        context.options.get b.option = .number n → ∀ v : Value,
          runValidators context v (d.kind.definition.validators ++ d.additional.validators) =
            .ok () →
          ∀ m, v.measure? = some m → b.Respected n m := by
  intro h
  have hrespected := h "code" (codeField (.real .fiveHalves))
    (codeField (.real .fiveHalves)).context rfl ⟨"max-length", .most, .count⟩ (by decide)
    (.real .fiveHalves) rfl (.string "long") rfl 4 rfl
  have hexceeded : ¬ (4 * Binary64.one : Int) ≤ Binary64.fiveHalves.scaled := by decide +kernel
  exact hexceeded hrespected

end ContentSchema
