import ContentSchema.Proofs.OwnOptions

/-!
# Option order — an option depends on itself and on what is declared before it

Options are resolved one after the other in the order of their declaration.  One step gives one
option its value and changes no other (`resolveRest_cons`), so what resolving a part of the
declarations answers is what all options leave at the names of that part (`resolveRest_upTo`).
The options that come later have no say in it.

This determines the result (`Definition.resolveValues_ordered`): which supplied options are taken,
which names have values, and that each default is computed from exactly the options before it.
-/

namespace ContentSchema

/-! ### A choice of names -/

namespace Entries

variable {α : Type} {names : List String} {key : String} {value : α} {es : Entries α}

/-- The entries with these names. -/
def only (names : List String) (es : Entries α) : Entries α := es.filter (·.1 ∈ names)

theorem get?_only (h : key ∈ names) (es : Entries α) : (es.only names).get? key = es.get? key := by
  have hfilter := get?_filter (fun k => decide (k ∈ names)) key es
  rwa [if_pos (decide_eq_true h)] at hfilter

theorem only_eq_self (h : ∀ k ∈ es.keys, k ∈ names) : es.only names = es :=
  List.filter_eq_self.mpr fun e he => decide_eq_true (h e.1 (List.mem_map_of_mem he))

theorem only_put (h : key ∉ names) (es : Entries α) :
    (put key value es).only names = es.only names := by
  unfold only
  induction es with
  | nil => simp [put, h]
  | cons e rest ih =>
    obtain ⟨k, v⟩ := e
    unfold put
    by_cases hk : k = key
    · subst hk
      simp [h]
    · rw [if_neg hk, List.filter_cons, List.filter_cons, ih]

theorem only_place (h : key ∉ names) (es : Entries α) :
    (place key value es).only names = es.only names := by
  unfold only
  induction es with
  | nil => simp [place, h]
  | cons e rest ih =>
    obtain ⟨k, v⟩ := e
    unfold place
    split
    · rw [List.filter_cons_of_neg (by simpa using h)]
    · rw [List.filter_cons, List.filter_cons, ih]

/-- An entry with another name makes no difference. -/
theorem only_insert (h : key ∉ names) (es : Entries α) :
    (insert key value es).only names = es.only names := by
  unfold insert
  split
  · exact only_put h es
  · exact only_place h es

end Entries

/-! ### One option -/

/-- The value of an option: what is supplied, or else its default from what is resolved before. -/
def OptionSpec.choose (spec : OptionSpec) (given : Option Value) (resolved : Entries Value)
    (name : String) : Value := given.getD (spec.default resolved name)

/-- What is supplied suits an option: it has the type of the option, and it is there if it has to
be. -/
structure OptionSpec.Takes (spec : OptionSpec) (given : Option Value) : Prop where
  typed : ∀ value, given = some value → spec.kind.accepts value = true
  present : spec.required = true → given.isSome = true

namespace Definition

section

variable {d : Definition} {name : String} {supplied : Entries Value}
  {specs : List (String × OptionSpec)} {resolved values : Entries Value}

/-- The next option is resolved when what is supplied suits it, and nothing else is asked. -/
theorem resolveRest_cons {option : String} {spec : OptionSpec} :
    d.resolveRest name supplied ((option, spec) :: specs) resolved = .ok values ↔
      spec.Takes (supplied.get? option) ∧
        d.resolveRest name supplied specs (resolved.insert option
          (spec.choose (supplied.get? option) resolved name)) = .ok values := by
  rw [resolveRest]
  cases hgiven : supplied.get? option with
  | some value =>
    simp only
    by_cases haccepts : spec.kind.accepts value = true
    · rw [if_pos haccepts]
      refine ⟨fun h => ⟨⟨fun w hw => Option.some.inj hw ▸ haccepts, fun _ => rfl⟩, h⟩, And.right⟩
    · rw [if_neg haccepts]
      exact ⟨nofun, fun h => (haccepts (h.1.typed value rfl)).elim⟩
  | none =>
    simp only
    by_cases hrequired : spec.required = true
    · rw [if_pos hrequired]
      exact ⟨nofun, fun h => nomatch h.1.present hrequired⟩
    · rw [if_neg hrequired]
      exact ⟨fun h => ⟨⟨nofun, fun hneeded => (hrequired hneeded).elim⟩, h⟩, And.right⟩

/-! ### Runs over the declared options -/

/-- All options are resolved exactly when each is suited on its own. -/
theorem resolveRest_ok_iff :
    (∃ values, d.resolveRest name supplied specs resolved = .ok values) ↔
      ∀ e ∈ specs, e.2.Takes (supplied.get? e.1) := by
  induction specs generalizing resolved with
  | nil => exact ⟨fun _ => List.forall_mem_nil _, fun _ => ⟨resolved, rfl⟩⟩
  | cons e specs ih =>
    obtain ⟨option, spec⟩ := e
    simp only [resolveRest_cons, exists_and_left, ih, List.forall_mem_cons]

/-- Resolving goes through the declarations part by part. -/
theorem resolveRest_append {before after : List (String × OptionSpec)} :
    d.resolveRest name supplied (before ++ after) resolved = .ok values ↔
      ∃ middle, d.resolveRest name supplied before resolved = .ok middle ∧
        d.resolveRest name supplied after middle = .ok values := by
  induction before generalizing resolved with
  | nil =>
    refine ⟨fun h => ⟨resolved, rfl, h⟩, ?_⟩
    rintro ⟨middle, hmiddle, h⟩
    rwa [← Except.ok.inj hmiddle] at h
  | cons e before ih =>
    obtain ⟨option, spec⟩ := e
    rw [List.cons_append]
    simp only [resolveRest_cons, ih, and_assoc, exists_and_left]

/-- What stands at other names than those of the options stays as it is. -/
theorem only_resolveRest {names : List String} (hnames : ∀ e ∈ specs, e.1 ∉ names)
    (h : d.resolveRest name supplied specs resolved = .ok values) :
    values.only names = resolved.only names := by
  induction specs generalizing resolved with
  | nil => rw [Except.ok.inj h]
  | cons e specs ih =>
    obtain ⟨hname, hrest⟩ := List.forall_mem_cons.mp hnames
    rw [ih hrest (resolveRest_cons.mp h).2, Entries.only_insert hname]

/-- Every option gets one entry. -/
theorem keys_resolveRest (hnames : (resolved.keys ++ Entries.keys specs).Nodup)
    (h : d.resolveRest name supplied specs resolved = .ok values) :
    values.keys.Perm (resolved.keys ++ Entries.keys specs) := by
  induction specs generalizing resolved with
  | nil =>
    rw [Except.ok.inj h]
    exact List.Perm.of_eq (List.append_nil _).symm
  | cons e specs ih =>
    obtain ⟨option, spec⟩ := e
    have hmiddle : (resolved.keys ++ option :: Entries.keys specs).Perm
        (option :: resolved.keys ++ Entries.keys specs) := List.perm_middle
    have hnew : option ∉ resolved.keys := fun hold =>
      (List.nodup_cons.mp (hmiddle.nodup_iff.mp hnames)).1 (List.mem_append_left _ hold)
    have hinsert := (Entries.keys_insert hnew
      (spec.choose (supplied.get? option) resolved name)).append_right (Entries.keys specs)
    have hnodup := hinsert.nodup_iff.mpr (hmiddle.nodup_iff.mp hnames)
    exact ((ih hnodup (resolveRest_cons.mp h).2).trans hinsert).trans hmiddle.symm

theorem keys_resolveRest_nil (hnames : (Entries.keys specs).Nodup)
    (h : d.resolveRest name supplied specs [] = .ok values) :
    values.keys.Perm (Entries.keys specs) := by
  have hempty : (Entries.keys ([] : Entries Value) ++ Entries.keys specs).Nodup := hnames
  exact keys_resolveRest hempty h

/-- Other options have no part in what is resolved. -/
theorem resolveRest_congr {other : Entries Value}
    (h : ∀ e ∈ specs, supplied.get? e.1 = other.get? e.1) :
    d.resolveRest name supplied specs resolved = .ok values ↔
      d.resolveRest name other specs resolved = .ok values := by
  induction specs generalizing resolved with
  | nil => exact Iff.rfl
  | cons e specs ih =>
    obtain ⟨option, spec⟩ := e
    obtain ⟨hhere, hrest⟩ := List.forall_mem_cons.mp h
    rw [resolveRest_cons, resolveRest_cons, hhere, ih hrest]

/-- The names of a part of the options have, in the end, the values that resolving this part alone
gives them. -/
theorem resolveRest_upTo {before after : List (String × OptionSpec)}
    (hnames : (Entries.keys (before ++ after)).Nodup)
    (h : d.resolveRest name supplied (before ++ after) [] = .ok values) :
    d.resolveRest name supplied before [] = .ok (values.only (Entries.keys before)) := by
  obtain ⟨middle, hbefore, hafter⟩ := resolveRest_append.mp h
  have hsplit : (Entries.keys before ++ Entries.keys after).Nodup := by
    rwa [Entries.keys, List.map_append] at hnames
  obtain ⟨hdistinct, -, hapart⟩ := List.nodup_append.mp hsplit
  have hkeys : middle.keys.Perm (Entries.keys before) := keys_resolveRest_nil hdistinct hbefore
  have hlater : ∀ e ∈ after, e.1 ∉ Entries.keys before := fun e he hmem =>
    hapart _ hmem _ (List.mem_map_of_mem he) rfl
  rw [only_resolveRest hlater hafter, Entries.only_eq_self fun k hk => hkeys.mem_iff.mp hk]
  exact hbefore

end

/-! ### The options of a definition -/

/-- Supplied options suit a definition: all of them are declared, and they suit each option. -/
structure Takes (d : Definition) (supplied : Entries Value) : Prop where
  declared : ∀ option ∈ supplied.keys, option ∈ Entries.keys d.options
  suited : ∀ e ∈ d.options, e.2.Takes (supplied.get? e.1)

/-- Values of the declared options and of no others: each is what was supplied, or else the default
of the option among the values of exactly the options before it. -/
structure Ordered (d : Definition) (name : String) (supplied values : Entries Value) : Prop where
  names : values.keys.Perm (Entries.keys d.options)
  value : ∀ before option spec after, d.options = before ++ (option, spec) :: after →
    values.get? option = some (spec.choose (supplied.get? option)
      (values.only (Entries.keys before)) name)

section

variable {d : Definition} {name : String} {supplied values : Entries Value}

theorem resolveValues_ok_iff :
    d.resolveValues name supplied = .ok values ↔
      (∀ option ∈ supplied.keys, option ∈ Entries.keys d.options) ∧
        d.resolveRest name supplied d.options [] = .ok values := by
  unfold resolveValues
  cases hunknown : supplied.keys.find? fun key => !Entries.contains key d.options with
  | some unknown =>
    have hmem := List.mem_of_find?_eq_some hunknown
    have hfound := List.find?_some hunknown
    refine ⟨nofun, fun h => ?_⟩
    simp [Entries.contains_iff_mem_keys.mpr (h.1 unknown hmem)] at hfound
  | none =>
    refine (and_iff_right fun option hoption => ?_).symm
    have hfound := List.find?_eq_none.mp hunknown option hoption
    exact Entries.contains_iff_mem_keys.mp (by simpa using hfound)

theorem resolveValues_takes : (∃ values, d.resolveValues name supplied = .ok values) ↔
    d.Takes supplied := by
  simp only [resolveValues_ok_iff, exists_and_left, resolveRest_ok_iff]
  exact ⟨fun h => ⟨h.1, h.2⟩, fun h => ⟨h.declared, h.suited⟩⟩

theorem ordered_of_resolveValues (hnames : (Entries.keys d.options).Nodup)
    (h : d.resolveValues name supplied = .ok values) : d.Ordered name supplied values := by
  have hrun := (resolveValues_ok_iff.mp h).2
  refine ⟨keys_resolveRest_nil hnames hrun, fun before option spec after hoptions => ?_⟩
  have hoptions' : d.options = (before ++ [(option, spec)]) ++ after := by
    rw [hoptions, List.append_assoc]
    rfl
  rw [hoptions'] at hrun hnames
  have hupto := resolveRest_upTo hnames hrun
  rw [List.append_assoc] at hrun hnames
  have hbefore := resolveRest_upTo hnames hrun
  obtain ⟨middle, hmiddle, hhere⟩ := resolveRest_append.mp hupto
  rw [hbefore] at hmiddle
  obtain rfl := Except.ok.inj hmiddle
  have hvalue := Except.ok.inj (resolveRest_cons.mp hhere).2
  have hmem : option ∈ Entries.keys (before ++ [(option, spec)]) :=
    List.mem_map_of_mem (List.mem_append_right _ List.mem_cons_self)
  rw [← Entries.get?_only hmem values, ← hvalue, Entries.get?_insert_self]

/-- Supplied options that agree on the first declared ones resolve to values that do. -/
theorem resolveValues_agree (hnames : (Entries.keys d.options).Nodup) {other others : Entries Value}
    {k : Nat} (hagree : ∀ e ∈ d.options.take k, supplied.get? e.1 = other.get? e.1)
    (h : d.resolveValues name supplied = .ok values)
    (hother : d.resolveValues name other = .ok others) :
    values.only (Entries.keys (d.options.take k)) =
      others.only (Entries.keys (d.options.take k)) := by
  have hrun := (resolveValues_ok_iff.mp h).2
  have hrun' := (resolveValues_ok_iff.mp hother).2
  rw [← List.take_append_drop k d.options] at hrun hrun' hnames
  have hfirst := (resolveRest_congr hagree).mp (resolveRest_upTo hnames hrun)
  rw [resolveRest_upTo hnames hrun'] at hfirst
  exact (Except.ok.inj hfirst).symm

end

/-- Resolving succeeds exactly when what is supplied suits the definition, gives every declared
option what was supplied or its default among the options before it, and gives the first options
the same values whatever is supplied for later ones. -/
theorem resolveValues_ordered {d : Definition} (hnames : (Entries.keys d.options).Nodup)
    (name : String) (supplied : Entries Value) :
    ((∃ values, d.resolveValues name supplied = .ok values) ↔ d.Takes supplied) ∧
      ∀ values, d.resolveValues name supplied = .ok values →
        d.Ordered name supplied values ∧
          ∀ (other others : Entries Value) (k : Nat),
            (∀ e ∈ d.options.take k, supplied.get? e.1 = other.get? e.1) →
            d.resolveValues name other = .ok others →
            ∀ e ∈ d.options.take k, values.get? e.1 = others.get? e.1 := by
  refine ⟨resolveValues_takes, fun values h => ⟨ordered_of_resolveValues hnames h, ?_⟩⟩
  intro other others k hagree hother e he
  have hmem : e.1 ∈ Entries.keys (d.options.take k) := List.mem_map_of_mem he
  rw [← Entries.get?_only hmem values, resolveValues_agree hnames hagree h hother,
    Entries.get?_only hmem]

/-- The ends of a range and, if there is one, its default. -/
def spanOptions (default? : Option Value) : Entries Value :=
  default?.toList.map (("default", ·)) ++ [("max", .ofInt 50), ("min", .ofInt 10)]

/-- What the options of such a range resolve to: the greatest distance is that of the ends. -/
def spanValues (default? : Option Value) : Entries Value :=
  [("default", default?.getD (.list [.ofInt 10, .ofInt 50])), ("max", .ofInt 50),
    ("max-range", .ofInt 40), ("min", .ofInt 10), ("min-range", .ofInt 0),
    ("required", .bool false)]

/-- A default for a range makes no difference to the distance, which is declared before it. -/
theorem resolveValues_ordered_range :
    let d := FieldKind.range.definition
    let default := Value.list [.ofInt 20, .ofInt 30]
    (Entries.keys d.options).Nodup ∧
      d.resolveValues "span" (spanOptions none) = .ok (spanValues none) ∧
      d.resolveValues "span" (spanOptions default) = .ok (spanValues default) ∧
      d.Takes (spanOptions none) ∧ d.Ordered "span" (spanOptions none) (spanValues none) ∧
      ∀ e ∈ d.options.take 5, (spanValues none).get? e.1 = (spanValues default).get? e.1 := by
  intro d default
  have hnames : (Entries.keys d.options).Nodup := by decide
  have hfirst : d.resolveValues "span" (spanOptions none) = .ok (spanValues none) := by
    decide +kernel
  have hsecond : d.resolveValues "span" (spanOptions default) = .ok (spanValues default) := by
    decide +kernel
  have hagree : ∀ key ∈ Entries.keys (d.options.take 5),
      (spanOptions none).get? key = (spanOptions default).get? key := by decide
  obtain ⟨htakes, hresolved⟩ := resolveValues_ordered hnames "span" (spanOptions none)
  obtain ⟨hordered, hsame⟩ := hresolved _ hfirst
  exact ⟨hnames, hfirst, hsecond, htakes.mp ⟨_, hfirst⟩, hordered,
    hsame _ _ 5 (fun e he => hagree e.1 (List.mem_map_of_mem he)) hsecond⟩

end Definition

end ContentSchema
