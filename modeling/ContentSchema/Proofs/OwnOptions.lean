import ContentSchema.Engine
import ContentSchema.Proofs.Fits
import ContentSchema.Proofs.JsonPrefix

/-!
# Own options — what a declaration's stages see, whatever the cache did before

The key of the option cache determines the kind of a declaration and the options it was given,
though not what is nested in it (`cacheKey_injective`).  The option values of a declaration are
therefore its own, computed or kept (`OptionCache.Sound.resolve`), as long as every kept entry was
once computed.
-/

namespace ContentSchema

/-! ### Cache keys -/

theorem FieldKind.name_injective {k l : FieldKind} (h : k.name = l.name) : k = l := by
  have hk := ofName?_name k
  rw [h, ofName?_name] at hk
  exact (Option.some.inj hk).symm

theorem FieldKind.name_prefix {k l : FieldKind} {r s : List Char}
    (h : k.name.toList ++ '\x7b' :: r = l.name.toList ++ '\x7b' :: s) :
    k = l ∧ '\x7b' :: r = '\x7b' :: s := by
  have htake : ∀ (k : FieldKind) (r : List Char),
      (k.name.toList ++ '\x7b' :: r).takeWhile (· ≠ '\x7b') = k.name.toList := by
    intro k r
    have hall : ∀ c ∈ k.name.toList, decide (c ≠ '\x7b') = true := by
      cases k <;> exact List.all_eq_true.mp rfl
    rw [List.takeWhile_append_of_pos hall, List.takeWhile_cons]
    simp
  have hname : k.name.toList = l.name.toList := by rw [← htake k r, h, htake]
  rw [hname] at h
  exact ⟨name_injective (String.toList_inj.mp hname), List.append_cancel_left h⟩

namespace Declaration

/-- The kind and the given options end where the compact form of the options does. -/
theorem options_prefix {k l : FieldKind} {as bs : List (String × Value)} {r s : List Char}
    (h : k.name.toList ++ (Json.chars (.object as) ++ r) =
      l.name.toList ++ (Json.chars (.object bs) ++ s)) : k = l ∧ as = bs ∧ r = s := by
  rw [Json.chars, Json.chars] at h
  obtain ⟨hkind, hrest⟩ := FieldKind.name_prefix h
  have hobj : Json.chars (.object as) ++ r = Json.chars (.object bs) ++ s := by
    rw [Json.chars, Json.chars]
    exact hrest
  exact ⟨hkind, Json.object_prefix hobj⟩

/-- The characters of the key that tell of the nested declarations. -/
def nestedChars (d : Declaration) : List Char :=
  (match d.subfields with
    | [] => []
    | _ :: _ => '\x7b' :: keyMembers d.subfields ++ ['\x7d']) ++ keyVariants d.variants

/-- The key starts with the kind and the given options. -/
theorem keyChars_eq (d : Declaration) :
    d.keyChars = d.kind.name.toList ++ (Json.chars (.object d.options) ++ d.nestedChars) := by
  obtain ⟨kind, options, subfields, variants, additional⟩ := d
  simp only [keyChars, List.append_assoc]
  rfl

/-- Keys that agree in front of anything agree in the kind and the given options, and go on
alike. -/
theorem keyChars_append {d e : Declaration} {r s : List Char}
    (h : d.keyChars ++ r = e.keyChars ++ s) :
    d.kind = e.kind ∧ d.options = e.options ∧ d.nestedChars ++ r = e.nestedChars ++ s := by
  rw [keyChars_eq, keyChars_eq] at h
  simp only [List.append_assoc] at h
  exact options_prefix h

/-- Declarations with one key are of one kind and were given the same options. -/
theorem cacheKey_injective {d e : Declaration} (h : d.cacheKey = e.cacheKey) :
    d.kind = e.kind ∧ d.options = e.options := by
  have hchars : d.keyChars = e.keyChars := String.ofList_injective h
  obtain ⟨hkind, hoptions, -⟩ := keyChars_append (congrArg (· ++ []) hchars)
  exact ⟨hkind, hoptions⟩

end Declaration

/-! ### Option values -/

namespace Registry

/-- The option values of a declaration that is used as the property `name`, those of nested ones
left out. -/
def values (r : Registry) (name : String) (d : Declaration) :
    Except SchemaError (Entries Value) :=
  match r.get d.kind with
  | .error e => .error e
  | .ok definition => definition.resolveValues name d.options

/-- The option values of a declaration are resolved first, and then what is nested in it. -/
theorem resolve_eq (r : Registry) (name : String) (d : Declaration) :
    r.resolve name d =
      match r.values name d with
      | .error e => .error e
      | .ok values =>
        match r.resolveSchema d.subfields with
        | .error e => .error e
        | .ok subfields =>
          match r.resolveVariants d.variants with
          | .error e => .error e
          | .ok variants => .ok ⟨values, subfields, variants⟩ := by
  obtain ⟨kind, options, subfields, variants, additional⟩ := d
  rw [resolve, values]
  cases r.get kind <;> rfl

theorem values_eq_of_resolve {r : Registry} {name : String} {d : Declaration} {o : Options}
    (h : r.resolve name d = .ok o) : r.values name d = .ok o.values := by
  rw [resolve_eq] at h
  split at h
  · cases h
  · next values hvalues =>
    rw [hvalues]
    split at h
    · cases h
    · split at h
      · cases h
      · rw [← Except.ok.inj h]

end Registry

/-- The built-in definition of a kind. -/
def FieldKind.definition (k : FieldKind) : Definition := (Kinds.specification k).normalize

theorem get_builtin (k : FieldKind) : Registry.builtin.get k = .ok k.definition := by
  unfold Registry.get
  rw [Registry.get?_builtin]
  rfl

theorem values_builtin (name : String) (d : Declaration) :
    Registry.builtin.values name d = d.kind.definition.resolveValues name d.options := by
  unfold Registry.values
  rw [get_builtin]

namespace Declaration

/-- The options given to a declaration of a built-in kind are accepted. -/
def Resolves (d : Declaration) : Prop :=
  ∃ values, d.kind.definition.resolveValues "" d.options = .ok values

/-- The option values of a declaration of a built-in kind; none when they are refused. -/
def values (d : Declaration) : Entries Value :=
  match d.kind.definition.resolveValues "" d.options with
  | .ok values => values
  | .error _ => []

/-- The options of a declaration without those of nested ones. -/
def ownOptions (d : Declaration) : Options := .ofValues d.values

theorem values_of_resolveValues {d : Declaration} {values : Entries Value}
    (h : d.kind.definition.resolveValues "" d.options = .ok values) : d.values = values := by
  unfold Declaration.values
  rw [h]

end Declaration

/-- No built-in default looks at the name of the field. -/
theorem default_builtin (k : FieldKind) : ∀ e ∈ k.definition.options, ∀ resolved name name',
    e.2.default resolved name = e.2.default resolved name' := by
  cases k <;>
    · intro e he
      change e ∈ List.cons _ _ at he
      repeat
        rcases List.mem_cons.mp he with rfl | he
        · intro _ _ _
          rfl
      cases he

theorem resolveRest_name {d : Definition} {supplied : Entries Value} {name name' : String}
    {specs : List (String × OptionSpec)} {resolved values : Entries Value}
    (hspecs : ∀ e ∈ specs, ∀ resolved name name',
      e.2.default resolved name = e.2.default resolved name')
    (h : d.resolveRest name supplied specs resolved = .ok values) :
    d.resolveRest name' supplied specs resolved = .ok values := by
  induction specs generalizing resolved with
  | nil => exact h
  | cons e specs ih =>
    obtain ⟨option, spec⟩ := e
    have hrest := fun e he => hspecs e (List.mem_cons_of_mem _ he)
    unfold Definition.resolveRest at h ⊢
    split at h
    · split at h
      · next hacc =>
        rw [if_pos hacc]
        exact ih hrest h
      · cases h
    · split at h
      · cases h
      · next hreq =>
        rw [if_neg hreq, hspecs (option, spec) List.mem_cons_self resolved name' name]
        exact ih hrest h

/-- Option values do not depend on the name of the field. -/
theorem resolveValues_name {k : FieldKind} {supplied values : Entries Value} {name : String}
    (h : k.definition.resolveValues name supplied = .ok values) (name' : String) :
    k.definition.resolveValues name' supplied = .ok values := by
  unfold Definition.resolveValues at h ⊢
  split at h
  · cases h
  · exact resolveRest_name (default_builtin k) h

theorem values_of_resolve {name : String} {d : Declaration} {o : Options}
    (h : Registry.builtin.resolve name d = .ok o) : d.Resolves ∧ o.values = d.values := by
  have hvalues := Registry.values_eq_of_resolve h
  rw [values_builtin] at hvalues
  have hname := resolveValues_name hvalues ""
  exact ⟨⟨o.values, hname⟩, (Declaration.values_of_resolveValues hname).symm⟩

/-- Whether the options resolve, and to what, does not depend on the name of the field. -/
theorem resolve_name {name : String} {d : Declaration} {o : Options}
    (h : Registry.builtin.resolve name d = .ok o) (name' : String) :
    Registry.builtin.resolve name' d = .ok o := by
  have hvalues := Registry.values_eq_of_resolve h
  have hvalues' : Registry.builtin.values name' d = .ok o.values := by
    rw [values_builtin] at hvalues ⊢
    exact resolveValues_name hvalues name'
  rw [Registry.resolve_eq, hvalues] at h
  rw [Registry.resolve_eq, hvalues']
  exact h

/-! ### The cache -/

namespace OptionCache

/-- Every kept entry was computed for a declaration with its key. -/
def Sound (cache : OptionCache) : Prop :=
  ∀ e ∈ cache.entries, ∃ name d, e.1 = (d.cacheKey, name) ∧
    Registry.builtin.resolve name d = .ok e.2

theorem sound_empty : empty.Sound := fun _ h => (List.not_mem_nil h).elim

theorem sound_invalidate (cache : OptionCache) : cache.invalidate.Sound :=
  fun _ h => (List.not_mem_nil h).elim

theorem mem_of_get? {cache : OptionCache} {key : String × String} {o : Options}
    (h : cache.get? key = some o) : (key, o) ∈ cache.entries := by
  obtain ⟨l, r, hlr, -⟩ := List.lookup_eq_some_iff.mp h
  rw [hlr]
  exact List.mem_append_right _ List.mem_cons_self

/-- What a sound cache keeps for a declaration has the declaration's own values. -/
theorem Sound.get? {cache : OptionCache} (h : cache.Sound) {d : Declaration} {name : String}
    {o : Options} (hget : cache.get? (d.cacheKey, name) = some o) :
    d.Resolves ∧ o.values = d.values := by
  obtain ⟨name', e, hkey, hres⟩ := h _ (mem_of_get? hget)
  obtain ⟨hkind, hoptions⟩ := Declaration.cacheKey_injective (Prod.mk.inj hkey).1
  obtain ⟨⟨values, hv⟩, hvalues⟩ := values_of_resolve hres
  rw [hvalues]
  unfold Declaration.Resolves Declaration.values
  rw [hkind, hoptions]
  exact ⟨⟨values, hv⟩, rfl⟩

/-- Resolving keeps the cache sound and answers with the declaration's own values. -/
theorem Sound.resolve {cache : OptionCache} (h : cache.Sound) (name : String) (d : Declaration) :
    (cache.resolve .builtin name d).2.Sound ∧
      ∀ o, (cache.resolve .builtin name d).1 = .ok o → d.Resolves ∧ o.values = d.values := by
  unfold OptionCache.resolve
  cases hget : cache.get? (d.cacheKey, name) with
  | some o =>
    simp only [hget]
    refine ⟨h, fun o' ho => ?_⟩
    rw [← Except.ok.inj ho]
    exact h.get? hget
  | none =>
    simp only [hget]
    cases hres : Registry.builtin.resolve name d with
    | error e => exact ⟨h, nofun⟩
    | ok o =>
      refine ⟨fun e he => ?_, fun o' ho => ?_⟩
      · rcases List.mem_append.mp he with he | he
        · exact h e he
        · rw [List.mem_singleton.mp he]
          exact ⟨name, d, rfl, hres⟩
      · rw [← Except.ok.inj ho]
        exact values_of_resolve hres

theorem Sound.of_resolve {cache cache' : OptionCache} {name : String} {d : Declaration}
    {o : Options} (h : cache.Sound) (hp : cache.resolve .builtin name d = (.ok o, cache')) :
    cache'.Sound ∧ d.Resolves ∧ o.values = d.values := by
  obtain ⟨hsound, hvalues⟩ := h.resolve name d
  rw [hp] at hsound hvalues
  exact ⟨hsound, hvalues o rfl⟩

end OptionCache

/-! ### Blocks -/

/-- The last option to be resolved has the given value, or its default. -/
theorem get?_resolveRest_last {d : Definition} {name : String} {supplied : Entries Value}
    (specs : List (String × OptionSpec)) (option : String) (spec : OptionSpec)
    {resolved values : Entries Value} {default : Value}
    (hdefault : ∀ resolved, spec.default resolved name = default)
    (h : d.resolveRest name supplied (specs ++ [(option, spec)]) resolved = .ok values) :
    Entries.get? option values = some ((Entries.get? option supplied).getD default) := by
  induction specs generalizing resolved with
  | nil =>
    rw [List.nil_append] at h
    unfold Definition.resolveRest at h
    cases hs : Entries.get? option supplied with
    | some value =>
      simp only [hs] at h
      split at h
      · rw [← Except.ok.inj h, Entries.get?_insert_self]
        rfl
      · cases h
    | none =>
      simp only [hs] at h
      split at h
      · cases h
      · rw [← Except.ok.inj h, Entries.get?_insert_self, hdefault]
        rfl
  | cons e specs ih =>
    obtain ⟨earlier, spec'⟩ := e
    rw [List.cons_append] at h
    unfold Definition.resolveRest at h
    split at h
    · split at h
      · exact ih h
      · cases h
    · split at h
      · cases h
      · exact ih h

/-- The allowed blocks are those that were given. -/
theorem allowedBlocks_of_resolves {d : Declaration} (hk : d.kind = .blocks) (h : d.Resolves)
    {o : Options} (ho : o.values = d.values) :
    o.strings? "allowed-blocks" = d.allowedBlocks := by
  obtain ⟨values, hv⟩ := h
  rw [Declaration.values_of_resolveValues hv] at ho
  have hget : Entries.get? "allowed-blocks" values =
      some ((Entries.get? "allowed-blocks" d.options).getD .null) := by
    rw [hk] at hv
    unfold Definition.resolveValues at hv
    split at hv
    · cases hv
    · exact get?_resolveRest_last [Kinds.requiredOption] "allowed-blocks" (.ofKind .array)
        (fun _ => rfl) hv
  unfold Options.strings? Options.get Declaration.allowedBlocks
  rw [ho, hget]
  cases Entries.get? "allowed-blocks" d.options <;> rfl

end ContentSchema
