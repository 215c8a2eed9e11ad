import ContentSchema.Proofs.Acceptance
import ContentSchema.Proofs.SlugWords

/-!
# Stable values — accepted values that the sanitizers of their kind leave alone

A value that passes the checks of its kind is left alone by the sanitizers of the kind, with two
exceptions: a text that would be trimmed, and a number that would be rounded (`clean_eq_iff`).
-/

namespace ContentSchema

/-- A value that the sanitizers of its kind would neither trim nor round. -/
structure Polished (d : Declaration) (v : Value) : Prop where
  trimmed : d.kind = .text → d.ownOptions.flag "trim" = true → ∀ s, v = .string s →
    Text.trim s = s
  rounded : d.kind = .number → ∀ x decimals, v.binary64? = some x →
    d.ownOptions.count? "decimals" = some decimals →
      Kinds.valueOf (Kinds.roundDecimals decimals x) = v

section

variable {d : Declaration} {context : FieldContext} {v : Value}

/-- Where neither trimming nor rounding happens there is nothing to polish. -/
theorem polished_of_ne (htext : d.kind ≠ .text) (hnumber : d.kind ≠ .number) (v : Value) :
    Polished d v :=
  ⟨fun h => (htext h).elim, fun h => (hnumber h).elim⟩

theorem clean_null (d : Declaration) : d.clean .null = .null := by
  obtain ⟨kind, options, subfields, variants, additional⟩ := d
  cases kind <;> rfl

theorem polished_null (d : Declaration) : Polished d .null := by
  refine ⟨nofun, fun _ x _ hx => ?_⟩
  have hnone : (none : Option Binary64) = some x := hx
  cases hnone

theorem clean_text (hd : d.kind = .text) (s : String) :
    d.clean (.string s) = .string s ↔ Polished d (.string s) := by
  have hclean : d.clean (.string s) =
      if d.ownOptions.flag "trim" then .string (Text.trim s) else .string s := by
    obtain ⟨kind, options, subfields, variants, additional⟩ := d
    obtain rfl : kind = .text := hd
    rfl
  rw [hclean]
  cases htrim : d.ownOptions.flag "trim" with
  | true =>
    rw [if_pos rfl, Value.string.injEq]
    refine ⟨fun h => ⟨fun _ _ t ht => ?_, fun h => ?_⟩, fun h => h.trimmed hd htrim s rfl⟩
    · rw [← Value.string.inj ht]
      exact h
    · rw [hd] at h
      cases h
  | false =>
    refine ⟨fun _ => ⟨fun _ h => ?_, fun h => ?_⟩, fun _ => rfl⟩
    · rw [htrim] at h
      cases h
    · rw [hd] at h
      cases h

theorem clean_number (hd : d.kind = .number) (n : Number) :
    d.clean (.number n) = .number n ↔ Polished d (.number n) := by
  have hx : (Value.number n).binary64? = some n.toBinary64 := rfl
  have hclean : ∀ decimals, d.ownOptions.count? "decimals" = decimals →
      d.clean (.number n) = (decimals.map fun decimals =>
        Kinds.valueOf (Kinds.roundDecimals decimals n.toBinary64)).getD (.number n) := by
    obtain ⟨kind, options, subfields, variants, additional⟩ := d
    obtain rfl : kind = .number := hd
    intro decimals hdecimals
    simp only [Declaration.clean, sanitizeValue, Declaration.context, FieldKind.definition,
      Specification.normalize, Kinds.specification, Kinds.number, Kinds.change, Kinds.changeWith,
      Kinds.textToNumber, OperationFilter.applies_any, List.filter_cons, List.filter_nil, if_true,
      List.foldl_cons, List.foldl_nil, hx, hdecimals]
    cases decimals with
    | none => rw [Option.map_none, Option.getD_none]
    | some decimals => rw [Option.map_some, Option.getD_some]
  have htext : d.kind ≠ .text := by
    rw [hd]
    exact nofun
  cases hdecimals : d.ownOptions.count? "decimals" with
  | none =>
    have hkept : d.clean (.number n) = .number n := by rw [hclean none hdecimals]; rfl
    refine ⟨fun _ => ⟨fun h => (htext h).elim, fun _ x decimals _ h => ?_⟩, fun _ => hkept⟩
    rw [hdecimals] at h
    cases h
  | some decimals =>
    rw [hclean (some decimals) hdecimals, Option.map_some, Option.getD_some]
    refine ⟨fun h => ⟨fun h => (htext h).elim, fun _ x decimals' hx' h' => ?_⟩,
      fun h => h.rounded hd n.toBinary64 decimals hx hdecimals⟩
    rw [hdecimals] at h'
    rw [hx] at hx'
    rw [← Option.some.inj h', ← Option.some.inj hx']
    exact h

theorem Kinds.toId_number (n : Number) : toId (.number n) = .number n := by
  rw [toId]
  all_goals nofun

theorem number_of_binary64? {x : Binary64} (h : v.binary64? = some x) : ∃ n, v = .number n := by
  cases v with
  | number n => exact ⟨n, rfl⟩
  | _ =>
    have hnone : (none : Option Binary64) = some x := h
    cases hnone

theorem number_of_id? {id : Nat} (h : v.id? = some id) : ∃ n, v = .number n := by
  cases v with
  | number n => exact ⟨n, rfl⟩
  | _ => cases h

theorem number_of_millis? {moment : Int} (h : Kinds.millis? v = some moment) :
    ∃ n, v = .number n := by
  cases v with
  | number n => exact ⟨n, rfl⟩
  | _ => cases h

theorem list_of_rangeEnds? {ends : Binary64 × Binary64} (h : Kinds.rangeEnds? v = some ends) :
    ∃ first last : Number, v = .list [.number first, .number last] := by
  unfold Kinds.rangeEnds? at h
  split at h
  · next a b =>
    obtain ⟨x, hx, h⟩ := Option.bind_eq_some_iff.mp h
    obtain ⟨y, hy, -⟩ := Option.bind_eq_some_iff.mp h
    obtain ⟨first, rfl⟩ := number_of_binary64? hx
    obtain ⟨last, rfl⟩ := number_of_binary64? hy
    exact ⟨first, last, rfl⟩
  · cases h

theorem list_of_isIdList (h : Kinds.isIdList v = true) :
    ∃ items, v = .list items ∧ items.map Kinds.toId = items := by
  unfold Kinds.isIdList at h
  split at h
  · next items =>
    refine ⟨items, rfl, ?_⟩
    have hall := List.all_eq_true.mp h
    have hid : ∀ x ∈ items, Kinds.toId x = x := by
      intro x hx
      obtain ⟨id, hid⟩ := Option.isSome_iff_exists.mp (hall x hx)
      obtain ⟨n, rfl⟩ := number_of_id? hid
      exact Kinds.toId_number n
    exact (List.map_congr_left hid).trans (List.map_id _)
  · cases h

theorem list_of_isTextList (h : Kinds.isTextList v = true) : ∃ items, v = .list items := by
  cases v with
  | list items => exact ⟨items, rfl⟩
  | _ => cases h

/-- The sanitizers of a kind leave an accepted value exactly when there is nothing to polish. -/
theorem clean_eq_iff (h : ∀ l ∈ d.kind.definition.validators, l.run context v = .ok ()) :
    d.clean v = v ↔ Polished d v := by
  by_cases hnull : v = .null
  · rw [hnull]
    exact ⟨fun _ => polished_null d, fun _ => clean_null d⟩
  · have htype : ∀ {accept : Value → Bool},
        Kinds.typeCheck accept ∈ d.kind.definition.validators → accept v = true :=
      fun hmem => (Kinds.typeCheck_ok (h _ hmem)).resolve_left hnull
    have hsome : ∀ {α : Type} {f : Value → Option α},
        (Kinds.typeCheck fun v => (f v).isSome) ∈ d.kind.definition.validators →
          ∃ x, f v = some x :=
      fun hmem => Option.isSome_iff_exists.mp (htype hmem)
    have hsecond : ∀ {α : Type} {a b : α} {rest : List α}, b ∈ a :: b :: rest :=
      List.mem_cons_of_mem _ List.mem_cons_self
    have hrest : d.kind ≠ .text → d.kind ≠ .number → d.clean v = v →
        (d.clean v = v ↔ Polished d v) :=
      fun htext hnumber hclean => ⟨fun _ => polished_of_ne htext hnumber v, fun _ => hclean⟩
    obtain ⟨kind, options, subfields, variants, additional⟩ := d
    cases kind with
    | text =>
      cases v with
      | string s => exact clean_text rfl s
      | _ => cases htype hsecond
    | number =>
      cases v with
      | number n => exact clean_number rfl n
      | _ => cases htype hsecond
    | slug =>
      cases v with
      | string s =>
        have hslug : (s.isEmpty || Kinds.isSlug s) = true :=
          Kinds.ensure_ok.mp (h _ (List.mem_cons_of_mem _ hsecond))
        refine hrest nofun nofun ?_
        show Value.string (Kinds.slugify s) = _
        rw [Kinds.slugify_of_isSlug hslug]
      | _ => cases htype hsecond
    | range =>
      obtain ⟨ends, hends⟩ := hsome hsecond
      obtain ⟨first, last, rfl⟩ := list_of_rangeEnds? hends
      exact hrest nofun nofun rfl
    | checkbox =>
      cases v with
      | bool b => exact hrest nofun nofun rfl
      | _ => cases htype List.mem_cons_self
    | select =>
      cases v with
      | string s => exact hrest nofun nofun rfl
      | null => exact (hnull rfl).elim
      | _ => cases h _ hsecond
    | chips =>
      obtain ⟨items, rfl⟩ := list_of_isTextList (htype hsecond)
      exact hrest nofun nofun rfl
    | date | time | dateTime =>
      obtain ⟨moment, hmoment⟩ := hsome hsecond
      obtain ⟨n, rfl⟩ := number_of_millis? hmoment
      exact hrest nofun nofun rfl
    | record =>
      obtain ⟨id, hid⟩ := hsome hsecond
      obtain ⟨n, rfl⟩ := number_of_id? hid
      exact hrest nofun nofun (Kinds.toId_number n)
    | records =>
      obtain ⟨items, rfl, hitems⟩ := list_of_isIdList (htype hsecond)
      refine hrest nofun nofun ?_
      show Value.list (items.map Kinds.toId) = _
      rw [hitems]
    | repeater | structured | blocks | object =>
      refine hrest nofun nofun ?_
      rw [clean_composite rfl]
      exact opened_of_container (.inr (htype hsecond))

end

end ContentSchema
