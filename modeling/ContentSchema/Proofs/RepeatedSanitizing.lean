import ContentSchema.Proofs.AbsentFields
import ContentSchema.Proofs.StableValues

/-!
# Repeated sanitizing — a value that was sanitized once stays as it is

Each sanitizer reads a text, or unwraps an object, and what it makes of it is of another form that
it leaves alone; what it cannot read it returns, and cannot read the next time either.  So one pass
of the sanitizers of a kind is enough (`clean_clean`), but for a number that is rounded and for a
slug.
-/

namespace ContentSchema

/-! ### Readers -/

theorem Json.decodeText_of_not_string {accept : Value → Bool} {v : Value} (h : v.isString = false) :
    decodeText accept v = v := by
  cases v with
  | string s => cases h
  | _ => rfl

/-- What a text is decoded into is no text, or else the text stays. -/
theorem Json.decodeText_decodeText {accept : Value → Bool}
    (haccept : ∀ v, accept v = true → v.isString = false) (v : Value) :
    decodeText accept (decodeText accept v) = decodeText accept v := by
  cases v with
  | string s =>
    cases hs : parseValue? s with
    | none => simp [decodeText, hs]
    | some decoded =>
      by_cases hd : accept decoded = true
      · have hdecoded : decodeText accept (.string s) = decoded := by simp [decodeText, hs, hd]
        rw [hdecoded, decodeText_of_not_string (haccept decoded hd)]
      · simp [decodeText, hs, hd]
  | _ => rfl

namespace Kinds

theorem textToNumber_textToNumber (v : Value) :
    textToNumber (textToNumber v) = textToNumber v := by
  cases v with
  | string s =>
    cases hs : Text.readNumber? s with
    | none => simp [textToNumber, hs]
    | some x => simp [textToNumber, hs, Value.ofBinary64]
  | _ => rfl

theorem readMoment_readMoment (read : String → Option Int) (v : Value) :
    readMoment read (readMoment read v) = readMoment read v := by
  cases v with
  | string s =>
    cases hs : read s with
    | none => simp [readMoment, hs]
    | some moment => simp [readMoment, hs, Value.ofInt]
  | _ => rfl

/-- The value of a flag where it can be read. -/
def flagged (v : Value) : Value := ((readFlag? v).map Value.bool).getD v

theorem flagged_flagged (v : Value) : flagged (flagged v) = flagged v := by
  cases hv : readFlag? v with
  | none =>
    have hsame : flagged v = v := by rw [flagged, hv]; rfl
    rw [hsame, hsame]
  | some b =>
    have hbool : flagged v = .bool b := by rw [flagged, hv]; rfl
    rw [hbool]
    rfl

mutual

/-- An id is not unwrapped any further. -/
theorem toId_toId (v : Value) : toId (toId v) = toId v := by
  match v with
  | .string s =>
    cases hs : Text.readNatural? (Text.trim s) with
    | none => simp [toId, hs]
    | some n => simp [toId, hs, Value.ofInt]
  | .object ms =>
    cases hms : memberToId? ms with
    | none => simp [toId, hms]
    | some w =>
      have hunwrapped : toId (.object ms) = w := by rw [toId, hms]; rfl
      rw [hunwrapped, toId_memberToId? hms]
  | .null | .bool _ | .number _ | .list _ => simp [toId]

theorem toId_memberToId? {ms : List (String × Value)} {w : Value} (h : memberToId? ms = some w) :
    toId w = w := by
  match ms with
  | (key, v) :: rest =>
    unfold memberToId? at h
    split at h
    · rw [← Option.some.inj h]
      exact toId_toId v
    · exact toId_memberToId? h

end

/-- The items of a list changed, of one that a text holds as well; anything else as it is. -/
def changeItems (f : Value → Value) (v : Value) : Value :=
  match Json.decodeText Value.isList v with
  | .list items => .list (items.map f)
  | v => v

theorem not_string_of_isList {v : Value} (h : v.isList = true) : v.isString = false := by
  cases v with
  | list items => rfl
  | _ => cases h

/-- A list is decoded once, and its items are changed once. -/
theorem changeItems_changeItems {f : Value → Value} (hf : ∀ v, f (f v) = f v) (v : Value) :
    changeItems f (changeItems f v) = changeItems f v := by
  have hagain := Json.decodeText_decodeText (fun _ => not_string_of_isList) v
  cases hv : Json.decodeText Value.isList v with
  | list items =>
    have hlist : changeItems f v = .list (items.map f) := by rw [changeItems, hv]
    rw [hlist]
    show Value.list ((items.map f).map f) = _
    rw [List.map_map, show f ∘ f = f from funext hf]
  | _ =>
    have hsame : changeItems f v = Json.decodeText Value.isList v := by rw [changeItems, hv]
    rw [hsame, changeItems, hagain, hv]

end Kinds

/-! ### Kinds -/

variable {d : Declaration}

theorem opened_opened (d : Declaration) (v : Value) : d.opened (d.opened v) = d.opened v := by
  unfold Declaration.opened
  split
  · refine Json.decodeText_decodeText (fun w hw => ?_) v
    unfold Declaration.container at hw
    cases w with
    | string s => split at hw <;> cases hw
    | _ => rfl
  · rfl

theorem clean_clean_text (hd : d.kind = .text) (v : Value) : d.clean (d.clean v) = d.clean v := by
  have hstring : ∀ s, d.clean (.string s) =
      if d.ownOptions.flag "trim" then .string (Text.trim s) else .string s := by
    obtain ⟨kind, options, subfields, variants, additional⟩ := d
    obtain rfl : kind = .text := hd
    exact fun _ => rfl
  have htwice : ∀ s, d.clean (d.clean (.string s)) = d.clean (.string s) := by
    intro s
    rw [hstring]
    split
    · next htrim => rw [hstring, if_pos htrim, Text.trim_trim]
    · next htrim => rw [hstring, if_neg htrim]
  obtain ⟨kind, options, subfields, variants, additional⟩ := d
  obtain rfl : kind = .text := hd
  cases v with
  | string s => exact htwice s
  -- a number is treated as its numeral
  | number n => exact htwice n.text
  | _ => rfl

theorem clean_number_eq (hd : d.kind = .number) (hdecimals : d.ownOptions.count? "decimals" = none)
    (v : Value) : d.clean v = Kinds.textToNumber v := by
  obtain ⟨kind, options, subfields, variants, additional⟩ := d
  obtain rfl : kind = .number := hd
  simp only [Declaration.clean, sanitizeValue, Declaration.context, FieldKind.definition,
    Specification.normalize, Kinds.specification, Kinds.number, Kinds.change, Kinds.changeWith,
    OperationFilter.applies_any, List.filter_cons, List.filter_nil, if_true, List.foldl_cons,
    List.foldl_nil, hdecimals]
  cases (Kinds.textToNumber v).binary64? <;> rfl

/-- A number that is declared without decimals has none. -/
theorem count?_decimals (hd : d.kind = .number)
    (hunset : Entries.get? "decimals" d.options = none) :
    d.ownOptions.count? "decimals" = none := by
  have hdefault : ∀ e ∈ d.kind.definition.options, e.1 = "decimals" →
      ∀ resolved name, e.2.default resolved name = .null := by
    rw [hd]
    intro e he
    change e ∈ List.cons _ _ at he
    repeat
      rcases List.mem_cons.mp he with rfl | he
      · first
        | exact fun _ _ _ => rfl
        | exact fun hname => absurd hname (by decide)
    cases he
  have hnull : (d.ownOptions.get "decimals") = .null := by
    unfold Options.get Declaration.ownOptions Declaration.values Options.ofValues
    cases hvalues : d.kind.definition.resolveValues "" d.options with
    | error e => rfl
    | ok values =>
      cases hget : Entries.get? "decimals" values with
      | none => simp
      | some w =>
        have hw := get?_resolveValues_unsupplied hunset hdefault hvalues w hget
        simp [hw]
  unfold Options.count?
  rw [hnull]
  rfl

/-- Sanitizing twice is sanitizing once, unless a number is rounded or the value is a slug. -/
theorem clean_clean (hslug : d.kind ≠ .slug)
    (hdecimals : d.kind = .number → d.ownOptions.count? "decimals" = none) (v : Value) :
    d.clean (d.clean v) = d.clean v := by
  by_cases hcomposite : d.kind.isComposite = true
  · simp only [clean_composite hcomposite, opened_opened]
  · obtain ⟨kind, options, subfields, variants, additional⟩ := d
    cases kind with
    | text => exact clean_clean_text rfl v
    | slug => exact (hslug rfl).elim
    | number =>
      simp only [clean_number_eq rfl (hdecimals rfl)]
      exact Kinds.textToNumber_textToNumber v
    | range => exact Kinds.changeItems_changeItems Kinds.textToNumber_textToNumber v
    | checkbox => exact Kinds.flagged_flagged v
    | select => cases v <;> rfl
    | chips => exact Json.decodeText_decodeText (fun _ => Kinds.not_string_of_isList) v
    | date | time | dateTime => exact Kinds.readMoment_readMoment _ v
    | record => exact Kinds.toId_toId v
    | records => exact Kinds.changeItems_changeItems Kinds.toId_toId v
    | repeater | object | structured | blocks => exact (hcomposite rfl).elim

/-- The sanitizers of a kind change nothing in what they made of a value before, whatever the value:
for every kind but the slug, and for numbers that are not rounded. -/
theorem sanitizeValue_sanitizeValue {context context' : FieldContext} (hslug : d.kind ≠ .slug)
    (hdecimals : d.kind = .number → Entries.get? "decimals" d.options = none)
    (hextra : d.additional.sanitizers = []) (ho : context.options.values = d.values)
    (ho' : context'.options.values = d.values) (v : Value) :
    sanitizeValue context' (d.kind.definition.sanitizers ++ d.additional.sanitizers)
        (sanitizeValue context (d.kind.definition.sanitizers ++ d.additional.sanitizers) v) =
      sanitizeValue context (d.kind.definition.sanitizers ++ d.additional.sanitizers) v := by
  have hclean : ∀ {context : FieldContext}, context.options.values = d.values → ∀ v,
      sanitizeValue context (d.kind.definition.sanitizers ++ d.additional.sanitizers) v =
        d.clean v := by
    intro context ho v
    rw [hextra, List.append_nil]
    exact sanitizeValue_builtin d.kind ho v
  rw [hclean ho, hclean ho']
  exact clean_clean hslug (fun hd => count?_decimals hd (hdecimals hd)) v

/-- References to posts. -/
def relatedPosts : Declaration :=
  (Declaration.ofKind .records).option "collection" (.string "posts")

theorem sanitizeValue_sanitizeValue_records :
    relatedPosts.kind ≠ .slug ∧ relatedPosts.additional.sanitizers = [] ∧
      relatedPosts.clean (.string "[\"7\", \x7b\"id\": \" 8 \"\x7d, \"none\"]") =
        .list [.number 7, .number 8, .string "none"] ∧
      relatedPosts.clean (.list [.number 7, .number 8, .string "none"]) =
        .list [.number 7, .number 8, .string "none"] := by
  have honce : relatedPosts.clean (.string "[\"7\", \x7b\"id\": \" 8 \"\x7d, \"none\"]") =
      .list [.number 7, .number 8, .string "none"] := by
    decide +kernel
  have htwice := @sanitizeValue_sanitizeValue relatedPosts relatedPosts.context relatedPosts.context
    (by decide) (by decide) rfl rfl rfl (.string "[\"7\", \x7b\"id\": \" 8 \"\x7d, \"none\"]")
  refine ⟨by decide, rfl, honce, ?_⟩
  change relatedPosts.clean (relatedPosts.clean _) = relatedPosts.clean _ at htwice
  rwa [honce] at htwice

end ContentSchema
