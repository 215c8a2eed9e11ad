import ContentSchema.Kinds.Reference
import ContentSchema.Proofs.JsonPrefix
import ContentSchema.Proofs.StableValues

/-!
# Stored ids — what comes back of a list of references

A list is stored as the JSON text of the texts of its items.  The reader takes a quoted text apart
as it was put together, so every text comes back (`parseValue?_texts`), and each is read as an id
where it can be.  The text of a positive integer is read as that integer, the text of a double never
is: it has a point or an exponent.
-/

namespace ContentSchema

namespace Json

/-! ### Quoted texts -/

/-- A character is written as it is or behind a backslash. -/
theorem escapeChar_cases (c : Char) :
    (escapeChar c = [c] ∧ c ≠ '"' ∧ c ≠ '\\' ∧ ¬ c.toNat < 32) ∨
      ∃ es, escapeChar c = '\\' :: es := by
  unfold escapeChar
  by_cases hq : c = '"'
  · rw [if_pos hq]
    exact .inr ⟨_, rfl⟩
  · by_cases hb : c = '\\'
    · rw [if_neg hq, if_pos hb]
      exact .inr ⟨_, rfl⟩
    · rw [if_neg hq, if_neg hb]
      by_cases hc : 32 ≤ c.toNat
      · rw [if_pos hc]
        exact .inl ⟨rfl, hq, hb, by omega⟩
      · rw [if_neg hc]
        refine .inr ?_
        split_ifs <;> exact ⟨_, rfl⟩

/-- The reader takes one character back. -/
theorem readQuoted?_escapeChar (fuel : Nat) (c : Char) (rest : List Char) :
    readQuoted? (fuel + 1) (escapeChar c ++ rest) =
      (readQuoted? fuel rest).map fun p => (c :: p.1, p.2) := by
  rcases escapeChar_cases c with ⟨he, hq, hb, hc⟩ | ⟨es, he⟩
  · rw [he, List.singleton_append, readQuoted?, if_neg hq, if_neg hb, if_neg hc]
    cases readQuoted? fuel rest <;> rfl
  · have hback : readEscape? (es ++ rest) = some (c, rest) := by
      have h := unescape_escapeChar c rest
      rwa [he] at h
    rw [he, List.cons_append, readQuoted?, if_neg (by decide), if_pos rfl, hback]
    show (readQuoted? fuel rest).bind _ = _
    cases readQuoted? fuel rest <;> rfl

theorem readQuoted?_escaped {fuel : Nat} {cs : List Char} (h : cs.length < fuel)
    (rest : List Char) :
    readQuoted? fuel (cs.flatMap escapeChar ++ '"' :: rest) = some (cs, rest) := by
  induction cs generalizing fuel with
  | nil =>
    obtain ⟨fuel, rfl⟩ := Nat.exists_eq_succ_of_ne_zero (Nat.ne_of_gt h)
    rfl
  | cons c cs ih =>
    obtain ⟨fuel, rfl⟩ := Nat.exists_eq_succ_of_ne_zero (Nat.ne_of_gt (Nat.zero_lt_of_lt h))
    rw [List.flatMap_cons, List.append_assoc, readQuoted?_escapeChar,
      ih (Nat.lt_of_succ_lt_succ h)]
    rfl

theorem length_escaped (cs : List Char) : cs.length ≤ (cs.flatMap escapeChar).length := by
  induction cs with
  | nil => exact Nat.le_refl 0
  | cons c cs ih =>
    have hc : 0 < (escapeChar c).length := by
      rcases escapeChar_cases c with ⟨he, -⟩ | ⟨es, he⟩ <;> rw [he] <;> exact Nat.succ_pos _
    rw [List.flatMap_cons, List.length_append, List.length_cons]
    omega

/-- A quoted text at the front of a text is read as it was. -/
theorem readDocument?_quote (fuel depth : Nat) (s : String) (rest : List Char) :
    readDocument? (fuel + 1) depth (quote s ++ rest) = some (.string s, rest) := by
  have hform : quote s ++ rest = '"' :: (s.toList.flatMap escapeChar ++ '"' :: rest) := by
    unfold quote
    rw [List.append_assoc]
    rfl
  have hlength := length_escaped s.toList
  have hread : readText? (s.toList.flatMap escapeChar ++ '"' :: rest) = some (s, rest) := by
    unfold readText?
    rw [readQuoted?_escaped (by rw [List.length_append]; omega)]
    exact congrArg (fun t => some (t, rest)) (String.ofList_toList)
  rw [hform, readDocument?]
  show (readText? _).map _ = _
  rw [hread]
  rfl

/-! ### Lists of texts -/

theorem itemChars_texts (s : String) (ss : List String) :
    ∃ tail, itemChars ((s :: ss).map .string) = '"' :: tail := by
  cases ss <;> exact ⟨_, rfl⟩

/-- Texts with commas between them are read up to the closing bracket. -/
theorem readItems?_texts {fuel : Nat} (depth : Nat) (s : String) (ss : List String)
    (h : ss.length + 1 < fuel) (rest : List Char) :
    readItems? fuel depth (itemChars ((s :: ss).map .string) ++ ']' :: rest) =
      some ((s :: ss).map .string, rest) := by
  induction ss generalizing fuel s with
  | nil =>
    obtain ⟨fuel, rfl⟩ : ∃ n, fuel = n + 2 := ⟨fuel - 2, by rw [List.length_nil] at h; omega⟩
    show readItems? (fuel + 2) depth (quote s ++ ']' :: rest) = _
    rw [readItems?, readDocument?_quote]
    rfl
  | cons t ss ih =>
    obtain ⟨fuel, rfl⟩ : ∃ n, fuel = n + 2 := ⟨fuel - 2, by omega⟩
    have hlt : ss.length + 1 < fuel + 1 := by rw [List.length_cons] at h; omega
    have hrest := ih t hlt
    have hform : itemChars ((s :: t :: ss).map .string) ++ ']' :: rest =
        quote s ++ ',' :: (itemChars ((t :: ss).map .string) ++ ']' :: rest) := by
      show quote s ++ ',' :: itemChars ((t :: ss).map .string) ++ ']' :: rest = _
      rw [List.append_assoc]
      rfl
    rw [hform, readItems?, readDocument?_quote]
    show (readItems? (fuel + 1) depth _).bind _ = _
    rw [hrest]
    rfl

theorem length_itemChars_texts (ss : List String) :
    ss.length ≤ (itemChars (ss.map .string)).length := by
  induction ss with
  | nil => exact Nat.le_refl 0
  | cons s ss ih =>
    cases ss with
    | nil => exact Nat.succ_pos _
    | cons t ss =>
      show _ ≤ (quote s ++ ',' :: itemChars ((t :: ss).map .string)).length
      simp only [List.length_append, List.length_cons] at ih ⊢
      omega

theorem toValues?_texts (ss : List String) :
    Document.toValues? (ss.map .string) = some (ss.map .string) := by
  induction ss with
  | nil => rfl
  | cons s ss ih =>
    rw [List.map_cons, Document.toValues?, ih]
    rfl

/-- The JSON text of a list of texts holds that list. -/
theorem parseValue?_texts (ss : List String) :
    parseValue? (text (.list (ss.map .string))) = some (.list (ss.map .string)) := by
  have hparse : parse? (text (.list (ss.map .string))) = some (.list (ss.map .string)) := by
    cases ss with
    | nil => rfl
    | cons s ss =>
      obtain ⟨cs, hcs⟩ : ∃ cs, itemChars ((s :: ss).map .string) ++ [']'] = cs := ⟨_, rfl⟩
      have hlength : ss.length + 1 < cs.length := by
        have hle := length_itemChars_texts (s :: ss)
        rw [← hcs, List.length_append]
        exact Nat.lt_succ_of_le hle
      have hitems : readItems? (2 * (cs.length + 1)) (maxNesting - 1) cs =
          some ((s :: ss).map .string, []) := by
        rw [← hcs]
        exact readItems?_texts _ s ss (by rw [hcs]; omega) []
      have hskip : skipSpace cs = cs ∧ ∀ tail, cs ≠ ']' :: tail := by
        obtain ⟨tail, htail⟩ := itemChars_texts s ss
        rw [← hcs, htail]
        exact ⟨rfl, fun _ h => nomatch (List.cons.inj h).1⟩
      have hdocument : readDocument? (2 * (cs.length + 1) + 1) maxNesting ('[' :: cs) =
          some (.list ((s :: ss).map .string), []) := by
        have hopen : skipSpace ('[' :: cs) = '[' :: cs := rfl
        rw [readDocument?]
        simp only [hopen, hskip.1]
        rw [if_neg (by decide)]
        split
        · next h => exact absurd rfl (hskip.2 _)
        · rw [hitems]
          rfl
      unfold parse? text
      rw [String.toList_ofList]
      show ((readDocument? (2 * ('[' :: (itemChars ((s :: ss).map .string) ++ [']'])).length + 1)
        maxNesting ('[' :: (itemChars ((s :: ss).map .string) ++ [']']))).bind _) = _
      rw [hcs, List.length_cons, hdocument]
      rfl
  unfold parseValue?
  rw [hparse]
  show ((Document.toValues? (ss.map .string)).map Value.list) = _
  rw [toValues?_texts]
  rfl

end Json

/-! ### Numerals of ids -/

namespace Text

/-- Numerals have no white space to trim. -/
theorem isBlank_numeralChar {c : Char} (h : Json.isNumeralChar c = true) : isBlank c = false := by
  unfold Json.isNumeralChar at h
  simp only [Bool.or_eq_true, decide_eq_true_eq] at h
  rcases h with (((h | rfl) | rfl) | rfl) | rfl
  · exact isBlank_of_isDigit h
  all_goals decide

theorem trim_numeral (n : Number) : trim n.text = n.text :=
  trim_of_trimmed <| trimmed_of_forall fun c hc =>
    isBlank_numeralChar (Json.isNumeralChar_text n c hc)

theorem readNatural?_integer {i : Int} (h : minSigned ≤ i ∧ i < unsignedEnd) (hi : 0 ≤ i) :
    readNatural? (Number.text (.integer i h)) = some i.toNat := by
  have hindex : readIndex? (Number.text (.integer i h)) = some i.toNat := by
    have htext : Number.text (.integer i h) = Path.indexText i.toNat := by
      rw [← String.toList_inj, Number.text_integer, if_neg (by omega)]
      unfold Path.indexText
      rw [String.toList_ofList]
      congr 1
      omega
    rw [htext]
    exact Path.readIndex?_indexText _
  unfold readNatural?
  rw [hindex]
  have hlt : i.toNat < wordEnd := by
    have hend : i < 18446744073709551616 := h.2
    show i.toNat < 18446744073709551616
    omega
  simp only [Option.filter_some, hlt, decide_true, if_true]

/-- A double is not written in digits only. -/
theorem readNatural?_real (x : Binary64) : readNatural? x.text = none := by
  have hreal := Binary64.isReal_magnitudeText x.units
  have hindex : readIndex? x.text = none := by
    have hplus : ∀ ds, x.text.toList ≠ '+' :: ds := by
      intro ds he
      rw [Binary64.text_eq] at he
      split at he
      · exact absurd (List.cons.inj he).1 (by decide)
      · exact absurd (hreal.head he) (by decide)
    have hdigits : ¬ x.text.toList.all Char.isDigit = true := by
      intro hall
      have hall := List.all_eq_true.mp hall
      rw [Binary64.text_eq] at hall
      split at hall
      · exact absurd (hall '-' List.mem_cons_self) (by decide)
      · exact hreal.not_digits hall
    unfold readIndex?
    refine if_neg fun h => ?_
    obtain ⟨-, hall⟩ := h
    split at hall
    · next ds he => exact hplus ds he
    · exact hdigits hall
  unfold readNatural?
  rw [hindex]
  rfl

end Text

/-! ### The codec -/

namespace Kinds

/-- The text under which an item of a list is stored. -/
def storedText : Value → String
  | .string s => s
  | v => Json.text v

theorem serializeIds_list (items : List Value) :
    serializeIds (.list items) =
      .string (Json.text (.list ((items.map storedText).map .string))) := by
  show Value.string (Json.text (.list (items.map _))) = _
  rw [List.map_map]
  congr 4
  funext v
  cases v <;> rfl

/-- Every item of a stored list is read from its text. -/
theorem deserializeIds_serializeIds (items : List Value) :
    deserializeIds (serializeIds (.list items)) =
      .list (items.map fun v => toId (.string (storedText v))) := by
  rw [serializeIds_list]
  unfold deserializeIds
  simp only [Json.parseValue?_texts]
  simp only [List.map_map, Function.comp_def]

/-- What comes back of an id: an integer itself, a double as its text. -/
def returned : Value → Value
  | .number (.real x) => .string x.text
  | v => v

theorem toId_numeral {s : String} {n : Nat} (h : Text.readNatural? (Text.trim s) = some n) :
    toId (.string s) = .ofInt n := by
  rw [toId, h]
  rfl

theorem toId_other {s : String} (h : Text.readNatural? (Text.trim s) = none) :
    toId (.string s) = .string s := by
  rw [toId, h]
  rfl

theorem toId_storedText {v : Value} (h : v.id?.isSome = true) :
    toId (.string (storedText v)) = returned v := by
  obtain ⟨id, hid⟩ := Option.isSome_iff_exists.mp h
  obtain ⟨n, rfl⟩ := number_of_id? hid
  have htext : storedText (.number n) = n.text := String.ofList_toList
  rw [htext]
  cases n with
  | integer i hi =>
    have hpos : 0 < i := by
      by_contra hneg
      simp [Value.id?, hneg] at hid
    have hback : Value.ofInt i.toNat = .number (.integer i hi) := by
      unfold Value.ofInt Number.ofInt
      have hcast : (i.toNat : Int) = i := by omega
      rw [hcast, dif_pos hi]
    refine (toId_numeral ?_).trans hback
    rw [Text.trim_numeral]
    exact Text.readNatural?_integer hi (by omega)
  | real x =>
    refine toId_other ?_
    rw [Text.trim_numeral]
    exact Text.readNatural?_real x

/-- The value is a whole number that is no double. -/
def isInteger : Value → Bool
  | .number (.integer ..) => true
  | _ => false

theorem id?_returned {v : Value} (h : v.id?.isSome = true) :
    (returned v).id?.isSome = isInteger v := by
  obtain ⟨id, hid⟩ := Option.isSome_iff_exists.mp h
  obtain ⟨n, rfl⟩ := number_of_id? hid
  cases n with
  | integer i hi => exact h
  | real x => rfl

theorem returned_of_isInteger {v : Value} (h : isInteger v = true) : returned v = v := by
  cases v with
  | number n =>
    cases n with
    | integer i hi => rfl
    | real x => cases h
  | _ => rfl

theorem deserializeIds_ids {items : List Value} (h : ∀ x ∈ items, x.id?.isSome = true) :
    deserializeIds (serializeIds (.list items)) = .list (items.map returned) := by
  rw [deserializeIds_serializeIds]
  exact congrArg Value.list (List.map_congr_left fun x hx => toId_storedText (h x hx))

/-- Of an accepted list of ids every integer comes back as it was and every double as its text, so
the list that comes back is accepted and denotes the same ids exactly when no id was a double. -/
theorem isIdList_returned_iff {v : Value} (h : isIdList v = true) :
    deserializeIds (serializeIds v) = .list (v.items.map returned) ∧
      (isIdList (deserializeIds (serializeIds v)) = true ∧
          (deserializeIds (serializeIds v)).items.map Value.id? = v.items.map Value.id? ↔
        ∀ x ∈ v.items, isInteger x = true) := by
  cases v with
  | list items =>
    have hids : ∀ x ∈ items, x.id?.isSome = true := List.all_eq_true.mp h
    have hback := deserializeIds_ids hids
    refine ⟨hback, ?_⟩
    rw [hback]
    constructor
    · rintro ⟨haccepted, -⟩ x hx
      have hall := List.all_eq_true.mp haccepted (returned x) (List.mem_map_of_mem hx)
      rwa [id?_returned (hids x hx)] at hall
    · intro hintegers
      have hsame : items.map returned = items :=
        (List.map_congr_left fun x hx => returned_of_isInteger (hintegers x hx)).trans
          (List.map_id _)
      rw [hsame]
      exact ⟨h, rfl⟩
  | _ => cases h

/-- The least and the greatest id. -/
theorem isIdList_returned_ends :
    let v : Value := .list [.ofInt 1, .ofInt 18446744073709551615]
    isIdList v = true ∧ (∀ x ∈ v.items, isInteger x = true) ∧
      deserializeIds (serializeIds v) = v ∧
      isIdList (deserializeIds (serializeIds v)) = true ∧
      (deserializeIds (serializeIds v)).items.map Value.id? =
        [some 1, some 18446744073709551615] := by
  intro v
  have hv : isIdList v = true := rfl
  have hintegers : ∀ x ∈ v.items, isInteger x = true := by decide
  obtain ⟨hback, hsurvives⟩ := isIdList_returned_iff hv
  obtain ⟨haccepted, hids⟩ := hsurvives.mpr hintegers
  exact ⟨hv, hintegers, hback, haccepted, hids⟩

/-- The id 1 as a double is accepted, and is no id any more when it comes back. -/
theorem isIdList_not_returned :
    let v : Value := .list [.number (.real (.ofInt 1))]
    isIdList v = true ∧ v.items.map Value.id? = [some 1] ∧
      deserializeIds (serializeIds v) = .list [.string "1.0"] ∧
      isIdList (deserializeIds (serializeIds v)) = false ∧
      (deserializeIds (serializeIds v)).items.map Value.id? = [none] := by
  intro v
  have hv : isIdList v = true := by decide +kernel
  have hback : deserializeIds (serializeIds v) = .list [.string "1.0"] := by
    rw [deserializeIds_ids (List.all_eq_true.mp hv)]
    decide +kernel
  rw [hback]
  exact ⟨hv, by decide +kernel, rfl, rfl, rfl⟩

end Kinds

end ContentSchema
