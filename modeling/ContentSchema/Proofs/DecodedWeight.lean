import ContentSchema.Kinds.Check
import ContentSchema.Proofs.PathLaws

/-!
# Decoded weight — a value read from a text is no heavier than the text

Every part of a JSON value has at least as many characters as it has weight, so decoding a text
leaves the weight that bounds recursion into it where it was, or lower.  The reader is followed
function by function; each lemma counts the characters it consumes.
-/

namespace ContentSchema.Json

/-! ### Characters -/

theorem length_skipSpace (cs : List Char) : (skipSpace cs).length ≤ cs.length := by
  unfold skipSpace
  exact (List.dropWhile_suffix _).length_le

/-- A character behind white space is taken from the text too. -/
theorem length_of_skipSpace {cs rest : List Char} {c : Char} (h : skipSpace cs = c :: rest) :
    rest.length < cs.length := by
  have hlen := length_skipSpace cs
  rw [h, List.length_cons] at hlen
  exact hlen

theorem length_takeHexFrom? {width n m : Nat} {cs rest : List Char}
    (h : Text.takeHexFrom? n width cs = some (m, rest)) : rest.length ≤ cs.length := by
  induction width generalizing n cs with
  | zero =>
    unfold Text.takeHexFrom? at h
    exact Nat.le_of_eq (congrArg List.length (Prod.mk.inj (Option.some.inj h)).2.symm)
  | succ width ih =>
    cases cs with
    | nil => cases h
    | cons c cs =>
      unfold Text.takeHexFrom? at h
      obtain ⟨x, -, h⟩ := Option.bind_eq_some_iff.mp h
      have := ih h
      rw [List.length_cons]
      omega

theorem length_readCodePoint? {cs rest : List Char} {c : Char}
    (h : readCodePoint? cs = some (c, rest)) : rest.length ≤ cs.length := by
  unfold readCodePoint? at h
  obtain ⟨⟨high, r⟩, hhigh, h⟩ := Option.bind_eq_some_iff.mp h
  have hr : r.length ≤ cs.length := length_takeHexFrom? hhigh
  simp only at h
  split at h
  · rw [← (Prod.mk.inj (Option.some.inj h)).2]
    exact hr
  · split at h
    · cases h
    · split at h
      · next r' =>
        obtain ⟨⟨low, r''⟩, hlow, h⟩ := Option.bind_eq_some_iff.mp h
        have hr' : r''.length ≤ r'.length := length_takeHexFrom? hlow
        simp only at h
        split at h
        · rw [← (Prod.mk.inj (Option.some.inj h)).2]
          simp only [List.length_cons] at hr
          omega
        · cases h
      · cases h

theorem length_readEscape? {cs rest : List Char} {c : Char}
    (h : readEscape? cs = some (c, rest)) : rest.length < cs.length := by
  unfold readEscape? at h
  split at h
  all_goals first
    | (rw [← (Prod.mk.inj (Option.some.inj h)).2, List.length_cons]; omega)
    | (rw [List.length_cons]; exact Nat.lt_succ_of_le (length_readCodePoint? h))
    | cases h

/-- A quoted text takes its characters and its closing quote. -/
theorem length_readQuoted? {fuel : Nat} {cs text rest : List Char}
    (h : readQuoted? fuel cs = some (text, rest)) : text.length + rest.length < cs.length := by
  induction fuel generalizing cs text with
  | zero => cases h
  | succ fuel ih =>
    cases cs with
    | nil => cases h
    | cons c cs =>
      unfold readQuoted? at h
      rw [List.length_cons]
      split at h
      · obtain ⟨rfl, rfl⟩ := Prod.mk.inj (Option.some.inj h)
        rw [List.length_nil]
        omega
      · split at h
        · obtain ⟨⟨d, r⟩, hd, h⟩ := Option.bind_eq_some_iff.mp h
          obtain ⟨⟨ds, r'⟩, hds, h⟩ := Option.bind_eq_some_iff.mp h
          obtain ⟨rfl, rfl⟩ := Prod.mk.inj (Option.some.inj h)
          have h1 := length_readEscape? hd
          have h2 := ih hds
          rw [List.length_cons]
          omega
        · split at h
          · cases h
          · obtain ⟨⟨ds, r'⟩, hds, h⟩ := Option.bind_eq_some_iff.mp h
            obtain ⟨rfl, rfl⟩ := Prod.mk.inj (Option.some.inj h)
            have h2 := ih hds
            rw [List.length_cons]
            omega

theorem length_readText? {cs rest : List Char} {s : String}
    (h : readText? cs = some (s, rest)) : s.length + rest.length < cs.length := by
  unfold readText? at h
  obtain ⟨⟨text, r⟩, htext, h⟩ := Option.bind_eq_some_iff.mp h
  obtain ⟨rfl, rfl⟩ := Prod.mk.inj (Option.some.inj h)
  rw [String.length_ofList]
  exact length_readQuoted? htext

/-! ### Numbers and words -/

theorem length_takeDigits (cs : List Char) :
    (Text.takeDigits cs).1.length + (Text.takeDigits cs).2.length = cs.length := by
  unfold Text.takeDigits
  rw [← List.length_append, List.takeWhile_append_dropWhile]

theorem length_takeSign (cs : List Char) : (Text.takeSign cs).2.length ≤ cs.length := by
  unfold Text.takeSign
  split <;> simp only [List.length_cons] <;> omega

theorem length_readExponent? {cs rest : List Char} {e : Int}
    (h : readExponent? cs = some (e, rest)) : rest.length ≤ cs.length := by
  unfold readExponent? at h
  simp only at h
  split at h
  · cases h
  · rw [← (Prod.mk.inj (Option.some.inj h)).2]
    have h1 := length_takeSign cs
    have h2 := length_takeDigits (Text.takeSign cs).2
    omega

/-- The rest after an optional exponent, whatever reads the double. -/
theorem length_of_real {read : Int → Option Binary64} {exponent : Int} {cs rest : List Char}
    {n : Number}
    (h : (do
      let (exponent, rest) ← match cs with
        | 'e' :: rest | 'E' :: rest => do
          let (e, rest) ← readExponent? rest
          some (exponent + e, rest)
        | rest => some (exponent, rest)
      let x ← read exponent
      some (Number.real x, rest)) = some (n, rest)) : rest.length ≤ cs.length := by
  have hreal : ∀ {e : Int} {r : List Char},
      ((read e).bind fun x => some (Number.real x, r)) = some (n, rest) → r = rest := by
    intro e r h
    obtain ⟨x, -, h⟩ := Option.bind_eq_some_iff.mp h
    exact (Prod.mk.inj (Option.some.inj h)).2
  split at h
  · obtain ⟨⟨e, r⟩, he, h⟩ := Option.bind_eq_some_iff.mp h
    have := length_readExponent? he
    rw [← hreal h, List.length_cons]
    omega
  · obtain ⟨⟨e, r⟩, he, h⟩ := Option.bind_eq_some_iff.mp h
    have := length_readExponent? he
    rw [← hreal h, List.length_cons]
    omega
  · exact Nat.le_of_eq (congrArg List.length (hreal h)).symm

theorem length_finishReal? {negative : Bool} {digits : Nat} {exponent : Int} {cs rest : List Char}
    {n : Number} (h : finishReal? negative digits exponent cs = some (n, rest)) :
    rest.length ≤ cs.length := length_of_real h

theorem length_readNumber? {cs rest : List Char} {n : Number}
    (h : readNumber? cs = some (n, rest)) : rest.length < cs.length := by
  unfold readNumber? at h
  split at h
  next negative body hsplit =>
  have hbody : body.length ≤ cs.length := by
    split at hsplit
    · rw [← (Prod.mk.inj hsplit).2, List.length_cons]
      omega
    · exact Nat.le_of_eq (congrArg List.length (Prod.mk.inj hsplit).2.symm)
  have hlen := length_takeDigits body
  obtain ⟨⟨whole, r⟩, hwhole⟩ : ∃ p, Text.takeDigits body = p := ⟨_, rfl⟩
  rw [hwhole] at hlen
  simp only at hlen
  simp only [hwhole] at h
  split at h
  · cases h
  · next hne =>
    have hpos : 0 < whole.length := List.length_pos_iff.mpr fun e => hne (.inl e)
    split at h
    · next r' =>
      have hfrac := length_takeDigits r'
      split at h
      · cases h
      · have := length_finishReal? h
        simp only [List.length_cons] at hlen
        omega
    · have := length_finishReal? h
      omega
    · have := length_finishReal? h
      omega
    · split at h
      · have := length_finishReal? h
        omega
      · split at h
        · have := length_finishReal? h
          omega
        · rw [← (Prod.mk.inj (Option.some.inj h)).2]
          omega

theorem length_expect? {word cs rest : List Char} (h : expect? word cs = some rest) :
    rest.length ≤ cs.length := by
  induction word generalizing cs with
  | nil =>
    have hrest : cs = rest := Option.some.inj h
    exact Nat.le_of_eq (congrArg List.length hrest.symm)
  | cons w word ih =>
    cases cs with
    | nil => cases h
    | cons c cs =>
      unfold expect? at h
      split at h
      · have := ih h
        rw [List.length_cons]
        omega
      · cases h

/-- A word stands for a value of weight one. -/
theorem weight_expect? {word cs rest : List Char} {d e : Document} {v w : Value}
    (hd : d.toValue? = some v) (hv : v.weight = 1)
    (h : (expect? word cs).map (d, ·) = some (e, rest)) (hw : e.toValue? = some w) :
    w.weight + rest.length ≤ cs.length + 1 := by
  obtain ⟨r, hr, h⟩ := Option.map_eq_some_iff.mp h
  obtain ⟨rfl, rfl⟩ := Prod.mk.inj h
  have := length_expect? hr
  rw [hd] at hw
  rw [← Option.some.inj hw, hv]
  omega

/-! ### Objects -/

theorem weightMembers_put (key : String) (v : Value) (es : Entries Value) :
    Value.weightMembers (es.put key v) ≤ 1 + key.length + v.weight + Value.weightMembers es := by
  induction es with
  | nil =>
    simp only [Entries.put, Value.weightMembers]
    omega
  | cons e rest ih =>
    obtain ⟨k, w⟩ := e
    unfold Entries.put
    split
    · simp only [Value.weightMembers]
      omega
    · simp only [Value.weightMembers]
      omega

theorem weightMembers_place (key : String) (v : Value) (es : Entries Value) :
    Value.weightMembers (es.place key v) = 1 + key.length + v.weight + Value.weightMembers es := by
  induction es with
  | nil => simp only [Entries.place, Value.weightMembers]
  | cons e rest ih =>
    obtain ⟨k, w⟩ := e
    unfold Entries.place
    split
    · simp only [Value.weightMembers]
    · simp only [Value.weightMembers]
      omega

theorem weightMembers_insert (key : String) (v : Value) (es : Entries Value) :
    Value.weightMembers (es.insert key v) ≤ 1 + key.length + v.weight + Value.weightMembers es := by
  unfold Entries.insert
  split
  · exact weightMembers_put key v es
  · exact Nat.le_of_eq (weightMembers_place key v es)

theorem weightMembers_sorted (ps : List (String × Value)) :
    Value.weightMembers (Entries.sorted ps) ≤ Value.weightMembers ps := by
  have hfold : ∀ es : Entries Value,
      Value.weightMembers (ps.foldl (fun es p => Entries.insert p.1 p.2 es) es) ≤
        Value.weightMembers ps + Value.weightMembers es := by
    induction ps with
    | nil =>
      intro es
      simp only [List.foldl_nil, Value.weightMembers]
      omega
    | cons p ps ih =>
      intro es
      obtain ⟨k, v⟩ := p
      have h1 := ih (Entries.insert k v es)
      have h2 := weightMembers_insert k v es
      simp only [List.foldl_cons, Value.weightMembers]
      omega
  exact hfold []

/-! ### Documents -/

/-- What the readers with this fuel take from a text weighs no more than the characters taken. -/
structure ReadsWeight (fuel : Nat) : Prop where
  document {depth : Nat} {cs rest : List Char} {d : Document} {v : Value}
    (h : readDocument? fuel depth cs = some (d, rest)) (hv : d.toValue? = some v) :
    v.weight + rest.length ≤ cs.length
  items {depth : Nat} {cs rest : List Char} {ds : List Document} {vs : List Value}
    (h : readItems? fuel depth cs = some (ds, rest)) (hvs : Document.toValues? ds = some vs) :
    Value.weightItems vs + rest.length < cs.length
  members {depth : Nat} {cs rest : List Char} {ms : List (String × Document)}
    {vs : List (String × Value)} (h : readMembers? fuel depth cs = some (ms, rest))
    (hvs : Document.toMembers? ms = some vs) :
    Value.weightMembers vs + rest.length < cs.length

section

variable {fuel depth : Nat} {cs rest : List Char}

theorem ReadsWeight.list (ih : ReadsWeight fuel) {ds : List Document} {v : Value}
    (h : readItems? fuel depth cs = some (ds, rest)) (hv : (Document.list ds).toValue? = some v) :
    v.weight + rest.length ≤ cs.length := by
  obtain ⟨vs, hvs, rfl⟩ := Option.map_eq_some_iff.mp hv
  have := ih.items h hvs
  rw [Value.weight]
  omega

theorem ReadsWeight.map (ih : ReadsWeight fuel) {ms : List (String × Document)} {v : Value}
    (h : readMembers? fuel depth cs = some (ms, rest)) (hv : (Document.map ms).toValue? = some v) :
    v.weight + rest.length ≤ cs.length := by
  obtain ⟨vs, hvs, rfl⟩ := Option.map_eq_some_iff.mp hv
  have h1 := ih.members h hvs
  have h2 := weightMembers_sorted vs
  rw [Value.weight]
  omega

theorem weight_readDocument? (ih : ReadsWeight fuel) {d : Document} {v : Value}
    (h : readDocument? (fuel + 1) depth cs = some (d, rest)) (hv : d.toValue? = some v) :
    v.weight + rest.length ≤ cs.length := by
  unfold readDocument? at h
  split at h
  · next r hr =>
    have := weight_expect? (v := .null) rfl rfl h hv
    have := length_of_skipSpace hr
    omega
  · next r hr =>
    have := weight_expect? (v := .bool true) rfl rfl h hv
    have := length_of_skipSpace hr
    omega
  · next r hr =>
    have := weight_expect? (v := .bool false) rfl rfl h hv
    have := length_of_skipSpace hr
    omega
  · next r hr =>
    obtain ⟨⟨t, r'⟩, ht, h⟩ := Option.map_eq_some_iff.mp h
    obtain ⟨rfl, rfl⟩ := Prod.mk.inj h
    have := length_readText? ht
    have := length_of_skipSpace hr
    rw [← Option.some.inj hv, Value.weight]
    omega
  · next r hr =>
    have hlen := length_of_skipSpace hr
    split at h
    · cases h
    · split at h
      · next r' hr' =>
        obtain ⟨rfl, rfl⟩ := Prod.mk.inj (Option.some.inj h)
        have := length_of_skipSpace hr'
        rw [← Option.some.inj hv, Value.weight, Value.weightItems]
        omega
      · obtain ⟨⟨ds, r'⟩, hds, h⟩ := Option.map_eq_some_iff.mp h
        obtain ⟨rfl, rfl⟩ := Prod.mk.inj h
        have := ih.list hds hv
        have := length_skipSpace r
        omega
  · next r hr =>
    have hlen := length_of_skipSpace hr
    split at h
    · cases h
    · split at h
      · next r' hr' =>
        obtain ⟨rfl, rfl⟩ := Prod.mk.inj (Option.some.inj h)
        have := length_of_skipSpace hr'
        have hnone : Value.weightMembers (Entries.sorted []) = 0 := rfl
        rw [← Option.some.inj hv, Value.weight]
        omega
      · obtain ⟨⟨ms, r'⟩, hms, h⟩ := Option.map_eq_some_iff.mp h
        obtain ⟨rfl, rfl⟩ := Prod.mk.inj h
        have := ih.map hms hv
        have := length_skipSpace r
        omega
  · obtain ⟨⟨n, r'⟩, hn, h⟩ := Option.map_eq_some_iff.mp h
    obtain ⟨rfl, rfl⟩ := Prod.mk.inj h
    have := length_readNumber? hn
    have := length_skipSpace cs
    have hweight : (Value.number n).weight = 1 := rfl
    rw [← Option.some.inj hv, hweight]
    omega

theorem weight_readItems? (ih : ReadsWeight fuel) {ds : List Document} {vs : List Value}
    (h : readItems? (fuel + 1) depth cs = some (ds, rest))
    (hvs : Document.toValues? ds = some vs) :
    Value.weightItems vs + rest.length < cs.length := by
  unfold readItems? at h
  obtain ⟨⟨d, r⟩, hd, h⟩ := Option.bind_eq_some_iff.mp h
  simp only at h
  split at h
  · next r' hr =>
    obtain ⟨⟨ds', r''⟩, hds, h⟩ := Option.bind_eq_some_iff.mp h
    simp only at h
    obtain ⟨rfl, rfl⟩ := Prod.mk.inj (Option.some.inj h)
    obtain ⟨v, hv, hvs⟩ := Option.bind_eq_some_iff.mp hvs
    obtain ⟨ws, hws, hvs⟩ := Option.bind_eq_some_iff.mp hvs
    have h1 := ih.document hd hv
    have h2 := ih.items hds hws
    have := length_of_skipSpace hr
    rw [← Option.some.inj hvs, Value.weightItems]
    omega
  · next r' hr =>
    obtain ⟨rfl, rfl⟩ := Prod.mk.inj (Option.some.inj h)
    obtain ⟨v, hv, hvs⟩ := Option.bind_eq_some_iff.mp hvs
    obtain ⟨ws, hws, hvs⟩ := Option.bind_eq_some_iff.mp hvs
    have h1 := ih.document hd hv
    have := length_of_skipSpace hr
    rw [← Option.some.inj hvs, ← Option.some.inj hws, Value.weightItems, Value.weightItems]
    omega
  · cases h

theorem weight_readMembers? (ih : ReadsWeight fuel) {ms : List (String × Document)}
    {vs : List (String × Value)} (h : readMembers? (fuel + 1) depth cs = some (ms, rest))
    (hvs : Document.toMembers? ms = some vs) :
    Value.weightMembers vs + rest.length < cs.length := by
  unfold readMembers? at h
  split at h
  · next r hr =>
    obtain ⟨⟨key, r1⟩, hkey, h⟩ := Option.bind_eq_some_iff.mp h
    have hk := length_readText? hkey
    have := length_of_skipSpace hr
    simp only at h
    split at h
    · next r2 hr2 =>
      have := length_of_skipSpace hr2
      obtain ⟨⟨d, r3⟩, hd, h⟩ := Option.bind_eq_some_iff.mp h
      simp only at h
      split at h
      · next r4 hr4 =>
        obtain ⟨⟨ms', r5⟩, hms, h⟩ := Option.bind_eq_some_iff.mp h
        simp only at h
        obtain ⟨rfl, rfl⟩ := Prod.mk.inj (Option.some.inj h)
        obtain ⟨v, hv, hvs⟩ := Option.bind_eq_some_iff.mp hvs
        obtain ⟨ws, hws, hvs⟩ := Option.bind_eq_some_iff.mp hvs
        have h1 := ih.document hd hv
        have h2 := ih.members hms hws
        have := length_of_skipSpace hr4
        rw [← Option.some.inj hvs, Value.weightMembers]
        omega
      · next r4 hr4 =>
        obtain ⟨rfl, rfl⟩ := Prod.mk.inj (Option.some.inj h)
        obtain ⟨v, hv, hvs⟩ := Option.bind_eq_some_iff.mp hvs
        obtain ⟨ws, hws, hvs⟩ := Option.bind_eq_some_iff.mp hvs
        have h1 := ih.document hd hv
        have := length_of_skipSpace hr4
        rw [← Option.some.inj hvs, ← Option.some.inj hws, Value.weightMembers,
          Value.weightMembers]
        omega
      · cases h
    · cases h
  · cases h

end

theorem readsWeight (fuel : Nat) : ReadsWeight fuel := by
  induction fuel with
  | zero => exact ⟨nofun, nofun, nofun⟩
  | succ fuel ih =>
    exact ⟨weight_readDocument? ih, weight_readItems? ih, weight_readMembers? ih⟩

/-- The value that a whole text holds is no heavier than the text is long. -/
theorem weight_parseValue? {s : String} {v : Value} (h : parseValue? s = some v) :
    v.weight ≤ s.length := by
  unfold parseValue? at h
  obtain ⟨d, hd, hv⟩ := Option.bind_eq_some_iff.mp h
  unfold parse? at hd
  obtain ⟨⟨e, rest⟩, he, hd⟩ := Option.bind_eq_some_iff.mp hd
  simp only at hd
  split at hd
  · have := (readsWeight _).document he (Option.some.inj hd ▸ hv)
    rw [String.length_toList] at this
    omega
  · cases hd

/-- Decoding does not add weight. -/
theorem weight_decodeText (accept : Value → Bool) (v : Value) :
    (decodeText accept v).weight ≤ v.weight := by
  unfold decodeText
  split
  · next s =>
    split
    · next decoded hdecoded =>
      split
      · have := weight_parseValue? hdecoded
        rw [Value.weight]
        omega
      · exact Nat.le_refl _
    · exact Nat.le_refl _
  · exact Nat.le_refl _

end ContentSchema.Json
