import ContentSchema.Number
import ContentSchema.Proofs.Basins

/-!
# Numerals — a number is determined by its text

Reading a numeral as a rational gives back the decimal it was written from, whatever notation was
chosen.  The rational of a double's numeral lies in the double's basin, so two doubles with one text
are one double; and an integer has neither a point nor an exponent.
-/

namespace ContentSchema.Text

/-! ### Digits -/

theorem digitsValue_eq (cs : List Char) : digitsValue cs = Nat.ofDigitChars 10 cs 0 := rfl

theorem digitsValue_append (cs ds : List Char) :
    digitsValue (cs ++ ds) = digitsValue cs * 10 ^ ds.length + digitsValue ds := by
  rw [digitsValue_eq, digitsValue_eq, digitsValue_eq, Nat.ofDigitChars_append,
    Nat.ofDigitChars_eq_ofDigitChars_zero, Nat.mul_comm]

theorem digitsValue_zeros (n : Nat) (cs : List Char) :
    digitsValue (List.replicate n '0' ++ cs) = digitsValue cs := by
  rw [digitsValue_append, digitsValue_eq (List.replicate n '0'), Nat.ofDigitChars_replicate_zero,
    Nat.mul_zero, Nat.zero_mul, Nat.zero_add]

theorem digitsValue_toDigits (n : Nat) : digitsValue (Nat.toDigits 10 n) = n :=
  Nat.ofDigitChars_ten_toDigits

theorem isDigit_toDigits {n : Nat} {c : Char} (h : c ∈ Nat.toDigits 10 n) : c.isDigit = true :=
  Nat.isDigit_of_mem_toDigits (by decide) (by decide) h

theorem toDigits_injective {n m : Nat} (h : Nat.toDigits 10 n = Nat.toDigits 10 m) : n = m := by
  rw [← digitsValue_toDigits n, h, digitsValue_toDigits]

theorem isDigit_replicate {n : Nat} {c : Char} (h : c ∈ List.replicate n '0') :
    c.isDigit = true := by
  rw [(List.mem_replicate.mp h).2]
  decide

/-- A run of digits ends where something else starts. -/
theorem takeDigits_append {ds rest : List Char} (hds : ∀ c ∈ ds, c.isDigit = true)
    (hrest : ∀ c cs, rest = c :: cs → c.isDigit = false) :
    takeDigits (ds ++ rest) = (ds, rest) := by
  unfold takeDigits
  rw [List.takeWhile_append_of_pos hds, List.dropWhile_append_of_pos hds]
  cases rest with
  | nil => simp
  | cons c cs =>
    have hc := hrest c cs rfl
    simp [hc]

/-- The rational that a numeral without a sign stands for. -/
def numeralValue (cs : List Char) : ℚ :=
  let (whole, rest) := takeDigits cs
  let (fraction, rest) :=
    match rest with
    | '.' :: rest => takeDigits rest
    | rest => ([], rest)
  digitsValue (whole ++ fraction) *
    (10 : ℚ) ^ ((readExponent? rest).getD 0 - fraction.length)

/-- A numeral with a fraction and an optional exponent. -/
theorem numeralValue_point {w f r : List Char} {e : Int}
    (hw : ∀ c ∈ w, c.isDigit = true) (hf : ∀ c ∈ f, c.isDigit = true)
    (hrest : ∀ c cs, r = c :: cs → c.isDigit = false) (he : readExponent? r = some e) :
    numeralValue (w ++ '.' :: (f ++ r)) =
      digitsValue (w ++ f) * (10 : ℚ) ^ (e - f.length) := by
  have hpoint : ∀ c cs, '.' :: (f ++ r) = c :: cs → c.isDigit = false := by
    intro c cs h
    rw [← (List.cons.inj h).1]
    decide
  unfold numeralValue
  rw [takeDigits_append hw hpoint]
  simp only [takeDigits_append hf hrest, he, Option.getD_some]

/-- A numeral without a point. -/
theorem numeralValue_exponent {w r : List Char} {c : Char} {e : Int}
    (hw : ∀ c ∈ w, c.isDigit = true) (hc : c.isDigit = false) (hpoint : c ≠ '.')
    (he : readExponent? (c :: r) = some e) :
    numeralValue (w ++ c :: r) = digitsValue w * (10 : ℚ) ^ e := by
  have hrest : ∀ d cs, c :: r = d :: cs → d.isDigit = false := by
    intro d cs h
    rw [← (List.cons.inj h).1]
    exact hc
  unfold numeralValue
  rw [takeDigits_append hw hrest]
  have hmatch : (match c :: r with
      | '.' :: r => takeDigits r
      | r => ([], r)) = ([], c :: r) := by
    split
    · next h => exact absurd (List.cons.inj h).1 hpoint
    · rfl
  simp only [hmatch, he, Option.getD_some, List.append_nil, List.length_nil, Nat.cast_zero,
    Int.sub_zero]

/-- The exponents that are written are read. -/
theorem readExponent?_written (e : Int) :
    readExponent? ('e' :: (if e < 0 then '-' else '+') :: Nat.toDigits 10 e.natAbs) = some e := by
  have hall : (Nat.toDigits 10 e.natAbs).all Char.isDigit = true :=
    List.all_eq_true.mpr fun c hc => isDigit_toDigits hc
  have hne : Nat.toDigits 10 e.natAbs ≠ [] := Nat.toDigits_ne_nil
  unfold readExponent?
  by_cases h : e < 0
  · rw [if_pos h]
    simp only [takeSign, hall, hne, true_or, and_self, if_true, ne_eq, not_false_eq_true,
      digitsValue_toDigits]
    congr 1
    omega
  · rw [if_neg h]
    simp only [takeSign, hall, hne, true_or, and_self, if_true, ne_eq, not_false_eq_true,
      digitsValue_toDigits, Bool.false_eq_true, if_false]
    congr 1
    omega

/-! ### Notations

The digits of a decimal, with the point in one of the places that a decimal puts it. -/

section Notations

variable {ds : List Char} (hds : ∀ c ∈ ds, c.isDigit = true)

include hds

/-- All digits before the point. -/
theorem numeralValue_whole (z : Nat) :
    numeralValue (ds ++ List.replicate z '0' ++ ['.', '0']) =
      digitsValue ds * (10 : ℚ) ^ (z : ℤ) := by
  have hw : ∀ c ∈ ds ++ List.replicate z '0', c.isDigit = true := by
    intro c hc
    rcases List.mem_append.mp hc with hc | hc
    · exact hds c hc
    · exact isDigit_replicate hc
  have h := numeralValue_point (r := []) hw (f := ['0']) (List.all_eq_true.mp rfl) nofun rfl
  have hv : digitsValue (ds ++ List.replicate z '0' ++ ['0']) =
      digitsValue ds * 10 ^ (z + 1) := by
    rw [List.append_assoc, digitsValue_append, digitsValue_zeros]
    simp [digitsValue]
  refine h.trans ?_
  rw [hv, List.length_singleton]
  push_cast
  rw [zpow_neg_one, zpow_natCast, pow_succ]
  field_simp

/-- The point between two digits. -/
theorem numeralValue_split (n : Nat) :
    numeralValue (ds.take n ++ '.' :: ds.drop n) =
      digitsValue ds * (10 : ℚ) ^ (0 - ((ds.length - n : Nat) : ℤ)) := by
  have h := numeralValue_point (r := []) (w := ds.take n) (f := ds.drop n)
    (fun c hc => hds c (List.mem_of_mem_take hc))
    (fun c hc => hds c (List.mem_of_mem_drop hc)) nofun rfl
  rw [List.append_nil, List.take_append_drop, List.length_drop] at h
  exact h

/-- Zeros behind the point. -/
theorem numeralValue_leading (z : Nat) :
    numeralValue (['0', '.'] ++ List.replicate z '0' ++ ds) =
      digitsValue ds * (10 : ℚ) ^ (0 - ((z + ds.length : Nat) : ℤ)) := by
  have hf : ∀ c ∈ List.replicate z '0' ++ ds, c.isDigit = true := by
    intro c hc
    rcases List.mem_append.mp hc with hc | hc
    · exact isDigit_replicate hc
    · exact hds c hc
  have h := numeralValue_point (r := []) (w := ['0']) (List.all_eq_true.mp rfl) hf nofun rfl
  have hv : digitsValue (['0'] ++ (List.replicate z '0' ++ ds)) = digitsValue ds := by
    rw [show (['0'] : List Char) = List.replicate 1 '0' from rfl, digitsValue_zeros,
      digitsValue_zeros]
  rw [List.append_nil, hv, List.length_append, List.length_replicate] at h
  exact h

/-- One digit and an exponent. -/
theorem numeralValue_scientific (e : Int) :
    numeralValue (ds.take 1 ++ (if ds.length ≤ 1 then [] else '.' :: ds.drop 1) ++
        'e' :: (if e < 0 then '-' else '+') :: Nat.toDigits 10 e.natAbs) =
      digitsValue ds * (10 : ℚ) ^ (e - ((ds.length - 1 : Nat) : ℤ)) := by
  split
  · next hone =>
    rw [List.take_of_length_le hone, List.append_nil, Nat.sub_eq_zero_of_le hone, Nat.cast_zero,
      Int.sub_zero]
    exact numeralValue_exponent hds (by decide) (by decide) (readExponent?_written e)
  · have h := numeralValue_point (w := ds.take 1) (f := ds.drop 1)
      (fun c hc => hds c (List.mem_of_mem_take hc))
      (fun c hc => hds c (List.mem_of_mem_drop hc))
      (r := 'e' :: (if e < 0 then '-' else '+') :: Nat.toDigits 10 e.natAbs)
      (by intro c cs h; rw [← (List.cons.inj h).1]; decide) (readExponent?_written e)
    rw [List.take_append_drop, List.length_drop] at h
    rw [List.append_assoc]
    exact h

end Notations

end ContentSchema.Text

namespace ContentSchema.Binary64

open Text

/-- The numeral of a decimal stands for it. -/
theorem numeralValue_decimalText (d : Decimal) : numeralValue (decimalText d) = d.value := by
  obtain ⟨ds, hds⟩ : ∃ ds, digitsText d.digits = ds := ⟨_, rfl⟩
  have hval : digitsValue ds = d.digits := by rw [← hds]; exact digitsValue_toDigits _
  have hdigit : ∀ c ∈ ds, c.isDigit = true := fun c hc => isDigit_toDigits (hds ▸ hc)
  have hpos : 0 < ds.length := by
    rw [← hds]
    exact List.length_pos_iff.mpr Nat.toDigits_ne_nil
  unfold decimalText Decimal.value
  simp only [hds]
  obtain ⟨e, he⟩ : ∃ e : Int, d.exponent + (ds.length - 1 : Nat) = e := ⟨_, rfl⟩
  rw [he]
  split
  · split
    · split
      · rw [numeralValue_whole hdigit, hval]
        congr 2
        omega
      · rw [numeralValue_split hdigit, hval]
        congr 2
        omega
    · rw [numeralValue_leading hdigit, hval]
      congr 2
      omega
  · refine (numeralValue_scientific hdigit e).trans ?_
    rw [hval]
    congr 2
    omega

/-- A numeral with a point or an exponent behind its first digits. -/
def IsReal (cs : List Char) : Prop :=
  ∃ w c rest, cs = w ++ c :: rest ∧ w ≠ [] ∧ (∀ c ∈ w, c.isDigit = true) ∧ c.isDigit = false

theorem isReal_decimalText (d : Decimal) : IsReal (decimalText d) := by
  obtain ⟨ds, hds⟩ : ∃ ds, digitsText d.digits = ds := ⟨_, rfl⟩
  have hdigit : ∀ c ∈ ds, c.isDigit = true := fun c hc => isDigit_toDigits (hds ▸ hc)
  have hne : ds ≠ [] := by
    rw [← hds]
    exact Nat.toDigits_ne_nil
  have htake : ∀ {k}, ds.take (k + 1) ≠ [] := by
    intro k h
    rcases List.take_eq_nil_iff.mp h with h | h
    · cases h
    · exact hne h
  have htaked : ∀ {k}, ∀ c ∈ ds.take k, c.isDigit = true := fun c hc =>
    hdigit c (List.mem_of_mem_take hc)
  unfold decimalText
  simp only [hds]
  obtain ⟨e, he⟩ : ∃ e : Int, d.exponent + (ds.length - 1 : Nat) = e := ⟨_, rfl⟩
  rw [he]
  split
  · split
    · split
      · refine ⟨ds ++ List.replicate (e.toNat + 1 - ds.length) '0', '.', ['0'], rfl, ?_, ?_,
          by decide⟩
        · intro h
          exact hne (List.append_eq_nil_iff.mp h).1
        · intro c hc
          rcases List.mem_append.mp hc with hc | hc
          · exact hdigit c hc
          · exact isDigit_replicate hc
      · exact ⟨_, '.', _, rfl, htake, htaked, by decide⟩
    · exact ⟨['0'], '.', _, rfl, by decide, List.all_eq_true.mp rfl, by decide⟩
  · by_cases hone : ds.length ≤ 1
    · rw [if_pos hone, List.append_nil]
      exact ⟨_, 'e', _, rfl, htake, htaked, by decide⟩
    · rw [if_neg hone, List.append_assoc]
      exact ⟨_, '.', _, rfl, htake, htaked, by decide⟩

/-- The numeral of a double without its sign. -/
def magnitudeText (units : Nat) : List Char :=
  if units = 0 then ['0', '.', '0'] else decimalText (shortest units)

theorem text_eq (x : Binary64) :
    x.text.toList = if x.negative then '-' :: magnitudeText x.units else magnitudeText x.units := by
  unfold text magnitudeText
  rw [String.toList_ofList]

theorem isReal_magnitudeText (n : Nat) : IsReal (magnitudeText n) := by
  unfold magnitudeText
  split
  · exact ⟨['0'], '.', ['0'], rfl, by decide, List.all_eq_true.mp rfl, by decide⟩
  · exact isReal_decimalText _

/-- A numeral starts with a digit. -/
theorem IsReal.head {cs : List Char} (h : IsReal cs) {c : Char} {rest : List Char}
    (hc : cs = c :: rest) : c.isDigit = true := by
  obtain ⟨w, d, tail, rfl, hw, hdigit, -⟩ := h
  obtain ⟨a, w', rfl⟩ := List.exists_cons_of_ne_nil hw
  rw [← (List.cons.inj hc).1]
  exact hdigit a List.mem_cons_self

/-- A numeral is no run of digits. -/
theorem IsReal.not_digits {cs : List Char} (h : IsReal cs) : ¬ ∀ c ∈ cs, c.isDigit = true := by
  obtain ⟨w, d, tail, rfl, -, -, hd⟩ := h
  intro hall
  rw [hall d (List.mem_append_right _ List.mem_cons_self)] at hd
  cases hd

theorem numeralValue_magnitudeText (n : Nat) :
    numeralValue (magnitudeText n) = if n = 0 then 0 else (shortest n).value := by
  unfold magnitudeText
  split
  · have hzero : digitsValue ['0', '0'] = 0 := by decide
    have h := numeralValue_point (w := ['0']) (f := ['0']) (r := []) (e := 0)
      (List.all_eq_true.mp rfl) (List.all_eq_true.mp rfl) nofun rfl
    refine h.trans ?_
    rw [show (['0'] ++ ['0'] : List Char) = ['0', '0'] from rfl, hzero]
    simp
  · exact numeralValue_decimalText _

theorem one_cast_pos : (0 : ℚ) < one := by exact_mod_cast one_pos

theorem value_shortest_pos {n : Nat} (h : n ≠ 0) : 0 < (shortest n).value :=
  pos_of_mul_pos_left ((inBasin_shortest n).pos (Nat.pos_of_ne_zero h)) one_cast_pos.le

/-- Two magnitudes with one numeral are equal. -/
theorem magnitudeText_injective {n m : Nat} (hn : Representable n) (hm : Representable m)
    (h : magnitudeText n = magnitudeText m) : n = m := by
  have hval := congrArg numeralValue h
  rw [numeralValue_magnitudeText, numeralValue_magnitudeText] at hval
  split at hval
  · next h0 =>
    split at hval
    · next h1 => rw [h0, h1]
    · next h1 => exact absurd hval (value_shortest_pos h1).ne
  · next h0 =>
    split at hval
    · exact absurd hval.symm (value_shortest_pos h0).ne
    · have hb := inBasin_shortest m
      rw [← hval] at hb
      exact inBasin_unique hn hm (inBasin_shortest n) hb

theorem text_injective {x y : Binary64} (h : x.text = y.text) : x = y := by
  have htext := congrArg String.toList h
  rw [text_eq, text_eq] at htext
  obtain ⟨s, n, hn⟩ := x
  obtain ⟨t, m, hm⟩ := y
  have hminus : ∀ {k l}, '-' :: magnitudeText k ≠ magnitudeText l := by
    intro k l e
    exact absurd ((isReal_magnitudeText l).head e.symm) (by decide)
  have hsign : s = t := by
    cases s <;> cases t
    · rfl
    · exact absurd htext.symm hminus
    · exact absurd htext hminus
    · rfl
  subst hsign
  have hmag : magnitudeText n = magnitudeText m := by
    cases s
    · exact htext
    · exact (List.cons.inj htext).2
  have := magnitudeText_injective hn hm hmag
  subst this
  rfl

end ContentSchema.Binary64

namespace ContentSchema.Number

open Text Binary64

theorem text_integer (i : Int) (h : minSigned ≤ i ∧ i < unsignedEnd) :
    (text (.integer i h)).toList =
      if i < 0 then '-' :: Nat.toDigits 10 i.natAbs else Nat.toDigits 10 i.natAbs := by
  unfold text digitsText
  rw [String.toList_ofList]
  split <;> rfl

theorem integer_text_ne_real (i : Int) (h : minSigned ≤ i ∧ i < unsignedEnd) (x : Binary64) :
    text (.integer i h) ≠ text (.real x) := by
  intro e
  have he := congrArg String.toList e
  rw [text_integer] at he
  change _ = x.text.toList at he
  rw [text_eq] at he
  have hdigits : ∀ c ∈ Nat.toDigits 10 i.natAbs, c.isDigit = true := fun c => isDigit_toDigits
  have hreal := isReal_magnitudeText x.units
  split at he
  · split at he
    · exact hreal.not_digits ((List.cons.inj he).2 ▸ hdigits)
    · exact absurd (hreal.head he.symm) (by decide)
  · split at he
    · have := hdigits '-' (he ▸ List.mem_cons_self)
      exact absurd this (by decide)
    · exact hreal.not_digits (he ▸ hdigits)

/-- A number is determined by its text. -/
theorem text_injective {a b : Number} (h : a.text = b.text) : a = b := by
  cases a with
  | integer i hi =>
    cases b with
    | integer j hj =>
      have he := congrArg String.toList h
      rw [text_integer, text_integer] at he
      have hij : i = j := by
        split at he
        · split at he
          · have := toDigits_injective (List.cons.inj he).2
            omega
          · have := isDigit_toDigits (he ▸ List.mem_cons_self)
            exact absurd this (by decide)
        · split at he
          · have := isDigit_toDigits (he.symm ▸ List.mem_cons_self)
            exact absurd this (by decide)
          · have := toDigits_injective he
            omega
      subst hij
      rfl
    | real y => exact absurd h (integer_text_ne_real i hi y)
  | real x =>
    cases b with
    | integer j hj => exact absurd h.symm (integer_text_ne_real j hj x)
    | real y => exact congrArg Number.real (Binary64.text_injective h)

end ContentSchema.Number
