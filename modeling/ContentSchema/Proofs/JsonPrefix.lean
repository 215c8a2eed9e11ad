import Mathlib.Tactic.IntervalCases
import ContentSchema.Json.Reader
import ContentSchema.Json.Text
import ContentSchema.Proofs.MemberLaws
import ContentSchema.Proofs.Numerals

/-!
# JSON prefixes — a compact form says where it ends

Reading what an escape wrote gives the character back, so a quoted text ends at its own closing
quote; a numeral ends at the first character that no numeral has; and a list or an object at its own
bracket.  Two compact forms in front of what may follow a value are therefore equal only for equal
values (`chars_prefix`).
-/

namespace ContentSchema.Json

/-! ### Texts -/

/-- The first character inside a quoted text, and what follows. -/
def unescape : List Char → Option (Char × List Char)
  | '\\' :: rest => readEscape? rest
  | c :: rest => some (c, rest)
  | [] => none

theorem unescape_control (n : Nat) (h : n < 32) (rest : List Char) :
    unescape (escapeChar (Char.ofNat n) ++ rest) = some (Char.ofNat n, rest) := by
  interval_cases n <;> rfl

/-- Reading what an escape wrote. -/
theorem unescape_escapeChar (c : Char) (rest : List Char) :
    unescape (escapeChar c ++ rest) = some (c, rest) := by
  by_cases hc : c.toNat < 32
  · have h := unescape_control c.toNat hc rest
    rwa [Char.ofNat_toNat] at h
  · by_cases hq : c = '"'
    · subst hq
      rfl
    · by_cases hb : c = '\\'
      · subst hb
        rfl
      · unfold escapeChar
        rw [if_neg hq, if_neg hb, if_pos (by omega)]
        show unescape (c :: rest) = _
        unfold unescape
        split
        · next e => exact absurd (List.cons.inj e).1 hb
        · next e => rw [(List.cons.inj e).1, (List.cons.inj e).2]
        · next e => cases e

theorem escapeChar_ne_quote (c : Char) {rest tail : List Char} :
    escapeChar c ++ rest ≠ '"' :: tail := by
  intro h
  have hu := unescape_escapeChar c rest
  rw [h] at hu
  have hc : c = '"' := (Prod.mk.inj (Option.some.inj hu)).1.symm
  subst hc
  exact absurd (List.cons.inj h).1 (by decide)

theorem escape_prefix {cs ds r s : List Char}
    (h : cs.flatMap escapeChar ++ '"' :: r = ds.flatMap escapeChar ++ '"' :: s) :
    cs = ds ∧ r = s := by
  induction cs generalizing ds with
  | nil =>
    cases ds with
    | nil => exact ⟨rfl, (List.cons.inj h).2⟩
    | cons d ds =>
      rw [List.flatMap_cons, List.append_assoc] at h
      exact absurd h.symm (escapeChar_ne_quote d)
  | cons c cs ih =>
    rw [List.flatMap_cons, List.append_assoc] at h
    cases ds with
    | nil => exact absurd h (escapeChar_ne_quote c)
    | cons d ds =>
      rw [List.flatMap_cons, List.append_assoc] at h
      have hu := congrArg unescape h
      rw [unescape_escapeChar, unescape_escapeChar, Option.some.injEq, Prod.mk.injEq] at hu
      obtain ⟨hcs, hrs⟩ := ih hu.2
      exact ⟨by rw [hu.1, hcs], hrs⟩

/-- A quoted text ends at its own closing quote. -/
theorem quote_prefix {s t : String} {r r' : List Char} (h : quote s ++ r = quote t ++ r') :
    s = t ∧ r = r' := by
  unfold quote at h
  rw [List.append_assoc, List.append_assoc, List.cons_append, List.cons_append] at h
  obtain ⟨hs, hr⟩ := escape_prefix (List.cons.inj h).2
  exact ⟨String.toList_inj.mp hs, hr⟩

/-! ### Numerals -/

/-- The characters of numerals. -/
def isNumeralChar (c : Char) : Bool := c.isDigit || c = '.' || c = 'e' || c = '+' || c = '-'

theorem isNumeralChar_of_isDigit {c : Char} (h : c.isDigit = true) : isNumeralChar c = true := by
  unfold isNumeralChar
  rw [h]
  rfl

theorem isNumeralChar_digitsText {n : Nat} {c : Char} (h : c ∈ Binary64.digitsText n) :
    isNumeralChar c = true := isNumeralChar_of_isDigit (Text.isDigit_toDigits h)

theorem isNumeralChar_replicate {n : Nat} {c : Char} (h : c ∈ List.replicate n '0') :
    isNumeralChar c = true := isNumeralChar_of_isDigit (Text.isDigit_replicate h)

theorem isNumeralChar_decimalText (d : Binary64.Decimal) :
    ∀ c ∈ Binary64.decimalText d, isNumeralChar c = true := by
  obtain ⟨ds, hds⟩ : ∃ ds, Binary64.digitsText d.digits = ds := ⟨_, rfl⟩
  have hdigit : ∀ {c}, c ∈ ds → isNumeralChar c = true :=
    fun h => isNumeralChar_digitsText (hds ▸ h)
  obtain ⟨e, he⟩ : ∃ e : Int, d.exponent + (ds.length - 1 : Nat) = e := ⟨_, rfl⟩
  have htake : ∀ {k c}, c ∈ ds.take k → isNumeralChar c = true := fun h =>
    hdigit (List.mem_of_mem_take h)
  have hdrop : ∀ {k c}, c ∈ ds.drop k → isNumeralChar c = true := fun h =>
    hdigit (List.mem_of_mem_drop h)
  unfold Binary64.decimalText
  simp only [hds, he]
  split
  · split
    · split
      · intro c hc
        rcases List.mem_append.mp hc with hc | hc
        · rcases List.mem_append.mp hc with hc | hc
          · exact hdigit hc
          · exact isNumeralChar_replicate hc
        · exact List.all_eq_true.mp (rfl : ['.', '0'].all isNumeralChar = true) c hc
      · intro c hc
        rcases List.mem_append.mp hc with hc | hc
        · exact htake hc
        · rcases List.mem_cons.mp hc with rfl | hc
          · rfl
          · exact hdrop hc
    · intro c hc
      rcases List.mem_append.mp hc with hc | hc
      · rcases List.mem_append.mp hc with hc | hc
        · exact List.all_eq_true.mp (rfl : ['0', '.'].all isNumeralChar = true) c hc
        · exact isNumeralChar_replicate hc
      · exact hdigit hc
  · intro c hc
    rcases List.mem_append.mp hc with hc | hc
    · rcases List.mem_append.mp hc with hc | hc
      · exact htake hc
      · split at hc
        · cases hc
        · rcases List.mem_cons.mp hc with rfl | hc
          · rfl
          · exact hdrop hc
    · rcases List.mem_cons.mp hc with rfl | hc
      · rfl
      · rcases List.mem_cons.mp hc with rfl | hc
        · split <;> rfl
        · exact isNumeralChar_digitsText hc

theorem isNumeralChar_magnitudeText (n : Nat) :
    ∀ c ∈ Binary64.magnitudeText n, isNumeralChar c = true := by
  unfold Binary64.magnitudeText
  split
  · exact List.all_eq_true.mp rfl
  · exact isNumeralChar_decimalText _

theorem isNumeralChar_text (n : Number) : ∀ c ∈ n.text.toList, isNumeralChar c = true := by
  intro c hc
  cases n with
  | integer i h =>
    rw [Number.text_integer] at hc
    split at hc
    · rcases List.mem_cons.mp hc with rfl | hc
      · rfl
      · exact isNumeralChar_digitsText hc
    · exact isNumeralChar_digitsText hc
  | real x =>
    change c ∈ x.text.toList at hc
    rw [Binary64.text_eq] at hc
    split at hc
    · rcases List.mem_cons.mp hc with rfl | hc
      · rfl
      · exact isNumeralChar_magnitudeText _ c hc
    · exact isNumeralChar_magnitudeText _ c hc

/-- A numeral starts with a digit or a minus. -/
theorem text_head (n : Number) :
    ∃ c cs, n.text.toList = c :: cs ∧ (c.isDigit = true ∨ c = '-') := by
  cases n with
  | integer i h =>
    rw [Number.text_integer]
    split
    · exact ⟨'-', _, rfl, .inr rfl⟩
    · obtain ⟨c, cs, e⟩ :=
        List.exists_cons_of_ne_nil (Nat.toDigits_ne_nil (b := 10) (n := i.natAbs))
      exact ⟨c, cs, e, .inl (Text.isDigit_toDigits (e ▸ List.mem_cons_self))⟩
  | real x =>
    show ∃ c cs, x.text.toList = c :: cs ∧ _
    rw [Binary64.text_eq]
    split
    · exact ⟨'-', _, rfl, .inr rfl⟩
    · obtain ⟨w, d, rest, e, hw, hdigit, -⟩ := Binary64.isReal_magnitudeText x.units
      obtain ⟨c, cs, rfl⟩ := List.exists_cons_of_ne_nil hw
      exact ⟨c, cs ++ d :: rest, e, .inl (hdigit c List.mem_cons_self)⟩

/-- What follows a value inside a list or an object, or nothing. -/
def Ends (r : List Char) : Prop := ∀ c cs, r = c :: cs → c = ',' ∨ c = ']' ∨ c = '\x7d'

theorem Ends.not_numeral {r : List Char} (h : Ends r) : r.takeWhile isNumeralChar = [] := by
  cases r with
  | nil => rfl
  | cons c cs =>
    have hc : isNumeralChar c = false := by
      rcases h c cs rfl with rfl | rfl | rfl <;> decide
    rw [List.takeWhile_cons, hc]
    rfl

/-- A numeral ends in front of what may follow it. -/
theorem number_prefix {a b : Number} {r s : List Char} (hr : Ends r) (hs : Ends s)
    (h : a.text.toList ++ r = b.text.toList ++ s) : a = b ∧ r = s := by
  have htake : ∀ {n : Number} {r}, Ends r →
      (n.text.toList ++ r).takeWhile isNumeralChar = n.text.toList := by
    intro n r hr
    rw [List.takeWhile_append_of_pos (isNumeralChar_text n), hr.not_numeral, List.append_nil]
  have htext : a.text.toList = b.text.toList := by
    rw [← htake (n := a) hr, h, htake hs]
  rw [htext] at h
  exact ⟨Number.text_injective (String.toList_inj.mp htext), List.append_cancel_left h⟩

/-! ### Values -/

/-- The form of a value that its first character tells. -/
def formOf (c : Char) : Nat :=
  if c = 'n' then 0 else if c = 't' then 1 else if c = 'f' then 2 else if c = '"' then 3
  else if c = '[' then 4 else if c = '\x7b' then 5 else if c.isDigit || c = '-' then 6 else 7

/-- The form of a value. -/
def form : Value → Nat
  | .null => 0
  | .bool true => 1
  | .bool false => 2
  | .string _ => 3
  | .list _ => 4
  | .object _ => 5
  | .number _ => 6

theorem formOf_digit {c : Char} (h : c.isDigit = true ∨ c = '-') : formOf c = 6 := by
  have hne : ∀ {d : Char}, d.isDigit = false → d ≠ '-' → c ≠ d := by
    intro d hd hd' e
    subst e
    rcases h with h | h
    · rw [hd] at h
      cases h
    · exact hd' h
  unfold formOf
  rw [if_neg (hne (by decide) (by decide)), if_neg (hne (by decide) (by decide)),
    if_neg (hne (by decide) (by decide)), if_neg (hne (by decide) (by decide)),
    if_neg (hne (by decide) (by decide)), if_neg (hne (by decide) (by decide)), if_pos]
  rcases h with h | h
  · rw [h]
    rfl
  · rw [h]
    decide

theorem chars_head (v : Value) : ∃ c cs, chars v = c :: cs ∧ formOf c = form v := by
  cases v with
  | null => exact ⟨'n', _, by rw [chars], rfl⟩
  | bool b =>
    cases b
    · exact ⟨'f', _, by rw [chars], rfl⟩
    · exact ⟨'t', _, by rw [chars], rfl⟩
  | number n =>
    obtain ⟨c, cs, h, hc⟩ := text_head n
    exact ⟨c, cs, by rw [chars, h], formOf_digit hc⟩
  | string s => exact ⟨'"', _, by rw [chars]; rfl, rfl⟩
  | list items => exact ⟨'[', _, by rw [chars]; rfl, rfl⟩
  | object ms => exact ⟨'\x7b', _, by rw [chars]; rfl, rfl⟩

theorem form_eq_of_prefix {v w : Value} {r s : List Char} (h : chars v ++ r = chars w ++ s) :
    form v = form w := by
  obtain ⟨c, cs, hv, hc⟩ := chars_head v
  obtain ⟨d, ds, hw, hd⟩ := chars_head w
  rw [hv, hw] at h
  rw [← hc, ← hd, (List.cons.inj h).1]

/-- No value starts with a closing bracket. -/
theorem chars_ne_close {v : Value} {r s : List Char} {c : Char} (hc : formOf c = 7) :
    chars v ++ r ≠ c :: s := by
  intro h
  obtain ⟨d, ds, hv, hd⟩ := chars_head v
  rw [hv] at h
  have : form v = 7 := by rw [← hd, (List.cons.inj h).1, hc]
  cases v with
  | bool b => cases b <;> cases this
  | _ => cases this

/-- The forms of a value lighter than `n` end where they say. -/
def EndsBelow (n : Nat) : Prop :=
  ∀ v : Value, v.weight < n → ∀ w r s, Ends r → Ends s → chars v ++ r = chars w ++ s → v = w ∧ r = s

/-- What follows one item of a list. -/
def afterItem (items : List Value) (r : List Char) : List Char :=
  match items with
  | [] => ']' :: r
  | v :: vs => ',' :: itemChars (v :: vs) ++ ']' :: r

theorem itemChars_cons (v : Value) (items : List Value) (r : List Char) :
    itemChars (v :: items) ++ ']' :: r = chars v ++ afterItem items r := by
  cases items with
  | nil => rw [itemChars]; rfl
  | cons w rest =>
    rw [itemChars, List.append_assoc]
    rfl

theorem ends_afterItem (items : List Value) (r : List Char) : Ends (afterItem items r) := by
  intro c cs h
  cases items with
  | nil => exact .inr (.inl (List.cons.inj h).1.symm)
  | cons v vs => exact .inl (List.cons.inj h).1.symm

/-- What follows one item says what the others are. -/
theorem items_of_after {as bs : List Value} {r s : List Char}
    (h : afterItem as r = afterItem bs s) :
    itemChars as ++ ']' :: r = itemChars bs ++ ']' :: s := by
  cases as with
  | nil =>
    cases bs with
    | nil => rw [(List.cons.inj h).2]
    | cons b bs => exact absurd (List.cons.inj h).1 (by decide)
  | cons a as =>
    cases bs with
    | nil => exact absurd (List.cons.inj h).1 (by decide)
    | cons b bs => exact (List.cons.inj h).2

theorem items_prefix {as bs : List Value} {r s : List Char}
    (hlight : EndsBelow (Value.list as).weight)
    (h : itemChars as ++ ']' :: r = itemChars bs ++ ']' :: s) : as = bs ∧ r = s := by
  induction as generalizing bs with
  | nil =>
    cases bs with
    | nil => exact ⟨rfl, (List.cons.inj h).2⟩
    | cons b bs =>
      rw [itemChars_cons b] at h
      exact absurd h.symm (chars_ne_close (by decide))
  | cons a as ih =>
    rw [itemChars_cons a] at h
    cases bs with
    | nil => exact absurd h (chars_ne_close (by decide))
    | cons b bs =>
      rw [itemChars_cons b] at h
      have ha : a.weight < (Value.list (a :: as)).weight :=
        Path.weight_lt_of_mem_items List.mem_cons_self
      obtain ⟨rfl, htail⟩ := hlight a ha b _ _ (ends_afterItem as r) (ends_afterItem bs s) h
      have has : (Value.list as).weight ≤ (Value.list (a :: as)).weight := by
        simp only [Value.weight, Value.weightItems]
        omega
      obtain ⟨rfl, hrs⟩ := ih (fun v hv => hlight v (by omega)) (items_of_after htail)
      exact ⟨rfl, hrs⟩

/-- What follows one member of an object. -/
def afterMember (ms : List (String × Value)) (r : List Char) : List Char :=
  match ms with
  | [] => '\x7d' :: r
  | m :: ms => ',' :: memberChars (m :: ms) ++ '\x7d' :: r

theorem memberChars_cons (k : String) (v : Value) (ms : List (String × Value)) (r : List Char) :
    memberChars ((k, v) :: ms) ++ '\x7d' :: r =
      quote k ++ ':' :: (chars v ++ afterMember ms r) := by
  cases ms with
  | nil =>
    rw [memberChars, List.append_assoc]
    rfl
  | cons m rest =>
    rw [memberChars, List.append_assoc, List.append_assoc]
    rfl

theorem ends_afterMember (ms : List (String × Value)) (r : List Char) :
    Ends (afterMember ms r) := by
  intro c cs h
  cases ms with
  | nil => exact .inr (.inr (List.cons.inj h).1.symm)
  | cons m ms => exact .inl (List.cons.inj h).1.symm

theorem members_of_after {as bs : List (String × Value)} {r s : List Char}
    (h : afterMember as r = afterMember bs s) :
    memberChars as ++ '\x7d' :: r = memberChars bs ++ '\x7d' :: s := by
  cases as with
  | nil =>
    cases bs with
    | nil => rw [(List.cons.inj h).2]
    | cons b bs => exact absurd (List.cons.inj h).1 (by decide)
  | cons a as =>
    cases bs with
    | nil => exact absurd (List.cons.inj h).1 (by decide)
    | cons b bs => exact (List.cons.inj h).2

theorem members_prefix {as bs : List (String × Value)} {r s : List Char}
    (hlight : EndsBelow (Value.object as).weight)
    (h : memberChars as ++ '\x7d' :: r = memberChars bs ++ '\x7d' :: s) : as = bs ∧ r = s := by
  have hquote : ∀ {k : String} {x t : List Char}, quote k ++ x ≠ '\x7d' :: t := by
    intro k x t e
    exact absurd (List.cons.inj e).1 (by decide)
  induction as generalizing bs with
  | nil =>
    cases bs with
    | nil => exact ⟨rfl, (List.cons.inj h).2⟩
    | cons b bs =>
      rw [memberChars_cons b.1 b.2] at h
      exact absurd h.symm hquote
  | cons a as ih =>
    obtain ⟨k, a⟩ := a
    rw [memberChars_cons k a] at h
    cases bs with
    | nil => exact absurd h hquote
    | cons b bs =>
      obtain ⟨l, b⟩ := b
      rw [memberChars_cons l b] at h
      obtain ⟨rfl, hvalue⟩ := quote_prefix h
      have ha : a.weight < (Value.object ((k, a) :: as)).weight :=
        Path.weight_lt_of_mem_members List.mem_cons_self
      obtain ⟨rfl, htail⟩ := hlight a ha b _ _ (ends_afterMember as r) (ends_afterMember bs s)
        (List.cons.inj hvalue).2
      have has : (Value.object as).weight ≤ (Value.object ((k, a) :: as)).weight := by
        simp only [Value.weight, Value.weightMembers]
        omega
      obtain ⟨rfl, hrs⟩ := ih (fun v hv => hlight v (by omega)) (members_of_after htail)
      exact ⟨rfl, hrs⟩

/-- Compact forms in front of what may follow a value are equal only for equal values. -/
theorem chars_prefix (v : Value) : ∀ w r s, Ends r → Ends s →
    chars v ++ r = chars w ++ s → v = w ∧ r = s := by
  induction v using Value.weightInduction with
  | step v ih =>
    intro w r s hr hs h
    have hform := form_eq_of_prefix h
    cases v with
    | null =>
      cases w with
      | null => exact ⟨rfl, List.append_cancel_left h⟩
      | bool b => cases b <;> cases hform
      | _ => cases hform
    | bool b =>
      cases w with
      | bool b' =>
        cases b <;> cases b'
        · exact ⟨rfl, List.append_cancel_left h⟩
        · cases hform
        · cases hform
        · exact ⟨rfl, List.append_cancel_left h⟩
      | _ => cases b <;> cases hform
    | number a =>
      cases w with
      | number b =>
        rw [chars, chars] at h
        obtain ⟨rfl, hrs⟩ := number_prefix hr hs h
        exact ⟨rfl, hrs⟩
      | bool b => cases b <;> cases hform
      | _ => cases hform
    | string a =>
      cases w with
      | string b =>
        rw [chars, chars] at h
        obtain ⟨rfl, hrs⟩ := quote_prefix h
        exact ⟨rfl, hrs⟩
      | bool b => cases b <;> cases hform
      | _ => cases hform
    | list as =>
      cases w with
      | list bs =>
        rw [chars, chars, List.append_assoc, List.append_assoc] at h
        obtain ⟨rfl, hrs⟩ := items_prefix ih (List.cons.inj h).2
        exact ⟨rfl, hrs⟩
      | bool b => cases b <;> cases hform
      | _ => cases hform
    | object as =>
      cases w with
      | object bs =>
        rw [chars, chars, List.append_assoc, List.append_assoc] at h
        obtain ⟨rfl, hrs⟩ := members_prefix ih (List.cons.inj h).2
        exact ⟨rfl, hrs⟩
      | bool b => cases b <;> cases hform
      | _ => cases hform

/-- The compact form of an object ends at its closing brace, whatever follows. -/
theorem object_prefix {as bs : List (String × Value)} {r s : List Char}
    (h : chars (.object as) ++ r = chars (.object bs) ++ s) : as = bs ∧ r = s := by
  rw [chars, chars, List.append_assoc, List.append_assoc] at h
  exact members_prefix (fun v _ => chars_prefix v) (List.cons.inj h).2

end ContentSchema.Json
