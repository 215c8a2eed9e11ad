import ContentSchema.Calendar.Reader
import ContentSchema.Proofs.CalendarDays
import ContentSchema.Proofs.Numerals
import ContentSchema.Proofs.Trimming

/-!
# Calendar texts — what is written is read back

A number written with zeros in front is read from a field of its width, whatever stands behind it.
So a date with a year of four digits is read from its text, alone and in the internet form.  Before
that a reader tries the text as a number of milliseconds: the mark behind the first digits keeps
every date and time from being one (`Marked.readMillis?_eq_none`).  `parse_rendered` puts both
together with the dates of the days (`Date.number_ofNumber`).
-/

namespace ContentSchema.Calendar

open Text

/-! ### Padded numbers -/

section

variable {width n : Nat} {c : Char}

theorem digitsValue_padded (width n : Nat) : digitsValue (padded width n) = n := by
  unfold padded
  rw [digitsValue_zeros, digitsValue_toDigits]

theorem isDigit_of_mem_padded (h : c ∈ padded width n) : c.isDigit = true := by
  rcases List.mem_append.mp h with h | h
  · exact isDigit_replicate h
  · exact isDigit_toDigits h

theorem length_padded (hwidth : 0 < width) (hn : n < 10 ^ width) :
    (padded width n).length = width := by
  have := (Nat.length_toDigits_le_iff (by decide) hwidth).mpr hn
  unfold padded
  rw [List.length_append, List.length_replicate]
  omega

/-- A padded number starts with a digit. -/
theorem exists_padded_eq_cons (width n : Nat) :
    ∃ c cs, padded width n = c :: cs ∧ c.isDigit = true := by
  obtain ⟨c, cs, h⟩ := List.exists_cons_of_ne_nil (l := padded width n) <| by
    intro h
    exact Nat.toDigits_ne_nil (List.append_eq_nil_iff.mp h).2
  exact ⟨c, cs, h, isDigit_of_mem_padded (h ▸ List.mem_cons_self)⟩

theorem dropWhile_isBlank_padded (width n : Nat) (rest : List Char) :
    (padded width n ++ rest).dropWhile isBlank = padded width n ++ rest := by
  obtain ⟨c, cs, hcs, hc⟩ := exists_padded_eq_cons width n
  rw [hcs, List.cons_append, List.dropWhile_cons, isBlank_of_isDigit hc, if_neg Bool.false_ne_true]

theorem takeSign_padded (width n : Nat) (rest : List Char) :
    takeSign (padded width n ++ rest) = (false, padded width n ++ rest) := by
  obtain ⟨c, cs, hcs, hc⟩ := exists_padded_eq_cons width n
  rw [hcs, List.cons_append]
  unfold takeSign
  split
  · next h => exact absurd ((List.cons.inj h).1 ▸ hc) (by decide)
  · next h => exact absurd ((List.cons.inj h).1 ▸ hc) (by decide)
  · rfl

/-! ### Fields -/

variable (hwidth : 0 < width) (hn : n < 10 ^ width) (rest : List Char)
include hwidth hn

theorem takeNumber?_padded : takeNumber? width (padded width n ++ rest) = some (n, rest) := by
  have hlength := length_padded hwidth hn
  have htake : ((padded width n ++ rest).take width).takeWhile Char.isDigit = padded width n := by
    rw [List.take_left' hlength, List.takeWhile_eq_self_iff]
    exact fun c => isDigit_of_mem_padded
  have hne : (padded width n).isEmpty = false := by
    obtain ⟨c, cs, h, -⟩ := exists_padded_eq_cons width n
    rw [h]
    rfl
  unfold takeNumber?
  simp only [htake, hne, Bool.false_eq_true, if_false, digitsValue_padded, List.drop_left]

theorem takeDigits?_padded : takeDigits? width (padded width n ++ rest) = some (n, rest) := by
  have hlength := length_padded hwidth hn
  have hdigits : (padded width n).all Char.isDigit = true :=
    List.all_eq_true.mpr fun c => isDigit_of_mem_padded
  unfold takeDigits?
  simp only [List.take_left' hlength, List.drop_left' hlength, hlength, hdigits, and_self, if_true,
    digitsValue_padded]

end

theorem takeYear?_padded {n : Nat} (hn : n < 10 ^ 4) (rest : List Char) :
    takeYear? (padded 4 n ++ rest) = some ((n : Int), rest) := by
  have hnumber := takeNumber?_padded (by decide) hn rest
  obtain ⟨c, cs, hcs, hc⟩ := exists_padded_eq_cons 4 n
  rw [hcs, List.cons_append] at hnumber ⊢
  unfold takeYear?
  split
  · next h => exact absurd ((List.cons.inj h).1 ▸ hc) (by decide)
  · next h => exact absurd ((List.cons.inj h).1 ▸ hc) (by decide)
  · rw [hnumber]
    rfl

@[simp] theorem takeMark?_self (c : Char) (rest : List Char) :
    takeMark? c (c :: rest) = some rest := if_pos rfl

section

variable (parts : List Part) (rest : List Char) {n : Nat}

theorem readLayout?_year (hn : n < 10 ^ 4) :
    readLayout? (.year :: parts) (padded 4 n ++ rest) =
      (readLayout? parts rest).map ((n : Int) :: ·) := by
  rw [readLayout?, dropWhile_isBlank_padded, takeYear?_padded hn]
  rfl

theorem readLayout?_number (hn : n < 10 ^ 2) :
    readLayout? (.number :: parts) (padded 2 n ++ rest) =
      (readLayout? parts rest).map ((n : Int) :: ·) := by
  rw [readLayout?, dropWhile_isBlank_padded, takeNumber?_padded (by decide) hn]
  rfl

theorem readLayout?_mark (c : Char) :
    readLayout? (.mark c :: parts) (c :: rest) = readLayout? parts rest := by
  rw [readLayout?, if_pos rfl]

end

/-! ### Dates and times of day -/

theorem yearChars_ofNat {n : Nat} (hn : n ≤ 9999) : yearChars n = padded 4 n := by
  unfold yearChars
  rw [if_pos (by omega), Int.natAbs_natCast]

theorem yearInRange_of_le {year : Int} (hlow : 0 ≤ year) (hhigh : year ≤ 9999) :
    Date.yearInRange year = true := by
  simp only [Date.yearInRange, Bool.and_eq_true, decide_eq_true_eq]
  omega

theorem timeOfDay?_of_lt {seconds : Nat} (h : seconds < 86400) :
    timeOfDay? (seconds / 3600) (seconds / 60 % 60) (seconds % 60) =
      some ((seconds * 1000 : Nat) : Int) := by
  have hparts : (seconds / 3600 * 60 + seconds / 60 % 60) * 60 + seconds % 60 = seconds := by omega
  unfold timeOfDay?
  rw [if_pos (by omega), hparts]

section

variable {d : Date} (hd : d.Valid) (hlow : 0 ≤ d.year) (hhigh : d.year ≤ 9999)
include hd hlow hhigh

/-- The parts of a date with a year of four digits fit their fields, and they make the date. -/
theorem exists_fields : ∃ year : Nat, d.year = year ∧ year ≤ 9999 ∧ d.month < 10 ^ 2 ∧
    d.day < 10 ^ 2 ∧ Date.ofParts? year d.month d.day = some d := by
  obtain ⟨year, hyear⟩ := Int.eq_ofNat_of_zero_le hlow
  have hmonth := hd.month_le
  have hday := hd.day_le
  have hdate := hd.ofParts?_eq (yearInRange_of_le hlow hhigh)
  rw [hyear] at hdate
  exact ⟨year, hyear, by omega, by omega, by omega, hdate⟩

/-- A date with a year of four digits is read from its text. -/
theorem readDate?_dateChars : readDate? (dateChars d) = some (d.number * millisPerDay) := by
  obtain ⟨year, hyear, hle, hmonth, hday, hdate⟩ := exists_fields hd hlow hhigh
  have hlast := readLayout?_number [] [] hday
  rw [List.append_nil] at hlast
  have hlayout : readLayout? dateLayout (dateChars d) = some [(year : Int), d.month, d.day] := by
    unfold dateLayout dateChars
    rw [hyear, yearChars_ofNat hle, List.append_assoc, List.cons_append,
      readLayout?_year _ _ (by omega), readLayout?_mark, readLayout?_number _ _ hmonth,
      readLayout?_mark, hlast]
    rfl
  unfold readDate?
  rw [hlayout]
  simp only [Int.toNat_natCast, hdate, Option.map_some]

/-- A date and a time of day are read from the internet form. -/
theorem readInternet?_written {seconds : Nat} (hseconds : seconds < 86400) :
    readInternet? (dateChars d ++ 'T' :: timeChars seconds ++ ['Z']) =
      some (d.number * millisPerDay + (seconds * 1000 : Nat)) := by
  obtain ⟨year, hyear, hle, hmonth, hday, hdate⟩ := exists_fields hd hlow hhigh
  have hfraction : takeFraction? ['Z'] = some (0, ['Z']) := rfl
  have hoffset : takeOffset? ['Z'] = some (0, []) := rfl
  have hyears : year < 10 ^ 4 := by omega
  have hhours : seconds / 3600 < 10 ^ 2 := by omega
  have hminutes : seconds / 60 % 60 < 10 ^ 2 := by omega
  have hrest : seconds % 60 < 10 ^ 2 := by omega
  unfold readInternet? dateChars timeChars
  rw [hyear, yearChars_ofNat hle]
  simp only [List.append_assoc, List.cons_append]
  -- the date, and the mark that the time of day follows
  refine Option.bind_eq_some_iff.mpr ⟨_, takeDigits?_padded (Nat.succ_pos 3) hyears _, ?_⟩
  refine Option.bind_eq_some_iff.mpr ⟨_, takeMark?_self _ _, ?_⟩
  refine Option.bind_eq_some_iff.mpr ⟨_, takeDigits?_padded (Nat.succ_pos 1) hmonth _, ?_⟩
  refine Option.bind_eq_some_iff.mpr ⟨_, takeMark?_self _ _, ?_⟩
  refine Option.bind_eq_some_iff.mpr ⟨_, takeDigits?_padded (Nat.succ_pos 1) hday _, ?_⟩
  refine Option.bind_eq_some_iff.mpr ⟨_, rfl, ?_⟩
  refine (if_neg (fun h => h.1 rfl)).trans ?_
  -- the time of day, in UTC and without a fraction, to the end of the text
  refine Option.bind_eq_some_iff.mpr ⟨_, takeDigits?_padded (Nat.succ_pos 1) hhours _, ?_⟩
  refine Option.bind_eq_some_iff.mpr ⟨_, takeMark?_self _ _, ?_⟩
  refine Option.bind_eq_some_iff.mpr ⟨_, takeDigits?_padded (Nat.succ_pos 1) hminutes _, ?_⟩
  refine Option.bind_eq_some_iff.mpr ⟨_, takeMark?_self _ _, ?_⟩
  refine Option.bind_eq_some_iff.mpr ⟨_, takeDigits?_padded (Nat.succ_pos 1) hrest _, ?_⟩
  refine Option.bind_eq_some_iff.mpr ⟨_, hfraction, ?_⟩
  refine Option.bind_eq_some_iff.mpr ⟨_, hoffset, ?_⟩
  refine (if_neg Bool.false_ne_true).trans ?_
  refine Option.bind_eq_some_iff.mpr ⟨_, hdate, ?_⟩
  refine Option.bind_eq_some_iff.mpr ⟨_, timeOfDay?_of_lt hseconds, ?_⟩
  rw [Nat.cast_zero, Int.add_zero, Int.sub_zero]

end

/-! ### No numeral -/

/-- A text without white space whose first digits end at a mark that no numeral has there. -/
structure Marked (cs : List Char) : Prop where
  not_blank : ∀ c ∈ cs, isBlank c = false
  mark : ∃ ds c rest, (takeSign cs).2 = ds ++ c :: rest ∧ (∀ c ∈ ds, c.isDigit = true) ∧
    (c = '-' ∨ c = ':')

section

variable {cs ds : List Char}

theorem Marked.trim (h : Marked cs) : Text.trim (String.ofList cs) = String.ofList cs :=
  trim_of_trimmed <| trimmed_of_forall <| by
    rw [String.toList_ofList]
    exact h.not_blank

theorem Marked.readMillis?_eq_none (h : Marked cs) : readMillis? (String.ofList cs) = none := by
  obtain ⟨ds, c, rest, hsign, hds, hc⟩ := h.mark
  have hdigits : takeDigits (ds ++ c :: rest) = (ds, c :: rest) := takeDigits_append hds (by
    intro d cs hd
    rw [← (List.cons.inj hd).1]
    rcases hc with rfl | rfl <;> decide)
  have hexponent : readExponent? (c :: rest) = none := if_neg (by
    rintro ⟨h | h, -⟩ <;> rcases hc with rfl | rfl <;> cases h)
  have hnone : readDecimal? (String.ofList cs) = none := by
    unfold readDecimal?
    rw [String.toList_ofList]
    simp only [hsign, hdigits]
    split
    · next h => rcases hc with rfl | rfl <;> exact absurd (List.cons.inj h).1 (by decide)
    · simp only [hexponent]
      split <;> rfl
  unfold readMillis? readNumber?
  rw [h.trim, hnone]
  rfl

theorem not_blank_of_mem_padded {width n : Nat} {c : Char} (h : c ∈ padded width n) :
    isBlank c = false :=
  isBlank_of_isDigit (isDigit_of_mem_padded h)

/-- Three fields between two marks. -/
theorem not_blank_fields {cs ds es : List Char} {mark : Char} (hmark : isBlank mark = false)
    (hcs : ∀ c ∈ cs, isBlank c = false) (hds : ∀ c ∈ ds, isBlank c = false)
    (hes : ∀ c ∈ es, isBlank c = false) :
    ∀ c ∈ cs ++ mark :: ds ++ mark :: es, isBlank c = false := by
  simp only [List.forall_mem_append, List.forall_mem_cons]
  exact ⟨⟨hcs, hmark, hds⟩, hmark, hes⟩

theorem not_blank_timeChars (seconds : Nat) : ∀ c ∈ timeChars seconds, isBlank c = false :=
  not_blank_fields (by decide) (fun _ => not_blank_of_mem_padded) (fun _ => not_blank_of_mem_padded)
    fun _ => not_blank_of_mem_padded

theorem takeSign_yearChars (year : Int) (rest : List Char) :
    (takeSign (yearChars year ++ rest)).2 = padded 4 year.natAbs ++ rest := by
  unfold yearChars
  dsimp only
  split
  · rw [takeSign_padded]
  · split <;> rfl

theorem not_blank_dateChars (d : Date) : ∀ c ∈ dateChars d, isBlank c = false := by
  have hyear : ∀ c ∈ yearChars d.year, isBlank c = false := by
    unfold yearChars
    intro c hc
    dsimp only at hc
    split at hc
    · exact not_blank_of_mem_padded hc
    · rcases List.mem_cons.mp hc with rfl | hc
      · split <;> decide
      · exact not_blank_of_mem_padded hc
  exact not_blank_fields (by decide) hyear (fun _ => not_blank_of_mem_padded)
    fun _ => not_blank_of_mem_padded

theorem marked_timeChars (seconds : Nat) : Marked (timeChars seconds) := by
  refine ⟨not_blank_timeChars seconds, padded 2 (seconds / 3600), ':',
    padded 2 (seconds / 60 % 60) ++ ':' :: padded 2 (seconds % 60), ?_,
    fun c => isDigit_of_mem_padded, .inr rfl⟩
  unfold timeChars
  rw [List.append_assoc, takeSign_padded]
  rfl

theorem marked_dateChars_append (d : Date) {rest : List Char}
    (hrest : ∀ c ∈ rest, isBlank c = false) : Marked (dateChars d ++ rest) := by
  refine ⟨List.forall_mem_append.mpr ⟨not_blank_dateChars d, hrest⟩, padded 4 d.year.natAbs, '-',
    padded 2 d.month ++ '-' :: padded 2 d.day ++ rest, ?_, fun c => isDigit_of_mem_padded, .inl rfl⟩
  unfold dateChars
  simp only [List.append_assoc, List.cons_append]
  rw [takeSign_yearChars]

theorem marked_dateChars (d : Date) : Marked (dateChars d) := by
  have h : Marked (dateChars d ++ []) := marked_dateChars_append d nofun
  rwa [List.append_nil] at h

theorem marked_dateTime (d : Date) (seconds : Nat) :
    Marked (dateChars d ++ 'T' :: timeChars seconds ++ ['Z']) := by
  rw [List.append_assoc]
  refine marked_dateChars_append d ?_
  simp only [List.cons_append, List.forall_mem_append, List.forall_mem_cons]
  exact ⟨by decide, not_blank_timeChars seconds, by decide, List.forall_mem_nil _⟩

end

/-! ### Moments -/

section

variable {d : Date} (hd : d.Valid) (hlow : 0 ≤ d.year) (hhigh : d.year ≤ 9999)
include hd hlow hhigh

theorem parseDate?_dateChars :
    parseDate? (String.ofList (dateChars d)) = some (d.number * millisPerDay) := by
  have hmarked := marked_dateChars d
  unfold parseDate?
  dsimp only
  rw [hmarked.readMillis?_eq_none, hmarked.trim, String.toList_ofList,
    readDate?_dateChars hd hlow hhigh]
  rfl

theorem parseDateTime?_written {seconds : Nat} (hseconds : seconds < 86400) :
    parseDateTime? (String.ofList (dateChars d ++ 'T' :: timeChars seconds ++ ['Z'])) =
      some (d.number * millisPerDay + (seconds * 1000 : Nat)) := by
  have hmarked := marked_dateTime d seconds
  unfold parseDateTime?
  dsimp only
  rw [hmarked.readMillis?_eq_none, hmarked.trim, String.toList_ofList,
    readInternet?_written hd hlow hhigh hseconds]
  rfl

end

/-- The seconds since midnight lead from the start of the day to the second. -/
theorem seconds_of_day (moment : Int) :
    (moment % millisPerDay / 1000).toNat < 86400 ∧
      moment / millisPerDay * millisPerDay + ((moment % millisPerDay / 1000).toNat * 1000 : Nat) =
        moment / 1000 * 1000 := by
  unfold millisPerDay
  omega

/-- Within the years of four digits the text of a moment's day leads back to the start of the day,
and the text of its second to the second: both quotients are rounded down, before 1970 as well.  And
no text of a day, of a time or of a second is read as a number of milliseconds. -/
theorem parse_rendered (moment : Int) :
    (1 ≤ (Date.ofNumber (moment / millisPerDay)).year →
      (Date.ofNumber (moment / millisPerDay)).year ≤ 9999 →
      (dateText? moment).bind parseDate? = some (moment / millisPerDay * millisPerDay) ∧
      (dateTimeText? moment).bind parseDateTime? = some (moment / 1000 * 1000)) ∧
    ∀ s, dateText? moment = some s ∨ timeText? moment = some s ∨ dateTimeText? moment = some s →
      readMillis? s = none := by
  constructor
  · intro hlow hhigh
    have hvalid := Date.valid_ofNumber (moment / millisPerDay)
    have hnumber := Date.number_ofNumber (moment / millisPerDay)
    have hzero : 0 ≤ (Date.ofNumber (moment / millisPerDay)).year := by omega
    have hsplit : split? moment = some (Date.ofNumber (moment / millisPerDay),
        (moment % millisPerDay / 1000).toNat) := if_pos (yearInRange_of_le hzero hhigh)
    obtain ⟨hseconds, hmoment⟩ := seconds_of_day moment
    unfold dateText? dateTimeText?
    rw [hsplit]
    simp only [Option.map_some, Option.bind_some]
    rw [parseDate?_dateChars hvalid hzero hhigh, parseDateTime?_written hvalid hzero hhigh hseconds,
      hnumber, hmoment]
    exact ⟨rfl, rfl⟩
  · rintro s (h | h | h)
    · obtain ⟨⟨d, seconds⟩, -, rfl⟩ := Option.map_eq_some_iff.mp h
      exact (marked_dateChars d).readMillis?_eq_none
    · unfold timeText? at h
      split at h
      · rw [← Option.some.inj h]
        exact (marked_timeChars _).readMillis?_eq_none
      · cases h
    · obtain ⟨⟨d, seconds⟩, -, rfl⟩ := Option.map_eq_some_iff.mp h
      exact (marked_dateTime d seconds).readMillis?_eq_none

/-- The last millisecond before 1970 belongs to the day and to the second before. -/
theorem parse_rendered_eve :
    (1 ≤ (Date.ofNumber (-1 / millisPerDay)).year ∧
      (Date.ofNumber (-1 / millisPerDay)).year ≤ 9999) ∧
    dateText? (-1) = some "1969-12-31" ∧
    (dateText? (-1)).bind parseDate? = some (-86400000) ∧
    (dateTimeText? (-1)).bind parseDateTime? = some (-1000) ∧
    readMillis? "1969-12-31" = none := by
  have htext : dateText? (-1) = some "1969-12-31" := by decide
  obtain ⟨hread, hnone⟩ := parse_rendered (-1)
  have hyears := hread (by decide) (by decide)
  exact ⟨by decide, htext, hyears.1, hyears.2, hnone _ (.inl htext)⟩

end ContentSchema.Calendar
