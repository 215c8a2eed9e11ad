import ContentSchema.Calendar

/-!
# Calendar days — a day has one date, and the date leads back to the day

A year has as many days as its months together, and a day of the year lies in one of them.  So the
date of a day number exists (`Date.valid_ofNumber`) and has that number (`Date.number_ofNumber`),
before 1970 and before the year 1 as well.
-/

namespace ContentSchema.Calendar

theorem total_monthLengths (leap : Bool) :
    total (monthLengths leap) = if leap then 366 else 365 := by
  cases leap <;> rfl

theorem length_monthLengths (leap : Bool) : (monthLengths leap).length = 12 := rfl

theorem le_of_mem_monthLengths {leap : Bool} {length : Nat} (h : length ∈ monthLengths leap) :
    length ≤ 31 := by
  revert h
  revert length
  cases leap <;> decide

theorem isLeap_iff (year : Int) :
    isLeap year = true ↔ year % 4 = 0 ∧ (year % 100 ≠ 0 ∨ year % 400 = 0) := by
  simp [isLeap]

/-- A year ends where the next one starts. -/
theorem yearStart_succ (year : Int) :
    yearStart (year + 1) = yearStart year + (total (monthLengths (isLeap year)) : Nat) := by
  have hleap := isLeap_iff year
  have hlength := total_monthLengths (isLeap year)
  unfold yearStart
  cases h : isLeap year with
  | true =>
    rw [h] at hleap hlength
    have hdiv := hleap.mp rfl
    rw [if_pos rfl] at hlength
    omega
  | false =>
    rw [h] at hleap hlength
    have hdiv := mt hleap.mpr Bool.false_ne_true
    rw [if_neg Bool.false_ne_true] at hlength
    omega

/-- A day lies in its month, and the months before it and its place in the month count the days. -/
theorem monthOf_spec {lengths : List Nat} {n : Nat} (h : n < total lengths) :
    1 ≤ (monthOf lengths n).1 ∧ 1 ≤ (monthOf lengths n).2 ∧
      (∃ length, lengths[(monthOf lengths n).1 - 1]? = some length ∧
        (monthOf lengths n).2 ≤ length) ∧
      total (lengths.take ((monthOf lengths n).1 - 1)) + (monthOf lengths n).2 = n + 1 := by
  fun_induction monthOf lengths n with
  | case1 length m rest n hlt =>
    exact ⟨Nat.le_refl 1, Nat.le_add_left 1 n, ⟨length, rfl, hlt⟩, Nat.zero_add _⟩
  | case2 length m rest n hle month day hmonth ih =>
    have hrest : n - length < total (m :: rest) := by
      rw [total_cons] at h
      omega
    obtain ⟨hpos, hday, hfits, hcount⟩ := ih hrest
    rw [hmonth] at hpos hday hfits hcount
    obtain ⟨k, rfl⟩ : ∃ k, month = k + 1 := Nat.exists_eq_add_of_le' hpos
    refine ⟨Nat.le_add_left 1 _, hday, ?_, ?_⟩
    · simpa using hfits
    · simp only [Nat.add_sub_cancel, List.take_succ_cons, total_cons] at hcount ⊢
      omega
  | case3 lengths n hshort =>
    -- at most one month is left
    cases lengths with
    | nil => exact absurd h (Nat.not_lt_zero n)
    | cons length rest =>
      cases rest with
      | nil =>
        have hlt : n < length := h
        exact ⟨Nat.le_refl 1, Nat.le_add_left 1 n, ⟨length, rfl, hlt⟩, Nat.zero_add _⟩
      | cons m rest => exact absurd rfl (hshort length m rest)

namespace Date

/-- The date is a day of the calendar. -/
structure Valid (d : Date) : Prop where
  one_le_month : 1 ≤ d.month
  one_le_day : 1 ≤ d.day
  fits : ∃ length, (monthLengths (isLeap d.year))[d.month - 1]? = some length ∧ d.day ≤ length

variable {d : Date}

theorem Valid.month_le (h : d.Valid) : d.month ≤ 12 := by
  obtain ⟨length, hlength, -⟩ := h.fits
  obtain ⟨hlt, -⟩ := List.getElem?_eq_some_iff.mp hlength
  rw [length_monthLengths] at hlt
  omega

theorem Valid.day_le (h : d.Valid) : d.day ≤ 31 := by
  obtain ⟨length, hlength, hle⟩ := h.fits
  exact Nat.le_trans hle (le_of_mem_monthLengths (List.mem_of_getElem? hlength))

/-- The parts of a day of the calendar are put together. -/
theorem Valid.ofParts?_eq (h : d.Valid) (hyear : yearInRange d.year = true) :
    ofParts? d.year d.month d.day = some d := by
  obtain ⟨length, hlength, hle⟩ := h.fits
  unfold ofParts?
  simp only [hyear, h.one_le_month, h.one_le_day, decide_true, Bool.and_self, if_true, hlength,
    if_pos hle]

/-- The place of a day in its year. -/
theorem day_in_year (n : Int) :
    yearStart (yearOf n) ≤ n ∧
      (n - yearStart (yearOf n)).toNat < total (monthLengths (isLeap (yearOf n))) := by
  have hspec := yearOf_spec n
  rw [yearStart_succ] at hspec
  omega

theorem valid_ofNumber (n : Int) : (ofNumber n).Valid := by
  obtain ⟨hmonth, hday, hfits, -⟩ := monthOf_spec (day_in_year (n + epoch)).2
  exact ⟨hmonth, hday, hfits⟩

/-- The date of a day has the day's number. -/
theorem number_ofNumber (n : Int) : (ofNumber n).number = n := by
  obtain ⟨hstart, hlt⟩ := day_in_year (n + epoch)
  obtain ⟨-, -, -, hcount⟩ := monthOf_spec hlt
  unfold number ofNumber
  dsimp only
  omega

end Date

end ContentSchema.Calendar
