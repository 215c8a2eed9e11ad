import Mathlib.Algebra.Order.Field.Power
import Mathlib.Algebra.Order.Field.Rat
import Mathlib.Tactic.FieldSimp
import Mathlib.Tactic.Linarith
import Mathlib.Tactic.Ring
import ContentSchema.Number.Shortest

/-!
# Basins — the rationals that read back as one double

A rational lies in the basin of `n` units when the nearest double is `n`: no further than half a gap
away, and on the boundary only if the significand of `n` is even.  Basins of different doubles do
not meet (`inBasin_unique`), and the shortest decimal of a double lies in its basin.  A whole number
of up to 53 bits is a double itself (`scaled_ofInt`), and longer ones are rounded within their
binade (`ofUnitRatio_whole`).
-/

namespace ContentSchema.Binary64

/-- Distance to the double below; it is halved at the start of a binade. -/
def gapBelow (n : Nat) : Nat := if n = powTwo n.log2 ∧ 1 < gap n then gap n / 2 else gap n

/-- The double of `n` units is the nearest to `q` units. -/
structure InBasin (n : Nat) (q : ℚ) : Prop where
  low : 2 * n - gapBelow n ≤ 2 * q
  high : 2 * q ≤ 2 * n + gap n
  odd : n / gap n % 2 = 1 → 2 * n - gapBelow n < 2 * q ∧ 2 * q < 2 * n + gap n

/-! ### Neighbours -/

theorem gap_dvd {n : Nat} (h : Representable n) : gap n ∣ n := Nat.dvd_of_mod_eq_zero h.2

theorem powTwo_dvd {a b : Nat} (h : a ≤ b) : powTwo a ∣ powTwo b := Nat.pow_dvd_pow 2 h

theorem powTwo_le {n : Nat} (h : 0 < n) : powTwo n.log2 ≤ n := Nat.log2_self_le (by omega)

theorem lt_powTwo (n : Nat) : n < powTwo (n.log2 + 1) := Nat.lt_log2_self

theorem powTwo_mono {a b : Nat} (h : a ≤ b) : powTwo a ≤ powTwo b :=
  Nat.pow_le_pow_right (by decide) h

theorem powTwo_lt {a b : Nat} (h : a < b) : powTwo a < powTwo b :=
  Nat.pow_lt_pow_right (by decide) h

theorem add_le_of_dvd {g n m : Nat} (hn : g ∣ n) (hm : g ∣ m) (h : n < m) : n + g ≤ m := by
  have hle : g ≤ m - n := Nat.le_of_dvd (by omega) (Nat.dvd_sub hm hn)
  omega

theorem log2_mono {n m : Nat} (h : n < m) : n.log2 ≤ m.log2 := by
  by_contra hlt
  have hpos : 0 < n := by
    rcases Nat.eq_zero_or_pos n with rfl | hn
    · simp at hlt
    · exact hn
  have h1 := powTwo_le hpos
  have h2 := lt_powTwo m
  have h3 : powTwo (m.log2 + 1) ≤ powTwo n.log2 := powTwo_mono (by omega)
  omega

/-- The next double is a gap away at least. -/
theorem add_gap_le {n m : Nat} (hn : Representable n) (hm : Representable m) (h : n < m) :
    n + gap n ≤ m := by
  rcases Nat.lt_or_ge n.log2 m.log2 with hlt | hge
  · have hdvd : gap n ∣ powTwo (n.log2 + 1) := powTwo_dvd (by omega)
    have hle := add_le_of_dvd (gap_dvd hn) hdvd (lt_powTwo n)
    have hpow : powTwo (n.log2 + 1) ≤ powTwo m.log2 := powTwo_mono hlt
    have hm' := powTwo_le (n := m) (by omega)
    omega
  · have hlog : n.log2 = m.log2 := Nat.le_antisymm (log2_mono h) hge
    have hgap : gap m = gap n := by unfold gap; rw [hlog]
    exact add_le_of_dvd (gap_dvd hn) (hgap ▸ gap_dvd hm) h

theorem gapBelow_le (n : Nat) : gapBelow n ≤ gap n := by
  unfold gapBelow
  split <;> omega

/-- The double before is a gap away at least. -/
theorem add_gapBelow_le {n m : Nat} (hn : Representable n) (hm : Representable m) (h : n < m) :
    n + gapBelow m ≤ m := by
  have hmpos := powTwo_le (n := m) (by omega)
  rcases Nat.lt_or_ge n.log2 m.log2 with hlt | hge
  · have hnlt : n < powTwo m.log2 := Nat.lt_of_lt_of_le (lt_powTwo n) (powTwo_mono hlt)
    by_cases hstart : m = powTwo m.log2
    · by_cases hg : 1 < gap m
      · -- below the start of a binade the gap is that of the binade before
        have hhalf : gapBelow m = powTwo (m.log2 - 1 - 52) := by
          have hpow : powTwo (m.log2 - 52) = 2 * powTwo (m.log2 - 1 - 52) := by
            have hpos : 0 < m.log2 - 52 := by
              by_contra h0
              have hz : m.log2 - 52 = 0 := by omega
              unfold gap at hg
              rw [hz] at hg
              exact absurd hg (by decide)
            have hsucc : m.log2 - 52 = (m.log2 - 1 - 52) + 1 := by omega
            rw [hsucc]
            exact Nat.pow_succ'
          unfold gapBelow
          rw [if_pos ⟨hstart, hg⟩]
          unfold gap
          omega
        rw [hhalf]
        rcases Nat.lt_or_ge n.log2 (m.log2 - 1) with hl | hl
        · have h1 : n < powTwo (m.log2 - 1) :=
            Nat.lt_of_lt_of_le (lt_powTwo n) (powTwo_mono (by omega))
          have h2 : powTwo (m.log2 - 1 - 52) ≤ powTwo (m.log2 - 1) := powTwo_mono (by omega)
          have h3 : powTwo m.log2 = 2 * powTwo (m.log2 - 1) := by
            have hsucc : m.log2 = (m.log2 - 1) + 1 := by omega
            conv_lhs => rw [hsucc]
            exact Nat.pow_succ'
          omega
        · have hlog : n.log2 = m.log2 - 1 := by omega
          have hgn : gap n = powTwo (m.log2 - 1 - 52) := by unfold gap; rw [hlog]
          have hle := add_gap_le hn hm h
          omega
      · have := gapBelow_le m
        have := gap_pos m
        omega
    · have hdvd : gap m ∣ powTwo m.log2 := powTwo_dvd (by omega)
      have hle := add_le_of_dvd hdvd (gap_dvd hm) (by omega)
      have := gapBelow_le m
      omega
  · have hlog : n.log2 = m.log2 := Nat.le_antisymm (log2_mono h) hge
    have hgap : gap n = gap m := by unfold gap; rw [hlog]
    have hle := add_gap_le hn hm h
    have := gapBelow_le m
    omega

/-- Neighbours do not both have even significands. -/
theorem not_both_even {n m : Nat} (hn : Representable n) (hm : Representable m)
    (h : n + gap n = m) (hb : n + gapBelow m = m) :
    n / gap n % 2 = 1 ∨ m / gap m % 2 = 1 := by
  obtain ⟨k, hk⟩ := gap_dvd hn
  obtain ⟨l, hl⟩ := gap_dvd hm
  have hgn := gap_pos n
  have hgm := gap_pos m
  have hdn : n / gap n = k := Nat.div_eq_of_eq_mul_right hgn hk
  have hdm : m / gap m = l := Nat.div_eq_of_eq_mul_right hgm hl
  have hgb : gapBelow m = gap n := by omega
  rw [hdn, hdm]
  unfold gapBelow at hgb
  split at hgb
  · next hs =>
    -- at the start of a binade `m` is twice as many gaps of `n`
    have hpow : gap m = 2 * gap n := by
      have heven : gap m % 2 = 0 := by
        unfold gap at hs ⊢
        have hp : m.log2 - 52 ≠ 0 := by
          intro h0
          rw [h0] at hs
          exact absurd hs.2 (by decide)
        obtain ⟨a, ha⟩ := Nat.exists_eq_succ_of_ne_zero hp
        rw [ha]
        show 2 ^ (a + 1) % 2 = 0
        rw [Nat.pow_succ]
        omega
      omega
    have hmk : gap n * (k + 1) = gap n * (2 * l) := by
      have h1 : gap n * (k + 1) = m := by rw [Nat.mul_succ, ← hk]; exact h
      have h2 : gap n * (2 * l) = m := by rw [hl, hpow]; ring
      rw [h1, h2]
    have := Nat.eq_of_mul_eq_mul_left hgn hmk
    omega
  · have hmk : gap n * (k + 1) = gap n * l := by
      have h1 : gap n * (k + 1) = m := by rw [Nat.mul_succ, ← hk]; exact h
      rw [h1, ← hgb]
      exact hl
    have := Nat.eq_of_mul_eq_mul_left hgn hmk
    omega

/-! ### Basins -/

theorem not_inBasin_of_lt {n m : Nat} (hn : Representable n) (hm : Representable m)
    (h : n < m) {q : ℚ} (hqn : InBasin n q) (hqm : InBasin m q) : False := by
  have h1 := add_gap_le hn hm h
  have h2 := add_gapBelow_le hn hm h
  have hq1 : (2 * n + gap n : ℚ) ≤ n + m := by exact_mod_cast (by omega : 2 * n + gap n ≤ n + m)
  have hq2 : (n + gapBelow m : ℚ) ≤ m := by exact_mod_cast h2
  have hlow := hqm.low
  have hhigh := hqn.high
  have e1 : (n + gap n : ℚ) = m := by linarith
  have e2 : (n + gapBelow m : ℚ) = m := by linarith
  have h1' : n + gap n = m := by exact_mod_cast e1
  have h2' : n + gapBelow m = m := by exact_mod_cast e2
  rcases not_both_even hn hm h1' h2' with hodd | hodd
  · have := (hqn.odd hodd).2
    linarith
  · have := (hqm.odd hodd).1
    linarith

/-- A rational lies in one basin only. -/
theorem inBasin_unique {n m : Nat} (hn : Representable n) (hm : Representable m)
    {q : ℚ} (hqn : InBasin n q) (hqm : InBasin m q) : n = m := by
  rcases Nat.lt_trichotomy n m with h | h | h
  · exact (not_inBasin_of_lt hn hm h hqn hqm).elim
  · exact h
  · exact (not_inBasin_of_lt hm hn h hqm hqn).elim

theorem gapBelow_pos (n : Nat) : 0 < gapBelow n := by
  unfold gapBelow
  split
  · omega
  · exact gap_pos n

theorem inBasin_self (n : Nat) : InBasin n n := by
  have h1 : (0 : ℚ) < gapBelow n := by exact_mod_cast gapBelow_pos n
  have h2 : (0 : ℚ) < gap n := by exact_mod_cast gap_pos n
  exact ⟨by linarith, by linarith, fun _ => ⟨by linarith, by linarith⟩⟩

/-- Nothing below zero reads back as a positive double. -/
theorem InBasin.pos {n : Nat} {q : ℚ} (hn : 0 < n) (h : InBasin n q) : 0 < q := by
  have hgap : gapBelow n ≤ n := by
    refine Nat.le_trans (gapBelow_le n) (Nat.le_trans (powTwo_mono ?_) (powTwo_le hn))
    omega
  have hn' : (0 : ℚ) < n := by exact_mod_cast hn
  have hgap' : (gapBelow n : ℚ) ≤ n := by exact_mod_cast hgap
  have := h.low
  linarith

/-! ### The shortest decimal -/

/-- The rational a decimal stands for. -/
def Decimal.value (d : Decimal) : ℚ := d.digits * (10 : ℚ) ^ d.exponent

theorem one_pos : 0 < one := powTwo_pos 1074

theorem scaleByTen_ratio (a : Nat) {b : Nat} (hb : 0 < b) (e : Int) :
    0 < (scaleByTen a b e).2 ∧
      ((scaleByTen a b e).1 : ℚ) / (scaleByTen a b e).2 = a / b * (10 : ℚ) ^ e := by
  have hb' : (b : ℚ) ≠ 0 := by exact_mod_cast hb.ne'
  unfold scaleByTen
  split
  · next he =>
    obtain ⟨k, rfl⟩ := Int.eq_ofNat_of_zero_le he
    refine ⟨hb, ?_⟩
    simp only [Int.toNat_natCast, Nat.pow_eq, Nat.cast_mul, Nat.cast_pow, zpow_natCast]
    push_cast
    field_simp
  · next he =>
    obtain ⟨k, hk⟩ := Int.eq_ofNat_of_zero_le (by omega : 0 ≤ -e)
    have hek : e = -(k : Int) := by omega
    subst hek
    refine ⟨Nat.mul_pos hb (Nat.pow_pos (by decide)), ?_⟩
    simp only [neg_neg, Int.toNat_natCast, Nat.pow_eq, zpow_neg, zpow_natCast]
    push_cast
    field_simp

/-- What reads back as a double lies in its basin. -/
theorem inBasin_of_readsBack {n d : Nat} {p : Int} (h : readsBack n d p = true) :
    InBasin n (Decimal.value ⟨d, p⟩ * one) := by
  obtain ⟨hden, hratio⟩ := scaleByTen_ratio (2 * d * one) (b := 1) (by decide) p
  obtain ⟨num, hnum⟩ : ∃ num, (scaleByTen (2 * d * one) 1 p).1 = num := ⟨_, rfl⟩
  obtain ⟨den, hden'⟩ : ∃ den, (scaleByTen (2 * d * one) 1 p).2 = den := ⟨_, rfl⟩
  rw [hnum, hden'] at hratio
  rw [hden'] at hden
  have hdenq : (0 : ℚ) < den := by exact_mod_cast hden
  have hnumq : (2 * num : ℚ) = 4 * (Decimal.value ⟨d, p⟩ * one) * den := by
    have := (div_eq_iff hdenq.ne').mp hratio
    unfold Decimal.value
    rw [this]
    push_cast
    ring
  have hlow : ∀ {a : Nat}, 4 * n ≤ a + 2 * gapBelow n →
      (4 * n - 2 * gapBelow n : ℚ) ≤ a := fun ha => by
    have hq : ((4 * n : Nat) : ℚ) ≤ (_ + 2 * gapBelow n : Nat) := Nat.cast_le.mpr ha
    push_cast at hq
    linarith
  obtain ⟨b, hb⟩ : ∃ b, gapBelow n = b := ⟨_, rfl⟩
  have hle : (4 * n - 2 * b) * den ≤ 2 * num ∧ 2 * num ≤ (4 * n + 2 * gap n) * den ∧
      (n / gap n % 2 = 1 →
        (4 * n - 2 * b) * den < 2 * num ∧ 2 * num < (4 * n + 2 * gap n) * den) := by
    unfold readsBack at h
    simp only [hnum, hden'] at h
    unfold gapBelow at hb
    rw [hb] at h
    by_cases heven : n / gap n % 2 = 0
    · simp only [heven, beq_self_eq_true, if_true, Bool.and_eq_true, decide_eq_true_eq] at h
      exact ⟨h.1, h.2, fun hodd => by omega⟩
    · have hne : (n / gap n % 2 == 0) = false := by simpa using heven
      simp only [hne, Bool.false_eq_true, if_false, Bool.and_eq_true, decide_eq_true_eq] at h
      exact ⟨h.1.le, h.2.le, fun _ => h⟩
  have hlow' := hlow (a := 4 * n - 2 * b) (by omega)
  obtain ⟨h1, h2, h3⟩ := hle
  have h1q : ((4 * n - 2 * b : Nat) * den : ℚ) ≤ 4 * (Decimal.value ⟨d, p⟩ * one) * den := by
    rw [← hnumq]
    exact_mod_cast h1
  have h2q : 4 * (Decimal.value ⟨d, p⟩ * one) * den ≤ (4 * n + 2 * gap n : ℚ) * den := by
    rw [← hnumq]
    exact_mod_cast h2
  have h1r := le_of_mul_le_mul_right h1q hdenq
  have h2r := le_of_mul_le_mul_right h2q hdenq
  refine ⟨by linarith, by linarith, fun hodd => ?_⟩
  obtain ⟨h3, h4⟩ := h3 hodd
  have h3q : ((4 * n - 2 * b : Nat) * den : ℚ) < 4 * (Decimal.value ⟨d, p⟩ * one) * den := by
    rw [← hnumq]
    exact_mod_cast h3
  have h4q : 4 * (Decimal.value ⟨d, p⟩ * one) * den < (4 * n + 2 * gap n : ℚ) * den := by
    rw [← hnumq]
    exact_mod_cast h4
  have h3r := lt_of_mul_lt_mul_right h3q hdenq.le
  have h4r := lt_of_mul_lt_mul_right h4q hdenq.le
  exact ⟨by linarith, by linarith⟩

theorem value_strip (fuel : Nat) (d : Decimal) : (Decimal.strip fuel d).value = d.value := by
  induction fuel generalizing d with
  | zero => rfl
  | succ fuel ih =>
    unfold Decimal.strip
    split
    · next h =>
      rw [ih]
      unfold Decimal.value
      have hd : (d.digits : ℚ) = 10 * (d.digits / 10 : Nat) := by
        exact_mod_cast (by omega : d.digits = 10 * (d.digits / 10))
      rw [hd, zpow_add₀ (by norm_num), zpow_one]
      push_cast
      ring
    · rfl

theorem inBasin_of_pick {n a b : Nat} {p : Int} {d : Decimal}
    (h : (if readsBack n a p then some (⟨a, p⟩ : Decimal)
      else if readsBack n b p then some ⟨b, p⟩ else none) = some d) :
    InBasin n (d.value * one) := by
  split at h
  · next hr =>
    rw [← Option.some.inj h]
    exact inBasin_of_readsBack hr
  · split at h
    · next hr =>
      rw [← Option.some.inj h]
      exact inBasin_of_readsBack hr
    · cases h

theorem inBasin_candidate {n k : Nat} {e : Int} {d : Decimal} (h : candidate n e k = some d) :
    InBasin n (d.value * one) := inBasin_of_pick h

theorem mul_five_pow_mul_ten_zpow (n k : Nat) :
    ((n * Nat.pow 5 k : Nat) : ℚ) * (10 : ℚ) ^ (-(k : Int)) * (2 : ℚ) ^ k = n := by
  have h5 : (5 : ℚ) ^ k ≠ 0 := pow_ne_zero k (by norm_num)
  have h2 : (2 : ℚ) ^ k ≠ 0 := pow_ne_zero k (by norm_num)
  rw [Nat.pow_eq, zpow_neg, zpow_natCast, show (10 : ℚ) = 5 * 2 by norm_num, mul_pow]
  push_cast
  field_simp

theorem cast_powTwo (k : Nat) : (powTwo k : ℚ) = 2 ^ k := by
  unfold powTwo
  rw [Nat.pow_eq]
  push_cast
  rfl

/-- All digits of a double stand for it exactly. -/
theorem value_exactDecimal (n : Nat) : (exactDecimal n).value * one = n := by
  unfold one
  rw [cast_powTwo]
  exact mul_five_pow_mul_ten_zpow n 1074

/-- The shortest decimal of a double lies in its basin. -/
theorem inBasin_shortest (n : Nat) : InBasin n ((shortest n).value * one) := by
  unfold shortest
  rw [value_strip]
  cases h : (List.range 17).findSome? fun k => candidate n (decimalExponent n) (k + 1) with
  | none =>
    rw [Option.getD_none, value_exactDecimal]
    exact inBasin_self n
  | some d =>
    obtain ⟨k, -, hk⟩ := List.exists_of_findSome?_eq_some h
    exact inBasin_candidate hk

/-! ### Whole numbers -/

/-- A number of units that is a double is rounded to itself. -/
theorem ofUnitRatio_representable (negative : Bool) {n : Nat} (h : Representable n) :
    ofUnitRatio negative n 1 = some ⟨negative, n, h⟩ := by
  have hround : roundHalfEven n (1 * gap n) * gap n = n := by
    unfold roundHalfEven
    simp only [Nat.one_mul, h.2]
    rw [if_pos (gap_pos n)]
    exact Nat.div_mul_cancel (gap_dvd h)
  unfold ofUnitRatio
  simp only [Nat.div_one, hround]
  exact dif_pos h

theorem powTwo_add (a b : Nat) : powTwo (a + b) = powTwo a * powTwo b := Nat.pow_add 2 a b

theorem log2_lt {n bits : Nat} (hn : n ≠ 0) (h : n < powTwo bits) : n.log2 < bits :=
  (Nat.log2_lt hn).mpr h

theorem le_log2 {n bits : Nat} (hn : n ≠ 0) (h : powTwo bits ≤ n) : bits ≤ n.log2 :=
  (Nat.le_log2 hn).mpr h

/-- Whole numbers have 1074 bits more in units. -/
theorem powTwo_mul_one (bits : Nat) : powTwo bits * one = powTwo (bits + 1074) :=
  (powTwo_add bits 1074).symm

theorem units_lt {n bits : Nat} (h : n < powTwo bits) : n * one < powTwo (bits + 1074) := by
  rw [← powTwo_mul_one]
  exact Nat.mul_lt_mul_of_pos_right h one_pos

/-- Up to 53 bits every whole number is a double. -/
theorem representable_whole {n : Nat} (h : n < powTwo 53) : Representable (n * one) := by
  have hlt : n * one < powTwo (53 + 1074) := units_lt h
  have hlog : (n * one).log2 - 52 ≤ 1074 := by
    by_cases hzero : n * one = 0
    · rw [hzero, Nat.log2_zero]
      omega
    · have := log2_lt hzero hlt
      omega
  exact ⟨Nat.lt_of_lt_of_le hlt (powTwo_mono (by decide)),
    Nat.mod_eq_zero_of_dvd ((powTwo_dvd hlog).trans (Nat.dvd_mul_left one n))⟩

theorem scaled_ofInt {i : Int} (h : i.natAbs < powTwo 53) : (ofInt i).scaled = i * one := by
  have hof : ofInt i = ⟨i < 0, i.natAbs * one, representable_whole h⟩ := by
    unfold ofInt ofInt? ofRatio
    rw [ofUnitRatio_representable _ (representable_whole h)]
    rfl
  rw [hof]
  unfold scaled
  by_cases hneg : i < 0
  · simp only [hneg, decide_true, if_true, Nat.cast_mul]
    rw [Int.ofNat_natAbs_of_nonpos (by omega), Int.neg_mul, Int.neg_neg]
  · simp only [hneg, decide_false, Bool.false_eq_true, if_false, Nat.cast_mul]
    rw [Int.natAbs_of_nonneg (by omega)]

/-- Whole numbers up to 53 bits are told apart. -/
theorem same_ofInt {i j : Int} (hi : i.natAbs < powTwo 53) (hj : j.natAbs < powTwo 53) :
    (ofInt i).same (ofInt j) = true ↔ i = j := by
  rw [same_iff, scaled_ofInt hi, scaled_ofInt hj]
  exact Int.mul_eq_mul_right_iff (Int.natCast_ne_zero.mpr one_pos.ne')

/-! ### Rounded whole numbers -/

theorem roundHalfEven_cases (num den : Nat) :
    roundHalfEven num den = num / den ∨ roundHalfEven num den = num / den + 1 := by
  unfold roundHalfEven
  dsimp only
  split_ifs <;> simp

/-- A whole number of units is rounded within its binade, whose end is a double too. -/
theorem ofUnitRatio_whole (negative : Bool) {n : Nat} (hn : 0 < n) (hlimit : n.log2 + 1 < 2098) :
    ∃ m h, ofUnitRatio negative n 1 = some ⟨negative, m, h⟩ ∧ powTwo n.log2 ≤ m := by
  have hgap : gap n ∣ powTwo n.log2 := powTwo_dvd (Nat.sub_le ..)
  have hfloor : powTwo n.log2 ≤ n / gap n * gap n := by
    rw [← Nat.div_mul_cancel hgap]
    exact Nat.mul_le_mul_right _ (Nat.div_le_div_right (powTwo_le hn))
  have hend : n / gap n * gap n + gap n ≤ powTwo (n.log2 + 1) := by
    refine add_le_of_dvd (Nat.dvd_mul_left ..) (hgap.trans (powTwo_dvd (Nat.le_succ _))) ?_
    exact Nat.lt_of_le_of_lt (Nat.div_mul_le_self n _) (lt_powTwo n)
  obtain ⟨m, hm⟩ : ∃ m, roundHalfEven n (1 * gap n) * gap n = m := ⟨_, rfl⟩
  have hround : gap n ∣ m ∧ powTwo n.log2 ≤ m ∧ m ≤ powTwo (n.log2 + 1) := by
    rw [← hm]
    refine ⟨Nat.dvd_mul_left .., ?_⟩
    rw [Nat.one_mul]
    rcases roundHalfEven_cases n (gap n) with h | h <;> rw [h]
    · exact ⟨hfloor, by omega⟩
    · rw [Nat.succ_mul]
      exact ⟨by omega, hend⟩
  obtain ⟨hdvd, hlow, hhigh⟩ := hround
  have hrep : Representable m := by
    refine ⟨Nat.lt_of_le_of_lt hhigh (powTwo_lt hlimit), ?_⟩
    refine Nat.mod_eq_zero_of_dvd ?_
    -- inside the binade the gap is no larger; its end is a power of two
    rcases Nat.lt_or_eq_of_le hhigh with hlt | rfl
    · have hlog : m.log2 < n.log2 + 1 := log2_lt (by have := powTwo_pos n.log2; omega) hlt
      exact (powTwo_dvd (by omega)).trans hdvd
    · unfold gap
      rw [show (powTwo (n.log2 + 1)).log2 = n.log2 + 1 from Nat.log2_two_pow]
      exact powTwo_dvd (Nat.sub_le ..)
  refine ⟨m, hrep, ?_, hlow⟩
  unfold ofUnitRatio
  simp only [Nat.div_one, hm]
  exact dif_pos hrep

/-- A word of more than 53 bits is no less than `2 ^ 53` as a double. -/
theorem le_scaled_ofInt {k : Nat} (hlow : powTwo 53 ≤ k) (hhigh : k < powTwo 64) :
    (powTwo 53 * one : Nat) ≤ (ofInt k).scaled := by
  have hone : 0 < k * one := Nat.mul_pos (Nat.lt_of_lt_of_le (powTwo_pos 53) hlow) one_pos
  have hunits : k * one < powTwo (64 + 1074) := units_lt hhigh
  have hlog : (k * one).log2 < 64 + 1074 := log2_lt hone.ne' hunits
  obtain ⟨m, h, hof, hm⟩ := ofUnitRatio_whole false hone (by omega)
  have heq : ofInt k = ⟨false, m, h⟩ := by
    unfold ofInt ofInt? ofRatio
    rw [Int.natAbs_natCast, decide_eq_false (by omega), hof]
    rfl
  have hle : powTwo 53 * one ≤ powTwo (k * one).log2 := by
    have hmul : powTwo 53 * one ≤ k * one := Nat.mul_le_mul_right _ hlow
    rw [powTwo_mul_one] at hmul ⊢
    exact powTwo_mono (le_log2 hone.ne' hmul)
  rw [heq]
  exact Int.ofNat_le.mpr (hle.trans hm)

/-- A word is compared by value with whole numbers below `2 ^ 53`, though it may be rounded. -/
theorem scaled_ofInt_lt {k : Nat} (hk : k < powTwo 64) {n : Int} (hn : n.natAbs < powTwo 53) :
    (ofInt n).scaled < (ofInt k).scaled ↔ n < k := by
  have hone : (0 : Int) < one := Int.natCast_pos.mpr one_pos
  rw [scaled_ofInt hn]
  rcases Nat.lt_or_ge k (powTwo 53) with hlt | hge
  · rw [scaled_ofInt (by rwa [Int.natAbs_natCast])]
    exact Int.mul_lt_mul_right hone
  · have hle := le_scaled_ofInt hge hk
    rw [Nat.cast_mul] at hle
    have hnk : n < (powTwo 53 : Nat) := by omega
    have hlt := (Int.mul_lt_mul_right hone).mpr hnk
    exact iff_of_true (by omega) (by omega)

end ContentSchema.Binary64
