import CountedLisp.Proofs.Rounding

/-!
# The shortest decimal rounds back

The search for the shortest decimal of a double tries one digit more each time. What it finds lies
among the ratios that round to the double. It always finds something: with seventeen digits the
decimals stand so close that one of the two next to the double is among them.
-/
namespace CountedLisp.Number

theorem length_toDigits_div {num den : ℕ} (hd : 0 < den) (hle : den ≤ num) :
    ∃ k, (Nat.toDigits 10 (num / den)).length = k + 1 ∧
      (10 ^ k * den : ℚ) ≤ num ∧ (num : ℚ) < 10 ^ (k + 1) * den := by
  have hlow := pow_toDigits_le (Nat.div_pos hle hd)
  have hhigh := lt_pow_toDigits (num / den)
  have hlen : 0 < (Nat.toDigits 10 (num / den)).length := Nat.length_toDigits_pos
  rw [Nat.le_div_iff_mul_le hd] at hlow
  rw [Nat.div_lt_iff_lt_mul hd] at hhigh
  generalize (Nat.toDigits 10 (num / den)).length = len at hlen hlow hhigh
  obtain ⟨k, rfl⟩ : ∃ k, len = k + 1 := ⟨len - 1, by omega⟩
  exact ⟨k, rfl, by exact_mod_cast hlow, by exact_mod_cast hhigh⟩

theorem leadingExponent_spec {num den : ℕ} (hn : 0 < num) (hd : 0 < den) :
    (10 : ℚ) ^ leadingExponent num den ≤ num / den ∧
      (num / den : ℚ) < 10 ^ (leadingExponent num den + 1) := by
  have hd' : (0 : ℚ) < den := by exact_mod_cast hd
  unfold leadingExponent
  split
  · next hle =>
    -- the digits of the whole part
    obtain ⟨k, hlen, hlow, hhigh⟩ := length_toDigits_div hd hle
    rw [hlen, show ((k + 1 : ℕ) : ℤ) - 1 = k by omega]
    constructor
    · rwa [zpow_natCast, le_div_iff₀ hd']
    · rw [div_lt_iff₀ hd']
      exact_mod_cast hhigh
  · next hlt =>
    -- the digits of the inverse, where a power of ten stands at the end of its range
    obtain ⟨k, hlen, hlow, hhigh⟩ := length_toDigits_div hn (not_le.mp hlt).le
    have hpos : (0 : ℚ) < 10 ^ k := by positivity
    simp only [hlen, Nat.add_sub_cancel]
    split
    · next hexact =>
      have hexact' : (den : ℚ) ≤ num * 10 ^ k := by exact_mod_cast hexact
      constructor
      · rw [show 1 - ((k + 1 : ℕ) : ℤ) = -(k : ℤ) by omega, zpow_neg, zpow_natCast, le_div_iff₀ hd',
          inv_mul_le_iff₀ hpos, mul_comm]
        exact hexact'
      · have hn' : (0 : ℚ) < num := by exact_mod_cast hn
        rw [show 1 - ((k + 1 : ℕ) : ℤ) + 1 = 1 - (k : ℤ) by omega, zpow_sub₀ (by norm_num),
          zpow_natCast, zpow_one, div_lt_div_iff₀ hd' hpos]
        linarith
    · next hexact =>
      have hexact' : (num * 10 ^ k : ℚ) < den := by exact_mod_cast not_le.mp hexact
      constructor
      · rw [zpow_neg, zpow_natCast, le_div_iff₀ hd', inv_mul_le_iff₀ (by positivity)]
        exact hhigh.le
      · rw [show -((k + 1 : ℕ) : ℤ) + 1 = -(k : ℤ) by omega, zpow_neg, zpow_natCast,
          div_lt_iff₀ hd', lt_inv_mul_iff₀ hpos, mul_comm]
        exact hexact'

namespace Interval

variable {i : Interval} {c : ℕ}

theorem holds_iff (hd : 0 < i.den) : i.holds c = true ↔
    (i.low / i.den : ℚ) ≤ c ∧ (c : ℚ) ≤ i.high / i.den ∧
      ((c : ℚ) = i.low / i.den ∨ (c : ℚ) = i.high / i.den → i.closed = true) := by
  have hd' : (0 : ℚ) < i.den := by exact_mod_cast hd
  rw [div_le_iff₀ hd', le_div_iff₀ hd', eq_div_iff hd'.ne', eq_div_iff hd'.ne']
  unfold holds
  cases i.closed with
  | true =>
    simp only [if_true, Bool.and_eq_true, decide_eq_true_eq, imp_true_iff, and_true]
    exact_mod_cast Iff.rfl
  | false =>
    simp only [Bool.false_eq_true, if_false, Bool.and_eq_true, decide_eq_true_eq, imp_false, not_or]
    norm_cast
    omega

theorem nearest?_cases (i : Interval) : (∃ c, i.nearest? = some c ∧ i.holds c = true) ∨
    i.nearest? = none ∧ i.holds (i.value / i.den) = false ∧
      i.holds (i.value / i.den + 1) = false := by
  simp only [nearest?]
  split
  · next hb ha =>
    left
    split
    · exact ⟨_, rfl, hb⟩
    · split
      · exact ⟨_, rfl, ha⟩
      · split
        · exact ⟨_, rfl, hb⟩
        · exact ⟨_, rfl, ha⟩
  · next hb _ => exact .inl ⟨_, rfl, hb⟩
  · next ha => exact .inl ⟨_, rfl, ha⟩
  · next hb ha => exact .inr ⟨rfl, hb, ha⟩

theorem rescale_den_pos (hd : 0 < i.den) (e : ℤ) : 0 < (i.rescale e).den := by
  unfold rescale
  split
  · exact Nat.mul_pos hd (Nat.pow_pos (by decide))
  · exact hd

/-- Measuring in units of a power of ten divides all places by it. -/
theorem rescale_ratio (hd : 0 < i.den) (e : ℤ) :
    ((i.rescale e).low / (i.rescale e).den : ℚ) = i.low / i.den / 10 ^ e ∧
      ((i.rescale e).value / (i.rescale e).den : ℚ) = i.value / i.den / 10 ^ e ∧
      ((i.rescale e).high / (i.rescale e).den : ℚ) = i.high / i.den / 10 ^ e := by
  have hd' : (i.den : ℚ) ≠ 0 := by exact_mod_cast hd.ne'
  unfold rescale
  split
  · next he =>
    obtain ⟨k, rfl⟩ := Int.eq_ofNat_of_zero_le he
    simp [div_div]
  · next he =>
    obtain ⟨k, hk⟩ := Int.eq_ofNat_of_zero_le (show 0 ≤ -e by omega)
    rw [show e = -(k : ℤ) by omega]
    simp only [neg_neg, Int.toNat_natCast, Nat.pow_eq, Nat.cast_mul,
      Nat.cast_pow, Nat.cast_ofNat, zpow_neg, zpow_natCast, div_inv_eq_mul]
    refine ⟨?_, ?_, ?_⟩ <;> ring

@[simp] theorem closed_rescale (i : Interval) (e : ℤ) : (i.rescale e).closed = i.closed := by
  unfold rescale
  split <;> rfl

end Interval

theorem searchDecimal_holds {i : Interval} {tries : ℕ} {e : ℤ}
    (h : ∃ k < tries, (i.rescale (e - k)).nearest? ≠ none) :
    (i.rescale (searchDecimal i tries e).exponent).holds (searchDecimal i tries e).digits =
      true := by
  induction tries generalizing e with
  | zero =>
    obtain ⟨k, hk, -⟩ := h
    omega
  | succ tries ih =>
    rw [searchDecimal]
    rcases (i.rescale e).nearest?_cases with ⟨c, hn, hc⟩ | ⟨hn, -, -⟩
    · rw [hn]
      exact hc
    · rw [hn]
      apply ih
      obtain ⟨k, hk, hc⟩ := h
      cases k with
      | zero =>
        rw [Nat.cast_zero, sub_zero] at hc
        exact absurd hn hc
      | succ k =>
        refine ⟨k, by omega, ?_⟩
        rwa [show e - 1 - (k : ℤ) = e - ((k + 1 : ℕ) : ℤ) by omega]

namespace Binary

variable {b : Binary} {x : ℚ}

theorem interval_ratio (hb : b.Regular) : 0 < b.interval.den ∧
    (b.interval.low / b.interval.den : ℚ) = b.low ∧
    (b.interval.value / b.interval.den : ℚ) = b.significand * 2 ^ b.exponent ∧
    (b.interval.high / b.interval.den : ℚ) = b.high := by
  have hm := hb.pos
  have hlow : ((if b.narrowBelow then 4 * b.significand - 1 else 4 * b.significand - 2 : ℕ) : ℚ) =
      4 * b.significand - if b.narrowBelow then 1 else 2 := by
    split
    · rw [Nat.cast_sub (by omega)]
      push_cast
      rfl
    · rw [Nat.cast_sub (by omega)]
      push_cast
      rfl
  have hvalue : (b.significand : ℚ) * 2 ^ b.exponent =
      4 * b.significand * 2 ^ (b.exponent - 2) := by
    rw [zpow_sub₀ (by norm_num)]
    ring
  rw [hvalue, Binary.low, Binary.high]
  unfold interval
  simp only
  by_cases hs : 0 ≤ b.exponent - 2
  · obtain ⟨k, hk⟩ := Int.eq_ofNat_of_zero_le hs
    rw [if_pos hs, if_pos hs, hk]
    refine ⟨by decide, ?_, ?_, ?_⟩
    · rw [Nat.cast_mul, hlow]
      simp
    · simp
    · simp
  · obtain ⟨k, hk⟩ := Int.eq_ofNat_of_zero_le (show 0 ≤ -(b.exponent - 2) by omega)
    rw [if_neg hs, if_neg hs, hk, show b.exponent - 2 = -(k : ℤ) by omega]
    refine ⟨Nat.pow_pos (by decide), ?_, ?_, ?_⟩
    · rw [Nat.cast_mul, hlow]
      simp [div_eq_mul_inv]
    · simp [div_eq_mul_inv]
    · simp [div_eq_mul_inv]

/-- The search tests exactly whether a decimal rounds to the double. -/
theorem holds_rescale_iff (hb : b.Regular) {c : ℕ} {e : ℤ} :
    (b.interval.rescale e).holds c = true ↔ b.Rounds (c * 10 ^ e) := by
  obtain ⟨hd, hlow, -, hhigh⟩ := interval_ratio hb
  obtain ⟨hl, -, hh⟩ := Interval.rescale_ratio hd e
  have hp : (0 : ℚ) < 10 ^ e := zpow_pos (by norm_num) e
  have hclosed : b.interval.closed = true ↔ b.significand % 2 = 0 := by simp [interval]
  rw [Interval.holds_iff (Interval.rescale_den_pos hd e), hl, hh, hlow, hhigh,
    Interval.closed_rescale, hclosed, div_le_iff₀ hp, le_div_iff₀ hp, eq_div_iff hp.ne',
    eq_div_iff hp.ne']
  exact ⟨fun ⟨h₁, h₂, h₃⟩ => ⟨h₁, h₂, h₃⟩, fun h => ⟨h.low, h.high, h.even⟩⟩

theorem rounds_of_lt (h : b.low < x) (h' : x < b.high) : b.Rounds x :=
  ⟨h.le, h'.le, by rintro (rfl | rfl) <;> simp at h h'⟩

/-- Of two decimals next to a double that differ by a seventeenth digit, one rounds to it. -/
theorem rounds_near (hb : b.Regular) {u : ℚ} {c : ℕ} (hu : 0 < u)
    (hdigits : u * 10 ^ 16 ≤ b.significand * 2 ^ b.exponent)
    (hc : c * u ≤ b.significand * 2 ^ b.exponent)
    (hc' : b.significand * 2 ^ b.exponent < (c + 1) * u) :
    b.Rounds (c * u) ∨ b.Rounds ((c + 1) * u) := by
  have hp := zpow_pos (show (0 : ℚ) < 2 by norm_num) b.exponent
  have hhigh := b.high_eq
  have hlow := b.low_eq
  generalize (2 : ℚ) ^ b.exponent = g at hdigits hc hc' hp hhigh hlow
  by_cases hn : b.narrowBelow = true
  · -- the significand is small, so the decimal above is near enough
    obtain ⟨hm, -⟩ := hb.narrow.mp hn
    rw [if_pos hn] at hlow
    have hu' : u < g / 2 := by
      rw [hm] at hdigits
      push_cast at hdigits
      linarith
    refine .inr (rounds_of_lt ?_ ?_) <;> rw [hm] at * <;> push_cast at * <;> linarith
  · rw [if_neg hn] at hlow
    have hm : (b.significand : ℚ) ≤ 2 ^ 53 := by exact_mod_cast hb.fits.le
    have hu' : u < g := by
      have := mul_le_mul_of_nonneg_right hm hp.le
      linarith
    rcases le_total (b.significand * g - c * u) (u / 2) with hnear | hnear
    · refine .inl (rounds_of_lt ?_ ?_) <;> linarith
    · refine .inr (rounds_of_lt ?_ ?_) <;> linarith

theorem nearest?_ne_none (hb : b.Regular) {e : ℤ}
    (he : (10 : ℚ) ^ (e + 16) ≤ b.significand * 2 ^ b.exponent) :
    (b.interval.rescale e).nearest? ≠ none := by
  intro hnone
  rcases (b.interval.rescale e).nearest?_cases with ⟨c, hc, -⟩ | ⟨-, hbelow, habove⟩
  · rw [hnone] at hc
    cases hc
  obtain ⟨hd, -, hvalue, -⟩ := interval_ratio hb
  obtain ⟨-, hv, -⟩ := Interval.rescale_ratio hd e
  have hd' : 0 < (b.interval.rescale e).den := Interval.rescale_den_pos hd e
  have hu : (0 : ℚ) < 10 ^ e := zpow_pos (by norm_num) _
  rw [hvalue, eq_div_iff hu.ne'] at hv
  rw [← Bool.not_eq_true, holds_rescale_iff hb] at hbelow habove
  generalize b.interval.rescale e = i at hv hd' hbelow habove
  have hd'' : (0 : ℚ) < i.den := by exact_mod_cast hd'
  push_cast at habove
  have hnear := rounds_near hb (u := 10 ^ e) (c := i.value / i.den) hu ?_ ?_ ?_
  · exact hnear.elim hbelow habove
  · rw [zpow_add₀ (by norm_num)] at he
    exact_mod_cast he
  · rw [← hv]
    gcongr
    exact Nat.cast_div_le
  · rw [← hv]
    gcongr
    rw [div_lt_iff₀ hd'', mul_comm]
    exact_mod_cast Nat.lt_mul_div_succ i.value hd'

theorem shortest_rounds (hb : b.Regular) :
    b.Rounds ((shortest b).digits * 10 ^ (shortest b).exponent) := by
  rw [← holds_rescale_iff hb]
  apply searchDecimal_holds
  refine ⟨16, by decide, nearest?_ne_none hb ?_⟩
  obtain ⟨hd, -, hvalue, -⟩ := interval_ratio hb
  have hpos : 0 < b.interval.value := by
    have hm : (0 : ℚ) < b.significand := by exact_mod_cast hb.pos
    have hd' : (0 : ℚ) < b.interval.den := by exact_mod_cast hd
    have : (0 : ℚ) < b.interval.value := by
      rw [← div_pos_iff_of_pos_right hd', hvalue]
      exact mul_pos hm (zpow_pos (by norm_num) _)
    exact_mod_cast this
  rw [← hvalue, Nat.cast_ofNat, sub_add_cancel]
  exact (leadingExponent_spec hpos hd).1

end Binary

end CountedLisp.Number
