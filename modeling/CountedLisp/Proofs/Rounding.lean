import CountedLisp.Number.Shortest
import Mathlib

/-!
# Rounding to the nearest double

`Number.ratioBits` gives the pattern of the double nearest to a ratio. Around every double lie the
ratios that round to it: those no further away than half way to a neighbour, the ends included if
the double is even. Whatever fraction or decimal says such a ratio, it is read as that double.
-/
namespace CountedLisp.Number

structure NearestNat (x : ℚ) (r : ℕ) : Prop where
  low : r ≤ x + 1 / 2
  high : x ≤ r + 1 / 2
  even : r = x + 1 / 2 ∨ x = r + 1 / 2 → r % 2 = 0

theorem NearestNat.bounds {num den r : ℕ} (hd : 0 < den) (h : NearestNat (num / den) r) :
    2 * (r * den) ≤ 2 * num + den ∧ 2 * num ≤ 2 * (r * den) + den ∧
      (2 * (r * den) = 2 * num + den ∨ 2 * num = 2 * (r * den) + den → r % 2 = 0) := by
  have hd' : (0 : ℚ) < den := by exact_mod_cast hd
  refine ⟨?_, ?_, ?_⟩
  · have h₁ := h.low
    rw [← sub_le_iff_le_add, le_div_iff₀ hd'] at h₁
    have : (2 * (r * den) : ℚ) ≤ 2 * num + den := by linarith
    exact_mod_cast this
  · have h₁ := h.high
    rw [div_le_iff₀ hd'] at h₁
    have : (2 * num : ℚ) ≤ 2 * (r * den) + den := by linarith
    exact_mod_cast this
  · rintro (he | he)
    · have : (2 * (r * den) : ℚ) = 2 * num + den := by exact_mod_cast he
      refine h.even (.inl ?_)
      field_simp
      linarith
    · have : (2 * num : ℚ) = 2 * (r * den) + den := by exact_mod_cast he
      refine h.even (.inr ?_)
      field_simp
      linarith

theorem divNearest_eq {num den r : ℕ} (hd : 0 < den) (h : NearestNat (num / den) r) :
    divNearest num den = r := by
  obtain ⟨hlow, hhigh, heven⟩ := h.bounds hd
  have hdiv := Nat.div_add_mod num den
  have hmod := Nat.mod_lt num hd
  rw [Nat.mul_comm] at hdiv
  -- the quotient is the integer or the one below it
  have hr : r = num / den ∨ r = num / den + 1 := by
    have h₁ : num / den < r + 1 := by
      apply Nat.lt_of_mul_lt_mul_right (a := den)
      rw [Nat.add_mul]
      omega
    have h₂ : r < num / den + 2 := by
      apply Nat.lt_of_mul_lt_mul_right (a := den)
      rw [Nat.add_mul]
      omega
    omega
  unfold divNearest
  rcases hr with hr | hr
  · rw [← hr] at hdiv ⊢
    simp only
    split
    · rfl
    · rw [if_neg (by omega), if_pos (heven (by omega))]
  · rw [hr, Nat.add_mul] at hlow hhigh heven
    simp only
    rw [if_neg (by omega)]
    split
    · exact hr.symm
    · rw [if_neg (by omega)]
      exact hr.symm

theorem scaleBinary_ratio (num : ℕ) {den : ℕ} (hd : 0 < den) (q : ℤ) :
    ((scaleBinary num den q).1 : ℚ) / (scaleBinary num den q).2 = num / den / 2 ^ q := by
  have hd' : (den : ℚ) ≠ 0 := by exact_mod_cast hd.ne'
  unfold scaleBinary
  split
  · next hq =>
    obtain ⟨k, rfl⟩ := Int.eq_ofNat_of_zero_le hq
    simp [div_div]
  · next hq =>
    obtain ⟨k, hk⟩ := Int.eq_ofNat_of_zero_le (show 0 ≤ -q by omega)
    rw [show q = -(k : ℤ) by omega]
    simp
    ring

theorem scaleBinary_pos (num : ℕ) {den : ℕ} (hd : 0 < den) (q : ℤ) :
    0 < (scaleBinary num den q).2 := by
  unfold scaleBinary
  split
  · exact Nat.mul_pos hd (Nat.pow_pos (by decide))
  · exact hd

structure IsLastBit (x : ℚ) (q : ℤ) : Prop where
  least : minExponent ≤ q
  fits : x < 2 ^ (q + 53)
  full : q = minExponent ∨ 2 ^ (q + 52) ≤ x

theorem IsLastBit.unique {x : ℚ} {q q' : ℤ} (h : IsLastBit x q) (h' : IsLastBit x q') :
    q = q' := by
  -- a greater exponent is not the least one, so its 53 bits are all in use
  have hle : ∀ {a b : ℤ}, IsLastBit x a → IsLastBit x b → b ≤ a := by
    intro a b ha hb
    by_contra hab
    have hb' : (2 : ℚ) ^ (b + 52) ≤ x := by
      rcases hb.full with hb' | hb'
      · have := ha.least
        omega
      · exact hb'
    have hlt := lt_of_le_of_lt hb' ha.fits
    rw [zpow_lt_zpow_iff_right₀ (by norm_num)] at hlt
    omega
  exact le_antisymm (hle h' h) (hle h h')

/-- The exponent that makes all bits used is the one, unless it is too small. -/
theorem IsLastBit.clamp {x : ℚ} {q : ℤ} (hlow : 2 ^ (q + 52) ≤ x) (hhigh : x < 2 ^ (q + 53)) :
    IsLastBit x (max q minExponent) := by
  constructor
  · exact le_max_right q minExponent
  · refine lt_of_lt_of_le hhigh (zpow_le_zpow_right₀ (by norm_num) ?_)
    have := le_max_left q minExponent
    omega
  · rcases le_total q minExponent with hq | hq
    · exact .inl (max_eq_right hq)
    · rw [max_eq_left hq]
      exact .inr hlow

theorem log2_bounds {n : ℕ} (hn : 0 < n) :
    (2 : ℚ) ^ (n.log2 : ℤ) ≤ n ∧ (n : ℚ) < 2 ^ ((n.log2 : ℤ) + 1) := by
  constructor
  · exact_mod_cast Nat.log2_self_le hn.ne'
  · exact_mod_cast Nat.lt_log2_self

theorem ratio_log2_bounds {num den : ℕ} (hn : 0 < num) (hd : 0 < den) :
    (2 : ℚ) ^ ((num.log2 : ℤ) - den.log2 - 1) < num / den ∧
      (num / den : ℚ) < 2 ^ ((num.log2 : ℤ) - den.log2 + 1) := by
  have hd' : (0 : ℚ) < den := by exact_mod_cast hd
  obtain ⟨hnumLow, hnumHigh⟩ := log2_bounds hn
  obtain ⟨hdenLow, hdenHigh⟩ := log2_bounds hd
  constructor
  · rw [lt_div_iff₀ hd']
    calc (2 : ℚ) ^ ((num.log2 : ℤ) - den.log2 - 1) * den
        < 2 ^ ((num.log2 : ℤ) - den.log2 - 1) * 2 ^ ((den.log2 : ℤ) + 1) := by gcongr
      _ = 2 ^ (num.log2 : ℤ) := by
          rw [← zpow_add₀ (by norm_num)]
          congr 1
          ring
      _ ≤ num := hnumLow
  · rw [div_lt_iff₀ hd']
    calc (num : ℚ) < 2 ^ ((num.log2 : ℤ) + 1) := hnumHigh
      _ = 2 ^ ((num.log2 : ℤ) - den.log2 + 1) * 2 ^ (den.log2 : ℤ) := by
          rw [← zpow_add₀ (by norm_num)]
          congr 1
          ring
      _ ≤ 2 ^ ((num.log2 : ℤ) - den.log2 + 1) * den := by gcongr

theorem scaleBinary_lt_iff (num : ℕ) {den : ℕ} (hd : 0 < den) (q : ℤ) :
    (scaleBinary num den q).1 / (scaleBinary num den q).2 < Nat.pow 2 52 ↔
      (num / den : ℚ) < 2 ^ (q + 52) := by
  have hpos : (0 : ℚ) < (scaleBinary num den q).2 := by
    exact_mod_cast scaleBinary_pos num hd q
  rw [Nat.div_lt_iff_lt_mul (scaleBinary_pos num hd q), ← Nat.cast_lt (α := ℚ),
    Nat.cast_mul, ← div_lt_iff₀ hpos, scaleBinary_ratio num hd,
    div_lt_iff₀ (zpow_pos (by norm_num) q), zpow_add₀ (by norm_num), mul_comm]
  norm_num

theorem isLastBit_lastBit {num den : ℕ} (hn : 0 < num) (hd : 0 < den) :
    IsLastBit (num / den) (lastBit num den) := by
  obtain ⟨hlow, hhigh⟩ := ratio_log2_bounds hn hd
  unfold lastBit
  generalize hg : (num.log2 : ℤ) - den.log2 - 52 = guess
  rw [show (num.log2 : ℤ) - den.log2 - 1 = guess - 1 + 52 by omega] at hlow
  rw [show (num.log2 : ℤ) - den.log2 + 1 = guess + 53 by omega] at hhigh
  -- the logarithms leave two exponents, and the quotient decides between them
  simp only [scaleBinary_lt_iff num hd]
  split
  · next hq =>
    rw [show guess + 52 = guess - 1 + 53 by omega] at hq
    exact .clamp hlow.le hq
  · next hq => exact .clamp (not_lt.mp hq) hhigh

/-- The pattern of a ratio: the place of its last bit, and the nearest integer in units of it. -/
theorem ratioBits_of_nearest {num den r : ℕ} {q : ℤ} (hn : 0 < num) (hd : 0 < den)
    (hbit : IsLastBit (num / den) q) (hr : NearestNat (num / den / 2 ^ q) r)
    (hf : (q - minExponent).toNat * 2 ^ 52 + r < infinityBits) :
    ratioBits num den = (q - minExponent).toNat * 2 ^ 52 + r := by
  have hround : divNearest (scaleBinary num den q).1 (scaleBinary num den q).2 = r := by
    apply divNearest_eq (scaleBinary_pos num hd q)
    rwa [scaleBinary_ratio num hd]
  unfold ratioBits
  simp only [if_neg hn.ne', (isLastBit_lastBit hn hd).unique hbit, hround, Nat.pow_eq]
  exact min_eq_left hf.le

namespace Binary

structure Regular (b : Binary) : Prop where
  pos : 0 < b.significand
  fits : b.significand < 2 ^ 53
  least : minExponent ≤ b.exponent
  full : b.exponent = minExponent ∨ 2 ^ 52 ≤ b.significand
  narrow : b.narrowBelow = true ↔ b.significand = 2 ^ 52 ∧ minExponent < b.exponent

def bits (b : Binary) : ℕ :=
  (b.exponent - minExponent).toNat * 2 ^ 52 + b.significand

theorem field_lt {n : ℕ} (h : n < infinityBits) : n / 2 ^ 52 % 2 ^ 11 = n / 2 ^ 52 ∧
    n / 2 ^ 52 < 0x7FF := by
  simp only [infinityBits, Nat.pow_eq] at h
  omega

theorem bits_ofBits {n : ℕ} (h : n < infinityBits) : (ofBits n).bits = n := by
  obtain ⟨hfield, hlt⟩ := field_lt h
  simp only [ofBits, bits, Nat.pow_eq, hfield, minExponent]
  split
  · simp only [sub_self, Int.toNat_zero]
    omega
  · simp only
    omega

theorem regular_ofBits {n : ℕ} (h₀ : 0 < n) (h : n < infinityBits) : (ofBits n).Regular := by
  obtain ⟨hfield, hlt⟩ := field_lt h
  simp only [ofBits, Nat.pow_eq, hfield]
  split
  · next hz =>
    have hn : n % 2 ^ 52 = n := by omega
    constructor <;> simp only [minExponent, hn]
    · exact h₀
    · omega
    · omega
    · simp
    · simp
  · next hz =>
    constructor <;> simp only [minExponent, Bool.and_eq_true, decide_eq_true_eq]
    · omega
    · omega
    · omega
    · omega
    · omega

def low (b : Binary) : ℚ :=
  (4 * b.significand - if b.narrowBelow then 1 else 2) * 2 ^ (b.exponent - 2)

def high (b : Binary) : ℚ :=
  (4 * b.significand + 2) * 2 ^ (b.exponent - 2)

structure Rounds (b : Binary) (x : ℚ) : Prop where
  low : b.low ≤ x
  high : x ≤ b.high
  even : x = b.low ∨ x = b.high → b.significand % 2 = 0

theorem high_eq (b : Binary) : b.high = (b.significand + 1 / 2) * 2 ^ b.exponent := by
  rw [Binary.high, zpow_sub₀ (by norm_num)]
  ring

theorem low_eq (b : Binary) :
    b.low = (b.significand - if b.narrowBelow then 1 / 4 else 1 / 2) * 2 ^ b.exponent := by
  rw [Binary.low, zpow_sub₀ (by norm_num)]
  split <;> ring

theorem le_low (b : Binary) : ((b.significand : ℚ) - 1 / 2) * 2 ^ b.exponent ≤ b.low := by
  rw [low_eq]
  gcongr
  split <;> norm_num

variable {b : Binary} {x : ℚ}

theorem Regular.low_pos (hb : b.Regular) : 0 < b.low := by
  have hm : (1 : ℚ) ≤ b.significand := by exact_mod_cast hb.pos
  refine lt_of_lt_of_le (mul_pos ?_ (zpow_pos (by norm_num) b.exponent)) b.le_low
  linarith

theorem Rounds.lt_two_zpow (hb : b.Regular) (hx : b.Rounds x) : x < 2 ^ (b.exponent + 53) := by
  have hm : (b.significand : ℚ) + 1 ≤ 2 ^ 53 := by exact_mod_cast hb.fits
  calc x ≤ (b.significand + 1 / 2) * 2 ^ b.exponent := b.high_eq ▸ hx.high
    _ < 2 ^ 53 * 2 ^ b.exponent := by
        have := zpow_pos (show (0 : ℚ) < 2 by norm_num) b.exponent
        gcongr
        linarith
    _ = 2 ^ (b.exponent + 53) := by
        rw [zpow_add₀ (by norm_num), mul_comm]
        norm_num

/-- A ratio that uses all the bits of the double rounds to its significand. -/
theorem Rounds.nearestNat (hx : b.Rounds x) : NearestNat (x / 2 ^ b.exponent) b.significand := by
  have hp := zpow_pos (show (0 : ℚ) < 2 by norm_num) b.exponent
  have hlow := le_trans b.le_low hx.low
  have hhigh := b.high_eq ▸ hx.high
  constructor
  · rw [← sub_le_iff_le_add, le_div_iff₀ hp]
    exact hlow
  · rw [div_le_iff₀ hp]
    exact hhigh
  · rintro (h | h)
    · refine hx.even (.inl (le_antisymm ?_ hx.low))
      have hxe : x = (b.significand - 1 / 2) * 2 ^ b.exponent := by
        rw [← div_eq_iff hp.ne']
        linarith
      rw [hxe]
      exact b.le_low
    · refine hx.even (.inr ?_)
      rwa [b.high_eq, ← div_eq_iff hp.ne']

/-- Below a power of two the doubles are closer together: a ratio that rounds up to the power rounds
to one more than the greatest significand. -/
theorem Rounds.nearestNat_below (hb : b.Regular) (hx : b.Rounds x) (hm : b.significand = 2 ^ 52)
    (he : minExponent < b.exponent) (hlt : x < 2 ^ (b.exponent + 52)) :
    NearestNat (x / 2 ^ (b.exponent - 1)) (2 ^ 53) := by
  have hp := zpow_pos (show (0 : ℚ) < 2 by norm_num) (b.exponent - 1)
  have hlow := b.low_eq ▸ hx.low
  rw [if_pos (hb.narrow.mpr ⟨hm, he⟩), hm, show b.exponent = b.exponent - 1 + 1 by omega,
    zpow_add_one₀ (by norm_num)] at hlow
  rw [show b.exponent + 52 = b.exponent - 1 + 53 by omega, zpow_add₀ (by norm_num)] at hlt
  push_cast at hlow ⊢
  constructor
  · rw [← sub_le_iff_le_add, le_div_iff₀ hp]
    push_cast
    linarith
  · rw [div_le_iff₀ hp]
    push_cast
    norm_num at hlt ⊢
    linarith
  · intro _
    norm_num

theorem ratioBits_eq {num den : ℕ} (hd : 0 < den) (hb : b.Regular) (hf : b.bits < infinityBits)
    (hx : b.Rounds (num / den)) : ratioBits num den = b.bits := by
  have hx₀ := lt_of_lt_of_le hb.low_pos hx.low
  have hn : 0 < num := by
    rcases Nat.eq_zero_or_pos num with rfl | hn
    · simp at hx₀
    · exact hn
  by_cases hfull : b.exponent = minExponent ∨ (2 : ℚ) ^ (b.exponent + 52) ≤ num / den
  · exact ratioBits_of_nearest hn hd ⟨hb.least, hx.lt_two_zpow hb, hfull⟩ hx.nearestNat hf
  · -- the ratio lies below the least double with this exponent, and is rounded up to it
    obtain ⟨he, hlt⟩ := not_or.mp hfull
    replace hlt := not_le.mp hlt
    have he' : minExponent < b.exponent := lt_of_le_of_ne hb.least (Ne.symm he)
    have hm : b.significand = 2 ^ 52 := by
      refine le_antisymm ?_ (hb.full.resolve_left he)
      have hp := zpow_pos (show (0 : ℚ) < 2 by norm_num) b.exponent
      have hlow := lt_of_le_of_lt (le_trans b.le_low hx.low) hlt
      rw [zpow_add₀ (by norm_num), mul_comm, mul_lt_mul_iff_right₀ hp, sub_lt_iff_lt_add] at hlow
      have hlt : (b.significand : ℚ) < 2 ^ (52 : ℤ) + 1 := lt_trans hlow (by norm_num)
      have : b.significand < 2 ^ 52 + 1 := by exact_mod_cast hlt
      omega
    have hbit : IsLastBit (num / den) (b.exponent - 1) := by
      refine ⟨by omega, ?_, .inr ?_⟩
      · rwa [show b.exponent - 1 + 53 = b.exponent + 52 by omega]
      · refine le_trans ?_ (le_trans b.le_low hx.low)
        rw [hm, show b.exponent - 1 + 52 = b.exponent + 51 by omega, zpow_add₀ (by norm_num),
          mul_comm]
        gcongr
        norm_num
    have hcarry : (b.exponent - 1 - minExponent).toNat * 2 ^ 52 + 2 ^ 53 = b.bits := by
      rw [Binary.bits, hm]
      omega
    rw [← hcarry] at hf ⊢
    exact ratioBits_of_nearest hn hd hbit (hx.nearestNat_below hb hm he' hlt) hf

theorem exponent_le (hf : b.bits < infinityBits) : b.exponent ≤ 972 := by
  simp only [Binary.bits, infinityBits, minExponent, Nat.pow_eq] at hf
  omega

/-- The doubles lie far inside the bounds beyond which decimals are not looked at. -/
theorem Rounds.bounds (hb : b.Regular) (hf : b.bits < infinityBits) (hx : b.Rounds x) :
    (10 : ℚ) ^ (-decimalBound - 1) < x ∧ x < 10 ^ decimalBound := by
  constructor
  · have hm : (1 : ℚ) / 2 ≤ b.significand - 1 / 2 := by
      have : (1 : ℚ) ≤ b.significand := by exact_mod_cast hb.pos
      linarith
    have hp : (2 : ℚ) ^ minExponent ≤ 2 ^ b.exponent := zpow_le_zpow_right₀ (by norm_num) hb.least
    have hnat : 2 ^ 1075 < 10 ^ 401 := by decide +kernel
    have hpow : (2 : ℚ) ^ (1075 : ℤ) < 10 ^ (401 : ℤ) := by exact_mod_cast hnat
    calc (10 : ℚ) ^ (-401 : ℤ) < 2 ^ (-1075 : ℤ) := by
          rw [zpow_neg, zpow_neg]
          exact inv_strictAnti₀ (zpow_pos (by norm_num) _) hpow
      _ = 1 / 2 * 2 ^ minExponent := by
          rw [show (-1075 : ℤ) = -1 + minExponent from rfl, zpow_add₀ (by norm_num)]
          norm_num
      _ ≤ (b.significand - 1 / 2) * 2 ^ b.exponent := by gcongr
      _ ≤ x := le_trans b.le_low hx.low
  · have hnat : 2 ^ 1025 < 10 ^ 400 := by decide +kernel
    calc x < 2 ^ (b.exponent + 53) := hx.lt_two_zpow hb
      _ ≤ 2 ^ (1025 : ℤ) := by
          have := exponent_le hf
          exact zpow_le_zpow_right₀ (by norm_num) (by omega)
      _ < 10 ^ (400 : ℤ) := by exact_mod_cast hnat

end Binary

theorem lt_pow_toDigits (n : ℕ) : n < 10 ^ (Nat.toDigits 10 n).length :=
  (Nat.length_toDigits_le_iff (by decide) Nat.length_toDigits_pos).mp le_rfl

theorem pow_toDigits_le {n : ℕ} (hn : 0 < n) : 10 ^ ((Nat.toDigits 10 n).length - 1) ≤ n := by
  by_contra hlt
  rcases Nat.eq_zero_or_pos ((Nat.toDigits 10 n).length - 1) with hz | hz
  · rw [hz] at hlt
    omega
  · have := (Nat.length_toDigits_le_iff (by decide) hz).mpr (not_le.mp hlt)
    omega

theorem Binary.Rounds.digits_bounds {b : Binary} {n : ℕ} {e : ℤ} (hb : b.Regular)
    (hf : b.bits < infinityBits) (hx : b.Rounds (n * 10 ^ e)) :
    0 < n ∧ -decimalBound ≤ e + (Nat.toDigits 10 n).length ∧
      e + (Nat.toDigits 10 n).length ≤ decimalBound := by
  obtain ⟨hsmall, hlarge⟩ := hx.bounds hb hf
  have hn : 0 < n := by
    rcases Nat.eq_zero_or_pos n with rfl | hn
    · have := lt_of_lt_of_le hb.low_pos hx.low
      simp at this
    · exact hn
  have hlen : 0 < (Nat.toDigits 10 n).length := Nat.length_toDigits_pos
  refine ⟨hn, ?_, ?_⟩
  · by_contra h
    have hlt : (n : ℚ) < 10 ^ (Nat.toDigits 10 n).length := by exact_mod_cast lt_pow_toDigits n
    have hten : (n : ℚ) * 10 ^ e ≤ 10 ^ (-decimalBound - 1) := by
      calc (n : ℚ) * 10 ^ e ≤ 10 ^ (Nat.toDigits 10 n).length * 10 ^ e := by gcongr
        _ = 10 ^ (((Nat.toDigits 10 n).length : ℤ) + e) := by
            rw [zpow_add₀ (by norm_num), zpow_natCast]
        _ ≤ 10 ^ (-decimalBound - 1) := zpow_le_zpow_right₀ (by norm_num) (by omega)
    exact absurd hsmall (not_lt.mpr hten)
  · by_contra h
    have hle : ((10 : ℚ) ^ ((Nat.toDigits 10 n).length - 1)) ≤ n := by
      exact_mod_cast pow_toDigits_le hn
    have hten : (10 : ℚ) ^ decimalBound ≤ n * 10 ^ e := by
      calc (10 : ℚ) ^ decimalBound
          ≤ 10 ^ ((((Nat.toDigits 10 n).length - 1 : ℕ) : ℤ) + e) :=
            zpow_le_zpow_right₀ (by norm_num) (by omega)
        _ = 10 ^ ((Nat.toDigits 10 n).length - 1) * 10 ^ e := by
            rw [zpow_add₀ (by norm_num), zpow_natCast]
        _ ≤ n * 10 ^ e := by gcongr
    exact absurd hlarge (not_lt.mpr hten)

/-- However a decimal is written that rounds to a double, it is read as that double. -/
theorem ofDecimal_eq {b : Binary} {n : ℕ} {e : ℤ} (hb : b.Regular) (hf : b.bits < infinityBits)
    (hx : b.Rounds (n * 10 ^ e)) : ofDecimal n e = Float.ofBits b.bits.toUInt64 := by
  obtain ⟨hn, hsmall, hlarge⟩ := hx.digits_bounds hb hf
  simp only [ofDecimal, if_neg hn.ne', if_neg hlarge.not_gt, if_neg hsmall.not_gt, ofRatio]
  split
  · next he =>
    obtain ⟨k, rfl⟩ := Int.eq_ofNat_of_zero_le he
    rw [Binary.ratioBits_eq (by decide) hb hf]
    simpa using hx
  · next he =>
    obtain ⟨k, hk⟩ := Int.eq_ofNat_of_zero_le (show 0 ≤ -e by omega)
    have hden : 0 < Nat.pow 10 (-e).toNat := Nat.pow_pos (by decide)
    rw [Binary.ratioBits_eq hden hb hf]
    rw [show e = -(k : ℤ) by omega, zpow_neg, ← div_eq_mul_inv] at hx
    simpa [hk] using hx

end CountedLisp.Number
