import CountedLisp.Number.Layout
import CountedLisp.Proofs.Numeral
import CountedLisp.Proofs.Shortest

/-!
# Printed numbers are literals

The text of a finite number spells a literal, and the number of that literal is the printed one, to
the last bit and with its sign. A literal is never not-a-number; if it is out of range it is
infinite, and the names of the infinities are not literals.
-/
namespace CountedLisp.Number

open Text

section Bits

open Float.Model Float.Model.UnpackedFloat

variable {b b' : BitVec Format.binary64.numBits} {negative : Bool} {size : ℕ}

theorem toNat_exponent (b : BitVec Format.binary64.numBits) :
    (unpackExponent b).toNat = b.toNat / 2 ^ 52 % 2 ^ 11 := by
  rw [unpackExponent_def, BitVec.extractLsb'_toNat, Nat.shiftRight_eq_div_pow]

theorem toNat_mantissa (b : BitVec Format.binary64.numBits) :
    (unpackMantissa b).toNat = b.toNat % 2 ^ 52 := by
  rw [unpackMantissa_def, BitVec.extractLsb'_toNat, Nat.shiftRight_zero]

theorem toNat_sign (b : BitVec Format.binary64.numBits) :
    (unpackSign b).toNat = b.toNat / 2 ^ 63 % 2 := by
  rw [unpackSign_def, BitVec.extractLsb'_toNat, Nat.shiftRight_eq_div_pow]
  rfl

theorem exponent_eq_ones : unpackExponent b = -1#_ ↔ b.toNat / 2 ^ 52 % 2 ^ 11 = 2047 := by
  rw [← toNat_exponent, ← BitVec.toNat_inj]
  rfl

theorem mantissa_eq_zero : unpackMantissa b = 0#_ ↔ b.toNat % 2 ^ 52 = 0 := by
  rw [← toNat_mantissa, ← BitVec.toNat_inj]
  rfl

def signedBits (negative : Bool) (size : ℕ) : UInt64 :=
  (size + if negative then Nat.pow 2 63 else 0).toUInt64

def ofSize (negative : Bool) (size : ℕ) : Float :=
  Float.ofBits (signedBits negative size)

theorem toNat_signedBits (h : size ≤ infinityBits) : (signedBits negative size).toBitVec.toNat =
    size + if negative then 2 ^ 63 else 0 := by
  have : infinityBits < 2 ^ 63 := by decide
  have hlt : (size + if negative then Nat.pow 2 63 else 0) < 2 ^ 64 := by
    split <;> simp <;> omega
  exact Nat.mod_eq_of_lt hlt

theorem infinityBits_eq : infinityBits = 2047 * 2 ^ 52 := rfl

theorem valid_signedBits (h : size ≤ infinityBits) :
    Format.binary64.Valid (signedBits negative size).toBitVec := by
  refine ⟨fun he hm => absurd ?_ hm⟩
  rw [exponent_eq_ones, toNat_signedBits h] at he
  rw [mantissa_eq_zero, toNat_signedBits h]
  rw [infinityBits_eq] at h
  split at he <;> simp_all <;> omega

theorem toBits_ofSize (h : size ≤ infinityBits) :
    (ofSize negative size).toBits = signedBits negative size :=
  UInt64.toBitVec_inj.mp (pack_unpack_of_valid (valid_signedBits h))

theorem unpack_neg (he : unpackExponent b' = unpackExponent b)
    (hm : unpackMantissa b' = unpackMantissa b)
    (hs : Sign.ofBitVec (unpackSign b') = -Sign.ofBitVec (unpackSign b)) :
    unpack Format.binary64 b' = (unpack Format.binary64 b).neg := by
  unfold UnpackedFloat.unpack
  simp only [he, hm, hs]
  split_ifs <;> rfl

theorem neg_ofSize (h : size ≤ infinityBits) : -ofSize false size = ofSize true size := by
  have hneg : unpack Format.binary64 (signedBits true size).toBitVec =
      (unpack Format.binary64 (signedBits false size).toBitVec).neg := by
    have hlt : size < 2 ^ 63 := h.trans_lt (by decide)
    apply unpack_neg
    · rw [← BitVec.toNat_inj, toNat_exponent, toNat_exponent, toNat_signedBits h,
        toNat_signedBits h]
      simp
      omega
    · rw [← BitVec.toNat_inj, toNat_mantissa, toNat_mantissa, toNat_signedBits h,
        toNat_signedBits h]
      simp
      omega
    · have ht : @unpackSign Format.binary64 (signedBits true size).toBitVec = 1#1 := by
        rw [← BitVec.toNat_inj, toNat_sign, toNat_signedBits h]
        simp
        omega
      have hf : @unpackSign Format.binary64 (signedBits false size).toBitVec = 0#1 := by
        rw [← BitVec.toNat_inj, toNat_sign, toNat_signedBits h]
        simp
        omega
      rw [ht, hf]
      rfl
  apply Float.toBits_inj.mp
  apply UInt64.toBitVec_inj.mp
  show pack Format.binary64 (unpack Format.binary64 (ofSize false size).toBits.toBitVec).neg = _
  rw [toBits_ofSize h, toBits_ofSize h, ← hneg, pack_unpack_of_valid (valid_signedBits h)]

theorem isFinite_unpack :
    (unpack Format.binary64 b).isFinite = true ↔ b.toNat / 2 ^ 52 % 2 ^ 11 ≠ 2047 := by
  rw [ne_eq, ← exponent_eq_ones]
  unfold UnpackedFloat.unpack
  dsimp only
  split_ifs with he <;>
    simp only [UnpackedFloat.isFinite, he, not_true, not_false_eq_true, Bool.false_eq_true]

theorem isFinite_iff {x : Float} :
    x.isFinite = true ↔ x.toBits.toNat / 2 ^ 52 % 2 ^ 11 ≠ 2047 :=
  isFinite_unpack

theorem isFinite_ofSize (h : size ≤ infinityBits) :
    (ofSize negative size).isFinite = true ↔ size < infinityBits := by
  rw [isFinite_iff, toBits_ofSize h, ← UInt64.toNat_toBitVec, toNat_signedBits h]
  rw [infinityBits_eq] at h ⊢
  split <;> omega

theorem exists_ofSize {x : Float} (h : x.isFinite = true) :
    ∃ negative size, size < infinityBits ∧ x = ofSize negative size := by
  rw [isFinite_iff] at h
  have hlt : x.toBits.toNat < 2 ^ 64 := x.toBits.toNat_lt
  refine ⟨decide (2 ^ 63 ≤ x.toBits.toNat), x.toBits.toNat % 2 ^ 63, ?_, ?_⟩
  · rw [infinityBits_eq]
    omega
  · have hsum : x.toBits.toNat % 2 ^ 63 + (if decide (2 ^ 63 ≤ x.toBits.toNat) then Nat.pow 2 63
        else 0) = x.toBits.toNat := by
      by_cases hsign : 2 ^ 63 ≤ x.toBits.toNat
      · simp only [hsign, decide_true, if_true, Nat.pow_eq]
        omega
      · simp only [hsign, decide_false, Bool.false_eq_true, if_false]
        omega
    rw [ofSize, signedBits, hsum]
    simp

end Bits

theorem ofString_point : Text.ofString "." = [Byte.dot] := by decide

theorem ofString_zero : Text.ofString "0" = [Byte.zero] := by decide

theorem ofString_zero_point : Text.ofString "0." = [Byte.zero, Byte.dot] := by decide

theorem ofString_mark : Text.ofString "e" = ['e'.toUInt8] := by decide

theorem ofString_minus : Text.ofString "-" = [Byte.minus] := by decide

theorem ofString_plus : Text.ofString "+" = [Byte.plus] := by decide

section Digits

variable {ds es : Text}

theorem ofDigits_append (ds es : Text) :
    ofDigits (ds ++ es) = ofDigits ds * 10 ^ es.length + ofDigits es := by
  induction es using List.reverseRecOn with
  | nil => simp [ofDigits]
  | append_singleton es e ih =>
    have hstep (us : Text) : ofDigits (us ++ [e]) = 10 * ofDigits us + digitValue e := by
      simp [ofDigits]
    rw [← List.append_assoc, hstep, ih, hstep, List.length_append, List.length_singleton]
    ring

@[simp] theorem length_zeros (n : ℕ) : (zeros n).length = n := List.length_replicate

theorem ofDigits_zeros (n : ℕ) : ofDigits (zeros n) = 0 := by
  induction n with
  | zero => rfl
  | succ n ih =>
    rw [zeros, List.replicate_succ', ofDigits_append, ← zeros, ih]
    rfl

theorem isDigit_zeros (n : ℕ) : ∀ b ∈ zeros n, isDigit b = true := by
  intro b hb
  rw [List.eq_of_mem_replicate hb]
  rfl

theorem digitChar_spec : ∀ d < 10, isDigit d.digitChar.toNat.toUInt8 = true ∧
    digitValue d.digitChar.toNat.toUInt8 = d := by decide

theorem ofNat_spec (n : ℕ) :
    (∀ b ∈ Text.ofNat n, isDigit b = true) ∧ ofDigits (Text.ofNat n) = n := by
  induction n using Nat.strongRecOn with
  | _ n ih =>
    rcases lt_or_ge n 10 with hn | hn
    · have hd := digitChar_spec n hn
      simp [Text.ofNat, Nat.toDigits_of_lt_base hn, ofDigits, hd]
    · obtain ⟨hdigits, hvalue⟩ := ih (n / 10) (by omega)
      have hd := digitChar_spec (n % 10) (by omega)
      have hsplit : Text.ofNat n =
          Text.ofNat (n / 10) ++ [(n % 10).digitChar.toNat.toUInt8] := by
        simp [Text.ofNat, Nat.toDigits_of_base_le (by decide) hn]
      rw [hsplit, ofDigits_append, hvalue]
      refine ⟨?_, ?_⟩
      · exact List.forall_mem_append.mpr ⟨hdigits, by simpa using hd.1⟩
      · simp [ofDigits, hd]
        omega

theorem ofNat_ne_nil (n : ℕ) : Text.ofNat n ≠ [] := by
  simp [Text.ofNat, Nat.toDigits_ne_nil]

/-- Exponents of up to five digits are followed in full. -/
theorem boundedExponent_eq (h : ofDigits ds < 100000) : boundedExponent ds = ofDigits ds := by
  induction ds using List.reverseRecOn with
  | nil => rfl
  | append_singleton ds d ih =>
    have hstep : ofDigits (ds ++ [d]) = 10 * ofDigits ds + digitValue d := by simp [ofDigits]
    rw [hstep] at h
    have hbounded : boundedExponent (ds ++ [d]) =
        if boundedExponent ds < 10000 then 10 * boundedExponent ds + digitValue d
        else boundedExponent ds := by
      rw [boundedExponent, List.foldl_append]
      rfl
    rw [hbounded, ih (by omega), if_pos (by omega), hstep]

end Digits

section Layout

variable {ds : Text} {x : ℤ}

def Literal.power (l : Literal) : ℤ :=
  (if l.negativeExponent then -(boundedExponent l.exponent : ℤ) else boundedExponent l.exponent) -
    l.fraction.length

def Literal.amount (l : Literal) : ℚ :=
  ofDigits (l.whole ++ l.fraction) * 10 ^ l.power

theorem Literal.amount_eq {l : Literal} {n k : ℕ} {e : ℤ}
    (hdigits : ofDigits (l.whole ++ l.fraction) = n * 10 ^ k) (hpower : l.power + k = e) :
    l.amount = n * 10 ^ e := by
  rw [Literal.amount, hdigits, ← hpower, add_comm, zpow_add₀ (by norm_num), zpow_natCast]
  push_cast
  ring

theorem Decimal.significant_spec (d : Decimal) (h : 0 < d.digits) :
    d.significant.1 ≠ [] ∧ (∀ b ∈ d.significant.1, isDigit b = true) ∧
      (ofDigits d.significant.1 : ℚ) * 10 ^ (d.significant.2 - d.significant.1.length + 1) =
        d.digits * 10 ^ d.exponent := by
  obtain ⟨hdigits, hvalue⟩ := ofNat_spec d.digits
  have htail : ∃ k, Text.ofNat d.digits = d.significant.1 ++ zeros k := by
    refine ⟨((Text.ofNat d.digits).reverse.takeWhile (· == Byte.zero)).length, ?_⟩
    have hzeros : ((Text.ofNat d.digits).reverse.takeWhile (· == Byte.zero)).reverse =
        zeros ((Text.ofNat d.digits).reverse.takeWhile (· == Byte.zero)).length := by
      rw [List.reverse_eq_iff, zeros, List.reverse_replicate]
      exact List.eq_replicate_of_mem fun b hb => by simpa using List.mem_takeWhile_imp hb
    rw [← hzeros, Decimal.significant, ← List.reverse_append, List.takeWhile_append_dropWhile,
      List.reverse_reverse]
  obtain ⟨k, hk⟩ := htail
  have hlength : (d.significant.1.length + k : ℤ) = (Text.ofNat d.digits).length := by
    rw [hk]
    simp [zeros]
  have hmul : d.digits = ofDigits d.significant.1 * 10 ^ k := by
    rw [hk, ofDigits_append, ofDigits_zeros] at hvalue
    simpa [zeros] using hvalue.symm
  refine ⟨?_, fun b hb => hdigits b (by rw [hk]; exact List.mem_append_left _ hb), ?_⟩
  · intro hnil
    rw [hnil] at hmul
    simp [ofDigits] at hmul
    omega
  · have hexponent : d.significant.2 - d.significant.1.length + 1 = k + d.exponent := by
      have : d.significant.2 = d.exponent + (Text.ofNat d.digits).length - 1 := rfl
      omega
    rw [hexponent, zpow_add₀ (by norm_num), zpow_natCast, ← mul_assoc]
    congr 1
    exact_mod_cast hmul.symm

theorem plain_spells (hne : ds ≠ []) (hds : ∀ b ∈ ds, isDigit b = true) :
    ∃ l : Literal, l.Spells (plain ds x) ∧ l.negative = false ∧
      l.amount = ofDigits ds * 10 ^ (x - ds.length + 1) := by
  unfold plain
  split
  · next hx =>
    refine ⟨⟨false, zeros 1, zeros ((-x).toNat - 1) ++ ds, false, []⟩, ⟨by simp [zeros],
      isDigit_zeros 1, _, [], ?_, .point ?_, .absent⟩, rfl, Literal.amount_eq (k := 0) ?_ ?_⟩
    · simp [minusText, ofString_zero_point, zeros]
    · exact List.forall_mem_append.mpr ⟨isDigit_zeros _, hds⟩
    · simp [ofDigits_append, ofDigits_zeros]
    · simp [Literal.power, boundedExponent, zeros]
      omega
  · next hx =>
    simp only
    split
    · next hle =>
      refine ⟨⟨false, ds ++ zeros (x.toNat + 1 - ds.length), [], false, []⟩, ⟨by simp [hne], ?_,
        [], [], ?_, .absent, .absent⟩, rfl,
        Literal.amount_eq (k := x.toNat + 1 - ds.length) ?_ ?_⟩
      · exact List.forall_mem_append.mpr ⟨hds, isDigit_zeros _⟩
      · simp [minusText]
      · simp [ofDigits_append, ofDigits_zeros]
      · simp [Literal.power, boundedExponent]
        omega
    · next hlt =>
      refine ⟨⟨false, ds.take (x.toNat + 1), ds.drop (x.toNat + 1), false, []⟩, ⟨by simp [hne],
        fun b hb => hds b (List.mem_of_mem_take hb), _, [], ?_,
        .point fun b hb => hds b (List.mem_of_mem_drop hb), .absent⟩, rfl,
        Literal.amount_eq (k := 0) ?_ ?_⟩
      · simp [minusText, ofString_point]
      · simp
      · simp [Literal.power, boundedExponent]
        omega

theorem pointed_spells (hds : ∀ b ∈ ds, isDigit b = true) : SpellsFraction ds (pointed ds) := by
  unfold pointed
  split
  · next hnil =>
    rw [List.isEmpty_iff.mp hnil]
    exact .absent
  · rw [ofString_point]
    exact .point hds

theorem scientific_spells (hne : ds ≠ []) (hds : ∀ b ∈ ds, isDigit b = true)
    (hx : x.natAbs < 100000) :
    ∃ l : Literal, l.Spells (scientific ds x) ∧ l.negative = false ∧
      l.amount = ofDigits ds * 10 ^ (x - ds.length + 1) := by
  obtain ⟨hsize, hvalue⟩ := ofNat_spec x.natAbs
  set size := Text.ofNat x.natAbs with hsize_eq
  have hexponent : ofDigits (zeros (2 - size.length) ++ size) = x.natAbs := by
    rw [ofDigits_append, ofDigits_zeros, hvalue, zero_mul, zero_add]
  have hbounded : boundedExponent (zeros (2 - size.length) ++ size) = x.natAbs := by
    rw [boundedExponent_eq (by omega), hexponent]
  have hlength : 0 < ds.length := List.length_pos_of_ne_nil hne
  refine ⟨⟨false, ds.take 1, ds.drop 1, decide (x < 0), zeros (2 - size.length) ++ size⟩,
    ⟨by simp [hne], fun b hb => hds b (List.mem_of_mem_take hb), pointed (ds.drop 1),
      'e'.toUInt8 :: ((if x < 0 then [Byte.minus] else [Byte.plus]) ++
        (zeros (2 - size.length) ++ size)), ?_, ?_, ?_⟩, rfl, Literal.amount_eq (k := 0) ?_ ?_⟩
  · simp only [scientific, ← hsize_eq, ofString_mark, ofString_minus, ofString_plus]
    simp [minusText]
  · exact pointed_spells fun b hb => hds b (List.mem_of_mem_drop hb)
  · refine .marked (by decide) ?_ (by simp [hsize_eq, ofNat_ne_nil])
      (List.forall_mem_append.mpr ⟨isDigit_zeros _, hsize⟩)
    by_cases h : x < 0
    · simp only [h, decide_true, if_true]
      exact .minus
    · simp only [h, decide_false, if_false]
      exact .plus
  · rw [List.take_append_drop, pow_zero, mul_one]
  · simp only [Literal.power, hbounded, decide_eq_true_eq, List.length_drop]
    split <;> omega

theorem ofSize_false (size : ℕ) : ofSize false size = Float.ofBits size.toUInt64 := by
  simp [ofSize, signedBits]

theorem Literal.size_value (l : Literal) :
    l.size.value = ofDecimal (ofDigits (l.whole ++ l.fraction)) l.power :=
  rfl

theorem Binary.text_spells {b : Binary} (hb : b.Regular) (hf : b.bits < infinityBits) :
    ∃ l : Literal, l.Spells b.text ∧ l.negative = false ∧ b.Rounds l.amount := by
  have hrounds := shortest_rounds hb
  obtain ⟨hpos, hlow, hhigh⟩ := hrounds.digits_bounds hb hf
  obtain ⟨hne, hds, hvalue⟩ := (shortest b).significant_spec hpos
  have hexponent : (shortest b).significant.2.natAbs < 100000 := by
    have : (shortest b).significant.2 =
        (shortest b).exponent + (Text.ofNat (shortest b).digits).length - 1 := rfl
    have hdigits : (Text.ofNat (shortest b).digits).length =
        (Nat.toDigits 10 (shortest b).digits).length := List.length_map _
    simp only [decimalBound] at hlow hhigh
    omega
  unfold Binary.text
  simp only
  split
  · obtain ⟨l, hl, hneg, hamount⟩ := plain_spells (x := (shortest b).significant.2) hne hds
    exact ⟨l, hl, hneg, by rwa [hamount, hvalue]⟩
  · obtain ⟨l, hl, hneg, hamount⟩ := scientific_spells hne hds hexponent
    exact ⟨l, hl, hneg, by rwa [hamount, hvalue]⟩

theorem toNat_toBits_ofSize (negative : Bool) {size : ℕ} (h : size ≤ infinityBits) :
    (ofSize negative size).toBits.toNat % Nat.pow 2 63 = size ∧
      ((ofSize negative size).toBits.toNat < Nat.pow 2 63 ↔ negative = false) := by
  have hlt : size < 2 ^ 63 := h.trans_lt (by decide)
  rw [toBits_ofSize h, ← UInt64.toNat_toBitVec, toNat_signedBits h]
  cases negative <;> simp <;> omega

theorem beq_self_ofSize (negative : Bool) {size : ℕ} (h : size ≤ infinityBits) :
    (ofSize negative size == ofSize negative size) = true := by
  rw [Float.beq_self_iff]
  intro hnan
  have hbits := (toNat_toBits_ofSize negative h).1
  have hlarge : infinityBits < Float.nan.toBits.toNat % Nat.pow 2 63 := by decide +kernel
  rw [hnan] at hbits
  omega

def infinityName (negative : Bool) : Text :=
  if negative then "-Inf" else "+Inf"

theorem text_infinity (negative : Bool) :
    text (ofSize negative infinityBits) = infinityName negative := by
  obtain ⟨hsize, hsign⟩ := toNat_toBits_ofSize negative le_rfl
  simp only [text, hsize, hsign, lt_irrefl, if_false, if_true, infinityName]
  cases negative <;> rfl

theorem text_ofSize {negative : Bool} {size : ℕ} (h : size < infinityBits) :
    text (ofSize negative size) =
      minusText negative ++ if size = 0 then [Byte.zero] else (Binary.ofBits size).text := by
  obtain ⟨hsize, hsign⟩ := toNat_toBits_ofSize negative h.le
  have hminus : (if negative = false then [] else Text.ofString "-") = minusText negative := by
    cases negative <;> decide
  simp only [text, hsize, hsign, h.not_gt, h.ne, if_false, hminus, ofString_zero]
  split <;> rfl

/-- The text of a finite number spells a literal of that number. -/
theorem text_spells {x : Float} (h : x.isFinite = true) :
    ∃ l : Literal, l.Spells (text x) ∧ l.value = x := by
  obtain ⟨negative, size, hsize, rfl⟩ := exists_ofSize h
  rw [text_ofSize hsize]
  have hpositive : ∃ l : Literal,
      l.Spells (if size = 0 then [Byte.zero] else (Binary.ofBits size).text) ∧
        l.negative = false ∧ l.size.value = ofSize false size := by
    split
    · next hzero =>
      refine ⟨⟨false, zeros 1, [], false, []⟩, ⟨by simp [zeros], isDigit_zeros 1, [], [], rfl,
        .absent, .absent⟩, rfl, ?_⟩
      rw [Literal.size_value, List.append_nil, ofDigits_zeros, hzero, ofSize_false]
      simp [ofDecimal, ofRatio, ratioBits]
    · next hzero =>
      have hb := Binary.regular_ofBits (Nat.pos_of_ne_zero hzero) hsize
      have hbits : (Binary.ofBits size).bits = size := Binary.bits_ofBits hsize
      obtain ⟨l, hl, hneg, hx⟩ := Binary.text_spells hb (by rwa [hbits])
      refine ⟨l, hl, hneg, ?_⟩
      rw [Literal.size_value, ofDecimal_eq hb (by rwa [hbits]) hx, hbits, ofSize_false]
  obtain ⟨l, hl, hneg, hvalue⟩ := hpositive
  obtain ⟨fraction, exponent, hparts, hf, he⟩ := hl.parts
  refine ⟨{ l with negative := negative },
    ⟨hl.whole, hl.digits, fraction, exponent, ?_, hf, he⟩, ?_⟩
  · rw [hparts, hneg]
    rfl
  · have hsize' : ({ l with negative := negative } : Literal).size.value = ofSize false size :=
      hvalue
    rw [Literal.value_eq, hsize']
    cases negative
    · rfl
    · exact neg_ofSize hsize.le

/-- A literal is a number or infinite. -/
theorem Literal.exists_size (l : Literal) :
    ∃ size ≤ infinityBits, l.value = ofSize l.negative size := by
  have hratio (num den : ℕ) : ∃ size ≤ infinityBits, ofRatio num den = ofSize false size := by
    refine ⟨ratioBits num den, ?_, (ofSize_false _).symm⟩
    unfold ratioBits
    split
    · exact Nat.zero_le _
    · exact min_le_right _ _
  have hdecimal (n : ℕ) (e : ℤ) : ∃ size ≤ infinityBits, ofDecimal n e = ofSize false size := by
    unfold ofDecimal
    simp only
    split_ifs
    · exact hratio _ _
    · exact ⟨infinityBits, le_rfl, (ofSize_false _).symm⟩
    · exact hratio _ _
    · exact hratio _ _
    · exact hratio _ _
  obtain ⟨size, hsize, hvalue⟩ := hdecimal (ofDigits (l.whole ++ l.fraction)) l.power
  refine ⟨size, hsize, ?_⟩
  rw [Literal.value_eq, Literal.size_value, hvalue, neg_ofSize hsize]
  cases l.negative <;> rfl

end Layout

end CountedLisp.Number
