import Mathlib
import ApiCodegen.Numeric.Binary64

/-!
# The nearest binary number

The number nearest to a rational number, ties to the even mantissa, as a definition that does not compute with
quotients of natural numbers. What is computed with them is this number.

* `halfEven`, `Binary64.nearest`: rounding to a whole number and to a binary number.
* `exponentFor_eq`, `roundHalfEven_eq`: the two steps of rounding a quotient.
* `Binary64.ofRatio_eq`, `Binary64.ofDecimal_eq`, `Binary64.ofInt_eq`: **quotients, decimals and whole numbers
  are rounded to the nearest number**, without regard to how they are written.
-/

namespace ApiCodegen.Numeric

/-- A number rounded to the nearest whole number, a half to the even neighbour. -/
def halfEven (x : ℚ) : ℕ :=
  if x - ⌊x⌋₊ < 1 / 2 then ⌊x⌋₊
  else if 1 / 2 < x - ⌊x⌋₊ then ⌊x⌋₊ + 1
  else if ⌊x⌋₊ % 2 = 0 then ⌊x⌋₊
  else ⌊x⌋₊ + 1

/-- The place of the last binary digit of the numbers around a positive number. -/
def lastPlace (x : ℚ) : ℤ := max (-1074) (Int.log 2 x - 52)

/-- The number with a mantissa of at most 53 bits or the next power of two, if it is not too large. -/
def Binary64.ofMantissa (negative : Bool) (mantissa : ℕ) (exponent : ℤ) : Binary64 :=
  let (m, q) := if mantissa = Nat.pow 2 53 then (Nat.pow 2 52, exponent + 1) else (mantissa, exponent)
  match Magnitude.ofParts? m q with
  | some magnitude => .finite negative magnitude
  | none => .infinity negative

/-- **The number nearest to `± x`**, for `x` that is not negative. -/
def Binary64.nearest (negative : Bool) (x : ℚ) : Binary64 :=
  if x ≤ 0 then .finite negative .zero
  else ofMantissa negative (halfEven (x / 2 ^ lastPlace x)) (lastPlace x)

/-! ## Powers -/

theorem zpow_eq_div {x : ℚ} (hx : x ≠ 0) (j : ℤ) : x ^ j = x ^ j.toNat / x ^ (-j).toNat := by
  have hj : j = (j.toNat : ℤ) - ((-j).toNat : ℤ) := by omega
  conv_lhs => rw [hj]
  rw [zpow_sub₀ hx, zpow_natCast, zpow_natCast]

theorem cast_natPow (b n : ℕ) : ((Nat.pow b n : ℕ) : ℚ) = b ^ n := Nat.cast_pow b n

theorem two_zpow_pos (e : ℤ) : (0 : ℚ) < 2 ^ e := zpow_pos (by norm_num) e

theorem ten_zpow_pos (e : ℤ) : (0 : ℚ) < 10 ^ e := zpow_pos (by norm_num) e

/-- The power of two below a number. -/
theorem log_eq_iff {x : ℚ} (hx : 0 < x) {k : ℤ} : Int.log 2 x = k ↔ 2 ^ k ≤ x ∧ x < 2 ^ (k + 1) := by
  have hlow := Int.zpow_le_iff_le_log (b := 2) (x := k) (by decide) hx
  have hhigh := Int.lt_zpow_iff_log_lt (b := 2) (x := k + 1) (by decide) hx
  push_cast at hlow hhigh
  rw [hlow, hhigh]
  omega

/-! ## Quotients -/

section Quotients

variable {num den : ℕ}

/-- Scaling divides by a power of two. -/
theorem scaleDown_spec (num : ℕ) (hden : den ≠ 0) (q : ℤ) : (scaleDown num den q).2 ≠ 0 ∧
    ((scaleDown num den q).1 : ℚ) / (scaleDown num den q).2 = num / den / 2 ^ q := by
  have hpow (n : ℕ) : Nat.pow 2 n ≠ 0 := (Nat.two_pow_pos n).ne'
  rw [zpow_eq_div two_ne_zero q]
  unfold scaleDown
  split
  · rename_i hq
    have hnone : (-q).toNat = 0 := by omega
    refine ⟨Nat.mul_ne_zero hden (hpow _), ?_⟩
    rw [hnone, Nat.cast_mul, cast_natPow, Nat.cast_ofNat, pow_zero, div_one, div_div]
  · rename_i hq
    have hnone : q.toNat = 0 := by omega
    refine ⟨hden, ?_⟩
    rw [hnone, Nat.cast_mul, cast_natPow, Nat.cast_ofNat, pow_zero]
    field_simp

/-- A quotient of numbers lies between the quotients of their powers of two. -/
theorem ratio_bounds (hnum : num ≠ 0) (hden : den ≠ 0) :
    (2 : ℚ) ^ ((Nat.log2 num : ℤ) - Nat.log2 den - 1) ≤ num / den ∧
      (num / den : ℚ) < 2 ^ ((Nat.log2 num : ℤ) - Nat.log2 den + 1) := by
  have hpos : (0 : ℚ) < den := Nat.cast_pos.2 (Nat.pos_of_ne_zero hden)
  have hnumLow : (2 : ℚ) ^ (Nat.log2 num : ℤ) ≤ num := by
    rw [zpow_natCast]
    exact_mod_cast Nat.log2_self_le hnum
  have hnumHigh : (num : ℚ) < 2 ^ ((Nat.log2 num : ℤ) + 1) := by
    rw [zpow_add_one₀ two_ne_zero, zpow_natCast, ← pow_succ]
    exact_mod_cast Nat.lt_log2_self
  have hdenLow : (2 : ℚ) ^ (Nat.log2 den : ℤ) ≤ den := by
    rw [zpow_natCast]
    exact_mod_cast Nat.log2_self_le hden
  have hdenHigh : (den : ℚ) < 2 ^ ((Nat.log2 den : ℤ) + 1) := by
    rw [zpow_add_one₀ two_ne_zero, zpow_natCast, ← pow_succ]
    exact_mod_cast Nat.lt_log2_self
  constructor
  · rw [le_div_iff₀ hpos]
    calc (2 : ℚ) ^ ((Nat.log2 num : ℤ) - Nat.log2 den - 1) * den
        ≤ 2 ^ ((Nat.log2 num : ℤ) - Nat.log2 den - 1) * 2 ^ ((Nat.log2 den : ℤ) + 1) :=
          mul_le_mul_of_nonneg_left hdenHigh.le (two_zpow_pos _).le
      _ = 2 ^ (Nat.log2 num : ℤ) := by
          rw [← zpow_add₀ two_ne_zero]
          congr 1
          ring
      _ ≤ num := hnumLow
  · rw [div_lt_iff₀ hpos]
    calc (num : ℚ) < 2 ^ ((Nat.log2 num : ℤ) + 1) := hnumHigh
      _ = 2 ^ ((Nat.log2 num : ℤ) - Nat.log2 den + 1) * 2 ^ (Nat.log2 den : ℤ) := by
          rw [← zpow_add₀ two_ne_zero]
          congr 1
          ring
      _ ≤ 2 ^ ((Nat.log2 num : ℤ) - Nat.log2 den + 1) * den :=
          mul_le_mul_of_nonneg_left hdenLow (two_zpow_pos _).le

theorem ratio_pos (hnum : num ≠ 0) (hden : den ≠ 0) : (0 : ℚ) < num / den :=
  div_pos (Nat.cast_pos.2 (Nat.pos_of_ne_zero hnum)) (Nat.cast_pos.2 (Nat.pos_of_ne_zero hden))

/-- Comparing the integral part of a scaled quotient with a power of two compares the quotient. -/
theorem scaled_lt_iff (num : ℕ) (hden : den ≠ 0) (q : ℤ) :
    (scaleDown num den q).1 / (scaleDown num den q).2 < Nat.pow 2 53 ↔ (num / den : ℚ) < 2 ^ (q + 53) := by
  obtain ⟨hne, hvalue⟩ := scaleDown_spec num hden q
  have hpos : (0 : ℚ) < (scaleDown num den q).2 := Nat.cast_pos.2 (Nat.pos_of_ne_zero hne)
  have hscale : (num / den : ℚ) < 2 ^ (q + 53) ↔ (num / den / 2 ^ q : ℚ) < (2 ^ 53 : ℕ) := by
    rw [div_lt_iff₀ (two_zpow_pos q), zpow_add₀ two_ne_zero, mul_comm]
    norm_num
  rw [hscale, ← hvalue, div_lt_iff₀ hpos, Nat.div_lt_iff_lt_mul (Nat.pos_of_ne_zero hne)]
  exact_mod_cast Iff.rfl

/-- **The exponent of a quotient is the last place around it.** -/
theorem exponentFor_eq (hnum : num ≠ 0) (hden : den ≠ 0) : exponentFor num den = lastPlace (num / den) := by
  obtain ⟨hlow, hhigh⟩ := ratio_bounds hnum hden
  have hlog {k : ℤ} (hk : 2 ^ k ≤ (num / den : ℚ)) (hk' : (num / den : ℚ) < 2 ^ (k + 1)) :
      Int.log 2 (num / den : ℚ) = k := (log_eq_iff (ratio_pos hnum hden)).2 ⟨hk, hk'⟩
  have hsplit := scaled_lt_iff num hden ((Nat.log2 num : ℤ) - Nat.log2 den - 53)
  rw [sub_add_cancel] at hsplit
  unfold exponentFor lastPlace
  dsimp only
  congr 1
  split
  · -- the quotient is below that of the powers of two, and has one bit less
    rename_i hless
    rw [hlog hlow (by rw [sub_add_cancel]; exact hsplit.1 hless)]
    ring
  · rename_i hless
    rw [hlog (not_lt.1 fun hlt => hless (hsplit.2 hlt)) hhigh]

/-- **A quotient is rounded to the nearest whole number.** -/
theorem roundHalfEven_eq (hden : den ≠ 0) : roundHalfEven num den = halfEven (num / den) := by
  have hpos : (0 : ℚ) < den := Nat.cast_pos.2 (Nat.pos_of_ne_zero hden)
  have hfloor : ⌊(num : ℚ) / den⌋₊ = num / den := Nat.floor_div_eq_div num den
  have hrest : (num : ℚ) / den - ((num / den : ℕ) : ℚ) = ((num % den : ℕ) : ℚ) / den := by
    have hsplit : (num : ℚ) = den * ((num / den : ℕ) : ℚ) + ((num % den : ℕ) : ℚ) := by
      exact_mod_cast (Nat.div_add_mod num den).symm
    rw [eq_div_iff hpos.ne', sub_mul, div_mul_cancel₀ _ hpos.ne']
    linarith
  have hless : ((num % den : ℕ) : ℚ) / den < 1 / 2 ↔ 2 * (num % den) < den := by
    rw [div_lt_div_iff₀ hpos two_pos, one_mul, mul_comm]
    exact_mod_cast Iff.rfl
  have hmore : 1 / 2 < ((num % den : ℕ) : ℚ) / den ↔ den < 2 * (num % den) := by
    rw [div_lt_div_iff₀ two_pos hpos, one_mul, mul_comm]
    exact_mod_cast Iff.rfl
  unfold roundHalfEven halfEven
  simp only [hfloor, hrest, hless, hmore]

end Quotients

namespace Binary64

/-- **Quotients are rounded to the nearest number.** -/
theorem ofRatio_eq {num den : ℕ} (negative : Bool) (hden : den ≠ 0) :
    ofRatio negative num den = nearest negative (num / den) := by
  unfold ofRatio nearest
  split
  · rename_i hnum
    rw [hnum, Nat.cast_zero, zero_div, if_pos le_rfl]
  · rename_i hnum
    obtain ⟨hne, hvalue⟩ := scaleDown_spec num hden (lastPlace (num / den))
    rw [if_neg (not_le.2 (ratio_pos hnum hden)), ← hvalue, ← roundHalfEven_eq hne, exponentFor_eq hnum hden]
    rfl

/-- **Whole numbers are rounded to the nearest number.** -/
theorem ofInt_eq (n : ℤ) : ofInt n = nearest (n < 0) n.natAbs := by
  rw [ofInt, ofRatio_eq _ one_ne_zero, Nat.cast_one, div_one]

/-! ## Decimals -/

/-- The number of digits tells the power of ten. -/
theorem digitCount_bounds {n : ℕ} (hn : n ≠ 0) :
    (10 : ℚ) ^ ((digitCount n : ℤ) - 1) ≤ n ∧ (n : ℚ) < 10 ^ (digitCount n : ℤ) := by
  have hpos : 0 < digitCount n := Nat.length_toDigits_pos
  have hhigh : n < 10 ^ digitCount n := (Nat.length_toDigits_le_iff (by decide) hpos).1 le_rfl
  have hlow : 10 ^ (digitCount n - 1) ≤ n := by
    rcases Nat.eq_zero_or_pos (digitCount n - 1) with hone | hmore
    · rw [hone]
      exact Nat.pos_of_ne_zero hn
    · by_contra hless
      have hle := (Nat.length_toDigits_le_iff (by decide) hmore).2 (not_le.1 hless)
      exact absurd hle (not_le.2 (Nat.sub_lt hpos Nat.one_pos))
  have hcast : (digitCount n : ℤ) - 1 = (digitCount n - 1 : ℕ) := by omega
  rw [hcast, zpow_natCast, zpow_natCast]
  exact ⟨by exact_mod_cast hlow, by exact_mod_cast hhigh⟩

/-- A mantissa that got a bit too many is the next power of two. -/
theorem ofMantissa_eq (negative : Bool) (m : ℕ) (q : ℤ) : ofMantissa negative m q =
    match if m = Nat.pow 2 53 then Magnitude.ofParts? (Nat.pow 2 52) (q + 1) else Magnitude.ofParts? m q with
    | some magnitude => .finite negative magnitude
    | none => .infinity negative := by
  unfold ofMantissa
  split_ifs <;> rfl

theorem ofParts?_eq_none {q : ℤ} (m : ℕ) (hq : 971 < q) : Magnitude.ofParts? m q = none := by
  rw [Magnitude.ofParts?, dif_neg]
  omega

/-- What is at least as large as this power of two is infinite. -/
theorem nearest_eq_infinity {x : ℚ} (negative : Bool) (h : 2 ^ (1024 : ℤ) ≤ x) :
    nearest negative x = .infinity negative := by
  have hpos : 0 < x := lt_of_lt_of_le (two_zpow_pos _) h
  have hlog : 1024 ≤ Int.log 2 x := by
    have hle := Int.zpow_le_iff_le_log (b := 2) (x := 1024) (by decide) hpos
    exact hle.1 (by exact_mod_cast h)
  have hplace : 972 ≤ lastPlace x := by
    unfold lastPlace
    omega
  have hnone : ofMantissa negative (halfEven (x / 2 ^ lastPlace x)) (lastPlace x) = .infinity negative := by
    rw [ofMantissa_eq, ofParts?_eq_none _ (by omega), ofParts?_eq_none _ (by omega), ite_self]
  rw [nearest, if_neg (not_le.2 hpos), hnone]

/-- What is less than half of the least number is zero. -/
theorem nearest_eq_zero {x : ℚ} (negative : Bool) (h : x < 2 ^ (-1075 : ℤ)) :
    nearest negative x = .finite negative .zero := by
  rw [nearest]
  split
  · rfl
  · rename_i hpos
    rw [not_le] at hpos
    have hlog : Int.log 2 x < -1075 := by
      have hlt := Int.lt_zpow_iff_log_lt (b := 2) (x := -1075) (by decide) hpos
      exact hlt.1 (by exact_mod_cast h)
    have hplace : lastPlace x = -1074 := by
      unfold lastPlace
      omega
    have hsmall : x / 2 ^ (-1074 : ℤ) < 1 / 2 := by
      rw [div_lt_iff₀ (two_zpow_pos _)]
      calc x < 2 ^ (-1075 : ℤ) := h
        _ = 1 / 2 * 2 ^ (-1074 : ℤ) := by
          rw [show (-1075 : ℤ) = -1 + -1074 by norm_num, zpow_add₀ two_ne_zero]
          norm_num
    have hround : halfEven (x / 2 ^ (-1074 : ℤ)) = 0 := by
      have hfloor : ⌊x / 2 ^ (-1074 : ℤ)⌋₊ = 0 := Nat.floor_eq_zero.2 (hsmall.trans (by norm_num))
      rw [halfEven, hfloor, Nat.cast_zero, sub_zero, if_pos hsmall]
    rw [hplace, hround]
    rfl

/-- **Decimals are rounded to the nearest number.** -/
theorem ofDecimal_eq (negative : Bool) (digits : ℕ) (exponent : ℤ) :
    ofDecimal negative digits exponent = nearest negative (digits * 10 ^ exponent) := by
  unfold ofDecimal
  dsimp only
  split
  · rename_i hzero
    rw [hzero, Nat.cast_zero, zero_mul, nearest, if_pos le_rfl]
  rename_i hdigits
  obtain ⟨hlow, hhigh⟩ := digitCount_bounds hdigits
  split
  · -- so many digits are beyond the largest number
    rename_i horder
    refine (nearest_eq_infinity negative ?_).symm
    calc (2 : ℚ) ^ (1024 : ℤ) ≤ 10 ^ (310 : ℤ) := by
          rw [show (1024 : ℤ) = (1024 : ℕ) from rfl, show (310 : ℤ) = (310 : ℕ) from rfl, zpow_natCast,
            zpow_natCast]
          exact_mod_cast (by decide +kernel : (2 : ℕ) ^ 1024 ≤ 10 ^ 310)
      _ ≤ 10 ^ ((digitCount digits : ℤ) - 1 + exponent) := zpow_le_zpow_right₀ (by norm_num) (by omega)
      _ = 10 ^ ((digitCount digits : ℤ) - 1) * 10 ^ exponent := zpow_add₀ (by norm_num) _ _
      _ ≤ digits * 10 ^ exponent := mul_le_mul_of_nonneg_right hlow (ten_zpow_pos _).le
  split
  · -- and so few are below half of the least one
    rename_i horder
    refine (nearest_eq_zero negative ?_).symm
    calc (digits * 10 ^ exponent : ℚ) < 10 ^ (digitCount digits : ℤ) * 10 ^ exponent :=
          mul_lt_mul_of_pos_right hhigh (ten_zpow_pos _)
      _ = 10 ^ ((digitCount digits : ℤ) + exponent) := (zpow_add₀ (by norm_num) _ _).symm
      _ ≤ 10 ^ (-325 : ℤ) := zpow_le_zpow_right₀ (by norm_num) (by omega)
      _ < 2 ^ (-1075 : ℤ) := by
          rw [show (-325 : ℤ) = -(325 : ℕ) from rfl, show (-1075 : ℤ) = -(1075 : ℕ) from rfl, zpow_neg,
            zpow_neg, zpow_natCast, zpow_natCast, inv_lt_inv₀ (by positivity) (by positivity)]
          exact_mod_cast (by decide +kernel : (2 : ℕ) ^ 1075 < 10 ^ 325)
  rw [zpow_eq_div (by norm_num) exponent]
  split
  · rename_i hexponent
    have hnone : (-exponent).toNat = 0 := by omega
    rw [ofRatio_eq _ one_ne_zero, hnone, Nat.cast_mul, cast_natPow, Nat.cast_ofNat, Nat.cast_one, pow_zero,
      div_one, div_one]
  · rename_i hexponent
    have hnone : exponent.toNat = 0 := by omega
    have hden : Nat.pow 10 (-exponent).toNat ≠ 0 := (Nat.pow_pos (by decide)).ne'
    rw [ofRatio_eq _ hden, hnone, cast_natPow, Nat.cast_ofNat, pow_zero, mul_one_div]

end Binary64

end ApiCodegen.Numeric
