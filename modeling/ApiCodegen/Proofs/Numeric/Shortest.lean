import ApiCodegen.Numeric.Shortest
import ApiCodegen.Proofs.Numeric.Nearest

/-!
# The fewest digits read back

The decimals that round to a magnitude are an interval around its value, which reaches half of a last place
up and down. Below a power of two the numbers lie twice as dense, and it reaches half as far down.

* `Magnitude.value`: the value of a magnitude.
* `Magnitude.Near`: **the numbers in the interval of a magnitude**.
* `Binary64.nearest_of_near`: **these are rounded to it.**
* `Magnitude.holds_iff`: the search tests whether a decimal is in the interval.
* `Magnitude.near_shortest`: **the digits that the search finds are.**
* `Binary64.value?_ofInt`: **a whole number that is the value of a binary number is rounded to its own value.**
-/

namespace ApiCodegen.Numeric

namespace Magnitude

/-- **The value of a magnitude.** -/
def value (v : Magnitude) : ℚ := v.mantissa * 2 ^ v.exponent

/-- **A number lies in the interval of a magnitude**, measured in quarters of its last place. The ends belong
to it if the mantissa is even. -/
structure Near (v : Magnitude) (x : ℚ) : Prop where
  low_le : v.low ≤ 4 * (x / 2 ^ v.exponent)
  le_high : 4 * (x / 2 ^ v.exponent) ≤ v.high
  low_lt : v.mantissa % 2 ≠ 0 → v.low < 4 * (x / 2 ^ v.exponent)
  lt_high : v.mantissa % 2 ≠ 0 → 4 * (x / 2 ^ v.exponent) < v.high

variable {v : Magnitude} {x : ℚ}

theorem ofParts?_self (v : Magnitude) : ofParts? v.mantissa v.exponent = some v := by
  rw [ofParts?, dif_pos ⟨v.mantissa_lt, v.exponent_ge, v.exponent_le, v.normal⟩]

/-- A magnitude without a mantissa is zero. -/
theorem eq_zero (h : v.mantissa = 0) : v = zero := by
  have hexponent : v.exponent = -1074 := by
    rcases v.normal with hleast | hnormal
    · exact hleast
    · rw [h] at hnormal
      exact absurd hnormal (by decide)
  obtain ⟨m, e, _, _, _, _⟩ := v
  subst h hexponent
  rfl

/-- The lower end is half of a last place below the value, or a quarter below a power of two. -/
theorem low_cases (hv : v.mantissa ≠ 0) :
    v.mantissa = Nat.pow 2 52 ∧ -1074 < v.exponent ∧ (v.low : ℚ) = 4 * v.mantissa - 1 ∨
      ¬ (v.mantissa = Nat.pow 2 52 ∧ -1074 < v.exponent) ∧ (v.low : ℚ) = 4 * v.mantissa - 2 := by
  unfold low
  split
  · rename_i hpower
    refine .inl ⟨hpower.1, hpower.2, ?_⟩
    rw [Nat.cast_sub (by omega)]
    push_cast
    rfl
  · rename_i hpower
    refine .inr ⟨hpower, ?_⟩
    rw [Nat.cast_sub (by omega)]
    push_cast
    rfl

theorem cast_high (v : Magnitude) : (v.high : ℚ) = 4 * v.mantissa + 2 := by
  rw [high]
  push_cast
  rfl

/-- The value is in the interval. -/
theorem near_value (hv : v.mantissa ≠ 0) : v.Near v.value := by
  have hscaled : v.value / 2 ^ v.exponent = v.mantissa := mul_div_cancel_right₀ _ (two_zpow_pos _).ne'
  have hlow : (v.low : ℚ) < 4 * v.mantissa := by
    rcases low_cases hv with ⟨-, -, hlow⟩ | ⟨-, hlow⟩
    · linarith
    · linarith
  have hhigh : (4 * v.mantissa : ℚ) < v.high := by
    rw [cast_high]
    linarith
  constructor
  · rw [hscaled]
    exact hlow.le
  · rw [hscaled]
    exact hhigh.le
  · rw [hscaled]
    exact fun _ => hlow
  · rw [hscaled]
    exact fun _ => hhigh

end Magnitude

/-- A number less than half away from a whole number is rounded to it, and so is one that is half away from an
even number. -/
theorem halfEven_eq {m : ℕ} {x : ℚ} (hlow : 2 * m ≤ 2 * x + 1) (hhigh : 2 * x ≤ 2 * m + 1)
    (hodd : m % 2 ≠ 0 → (2 * m : ℚ) < 2 * x + 1 ∧ 2 * x < 2 * m + 1) : halfEven x = m := by
  unfold halfEven
  -- the whole number below is the result, or the one before it
  rcases le_or_gt (m : ℚ) x with hle | hlt
  · have hfloor : ⌊x⌋₊ = m := (Nat.floor_eq_iff ((Nat.cast_nonneg m).trans hle)).2 ⟨hle, by linarith⟩
    rw [hfloor]
    split_ifs with hless hmore heven
    · rfl
    · linarith
    · rfl
    · have hstrict := (hodd heven).2
      linarith
  · cases m with
    | zero =>
      have hfloor : ⌊x⌋₊ = 0 := Nat.floor_of_nonpos (by exact_mod_cast hlt.le)
      rw [hfloor, if_pos]
      push_cast at hlt ⊢
      linarith
    | succ m =>
      push_cast at hlow hhigh hlt hodd
      have hpos : 0 ≤ x := by
        have hm : (0 : ℚ) ≤ m := Nat.cast_nonneg m
        linarith
      have hfloor : ⌊x⌋₊ = m := (Nat.floor_eq_iff hpos).2 ⟨by linarith, hlt⟩
      rw [hfloor]
      split_ifs with hless hmore heven
      · linarith
      · rfl
      · have hstrict := (hodd (by omega)).1
        linarith
      · rfl

namespace Binary64

variable {v : Magnitude} {x : ℚ}

theorem ofMantissa_self (negative : Bool) (v : Magnitude) :
    ofMantissa negative v.mantissa v.exponent = .finite negative v := by
  rw [ofMantissa_eq, if_neg v.mantissa_lt.ne, v.ofParts?_self]

/-- A mantissa of all bits that is rounded up. -/
theorem ofMantissa_carry (negative : Bool) (hv : v.mantissa = Nat.pow 2 52) :
    ofMantissa negative (Nat.pow 2 53) (v.exponent - 1) = .finite negative v := by
  rw [ofMantissa_eq, if_pos rfl, sub_add_cancel, ← hv, v.ofParts?_self]

/-- A lower bound of a scaled number is one of its power of two. -/
theorem le_log {e k : ℤ} (h : 2 ^ k ≤ x / 2 ^ e) : e + k ≤ Int.log 2 x := by
  rw [le_div_iff₀ (two_zpow_pos e), ← zpow_add₀ two_ne_zero, add_comm] at h
  have hpos : 0 < x := lt_of_lt_of_le (two_zpow_pos _) h
  exact (Int.zpow_le_iff_le_log (b := 2) (by decide) hpos).1 (by exact_mod_cast h)

/-- So is an upper bound. -/
theorem log_lt {e k : ℤ} (hpos : 0 < x) (h : x / 2 ^ e < 2 ^ k) : Int.log 2 x < e + k := by
  rw [div_lt_iff₀ (two_zpow_pos e), ← zpow_add₀ two_ne_zero, add_comm] at h
  exact (Int.lt_zpow_iff_log_lt (b := 2) (by decide) hpos).1 (by exact_mod_cast h)

/-- What lies in the interval of a magnitude is positive. -/
theorem pos_of_near (hv : v.mantissa ≠ 0) (h : v.Near x) : 0 < x := by
  have hlow := h.low_le
  have hone : (1 : ℚ) ≤ v.mantissa := by exact_mod_cast Nat.one_le_iff_ne_zero.2 hv
  have hscaled : 0 < x / 2 ^ v.exponent := by
    rcases Magnitude.low_cases hv with ⟨-, -, hcast⟩ | ⟨-, hcast⟩ <;> linarith
  exact (div_pos_iff_of_pos_right (two_zpow_pos _)).1 hscaled

/-- It has no more bits than the magnitude. -/
theorem log_lt_of_near (hv : v.mantissa ≠ 0) (h : v.Near x) : Int.log 2 x < v.exponent + 53 := by
  have hhigh := h.le_high
  rw [v.cast_high] at hhigh
  have hmantissa : (v.mantissa : ℚ) + 1 ≤ 2 ^ 53 := by exact_mod_cast v.mantissa_lt
  have hpower : (2 : ℚ) ^ (53 : ℤ) = 2 ^ 53 := zpow_natCast 2 53
  refine log_lt (pos_of_near hv h) ?_
  linarith

/-- The last place around what lies in the interval of a magnitude is that of the magnitude, or the one below
at a power of two. -/
theorem lastPlace_of_near (hv : v.mantissa ≠ 0) (h : v.Near x) : lastPlace x = v.exponent ∨
    lastPlace x = v.exponent - 1 ∧ v.mantissa = Nat.pow 2 52 ∧ (v.low : ℚ) = 4 * v.mantissa - 1 ∧
      x / 2 ^ v.exponent < 2 ^ 52 := by
  have hlow := h.low_le
  have hupper := log_lt_of_near hv h
  have hleast := v.exponent_ge
  unfold lastPlace
  rcases Magnitude.low_cases hv with ⟨hpower, hexponent, hcast⟩ | ⟨hpower, hcast⟩
  · have hmantissa : (v.mantissa : ℚ) = 2 ^ 52 := by
      rw [hpower]
      exact Nat.cast_pow 2 52
    have hlower : v.exponent + 51 ≤ Int.log 2 x := by
      refine le_log ?_
      have hhalf : (2 : ℚ) ^ (51 : ℤ) = 2 ^ 51 := zpow_natCast 2 51
      linarith
    -- the numbers below a power of two have one bit less
    rcases lt_or_ge (x / 2 ^ v.exponent) (2 ^ 52) with hless | hmore
    · have hlog : Int.log 2 x < v.exponent + 52 := log_lt (pos_of_near hv h) (by exact_mod_cast hless)
      exact .inr ⟨by omega, hpower, hcast, hless⟩
    · have hlog : v.exponent + 52 ≤ Int.log 2 x := le_log (by exact_mod_cast hmore)
      exact .inl (by omega)
  · left
    have hnormal := v.normal
    by_cases hexponent : v.exponent = -1074
    · omega
    · -- more than the least mantissa of all bits
      have hmore : Nat.pow 2 52 + 1 ≤ v.mantissa := by omega
      have hmantissa : (2 : ℚ) ^ 52 + 1 ≤ v.mantissa := by exact_mod_cast hmore
      have hlog : v.exponent + 52 ≤ Int.log 2 x := by
        refine le_log ?_
        have hall : (2 : ℚ) ^ (52 : ℤ) = 2 ^ 52 := zpow_natCast 2 52
        linarith
      omega

/-- In its last places it is rounded to the mantissa. -/
theorem halfEven_of_near (hv : v.mantissa ≠ 0) (h : v.Near x) : halfEven (x / 2 ^ v.exponent) = v.mantissa := by
  have hlow := h.low_le
  have hhigh := h.le_high
  have hlowStrict := h.low_lt
  have hhighStrict := h.lt_high
  rw [v.cast_high] at hhigh hhighStrict
  refine halfEven_eq ?_ (by linarith) fun hodd => ⟨?_, by linarith [hhighStrict hodd]⟩
  · rcases Magnitude.low_cases hv with ⟨-, -, hcast⟩ | ⟨-, hcast⟩ <;> linarith
  · rcases Magnitude.low_cases hv with ⟨hpower, -, -⟩ | ⟨-, hcast⟩
    · exact absurd (hpower ▸ hodd) (by decide)
    · linarith [hlowStrict hodd]

/-- Below a power of two the places are half as large, and it is rounded up to twice the mantissa. -/
theorem halfEven_of_near_power (hpower : v.mantissa = Nat.pow 2 52) (hlow : (v.low : ℚ) = 4 * v.mantissa - 1)
    (h : v.Near x) (hless : x / 2 ^ v.exponent < 2 ^ 52) :
    halfEven (x / 2 ^ (v.exponent - 1)) = Nat.pow 2 53 := by
  have hmantissa : (v.mantissa : ℚ) = 2 ^ 52 := by
    rw [hpower]
    exact Nat.cast_pow 2 52
  have hcast : ((Nat.pow 2 53 : ℕ) : ℚ) = 2 ^ 53 := Nat.cast_pow 2 53
  have hdouble : x / 2 ^ (v.exponent - 1) = 2 * (x / 2 ^ v.exponent) := by
    rw [zpow_sub_one₀ two_ne_zero]
    field_simp
  have hlowLe := h.low_le
  rw [hdouble]
  refine halfEven_eq ?_ ?_ fun hodd => absurd hodd (by decide)
  · rw [hcast]
    linarith
  · rw [hcast]
    linarith

/-- **What lies in the interval of a magnitude is rounded to it.** -/
theorem nearest_of_near (negative : Bool) (hv : v.mantissa ≠ 0) (h : v.Near x) :
    nearest negative x = .finite negative v := by
  rw [nearest, if_neg (not_le.2 (pos_of_near hv h))]
  rcases lastPlace_of_near hv h with hplace | ⟨hplace, hpower, hlow, hless⟩
  · rw [hplace, halfEven_of_near hv h, ofMantissa_self]
  · rw [hplace, halfEven_of_near_power hpower hlow h hless, ofMantissa_carry negative hpower]

end Binary64

namespace Magnitude

variable {v : Magnitude}

/-- The unit of a grid in quarters of the last place. -/
theorem unit_spec (v : Magnitude) (j : ℤ) : (0 : ℚ) < (v.unit j).2 ∧
    ((v.unit j).1 : ℚ) / (v.unit j).2 = 4 * (10 ^ j / 2 ^ v.exponent) := by
  have hpower : (2 : ℚ) ^ (2 - v.exponent) = 4 / 2 ^ v.exponent := by
    rw [zpow_sub₀ two_ne_zero]
    norm_num
  have hexponent : v.exponent - 2 = -(2 - v.exponent) := by ring
  rw [unit, Nat.cast_mul, Nat.cast_mul, cast_natPow, cast_natPow, cast_natPow, cast_natPow, hexponent,
    Nat.cast_ofNat, Nat.cast_ofNat]
  refine ⟨by positivity, ?_⟩
  rw [mul_div_mul_comm, ← zpow_eq_div (by norm_num) j, ← zpow_eq_div two_ne_zero, hpower]
  ring

/-- **The search tests whether a decimal is in the interval.** -/
theorem holds_iff (v : Magnitude) (j : ℤ) (d : ℕ) : v.holds j d ↔ v.Near (d * 10 ^ j) := by
  obtain ⟨hpos, hunit⟩ := v.unit_spec j
  have hvalue : 4 * ((d * 10 ^ j : ℚ) / 2 ^ v.exponent) = (d * (v.unit j).1 : ℕ) / (v.unit j).2 := by
    rw [Nat.cast_mul, mul_div_assoc _ ((v.unit j).1 : ℚ), hunit]
    ring
  have hle (n : ℕ) : (n : ℚ) ≤ 4 * ((d * 10 ^ j : ℚ) / 2 ^ v.exponent) ↔ n * (v.unit j).2 ≤ d * (v.unit j).1 := by
    rw [hvalue, le_div_iff₀ hpos]
    exact_mod_cast Iff.rfl
  have hge (n : ℕ) : 4 * ((d * 10 ^ j : ℚ) / 2 ^ v.exponent) ≤ n ↔ d * (v.unit j).1 ≤ n * (v.unit j).2 := by
    rw [hvalue, div_le_iff₀ hpos]
    exact_mod_cast Iff.rfl
  unfold holds
  dsimp only
  split
  · rename_i heven
    rw [Bool.and_eq_true, decide_eq_true_iff, decide_eq_true_iff, ← hle, ← hge]
    exact ⟨fun h => ⟨h.1, h.2, fun hodd => absurd heven hodd, fun hodd => absurd heven hodd⟩,
      fun h => ⟨h.low_le, h.le_high⟩⟩
  · rename_i hodd
    rw [Bool.and_eq_true, decide_eq_true_iff, decide_eq_true_iff, ← not_le, ← not_le, ← hge, ← hle, not_le,
      not_le]
    exact ⟨fun h => ⟨h.1.le, h.2.le, fun _ => h.1, fun _ => h.2⟩, fun h => ⟨h.low_lt hodd, h.lt_high hodd⟩⟩

/-- What is found on a grid is in the interval. -/
theorem near_of_onGrid {tie : Tie} {j : ℤ} {d : ℕ} (h : onGrid tie v j = some d) : v.Near (d * 10 ^ j) := by
  rw [← holds_iff]
  unfold onGrid at h
  dsimp only at h
  split at h
  · rename_i hthis hnext
    cases tie with
    | toEven =>
      dsimp only at h
      split_ifs at h
      · exact Option.some.inj h ▸ hthis
      · exact Option.some.inj h ▸ hnext
      · exact Option.some.inj h ▸ hthis
      · exact Option.some.inj h ▸ hnext
    | up =>
      dsimp only at h
      split_ifs at h
      · exact Option.some.inj h ▸ hthis
      · exact Option.some.inj h ▸ hnext
      · exact Option.some.inj h ▸ hnext
  · rename_i hthis _
    exact Option.some.inj h ▸ hthis
  · rename_i _ hnext
    exact Option.some.inj h ▸ hnext
  · cases h

/-- All digits are those of the value. -/
theorem value_exactly (v : Magnitude) : (v.exactly.1 * 10 ^ v.exactly.2 : ℚ) = v.value := by
  unfold exactly value
  split
  · rename_i hexponent
    have hnone : (-v.exponent).toNat = 0 := by omega
    rw [Nat.cast_mul, cast_natPow, zpow_zero, mul_one, zpow_eq_div two_ne_zero v.exponent, hnone, pow_zero,
      div_one, Nat.cast_ofNat]
  · rename_i hexponent
    have hnone : v.exponent.toNat = 0 := by omega
    have hfive : (5 : ℚ) ^ (-v.exponent).toNat * 5 ^ v.exponent = 1 := by
      rw [zpow_eq_div (by norm_num) v.exponent, hnone, pow_zero, mul_one_div_cancel (by positivity)]
    have hten : (10 : ℚ) ^ v.exponent = 5 ^ v.exponent * 2 ^ v.exponent := by
      rw [← mul_zpow]
      norm_num
    rw [Nat.cast_mul, cast_natPow, hten, Nat.cast_ofNat, mul_assoc, ← mul_assoc _ (5 ^ v.exponent : ℚ), hfive,
      one_mul]

/-- **What the search finds is in the interval.** -/
theorem near_search (tie : Tie) (hv : v.mantissa ≠ 0) (steps : ℕ) (j : ℤ) :
    v.Near ((search tie v steps j).1 * 10 ^ (search tie v steps j).2) := by
  induction steps generalizing j with
  | zero =>
    rw [search, value_exactly]
    exact near_value hv
  | succ steps ih =>
    rw [search]
    split
    · exact near_of_onGrid ‹_›
    · exact ih _

/-- **So are the fewest digits.** -/
theorem near_shortest (tie : Tie) (hv : v.mantissa ≠ 0) :
    v.Near ((v.shortest tie).1 * 10 ^ (v.shortest tie).2) := by
  rw [shortest, if_neg hv]
  exact near_search tie hv _ _

end Magnitude

/-! ## Whole numbers -/

/-- The value of a number that is finite. -/
def Binary64.value? : Binary64 → Option ℚ
  | .finite negative v => some (if negative then -v.value else v.value)
  | _ => none

theorem Magnitude.value_nonneg (v : Magnitude) : 0 ≤ v.value :=
  mul_nonneg (Nat.cast_nonneg _) (two_zpow_pos _).le

namespace Binary64

/-- A whole number is rounded to the magnitude that has its value. -/
theorem ofInt_of_value {n : ℤ} (hn : n ≠ 0) {v : Magnitude} (hv : v.value = n.natAbs) :
    ofInt n = .finite (n < 0) v := by
  have hmantissa : v.mantissa ≠ 0 := by
    intro hzero
    rw [Magnitude.value, hzero, Nat.cast_zero, zero_mul] at hv
    exact Int.natAbs_ne_zero.2 hn (Nat.cast_eq_zero.1 hv.symm)
  rw [ofInt_eq, ← hv]
  exact nearest_of_near _ hmantissa (Magnitude.near_value hmantissa)

/-- The magnitude of a whole number is its absolute value. -/
theorem value?_eq_some_iff {negative : Bool} {v : Magnitude} {n : ℤ} (hn : n ≠ 0) :
    (finite negative v).value? = some (n : ℚ) ↔ negative = decide (n < 0) ∧ v.value = n.natAbs := by
  have hv := v.value_nonneg
  rw [value?, Option.some_inj, Nat.cast_natAbs]
  rcases lt_or_gt_of_ne hn with hneg | hpos
  · have hcast : (n : ℚ) < 0 := by exact_mod_cast hneg
    rw [abs_of_neg hneg, decide_eq_true hneg]
    push_cast
    cases negative with
    | true => simp [neg_eq_iff_eq_neg]
    | false =>
      simp only [Bool.false_eq_true, if_false, false_and, iff_false]
      linarith
  · have hcast : (0 : ℚ) < n := by exact_mod_cast hpos
    rw [abs_of_pos hpos, decide_eq_false (not_lt.2 hpos.le)]
    cases negative with
    | true =>
      simp only [if_true, Bool.true_eq_false, false_and, iff_false]
      linarith
    | false => simp

/-- **A whole number that is the value of a binary number is rounded to its own value.** -/
theorem value?_ofInt {n : ℤ} (h : ∃ x : Binary64, x.value? = some (n : ℚ)) : (ofInt n).value? = some (n : ℚ) := by
  rcases eq_or_ne n 0 with rfl | hn
  · have hzero : ofInt 0 = .finite false .zero := rfl
    simp [hzero, value?, Magnitude.value, Magnitude.zero]
  · obtain ⟨x, hx⟩ := h
    cases x with
    | finite negative v =>
      have hv := ((value?_eq_some_iff hn).1 hx).2
      rw [ofInt_of_value hn hv, value?_eq_some_iff hn]
      exact ⟨rfl, hv⟩
    | nan | infinity => cases hx

/-- A natural number of at most 53 bits is a magnitude, and so is the next power of two. -/
theorem exists_value_eq {m : ℕ} (hm : m ≠ 0) (h : m ≤ 2 ^ 53) : ∃ v : Magnitude, v.value = m := by
  rcases eq_or_ne m (2 ^ 53) with rfl | hmax
  · refine ⟨⟨Nat.pow 2 52, 1, by decide, by decide, by decide, .inr le_rfl⟩, ?_⟩
    rw [Magnitude.value, cast_natPow]
    norm_num
  · have hlow : 2 ^ Nat.log2 m ≤ m := Nat.log2_self_le hm
    have hhigh : m < 2 ^ (Nat.log2 m + 1) := Nat.lt_log2_self
    have hlog : Nat.log2 m < 53 := (Nat.log2_lt hm).2 (lt_of_le_of_ne h hmax)
    have hpow : 2 ^ Nat.log2 m * 2 ^ (52 - Nat.log2 m) = 2 ^ 52 := by
      rw [← pow_add]
      congr 1
      omega
    refine ⟨⟨m * 2 ^ (52 - Nat.log2 m), -(52 - Nat.log2 m : ℕ), ?_, by omega, by omega, .inr ?_⟩, ?_⟩
    · calc m * 2 ^ (52 - Nat.log2 m) < 2 ^ (Nat.log2 m + 1) * 2 ^ (52 - Nat.log2 m) :=
            Nat.mul_lt_mul_of_pos_right hhigh (Nat.two_pow_pos _)
        _ = Nat.pow 2 53 := by
            rw [pow_succ, mul_right_comm, hpow]
            rfl
    · calc Nat.pow 2 52 = 2 ^ Nat.log2 m * 2 ^ (52 - Nat.log2 m) := hpow.symm
        _ ≤ m * 2 ^ (52 - Nat.log2 m) := Nat.mul_le_mul_right _ hlow
    · rw [Magnitude.value, Nat.cast_mul, Nat.cast_pow, Nat.cast_ofNat, zpow_neg, zpow_natCast, mul_assoc,
        mul_inv_cancel₀ (by positivity), mul_one]

/-- **So is every whole number of at most 53 bits.** -/
theorem exists_value?_eq {n : ℤ} (h : n.natAbs ≤ 2 ^ 53) : ∃ x : Binary64, x.value? = some (n : ℚ) := by
  rcases eq_or_ne n 0 with rfl | hn
  · exact ⟨.finite false .zero, by simp [value?, Magnitude.value, Magnitude.zero]⟩
  · obtain ⟨v, hv⟩ := exists_value_eq (Int.natAbs_ne_zero.2 hn) h
    exact ⟨.finite (n < 0) v, (value?_eq_some_iff hn).2 ⟨rfl, hv⟩⟩

end Binary64

end ApiCodegen.Numeric
