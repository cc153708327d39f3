import ApiCodegen.Proofs.Generation.Defaults
import ApiCodegen.Proofs.Server.Declared

/-!
# The bounds of an attribute

The least and the greatest value of an attribute are written without an exponent. A number that is no whole one
has the fewest digits that read back, around a point, and is read as itself. A large whole number has the fewest
digits too, and zeros behind them: without a point the server takes it as a whole number, which is another one
unless the digits are all that there are. The texts of infinities and of what is not a number are names.

* `Magnitude.of_whole?`, `Magnitude.shortest_nonneg`: whole magnitudes and their digits.
* `Magnitude.value_of_near`: below `2 ^ 53` no other whole number is rounded to one.
* `exists_numeral_plain`: **the text without an exponent is a numeral.**
* `exists_read_bound`: **the number that the text of a bound is read as.**
* `Attribute.bounds_read`: **which bounds are numbers, and which have the value of the bound.**
-/

namespace ApiCodegen

open Markup (Number)
open Numeric (Binary64 Magnitude)
open Text

/-- **The value of a number**, if it is finite. -/
def Markup.Number.value? : Number → Option ℚ
  | .whole n => some n
  | .real x => x.value?

namespace Numeric

variable {v : Magnitude} {d : ℕ}

namespace Magnitude

/-! ## Whole magnitudes -/

/-- A whole number is the value, and below the limit. -/
theorem of_whole? {n : ℕ} (h : v.whole? = some n) : v.value = n ∧ n < 10 ^ 15 := by
  rw [value, zpow_eq_div two_ne_zero]
  unfold whole? at h
  split at h
  · rename_i hexponent
    have hnone : (-v.exponent).toNat = 0 := by omega
    dsimp only at h
    split at h
    · rename_i hlimit
      obtain rfl := Option.some.inj h
      refine ⟨?_, hlimit⟩
      rw [hnone, Nat.cast_mul, cast_natPow, Nat.cast_ofNat, pow_zero, div_one]
    · cases h
  · rename_i hexponent
    have hnone : v.exponent.toNat = 0 := by omega
    dsimp only at h
    split at h
    · rename_i hwhole
      obtain rfl := Option.some.inj h
      have hmantissa : v.mantissa = v.mantissa / Nat.pow 2 (-v.exponent).toNat * Nat.pow 2 (-v.exponent).toNat :=
        (Nat.div_mul_cancel (Nat.dvd_of_mod_eq_zero hwhole.1)).symm
      refine ⟨?_, hwhole.2⟩
      rw [hnone, pow_zero, mul_one_div, div_eq_iff (by positivity), ← Nat.cast_ofNat (R := ℚ), ← cast_natPow,
        ← Nat.cast_mul, ← hmantissa]
    · cases h

/-- A magnitude is whole if its last place is. -/
theorem value_eq_natCast (h : 0 ≤ v.exponent) : v.value = (v.mantissa * Nat.pow 2 v.exponent.toNat : ℕ) := by
  have hnone : (-v.exponent).toNat = 0 := by omega
  rw [value, zpow_eq_div two_ne_zero, hnone, pow_zero, div_one, Nat.cast_mul, cast_natPow, Nat.cast_ofNat]

/-- The grid of whole numbers has a whole magnitude. -/
theorem onGrid_zero_ne_none {tie : Tie} (hv : v.mantissa ≠ 0) {n : ℕ} (hn : v.value = n) :
    onGrid tie v 0 ≠ none := by
  obtain ⟨hpos, hunit⟩ := v.unit_spec 0
  -- the neighbour below is the value itself
  have hscaled : 4 * v.mantissa * (v.unit 0).2 = n * (v.unit 0).1 := by
    have hpower := (two_zpow_pos v.exponent).ne'
    rw [zpow_zero, div_eq_iff hpos.ne'] at hunit
    have hcast : (4 * v.mantissa * (v.unit 0).2 : ℚ) = n * (v.unit 0).1 := by
      rw [hunit, ← hn, value]
      field_simp
    exact_mod_cast hcast
  have hunitPos : 0 < (v.unit 0).1 := Nat.mul_pos (Nat.pow_pos (by decide)) (Nat.pow_pos (by decide))
  have hholds : v.holds 0 n := by
    rw [holds_iff, zpow_zero, mul_one, ← hn]
    exact near_value hv
  unfold onGrid
  dsimp only
  rw [hscaled, Nat.mul_div_cancel _ hunitPos, hholds]
  split
  · split_ifs <;> cases tie <;> simp
  · simp
  · simp
  · rename_i hnone _
    cases hnone

/-- A search for a whole magnitude stops at whole numbers, if it gets there. -/
theorem search_nonneg (tie : Tie) (hv : v.mantissa ≠ 0) {n : ℕ} (hn : v.value = n) {steps : ℕ} {j : ℤ}
    (hj : 0 ≤ j) (hsteps : 0 ≤ v.exponent ∨ j < steps) : 0 ≤ (search tie v steps j).2 := by
  induction steps generalizing j with
  | zero =>
    rcases hsteps with hexponent | hless
    · rw [search, exactly, if_pos hexponent]
    · exact absurd hj (not_le.2 hless)
  | succ steps ih =>
    rw [search]
    split
    · exact hj
    · rename_i hnone
      have hne : j ≠ 0 := by
        rintro rfl
        exact onGrid_zero_ne_none hv hn hnone
      exact ih (by omega) (hsteps.imp_right fun hless => by omega)

/-- The search for a whole magnitude starts at whole numbers. -/
theorem log_nonneg (hv : v.mantissa ≠ 0) {n : ℕ} (hn : v.value = n) :
    0 ≤ (Nat.log2 v.mantissa : ℤ) + 1 + v.exponent := by
  have hone : (1 : ℚ) ≤ v.value := by
    have hpos : (0 : ℚ) < v.value := mul_pos (Nat.cast_pos.2 (Nat.pos_of_ne_zero hv)) (two_zpow_pos _)
    rw [hn] at hpos ⊢
    exact_mod_cast hpos
  have hmantissa : (v.mantissa : ℚ) < 2 ^ ((Nat.log2 v.mantissa : ℤ) + 1) := by
    have hless : v.mantissa < 2 ^ (Nat.log2 v.mantissa + 1) := Nat.lt_log2_self
    exact_mod_cast hless
  have hpower : (2 : ℚ) ^ (0 : ℤ) < 2 ^ ((Nat.log2 v.mantissa : ℤ) + 1 + v.exponent) := by
    calc (2 : ℚ) ^ (0 : ℤ) = 1 := zpow_zero _
      _ ≤ v.mantissa * 2 ^ v.exponent := hone
      _ < 2 ^ ((Nat.log2 v.mantissa : ℤ) + 1) * 2 ^ v.exponent :=
        mul_lt_mul_of_pos_right hmantissa (two_zpow_pos _)
      _ = 2 ^ ((Nat.log2 v.mantissa : ℤ) + 1 + v.exponent) := (zpow_add₀ two_ne_zero _ _).symm
  exact ((zpow_lt_zpow_iff_right₀ (by norm_num)).1 hpower).le

/-- **The fewest digits of a whole magnitude are those of a whole number.** -/
theorem shortest_nonneg (tie : Tie) {n : ℕ} (hn : v.value = n) : 0 ≤ (v.shortest tie).2 := by
  rw [shortest]
  split
  · exact le_rfl
  · rename_i hv
    have hlog := log_nonneg hv hn
    have hbits : Nat.log2 v.mantissa < 53 := (Nat.log2_lt hv).2 v.mantissa_lt
    have hcoarsest : v.coarsest = ((Nat.log2 v.mantissa : ℤ) + 1 + v.exponent) / 3 + 1 := if_pos hlog
    rw [hcoarsest]
    -- the search has more steps than a mantissa has bits
    exact search_nonneg tie hv hn (by omega) (or_iff_not_imp_left.2 fun hexponent => by omega)

/-- Below `2 ^ 53` the last place is a whole number or less. -/
theorem exponent_nonpos (h : v.value < 2 ^ 53) : v.exponent ≤ 0 := by
  by_contra hpos
  have hmantissa : (2 : ℚ) ^ 52 ≤ v.mantissa := by
    rcases v.normal with hleast | hnormal
    · omega
    · exact_mod_cast hnormal
  have hplace : (2 : ℚ) ≤ 2 ^ v.exponent := by
    have hone : (2 : ℚ) ^ (1 : ℤ) ≤ 2 ^ v.exponent := zpow_le_zpow_right₀ (by norm_num) (by omega)
    rwa [zpow_one] at hone
  have hvalue : (2 : ℚ) ^ 53 ≤ v.value := by
    calc (2 : ℚ) ^ 53 = 2 ^ 52 * 2 := pow_succ _ _
      _ ≤ v.mantissa * 2 ^ v.exponent := mul_le_mul hmantissa hplace (by norm_num) (Nat.cast_nonneg _)
  exact absurd h (not_lt.2 hvalue)

/-- From `2 ^ 53` on it is a whole number. -/
theorem exponent_nonneg (h : 2 ^ 53 ≤ v.value) : 0 ≤ v.exponent := by
  by_contra hneg
  have hmantissa : (v.mantissa : ℚ) < 2 ^ 53 := by exact_mod_cast v.mantissa_lt
  have hplace : (2 : ℚ) ^ v.exponent ≤ 1 := zpow_le_one_of_nonpos₀ (by norm_num) (by omega)
  have hvalue : v.value < 2 ^ 53 := by
    calc (v.mantissa * 2 ^ v.exponent : ℚ) ≤ v.mantissa * 1 :=
      mul_le_mul_of_nonneg_left hplace (Nat.cast_nonneg _)
      _ = v.mantissa := mul_one _
      _ < 2 ^ 53 := hmantissa
  exact absurd h (not_le.2 hvalue)

/-- **Below `2 ^ 53` a whole number in the interval of a magnitude is its value.** -/
theorem value_of_near (hv : v.mantissa ≠ 0) {n : ℕ} (hnear : v.Near n) (hless : v.value < 2 ^ 53) :
    v.value = n := by
  have hn : n ≠ 0 := Near.digits_ne_zero (j := 0) hv (by rwa [zpow_zero, mul_one])
  have hbits : n ≤ 2 ^ 53 := by
    have hhigh := hnear.le_high
    have hplace : (2 : ℚ) ^ v.exponent ≤ 1 := zpow_le_one_of_nonpos₀ (by norm_num) (exponent_nonpos hless)
    have hpos := two_zpow_pos v.exponent
    rw [cast_high, ← mul_div_assoc, div_le_iff₀ hpos] at hhigh
    have hvalue : (n : ℚ) < 2 ^ 53 + 1 := by
      unfold value at hless
      linarith
    exact Nat.lt_succ_iff.1 (by exact_mod_cast hvalue)
  -- the whole number is a magnitude itself, and both are what it is rounded to
  obtain ⟨w, hw⟩ := Binary64.exists_value_eq hn hbits
  have hmantissa : w.mantissa ≠ 0 := by
    intro hzero
    rw [value, hzero, Nat.cast_zero, zero_mul] at hw
    exact hn (Nat.cast_eq_zero.1 hw.symm)
  have hround := Binary64.nearest_of_near false hmantissa (near_value hmantissa)
  rw [hw, Binary64.nearest_of_near false hv hnear] at hround
  rw [(Binary64.finite.inj hround).2, hw]

/-- The whole number of the fewest digits, if these reach up to the point. -/
def rounded? (v : Magnitude) : Option ℕ :=
  if 0 ≤ (v.shortest .up).2 then some ((v.shortest .up).1 * 10 ^ (v.shortest .up).2.toNat) else none

/-- It is in the interval of the magnitude. -/
theorem near_of_rounded? (hv : v.mantissa ≠ 0) {n : ℕ} (h : v.rounded? = some n) : v.Near n := by
  have hnear := near_shortest .up hv
  unfold rounded? at h
  split at h
  · rename_i hj
    have hpower : (10 : ℚ) ^ (v.shortest .up).2 = 10 ^ (v.shortest .up).2.toNat := by
      rw [← zpow_natCast, Int.toNat_of_nonneg hj]
    rw [hpower] at hnear
    rw [← Option.some.inj h]
    exact_mod_cast hnear
  · cases h

/-- A whole magnitude has one. -/
theorem isSome_rounded? {n : ℕ} (hn : v.value = n) : v.rounded?.isSome := by
  rw [rounded?, if_pos (shortest_nonneg .up hn)]
  rfl

/-- **Below `2 ^ 53` it is the value.** -/
theorem value_of_rounded? {n : ℕ} (h : v.rounded? = some n) (hless : v.value < 2 ^ 53) : v.value = n := by
  by_cases hv : v.mantissa = 0
  · have hn : n = 0 := by
      rw [rounded?, shortest, if_pos hv] at h
      exact (Option.some.inj h).symm
    rw [value, hv, hn, Nat.cast_zero, zero_mul]
  · exact value_of_near hv (near_of_rounded? hv h) hless

/-- So a whole number below the limit is the one of its fewest digits. -/
theorem rounded?_of_whole? {n : ℕ} (h : v.whole? = some n) : v.rounded? = some n := by
  obtain ⟨hvalue, hlimit⟩ := of_whole? h
  have hless : v.value < 2 ^ 53 := by
    rw [hvalue]
    have hbits : n < 2 ^ 53 := lt_trans hlimit (by norm_num)
    exact_mod_cast hbits
  obtain ⟨m, hm⟩ := Option.isSome_iff_exists.1 (isSome_rounded? hvalue)
  have hcast : (n : ℚ) = m := hvalue.symm.trans (value_of_rounded? hm hless)
  rw [hm, Nat.cast_injective hcast]

end Magnitude

/-! ## Texts without an exponent -/

/-- Zeros behind the digits of a number. -/
theorem toDigits_mul_pow (hd : d ≠ 0) (k : ℕ) :
    Nat.toDigits 10 (d * 10 ^ k) = Nat.toDigits 10 d ++ List.replicate k '0' := by
  induction k with
  | zero => simp
  | succ k ih =>
    have hpos : 0 < d * 10 ^ k := Nat.mul_pos (Nat.pos_of_ne_zero hd) (Nat.pow_pos (by decide))
    have htimes : d * 10 ^ (k + 1) = d * 10 ^ k * 10 := by ring
    rw [htimes, Nat.toDigits_of_base_le (by decide) (by omega), Nat.mul_div_cancel _ (by decide), ih,
      Nat.mul_mod_left, List.replicate_succ', List.append_assoc]
    rfl

/-- The digits of a magnitude without an exponent. -/
theorem magnitude_plain (hv : v.mantissa ≠ 0) : plain.magnitude v =
    plain.positional (Nat.toDigits 10 (v.shortest .up).1)
      ((Nat.toDigits 10 (v.shortest .up).1).length + (v.shortest .up).2) := by
  rw [Layout.magnitude, if_neg hv]
  rfl

/-- **Without an exponent** a magnitude is written as a numeral: of the whole number of its fewest digits, if they
reach up to the point, and otherwise of itself. -/
theorem exists_numeral_plain (hv : v.mantissa ≠ 0) : ∃ n : Numeral, n.Proper ∧ n.chars = plain.magnitude v ∧
    n.number .server = (v.rounded?.map fun m : ℕ => .whole m).getD (.real (.finite false v)) := by
  have hnear := Magnitude.near_shortest .up hv
  have hdigits := hnear.digits_ne_zero hv
  rw [magnitude_plain hv, Magnitude.rounded?]
  generalize (v.shortest .up).1 = d at hnear hdigits ⊢
  generalize (v.shortest .up).2 = j at hnear ⊢
  have hlength : 0 < (Nat.toDigits 10 d).length := List.length_pos_iff.2 Nat.toDigits_ne_nil
  split
  · rename_i hj
    refine ⟨natural (d * 10 ^ j.toNat), proper_natural _, ?_, number_natural_server _⟩
    have hzeros : ((Nat.toDigits 10 d).length + j).toNat - (Nat.toDigits 10 d).length = j.toNat := by omega
    rw [chars_natural, toDigits_mul_pow hdigits]
    unfold Layout.positional
    dsimp only
    rw [if_neg (by omega), if_pos (by omega), hzeros]
    exact (List.append_nil _).symm
  · rename_i hj
    -- with a point among the digits or in front of them, all layouts are the same
    have hlayout : plain.positional (Nat.toDigits 10 d) ((Nat.toDigits 10 d).length + j) =
        document.positional (Nat.toDigits 10 d) ((Nat.toDigits 10 d).length + j) := by
      unfold Layout.positional
      dsimp only
      split
      · rfl
      · rw [if_neg (by omega), if_neg (by omega)]
    obtain ⟨n, hproper, hreal, hchars, hvalue⟩ := writes_positional hdigits j
    refine ⟨n, hproper, hchars.trans hlayout.symm, ?_⟩
    rw [Numeral.number_eq (.inr hreal), hvalue, Binary64.nearest_of_near false hv hnear]
    rfl

end Numeric

/-! ## Bounds -/

namespace Text

variable {v : Magnitude}

/-- **A closed numeric expression of the server**: a numeral, with or without a sign, or a text that is made a
number. -/
def IsClosedNumber (text : String) : Prop :=
  (∃ n : Number, read .server [] text = some (.number n)) ∨ ∃ s, text = "float(" ++ quote s ++ ")"

/-- The numeral of a magnitude, behind its sign. -/
theorem read_signed {negative : Bool} {n : Numeral} (hn : n.Proper) :
    read .server [] (String.ofList (if negative then '-' :: n.chars else n.chars)) =
      some (.number (if negative then (n.number .server).neg else n.number .server)) := by
  cases negative with
  | true =>
    have hparsed : Parsed .server [] _ _ := parsed_negative hn
    exact Parsed.read_eq (by rwa [String.toList_ofList])
  | false =>
    have hparsed : Parsed .server [] _ _ := parsed_numeral hn
    exact Parsed.read_eq (by rwa [String.toList_ofList])

/-- The number that a bound is taken as. -/
def boundNumber (negative : Bool) (v : Magnitude) : Number :=
  (v.rounded?.map fun n : ℕ => .whole (if negative then -n else n)).getD (.real (.finite negative v))

/-- **The number that the text of a bound is read as.** -/
theorem read_bound (negative : Bool) (v : Magnitude) :
    read .server [] (Numeric.bound (.finite negative v)) = some (.number (boundNumber negative v)) := by
  unfold Numeric.bound
  dsimp only
  split
  · -- a whole number below the limit is written with all of its digits
    rename_i n hwhole
    have hparsed : Parsed .server [] _ _ := parsed_whole (if negative then -n else n)
    rw [hparsed.read_eq, boundNumber, Magnitude.rounded?_of_whole? hwhole]
    rfl
  · rename_i hwhole
    have hv : v.mantissa ≠ 0 := by
      intro hzero
      rw [Magnitude.whole?, hzero] at hwhole
      split at hwhole <;> simp at hwhole
    obtain ⟨n, hproper, hchars, hnumber⟩ := Numeric.exists_numeral_plain hv
    rw [Numeric.Layout.text, ← hchars, read_signed hproper, hnumber, boundNumber]
    cases v.rounded? <;> cases negative <;> rfl

/-- A whole number has the value of the magnitude behind its sign if it has that of the magnitude. -/
theorem value?_signed_iff (negative : Bool) (v : Magnitude) (n : ℕ) :
    (Binary64.finite negative v).value? = some (((if negative then -n else n : ℤ) : ℤ) : ℚ) ↔ v.value = n := by
  cases negative <;> simp [Binary64.value?]

/-- **It is rounded to the bound.** -/
theorem value?_boundNumber (negative : Bool) (v : Magnitude) :
    (boundNumber negative v).toReal.value? = (Binary64.finite negative v).value? := by
  unfold boundNumber
  cases hrounded : v.rounded? with
  | none => rfl
  | some n =>
    rw [Option.map_some, Option.getD_some, Number.toReal]
    by_cases hv : v.mantissa = 0
    · have hzero : v.value = 0 := by rw [Magnitude.value, hv, Nat.cast_zero, zero_mul]
      have hn : v.value = n := Magnitude.value_of_rounded? hrounded (by rw [hzero]; norm_num)
      have hsigned := (value?_signed_iff negative v n).2 hn
      rw [Binary64.value?_ofInt ⟨_, hsigned⟩, hsigned]
    · have hnear := Magnitude.near_of_rounded? hv hrounded
      have hn : n ≠ 0 := Magnitude.Near.digits_ne_zero (j := 0) hv (by rwa [zpow_zero, mul_one])
      have hsign : decide ((if negative then -n else n : ℤ) < 0) = negative := by
        cases negative with
        | true => simp [Nat.pos_of_ne_zero hn]
        | false => simp
      have habs : (if negative then -n else n : ℤ).natAbs = n := by cases negative <;> simp
      rw [Binary64.ofInt_eq, hsign, habs, Binary64.nearest_of_near negative hv hnear]

/-- **When it is the bound**: below `2 ^ 53`, and beyond it if the fewest digits are all digits. -/
theorem value?_boundNumber_iff (negative : Bool) (v : Magnitude) :
    (boundNumber negative v).value? = (Binary64.finite negative v).value? ↔
      v.value < 2 ^ 53 ∨ ∃ n, v.rounded? = some n ∧ v.value = n := by
  unfold boundNumber
  cases hrounded : v.rounded? with
  | none =>
    -- from there on the value is a whole number, and has such digits
    refine iff_of_true rfl (.inl (not_le.1 fun hmore => ?_))
    have hwhole := Magnitude.isSome_rounded? (Magnitude.value_eq_natCast (Magnitude.exponent_nonneg hmore))
    rw [hrounded] at hwhole
    cases hwhole
  | some n =>
    rw [Option.map_some, Option.getD_some, eq_comm]
    refine (value?_signed_iff negative v n).trans ⟨fun hn => .inr ⟨n, rfl, hn⟩, ?_⟩
    rintro (hless | ⟨m, hm, hvalue⟩)
    · exact Magnitude.value_of_rounded? hrounded hless
    · rwa [Option.some.inj hm]

/-- **The bounds that are closed expressions are the finite ones.** -/
theorem isClosedNumber_bound_iff (x : Binary64) : IsClosedNumber (Numeric.bound x) ↔ x.value?.isSome := by
  -- a name stands for no number, and is no call
  have hname {text : String} (hread : read .server [] text = none) (hhead : text.toList.head? ≠ some 'f') :
      ¬ IsClosedNumber text := by
    rintro (⟨n, hn⟩ | ⟨s, rfl⟩)
    · rw [hread] at hn
      cases hn
    · exact hhead (by simp)
  cases x with
  | nan => exact iff_of_false (hname (by decide) (by decide)) Bool.false_ne_true
  | infinity negative =>
    cases negative with
    | true => exact iff_of_false (hname (by decide) (by decide)) Bool.false_ne_true
    | false => exact iff_of_false (hname (by decide) (by decide)) Bool.false_ne_true
  | finite negative v => exact iff_of_true (.inl ⟨_, read_bound negative v⟩) rfl

end Text

/-! ## Attributes -/

namespace Server

namespace Attribute

/-- Arguments start with their keywords. -/
theorem mem_arguments_iff (a : Attribute) {keyword : String} (hkeyword : Name.isIdentifier keyword.toList)
    (text : String) : keyword ++ "=" ++ text ∈ a.arguments ↔ (keyword, text) ∈ a.keywords := by
  rw [arguments_eq, List.mem_map]
  refine ⟨?_, fun h => ⟨_, h, rfl⟩⟩
  rintro ⟨⟨other, more⟩, hmem, heq⟩
  have hother := (Name.isIdentifier_iff.1 (of_mem_keywords hmem).1).2.2
  have hend (cs : List Char) : ∀ c ∈ ('=' :: cs).head?, Name.isWordChar c = false := by simp [Name.isWordChar]
  have hchars : other.toList ++ '=' :: more.toList = keyword.toList ++ '=' :: text.toList := by
    simpa using congrArg String.toList heq
  -- both keywords end at the first sign of equality
  obtain ⟨htake, hdrop⟩ := takeWhile_run hother (hend more.toList)
  obtain ⟨htake', hdrop'⟩ := takeWhile_run (Name.isIdentifier_iff.1 hkeyword).2.2 (hend text.toList)
  rw [hchars, htake'] at htake
  rw [hchars, hdrop'] at hdrop
  rwa [String.toList_inj.1 htake, String.toList_inj.1 (List.cons.inj hdrop).2]

/-- **The bounds of an attribute**, for all numbers that these can be.

* What the arguments have behind `ge=` and `le=` is the text of the least and of the greatest value.
* Such a text is a closed numeric expression if the bound is finite, and otherwise a name.
* The number that it is read as is rounded to the bound. It has the value of the bound below `2 ^ 53`; from there
  on, if the fewest digits that read back are all digits of the bound. -/
theorem bounds_read (a : Attribute) :
    (∀ text, "ge=" ++ text ∈ a.arguments ↔ text ∈ a.constraints.minimum.map Numeric.bound) ∧
    (∀ text, "le=" ++ text ∈ a.arguments ↔ text ∈ a.constraints.maximum.map Numeric.bound) ∧
    (∀ x, IsClosedNumber (Numeric.bound x) ↔ x.value?.isSome) ∧
    ∀ (negative : Bool) (v : Magnitude), let x := Binary64.finite negative v
      ∃ n : Number, read .server [] (Numeric.bound x) = some (.number n) ∧ n.toReal.value? = x.value? ∧
        (n.value? = x.value? ↔ v.value < 2 ^ 53 ∨ ∃ m, v.rounded? = some m ∧ v.value = m) := by
  refine ⟨fun text => ?_, fun text => ?_, isClosedNumber_bound_iff, fun negative v =>
    ⟨_, read_bound negative v, value?_boundNumber negative v, value?_boundNumber_iff negative v⟩⟩
  · refine (a.mem_arguments_iff (by decide) text : "ge" ++ "=" ++ text ∈ _ ↔ _).trans ?_
    simp [keywords]
  · refine (a.mem_arguments_iff (by decide) text : "le" ++ "=" ++ text ∈ _ ↔ _).trans ?_
    simp [keywords]

/-- The bounds `-inf`, which is no number of the server, and `2 ^ 60`, which is written as a larger number. -/
theorem not_closed_infinite_not_exact_wide :
    let bounds : Constraints := { minimum := some (.infinity true), maximum := some (.ofInt 1152921504606846976) }
    let a := ofField ⟨"q", .primitive .number none, .absent, none, bounds⟩ "q"
    a.arguments = ["ge=-inf", "le=1152921504606847000"] ∧ ¬ IsClosedNumber "-inf" ∧
      read .server [] "1152921504606847000" = some (.number (.whole 1152921504606847000)) ∧
      (Binary64.ofInt 1152921504606846976).value? = some 1152921504606846976 := by
  have hpower : Binary64.ofInt 1152921504606846976 =
      .finite false ⟨Nat.pow 2 52, 8, by decide, by decide, by decide, .inr le_rfl⟩ := by
    decide +kernel
  refine ⟨by decide +kernel, ?_, by decide +kernel, ?_⟩
  · exact fun h => Bool.false_ne_true ((isClosedNumber_bound_iff (.infinity true)).1 h)
  · rw [hpower]
    simp only [Binary64.value?, Magnitude.value]
    norm_num

end Attribute

end Server

end ApiCodegen
