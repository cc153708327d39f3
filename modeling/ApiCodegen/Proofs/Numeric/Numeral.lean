import ApiCodegen.Markup.Value
import ApiCodegen.Proofs.Numeric.Shortest
import ApiCodegen.Proofs.Text.Lexeme

/-!
# The text of a number is its numeral

The digits of a number are laid out in one of four ways. Each is a numeral of one value, that of the digits,
which is rounded to the number.

* `Writes`: the value that some characters are a numeral of.
* `IsDecimal`: the digits of a number, around which a point and zeros are put.
* `writes_positional`, `writes_scientific`: **the layouts do not change the value of the digits.**
* `exists_numeral_magnitude`: **the text of a binary number is a numeral of it.**
* `natural`: the numeral of a natural number, which the client has as the nearest binary number.
-/

namespace ApiCodegen.Text

open Markup (Number)
open Numeric (Binary64)

namespace Numeral

/-- The value of a numeral. -/
def value (n : Numeral) : ℚ :=
  Nat.ofDigitChars 10 (n.front ++ n.fraction) 0 * 10 ^ (n.exponent.getD 0 - n.fraction.length)

/-- A numeral that is no whole number in either language. -/
def IsReal (n : Numeral) : Prop := n.back ≠ none ∨ n.exponent ≠ none

/-- **The number of a numeral is the one nearest to its value.** -/
theorem number_eq {lang : Language} {n : Numeral} (h : lang = .client ∨ n.IsReal) :
    n.number lang = .real (.nearest false n.value) := by
  have hreal : ¬ (lang = .server ∧ n.back = none ∧ n.exponent = none) := by
    rintro ⟨rfl, hback, hexponent⟩
    rcases h with hlang | hback' | hexponent'
    · cases hlang
    · exact hback' hback
    · exact hexponent' hexponent
  rw [number, if_neg hreal, Binary64.ofDecimal_eq]
  rfl

end Numeral

/-- **Some characters are a numeral of a value.** -/
def Writes (cs : List Char) (x : ℚ) : Prop :=
  ∃ n : Numeral, n.Proper ∧ n.IsReal ∧ n.chars = cs ∧ n.value = x

/-- Digits do not start with a zero. -/
theorem head?_toDigits {d : ℕ} (hd : d ≠ 0) : (Nat.toDigits 10 d).head? ≠ some '0' := by
  induction d using Nat.strong_induction_on with
  | _ d ih =>
    by_cases hless : d < 10
    · rw [Nat.toDigits_of_lt_base hless]
      interval_cases d
      · exact absurd rfl hd
      all_goals decide
    · rw [Nat.toDigits_of_base_le (by decide) (by omega), List.head?_append_of_ne_nil _ Nat.toDigits_ne_nil]
      exact ih (d / 10) (by omega) (by omega)

end ApiCodegen.Text

namespace ApiCodegen.Numeric

open Text

variable {d : ℕ} {v : Magnitude}

/-- **The digits of a number** that is not zero. -/
structure IsDecimal (digits : List Char) (d : ℕ) : Prop where
  value : Nat.ofDigitChars 10 digits 0 = d
  head : digits.head? ≠ some '0'
  ne_nil : digits ≠ []
  isDigit : ∀ c ∈ digits, c.isDigit

theorem isDecimal_toDigits (hd : d ≠ 0) : IsDecimal (Nat.toDigits 10 d) d :=
  ⟨ofDigitChars_toDigits d, head?_toDigits hd, Nat.toDigits_ne_nil, isDigit_of_mem_toDigits⟩

theorem isDigit_of_mem_zeros (n : ℕ) : ∀ c ∈ List.replicate n '0', c.isDigit := by
  intro c hc
  rw [List.eq_of_mem_replicate hc]
  decide

variable {digits : List Char}

/-- Zeros between the point and the digits. -/
theorem writes_behind_zeros (h : IsDecimal digits d) (n : ℕ) :
    Writes ('0' :: '.' :: (List.replicate n '0' ++ digits)) (d * 10 ^ (-(n + digits.length : ℤ))) := by
  have hall : ∀ c ∈ List.replicate n '0' ++ digits, c.isDigit := fun c hc =>
    (List.mem_append.1 hc).elim (isDigit_of_mem_zeros n c) (h.isDigit c)
  have hvalue : Nat.ofDigitChars 10 (['0'] ++ (List.replicate n '0' ++ digits)) 0 = d := by
    rw [Nat.ofDigitChars_append, Nat.ofDigitChars_append, Nat.ofDigitChars_replicate_zero]
    exact h.value
  refine ⟨⟨['0'], some (List.replicate n '0' ++ digits), none⟩,
    ⟨List.cons_ne_nil _ _, by simp, .inl (by simp), hall⟩, .inl (by simp), by simp [Numeral.chars], ?_⟩
  rw [Numeral.value, Numeral.fraction, Option.getD_some, Option.getD_none, hvalue, List.length_append,
    List.length_replicate, zero_sub, Nat.cast_add]

/-- Zeros between the digits and the point. -/
theorem writes_before_zeros (h : IsDecimal digits d) (n : ℕ) :
    Writes (digits ++ List.replicate n '0' ++ ['.', '0']) (d * 10 ^ n) := by
  have hall : ∀ c ∈ digits ++ List.replicate n '0', c.isDigit := fun c hc =>
    (List.mem_append.1 hc).elim (h.isDigit c) (isDigit_of_mem_zeros n c)
  have hhead : (digits ++ List.replicate n '0').head? ≠ some '0' := by
    rw [List.head?_append_of_ne_nil _ h.ne_nil]
    exact h.head
  have hvalue : Nat.ofDigitChars 10 (digits ++ List.replicate n '0' ++ ['0']) 0 = d * 10 ^ n * 10 := by
    rw [Nat.ofDigitChars_append, Nat.ofDigitChars_append, Nat.ofDigitChars_replicate_zero, h.value,
      Nat.ofDigitChars_cons, Nat.ofDigitChars_nil]
    simp
    ring
  refine ⟨⟨digits ++ List.replicate n '0', some ['0'], none⟩,
    ⟨by simp [h.ne_nil], hall, .inr hhead, by simp [Numeral.fraction]⟩,
    .inl (by simp), by simp [Numeral.chars], ?_⟩
  rw [Numeral.value, Numeral.fraction, Option.getD_some, Option.getD_none, hvalue, List.length_singleton]
  push_cast
  norm_num
  ring

/-- The point between the digits. -/
theorem writes_between (h : IsDecimal digits d) {n : ℕ} (hpos : 0 < n) (hless : n < digits.length) :
    Writes (digits.take n ++ '.' :: digits.drop n) (d * 10 ^ (n - digits.length : ℤ)) := by
  have htake : 0 < (digits.take n).length := by
    rw [List.length_take]
    omega
  have hhead : (digits.take n).head? ≠ some '0' := by
    rw [List.head?_take, if_neg (by omega)]
    exact h.head
  refine ⟨⟨digits.take n, some (digits.drop n), none⟩,
    ⟨List.ne_nil_of_length_pos htake, fun c hc => h.isDigit c (List.mem_of_mem_take hc), .inr hhead,
      fun c hc => h.isDigit c (List.mem_of_mem_drop hc)⟩, .inl (by simp), by simp [Numeral.chars], ?_⟩
  have hexponent : (0 : ℤ) - (digits.length - n : ℕ) = n - digits.length := by omega
  rw [Numeral.value, Numeral.fraction, Option.getD_some, Option.getD_none, List.take_append_drop, h.value,
    List.length_drop, hexponent]

/-- **Digits around a point have the value of the digits.** -/
theorem writes_positional (hd : d ≠ 0) (j : ℤ) :
    Writes (document.positional (Nat.toDigits 10 d) ((Nat.toDigits 10 d).length + j)) (d * 10 ^ j) := by
  have h := isDecimal_toDigits hd
  generalize Nat.toDigits 10 d = digits at h ⊢
  have hlength : 0 < digits.length := List.length_pos_iff.2 h.ne_nil
  unfold Layout.positional
  dsimp only
  split
  · rename_i hpoint
    have hj : j = -((-(digits.length + j)).toNat + digits.length : ℤ) := by omega
    have hwrites := writes_behind_zeros h (-(digits.length + j)).toNat
    rwa [← hj] at hwrites
  split
  · rename_i hpoint hless
    have hn : ((digits.length + j).toNat - digits.length : ℕ) = j.toNat := by omega
    have hj : (10 : ℚ) ^ j = 10 ^ j.toNat := by
      rw [← zpow_natCast, Int.toNat_of_nonneg (by omega)]
    rw [hn, hj]
    exact writes_before_zeros h j.toNat
  · rename_i hpoint hless
    have hj : j = ((digits.length + j).toNat - digits.length : ℤ) := by omega
    have hwrites := writes_between h (n := (digits.length + j).toNat) (by omega) (by omega)
    rwa [← hj] at hwrites

/-- **So do digits in front of an exponent.** -/
theorem writes_scientific (d : ℕ) (j : ℤ) :
    Writes (Layout.scientific (Nat.toDigits 10 d) ((Nat.toDigits 10 d).length + j)) (d * 10 ^ j) := by
  have hvalue := ofDigitChars_toDigits d
  have hne : Nat.toDigits 10 d ≠ [] := Nat.toDigits_ne_nil
  have hall : ∀ c ∈ Nat.toDigits 10 d, c.isDigit := isDigit_of_mem_toDigits
  generalize Nat.toDigits 10 d = digits at hvalue hne hall ⊢
  match digits, hvalue, hne, hall with
  | [c], hvalue, _, hall =>
    refine ⟨⟨[c], none, some ((1 : ℕ) + j - 1)⟩, ⟨by simp, hall, .inl (by simp), by simp [Numeral.fraction]⟩,
      .inr (by simp), by simp [Numeral.chars, Layout.scientific], ?_⟩
    have hexponent : ((1 : ℕ) + j - 1 : ℤ) - (0 : ℕ) = j := by omega
    rw [Numeral.value, Numeral.fraction, Option.getD_none, List.append_nil, hvalue, Option.getD_some,
      List.length_nil, hexponent]
  | c :: e :: digits, hvalue, _, hall =>
    refine ⟨⟨[c], some (e :: digits), some ((c :: e :: digits).length + j - 1)⟩,
      ⟨by simp, fun d hd => hall d (by simpa using .inl (List.mem_singleton.1 hd)), .inl (by simp),
        fun d hd => hall d (List.mem_cons_of_mem _ hd)⟩,
      .inl (by simp), by simp [Numeral.chars, Layout.scientific], ?_⟩
    have hexponent : ((c :: e :: digits).length + j - 1 : ℤ) - (e :: digits).length = j := by
      simp only [List.length_cons]
      omega
    rw [Numeral.value, Numeral.fraction, Option.getD_some, Option.getD_some, hexponent]
    exact congrArg (fun n : ℕ => (n * 10 ^ j : ℚ)) hvalue

/-- Zero is not in the interval of another magnitude. -/
theorem Magnitude.Near.digits_ne_zero {j : ℤ} (hv : v.mantissa ≠ 0) (h : v.Near (d * 10 ^ j)) : d ≠ 0 := by
  rintro rfl
  have hlow := h.low_le
  rw [Nat.cast_zero, zero_mul, zero_div, mul_zero] at hlow
  have hone : (1 : ℚ) ≤ v.mantissa := by exact_mod_cast Nat.one_le_iff_ne_zero.2 hv
  rcases Magnitude.low_cases hv with ⟨-, -, hcast⟩ | ⟨-, hcast⟩ <;> linarith

/-- The characters of a magnitude are a numeral of a value in its interval. -/
theorem exists_writes_magnitude (hv : v.mantissa ≠ 0) : ∃ x, v.Near x ∧ Writes (document.magnitude v) x := by
  have hnear := Magnitude.near_shortest .toEven hv
  have hdigits := hnear.digits_ne_zero hv
  refine ⟨_, hnear, ?_⟩
  unfold Layout.magnitude
  rw [if_neg hv]
  dsimp only [document]
  split
  · exact writes_positional hdigits _
  · exact writes_scientific _ _

/-- **The characters of a magnitude are a numeral of it**, in either language. -/
theorem exists_numeral_magnitude (v : Magnitude) : ∃ n : Numeral, n.Proper ∧ n.chars = document.magnitude v ∧
    ∀ lang, n.number lang = .real (.finite false v) := by
  by_cases hv : v.mantissa = 0
  · refine ⟨⟨['0'], some ['0'], none⟩, ⟨by simp, by simp, .inl (by simp), by simp [Numeral.fraction]⟩, ?_, ?_⟩
    · rw [Layout.magnitude, if_pos hv]
      rfl
    · intro lang
      rw [v.eq_zero hv]
      cases lang <;> rfl
  · obtain ⟨x, hnear, n, hproper, hreal, hchars, hvalue⟩ := exists_writes_magnitude hv
    refine ⟨n, hproper, hchars, fun lang => ?_⟩
    rw [Numeral.number_eq (.inr hreal), hvalue, Binary64.nearest_of_near false hv hnear]

/-- The numeral of a natural number. -/
def natural (n : ℕ) : Numeral := ⟨Nat.toDigits 10 n, none, none⟩

theorem proper_natural (n : ℕ) : (natural n).Proper := by
  refine ⟨Nat.toDigits_ne_nil, isDigit_of_mem_toDigits, ?_, by simp [natural, Numeral.fraction]⟩
  by_cases hn : n = 0
  · rw [hn]
    exact .inl (by decide)
  · exact .inr (head?_toDigits hn)

theorem chars_natural (n : ℕ) : (natural n).chars = Nat.toDigits 10 n := List.append_nil _

/-- **The server has a natural number as it is.** -/
theorem number_natural_server (n : ℕ) : (natural n).number .server = .whole n := by
  have hwhole : (natural n).number .server = .whole (Nat.ofDigitChars 10 (Nat.toDigits 10 n) 0) := rfl
  rw [hwhole, ofDigitChars_toDigits]

/-- **The client has the binary number nearest to it.** -/
theorem number_natural_client (n : ℕ) : (natural n).number .client = .real (.ofInt n) := by
  have hvalue : (natural n).value = n := by
    simp [natural, Numeral.value, Numeral.fraction]
  have hsign : decide ((n : ℤ) < 0) = false := by simp
  rw [Numeral.number_eq (.inl rfl), hvalue, Binary64.ofInt_eq, hsign, Int.natAbs_natCast]

end ApiCodegen.Numeric
