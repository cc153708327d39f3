import ApiCodegen.Client.Literal
import ApiCodegen.Markup.Value
import ApiCodegen.Proofs.Text.Escape

/-!
# Words, keys and numerals

What the literals of values consist of, beside texts. Each reader takes what it reads off the start of a text
and returns the rest.

* `readWord`: a word.
* `readKey`: a key of an object, which the client may write as a word.
* `readNumber`: a numeral without a sign. The server has whole numbers; every number of the client is a binary
  one.
* `readKey_propertyKey`: **a property key stands for the name of the property.**
* `readNumber_numeral`: **a numeral is read as its number**, in front of whatever does not continue it.
-/

namespace ApiCodegen.Text

open Markup (Number)
open Numeric (Binary64)

/-- A word at the start of a text. -/
def readWord (lang : Language) : List Char → Option (List Char × List Char)
  | [] => none
  | c :: rest =>
    if isWordOf lang c ∧ ¬ c.isDigit then
      some ((c :: rest).takeWhile (isWordOf lang), (c :: rest).dropWhile (isWordOf lang))
    else none

/-- **The name that the key of an object stands for.** A key of the server is a literal, and one of the client
may be a word. -/
def readKey (lang : Language) (cs : List Char) : Option (List Char × List Char) :=
  if lang = .client ∧ cs.head? ≠ some '"' then readWord lang cs else readLiteral lang cs

/-- A numeral without a sign: the digits in front of the point, those behind it if there is one, and the
exponent. -/
structure Numeral where
  front : List Char
  back : Option (List Char)
  exponent : Option ℤ

namespace Numeral

/-- The digits behind the point. -/
def fraction (n : Numeral) : List Char := n.back.getD []

/-- **The number of a numeral.** -/
def number (lang : Language) (n : Numeral) : Number :=
  if lang = .server ∧ n.back = none ∧ n.exponent = none then .whole (Nat.ofDigitChars 10 n.front 0)
  else .real (.ofDecimal false (Nat.ofDigitChars 10 (n.front ++ n.fraction) 0)
    (n.exponent.getD 0 - n.fraction.length))

/-- The characters of a numeral. -/
def chars (n : Numeral) : List Char :=
  n.front ++ ((n.back.map ('.' :: ·)).getD [] ++ (n.exponent.map fun z => 'e' :: (toString z).toList).getD [])

/-- A numeral that both languages have: digits in front of the point, without a needless zero. -/
structure Proper (n : Numeral) : Prop where
  front_ne : n.front ≠ []
  isDigit_front : ∀ d ∈ n.front, d.isDigit
  no_zero : n.front.length ≤ 1 ∨ n.front.head? ≠ some '0'
  isDigit_back : ∀ d ∈ n.fraction, d.isDigit

end Numeral

/-- The digits behind a point. -/
def readFraction : List Char → Option (List Char) × List Char
  | '.' :: rest => (some (rest.takeWhile Char.isDigit), rest.dropWhile Char.isDigit)
  | rest => (none, rest)

/-- A power of ten: a sign, if there is one, and digits. -/
def readPower : List Char → Option (ℤ × List Char)
  | '-' :: rest => digitsOf (fun n => -n) rest
  | '+' :: rest => digitsOf id rest
  | rest => digitsOf id rest
where
  digitsOf (sign : ℤ → ℤ) (cs : List Char) : Option (ℤ × List Char) :=
    if cs.takeWhile Char.isDigit = [] then none
    else some (sign (Nat.ofDigitChars 10 (cs.takeWhile Char.isDigit) 0), cs.dropWhile Char.isDigit)

/-- An exponent, if there is one. -/
def readExponent : List Char → Option (Option ℤ × List Char)
  | [] => some (none, [])
  | c :: rest =>
    if c = 'e' ∨ c = 'E' then (readPower rest).map fun read => (some read.1, read.2)
    else some (none, c :: rest)

/-- **A numeral at the start of a text.** -/
def readNumber (lang : Language) (cs : List Char) : Option (Number × List Char) :=
  let front := cs.takeWhile Char.isDigit
  let back := readFraction (cs.dropWhile Char.isDigit)
  if front = [] ∨ 1 < front.length ∧ front.head? = some '0' then none
  else (readExponent back.2).map fun read => (Numeral.number lang ⟨front, back.1, read.1⟩, read.2)

variable {lang : Language} {cs ds rest : List Char}

/-! ## Words and keys -/

/-- What is taken from the start of a text, and what is left. -/
theorem takeWhile_run {p : Char → Bool} (hds : ∀ d ∈ ds, p d) (hrest : ∀ c ∈ rest.head?, p c = false) :
    (ds ++ rest).takeWhile p = ds ∧ (ds ++ rest).dropWhile p = rest := by
  have hstop : rest.takeWhile p = [] ∧ rest.dropWhile p = rest := by
    cases rest with
    | nil => exact ⟨rfl, rfl⟩
    | cons c rest =>
      have hc : ¬ p c := by simpa using hrest c rfl
      exact ⟨List.takeWhile_cons_of_neg hc, List.dropWhile_cons_of_neg hc⟩
  rw [List.takeWhile_append_of_pos hds, List.dropWhile_append_of_pos hds, hstop.1, hstop.2, List.append_nil]
  exact ⟨rfl, rfl⟩

/-- A word is read up to its end. -/
theorem readWord_append {c : Char} (hall : ∀ d ∈ c :: cs, isWordOf lang d) (hc : ¬ c.isDigit)
    (h : Separate lang rest) : readWord lang (c :: cs ++ rest) = some (c :: cs, rest) := by
  obtain ⟨htake, hdrop⟩ := takeWhile_run hall fun d hd => (h d hd).1
  rw [List.cons_append] at htake hdrop ⊢
  rw [readWord, if_pos ⟨hall c List.mem_cons_self, hc⟩, htake, hdrop]

/-- A quoted key stands for the quoted text. -/
theorem readKey_quoteChars (cs : List Char) (h : Separate lang rest) :
    readKey lang (quoteChars cs ++ rest) = some (cs, rest) := by
  have hhead : (quoteChars cs ++ rest).head? = some '"' := rfl
  have hquote : rest.head? ≠ some '"' := fun hquote => (h _ hquote).2 rfl
  rw [readKey, if_neg fun hword => hword.2 hhead, readLiteral_quoteChars cs hquote]

/-- **A property key stands for the name of the property**, with or without quotes. -/
theorem readKey_propertyKey (name : String) (h : Separate .client rest) :
    readKey .client ((Client.propertyKey name).toList ++ rest) = some (name.toList, rest) := by
  unfold Client.propertyKey
  split
  · rename_i hkey
    obtain ⟨c, cs, hchars, hdigit, hall⟩ := exists_of_isPropertyKey hkey
    have hc : (c :: cs ++ rest).head? ≠ some '"' := by
      intro hquote
      obtain rfl := Option.some.inj hquote
      exact absurd (hall _ List.mem_cons_self) (by decide)
    rw [hchars, readKey, if_pos ⟨rfl, hc⟩, readWord_append hall hdigit h]
  · rw [quote, String.toList_ofList]
    exact readKey_quoteChars name.toList h

/-! ## Numerals -/

/-- No numeral goes on here. -/
def EndsNumeral (rest : List Char) : Prop :=
  ∀ c ∈ rest.head?, c.isDigit = false ∧ c ≠ '.' ∧ c ≠ 'e' ∧ c ≠ 'E'

theorem toList_toString_nat (n : ℕ) : (toString n).toList = Nat.toDigits 10 n := by
  rw [Nat.toString_eq_ofList_toDigits, String.toList_ofList]

/-- A whole number is written with its digits, behind its sign. -/
theorem toList_toString_int (z : ℤ) : (toString z).toList =
    if z < 0 then '-' :: Nat.toDigits 10 z.natAbs else Nat.toDigits 10 z.natAbs := by
  cases z with
  | ofNat n =>
    rw [if_neg (by simp)]
    exact toList_toString_nat n
  | negSucc n =>
    have htext : (toString (Int.negSucc n)).toList = '-' :: (toString (n + 1)).toList := by
      simp [toString, Int.repr]
    rw [if_pos (Int.negSucc_lt_zero n), htext, toList_toString_nat]
    rfl

theorem isDigit_of_mem_toDigits {n : ℕ} : ∀ d ∈ Nat.toDigits 10 n, d.isDigit := fun _ hd =>
  Nat.isDigit_of_mem_toDigits (by decide) (by decide) hd

theorem ofDigitChars_toDigits (n : ℕ) : Nat.ofDigitChars 10 (Nat.toDigits 10 n) 0 = n :=
  Nat.ofDigitChars_toDigits (by decide) (by decide)

theorem digitsOf_toDigits (sign : ℤ → ℤ) (n : ℕ) (h : EndsNumeral rest) :
    readPower.digitsOf sign (Nat.toDigits 10 n ++ rest) = some (sign n, rest) := by
  obtain ⟨htake, hdrop⟩ := takeWhile_run isDigit_of_mem_toDigits fun c hc => (h c hc).1
  rw [readPower.digitsOf, htake, hdrop, if_neg Nat.toDigits_ne_nil, ofDigitChars_toDigits]

/-- Digits alone are read as a power without a sign. -/
theorem readPower_of_isDigit {d : Char} (hd : d.isDigit) (cs : List Char) :
    readPower (d :: cs) = readPower.digitsOf id (d :: cs) := by
  unfold readPower
  split
  · rename_i heq
    rw [(List.cons.inj heq).1] at hd
    exact absurd hd (by decide)
  · rename_i heq
    rw [(List.cons.inj heq).1] at hd
    exact absurd hd (by decide)
  · rfl

/-- **An exponent is read as it is written.** -/
theorem readPower_toString (z : ℤ) (h : EndsNumeral rest) :
    readPower ((toString z).toList ++ rest) = some (z, rest) := by
  rw [toList_toString_int]
  split
  · rename_i hneg
    have hz : -(z.natAbs : ℤ) = z := by omega
    rw [List.cons_append, readPower, digitsOf_toDigits _ _ h, hz]
  · rename_i hneg
    have hz : (z.natAbs : ℤ) = z := by omega
    have hdigits := digitsOf_toDigits id z.natAbs h
    rw [id_eq, hz] at hdigits
    rw [← hdigits]
    cases hchars : Nat.toDigits 10 z.natAbs with
    | nil => exact absurd hchars Nat.toDigits_ne_nil
    | cons d cs =>
      have hd : d.isDigit := isDigit_of_mem_toDigits d (by rw [hchars]; exact List.mem_cons_self)
      exact readPower_of_isDigit hd (cs ++ rest)

/-- What stands behind the digits of a numeral: its exponent, if it has one, and the rest. -/
theorem readExponent_chars (exponent : Option ℤ) (h : EndsNumeral rest) :
    readExponent ((exponent.map fun z => 'e' :: (toString z).toList).getD [] ++ rest) =
      some (exponent, rest) := by
  cases exponent with
  | none =>
    cases rest with
    | nil => rfl
    | cons c rest =>
      obtain ⟨-, -, he, hE⟩ := h c rfl
      exact if_neg (not_or.2 ⟨he, hE⟩)
  | some z =>
    rw [Option.map_some, Option.getD_some, List.cons_append, readExponent, if_pos (.inl rfl),
      readPower_toString z h]
    rfl

/-- **A numeral is read as its number.** -/
theorem readNumber_numeral {n : Numeral} (hn : n.Proper) (h : EndsNumeral rest) :
    readNumber lang (n.chars ++ rest) = some (n.number lang, rest) := by
  obtain ⟨front, back, exponent⟩ := n
  have hexponent := readExponent_chars exponent h
  -- neither the exponent nor the rest goes on with digits
  have hends : ∀ c ∈ ((exponent.map fun z => 'e' :: (toString z).toList).getD [] ++ rest).head?,
      c.isDigit = false ∧ c ≠ '.' := by
    cases exponent with
    | none => exact fun c hc => ⟨(h c hc).1, (h c hc).2.1⟩
    | some z =>
      intro c hc
      obtain rfl := Option.some.inj hc
      exact ⟨by decide, by decide⟩
  generalize htail : (exponent.map fun z => 'e' :: (toString z).toList).getD [] ++ rest = tail at hexponent hends
  -- so the digits behind the point are read up to them, and those in front of it up to the point
  have hback : readFraction ((back.map ('.' :: ·)).getD [] ++ tail) = (back, tail) := by
    cases back with
    | none =>
      rw [Option.map_none, Option.getD_none, List.nil_append]
      unfold readFraction
      split
      · exact absurd rfl (hends '.' rfl).2
      · rfl
    | some ds =>
      obtain ⟨htake, hdrop⟩ := takeWhile_run hn.isDigit_back fun c hc => (hends c hc).1
      simp only [Numeral.fraction, Option.getD_some] at htake hdrop
      rw [Option.map_some, Option.getD_some, List.cons_append, readFraction, htake, hdrop]
  have hfront : ∀ c ∈ ((back.map ('.' :: ·)).getD [] ++ tail).head?, c.isDigit = false := by
    cases back with
    | none => exact fun c hc => (hends c hc).1
    | some ds =>
      intro c hc
      obtain rfl := Option.some.inj hc
      decide
  obtain ⟨htake, hdrop⟩ := takeWhile_run hn.isDigit_front hfront
  have hproper : ¬ (front = [] ∨ 1 < front.length ∧ front.head? = some '0') := by
    rintro (hempty | ⟨hlong, hzero⟩)
    · exact hn.front_ne hempty
    · rcases hn.no_zero with hshort | hnone
      · exact absurd hlong (not_lt.2 hshort)
      · exact hnone hzero
  have hchars :
      Numeral.chars ⟨front, back, exponent⟩ ++ rest = front ++ ((back.map ('.' :: ·)).getD [] ++ tail) := by
    rw [Numeral.chars, List.append_assoc, List.append_assoc, htail]
  rw [hchars, readNumber, htake, hdrop, hback]
  dsimp only
  rw [if_neg hproper, hexponent, Option.map_some]

end ApiCodegen.Text
