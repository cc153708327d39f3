import ApiCodegen.Proofs.Client.Literal
import ApiCodegen.Proofs.Numeric.Numeral
import ApiCodegen.Proofs.Server.Literal
import ApiCodegen.Proofs.Text.Display

/-!
# Defaults mean the same in both languages

A default is written as an expression of each language. The expressions are read back, by the rules of their
languages, as far as these have the values: the client has binary numbers only, and a key that sets the
prototype of an object instead of an entry.

* `Value.IsData`: the values that are made of constants, finite numbers, strings, lists, and objects with
  distinct strings as keys.
* `Value.mapNumbers`: a value with other numbers.
* `parsed_write`: **the expression of a value is an expression of this value**, with its numbers as the language
  has them.
* `read_server_literal`, `read_client_literal`: how either language reads its expression.
* `defaults_read`: **both readings of a default.**
-/

namespace ApiCodegen

open Markup (Entries Number Value)
open Numeric (Binary64 Magnitude)
open Text

/-! ## Values -/

namespace Markup.Value

/-- **A value is data**: there are no tags, numbers are finite, and the keys of an object are distinct strings, of
which none is reserved. -/
inductive IsData (reserved : List String) : Value → Prop
  | null : IsData reserved .null
  | bool (b : Bool) : IsData reserved (.bool b)
  | whole (n : ℤ) : IsData reserved (.number (.whole n))
  | real (negative : Bool) (v : Magnitude) : IsData reserved (.number (.real (.finite negative v)))
  | string (s : String) : IsData reserved (.string s)
  | sequence (items : List Value) (hitems : ∀ v ∈ items, IsData reserved v) : IsData reserved (.sequence items)
  | mapping (entries : List (String × Value)) (hnodup : (entries.map Prod.fst).Nodup)
      (hfree : ∀ key ∈ entries.map Prod.fst, key ∉ reserved) (hentries : ∀ e ∈ entries, IsData reserved e.2) :
      IsData reserved (.mapping (entries.map fun e => (.string e.1, e.2)))

mutual

/-- A value with other numbers. -/
def mapNumbers (f : Number → Number) : Value → Value
  | .null => .null
  | .bool b => .bool b
  | .number n => .number (f n)
  | .string s => .string s
  | .sequence items => .sequence (mapItems f items)
  | .mapping entries => .mapping (mapEntries f entries)
  | .tagged tag inner => .tagged tag (mapNumbers f inner)

/-- Items with other numbers. -/
def mapItems (f : Number → Number) : List Value → List Value
  | [] => []
  | v :: more => mapNumbers f v :: mapItems f more

/-- Entries with other numbers. -/
def mapEntries (f : Number → Number) : List (Value × Value) → List (Value × Value)
  | [] => []
  | (k, v) :: more => (mapNumbers f k, mapNumbers f v) :: mapEntries f more

end

theorem mapItems_eq (f : Number → Number) (items : List Value) : mapItems f items = items.map (mapNumbers f) := by
  induction items with
  | nil => rw [mapItems, List.map_nil]
  | cons v items ih => rw [mapItems, ih, List.map_cons]

theorem mapEntries_eq (f : Number → Number) (entries : Entries) :
    mapEntries f entries = entries.map fun e => (e.1.mapNumbers f, e.2.mapNumbers f) := by
  induction entries with
  | nil => rw [mapEntries, List.map_nil]
  | cons e entries ih => rw [mapEntries, ih, List.map_cons]

/-- The same numbers are the same value. -/
theorem mapNumbers_id (v : Value) : v.mapNumbers id = v := by
  induction v with
  | null | bool _ | number _ | string _ => rw [mapNumbers]; try rfl
  | sequence items ih => rw [mapNumbers, mapItems_eq, List.map_congr_left ih, List.map_id']
  | mapping entries ih =>
    have hentry : ∀ e ∈ entries, (e.1.mapNumbers id, e.2.mapNumbers id) = e := by
      intro e he
      rw [(ih e he).1, (ih e he).2]
    rw [mapNumbers, mapEntries_eq, List.map_congr_left hentry, List.map_id']
  | tagged tag inner ih => rw [mapNumbers, ih]

end Markup.Value

/-! ## Numbers -/

/-- The other sign, before rounding or behind it. -/
theorem Numeric.Binary64.neg_nearest (negative : Bool) (x : ℚ) :
    (nearest negative x).neg = nearest (!negative) x := by
  have hmantissa (m : ℕ) (q : ℤ) : (ofMantissa negative m q).neg = ofMantissa (!negative) m q := by
    rw [ofMantissa_eq, ofMantissa_eq]
    split <;> rfl
  unfold nearest
  split
  · rfl
  · exact hmantissa _ _

namespace Text

/-- A number as a language has it. -/
def numberIn : Language → Number → Number
  | .server, n => n
  | .client, n => .real n.toReal

theorem numberIn_real (lang : Language) (x : Binary64) : numberIn lang (.real x) = .real x := by
  cases lang <;> rfl

variable {lang : Language} {reserved : List String} {rest : List Char} {v : Value}

/-- A numeral of digits is the number that a language has. -/
theorem number_natural (lang : Language) (n : ℕ) :
    (Numeric.natural n).number lang = numberIn lang (.whole n) := by
  cases lang with
  | server => exact Numeric.number_natural_server n
  | client => exact Numeric.number_natural_client n

/-- There is no whole number with the sign of a negative zero. -/
theorem neg_numberIn (lang : Language) {n : ℕ} (hn : n ≠ 0) :
    (numberIn lang (.whole n)).neg = numberIn lang (.whole (-n)) := by
  cases lang with
  | server => rfl
  | client =>
    have hpos : decide ((n : ℤ) < 0) = false := by simp
    have hneg : decide (-(n : ℤ) < 0) = true := by
      simp only [decide_eq_true_iff]
      omega
    simp only [numberIn, Number.toReal, Number.neg, Binary64.ofInt_eq, hpos, hneg, Int.natAbs_neg,
      Binary64.neg_nearest, Bool.not_false]

/-! ## What follows an expression -/

theorem Follows.endsNumeral (h : Follows rest) : EndsNumeral rest := by
  intro c hc
  have hmark := h c hc
  simp only [List.mem_cons, List.not_mem_nil, or_false] at hmark
  rcases hmark with rfl | rfl | rfl | rfl <;> exact ⟨rfl, by decide, by decide, by decide⟩

theorem Follows.separate (h : Follows rest) : Separate lang rest := by
  intro c hc
  have hmark := h c hc
  simp only [List.mem_cons, List.not_mem_nil, or_false] at hmark
  rcases hmark with rfl | rfl | rfl | rfl <;> cases lang <;> decide

theorem isWordOf_of_isDigit {c : Char} (h : c.isDigit) : isWordOf lang c := by
  cases lang <;> simp [isWordOf, Name.isWordChar, Char.isAlphanum, h]

/-- No character of a word is a mark. -/
theorem ne_of_isWordOf {c d : Char} (hd : isWordOf lang d) (hc : isWordOf .server c = false ∧ c ≠ '$') :
    d ≠ c := by
  rintro rfl
  cases lang with
  | server => exact Bool.false_ne_true (hc.1.symm.trans hd)
  | client =>
    rcases Bool.or_eq_true_iff.1 hd with hword | hdollar
    · exact Bool.false_ne_true (hc.1.symm.trans hword)
    · exact hc.2 (beq_iff_eq.1 hdollar)

/-- A word or a numeral is the start of an expression. -/
theorem starts_of_isWordOf {c : Char} (hc : isWordOf lang c) (cs : List Char) : Starts (c :: cs) := by
  have hne {d : Char} (hd : isWordOf .server d = false ∧ d ≠ '$') : c ≠ d := ne_of_isWordOf hc hd
  refine ⟨c, rfl, ?_, ?_⟩
  · simp only [isSpace, Bool.or_eq_false_iff, beq_eq_false_iff_ne]
    exact ⟨⟨⟨hne (by decide), hne (by decide)⟩, hne (by decide)⟩, hne (by decide)⟩
  · simp only [List.mem_cons, List.not_mem_nil, or_false, not_or]
    exact ⟨hne (by decide), hne (by decide), hne (by decide)⟩

/-- What an expression that starts as a word is read as. -/
theorem readValue_word {c : Char} (hc : isWordOf lang c) (fuel : ℕ) (cs : List Char) :
    readValue lang reserved (fuel + 1) (c :: cs) =
      if c.isDigit then (readNumber lang (c :: cs)).map fun read => (.number read.1, read.2)
      else (readWord lang (c :: cs)).bind fun read => (constant? lang read.1).map (·, read.2) := by
  have hne {d : Char} (hd : isWordOf .server d = false ∧ d ≠ '$') : c ≠ d := ne_of_isWordOf hc hd
  rw [readValue, if_neg (hne (by decide)), if_neg (hne (by decide)), if_neg (hne (by decide)),
    if_neg (hne (by decide))]

/-! ## Constants, numbers and texts -/

/-- **The word of a constant is an expression of it.** -/
theorem parsed_constant {word : List Char} (hword : word.all (isWordOf lang))
    (hstart : word.head?.any fun c => !c.isDigit) (h : constant? lang word = some v) :
    Parsed lang reserved word v := by
  have hall : ∀ d ∈ word, isWordOf lang d := List.all_eq_true.1 hword
  cases word with
  | nil => cases hstart
  | cons d cs =>
    have hdigit : ¬ d.isDigit := by simpa using hstart
    refine ⟨starts_of_isWordOf (hall d List.mem_cons_self) cs, fun fuel rest hfuel hrest => ?_⟩
    obtain ⟨fuel, rfl⟩ := Nat.exists_eq_add_one_of_ne_zero (Nat.ne_of_gt (Nat.zero_lt_of_lt hfuel))
    have hread := readWord_append hall hdigit hrest.separate
    rw [List.cons_append] at hread ⊢
    rw [readValue_word (hall d List.mem_cons_self), if_neg hdigit, hread, Option.bind_some, h, Option.map_some]

/-- **A numeral is an expression of its number.** -/
theorem parsed_numeral {n : Numeral} (hn : n.Proper) :
    Parsed lang reserved n.chars (.number (n.number lang)) := by
  obtain ⟨d, ds, hchars, hd⟩ : ∃ d ds, n.chars = d :: ds ∧ d.isDigit := by
    obtain ⟨front, back, exponent⟩ := n
    cases front with
    | nil => exact absurd rfl hn.front_ne
    | cons d front => exact ⟨d, _, rfl, hn.isDigit_front d List.mem_cons_self⟩
  have hword : isWordOf lang d := isWordOf_of_isDigit hd
  rw [hchars]
  refine ⟨starts_of_isWordOf hword ds, fun fuel rest hfuel hrest => ?_⟩
  obtain ⟨fuel, rfl⟩ := Nat.exists_eq_add_one_of_ne_zero (Nat.ne_of_gt (Nat.zero_lt_of_lt hfuel))
  have hread : readNumber lang (n.chars ++ rest) = _ := readNumber_numeral hn hrest.endsNumeral
  rw [hchars, List.cons_append] at hread
  rw [List.cons_append, readValue_word hword, if_pos hd, hread, Option.map_some]

/-- **A sign in front of a numeral changes that of the number.** -/
theorem parsed_negative {n : Numeral} (hn : n.Proper) :
    Parsed lang reserved ('-' :: n.chars) (.number (n.number lang).neg) where
  starts := ⟨'-', rfl, by decide⟩
  reads fuel rest hfuel hrest := by
    obtain ⟨fuel, rfl⟩ := Nat.exists_eq_add_one_of_ne_zero (Nat.ne_of_gt (Nat.zero_lt_of_lt hfuel))
    rw [List.cons_append, readValue, if_neg (by decide), if_neg (by decide), if_neg (by decide), if_pos rfl,
      readNumber_numeral hn hrest.endsNumeral]
    rfl

/-- **The text of a whole number is an expression of it.** -/
theorem parsed_whole (n : ℤ) : Parsed lang reserved (toString n).toList (.number (numberIn lang (.whole n))) := by
  have hnumeral := Numeric.proper_natural n.natAbs
  rw [toList_toString_int, ← Numeric.chars_natural]
  split
  · rename_i hneg
    have hne : n.natAbs ≠ 0 := by omega
    have hn : -(n.natAbs : ℤ) = n := by omega
    have hparsed : Parsed lang reserved _ _ := parsed_negative hnumeral
    rwa [number_natural, neg_numberIn lang hne, hn] at hparsed
  · rename_i hpos
    have hn : (n.natAbs : ℤ) = n := by omega
    have hparsed : Parsed lang reserved _ _ := parsed_numeral hnumeral
    rwa [number_natural, hn] at hparsed

/-- **So is the text of a binary number.** -/
theorem parsed_real (negative : Bool) (m : Magnitude) :
    Parsed lang reserved (Numeric.document.text (.finite negative m)).toList
      (.number (.real (.finite negative m))) := by
  obtain ⟨n, hproper, hchars, hnumber⟩ := Numeric.exists_numeral_magnitude m
  rw [Numeric.Layout.text, String.toList_ofList, ← hchars]
  cases negative with
  | true =>
    have hparsed : Parsed lang reserved _ _ := parsed_negative hproper
    rwa [hnumber lang] at hparsed
  | false =>
    have hparsed : Parsed lang reserved _ _ := parsed_numeral hproper
    rwa [hnumber lang] at hparsed

/-- **A quoted text is an expression of it.** -/
theorem parsed_quoteChars (s : String) : Parsed lang reserved (quoteChars s.toList) (.string s) where
  starts := ⟨'"', rfl, by decide⟩
  reads fuel rest hfuel hrest := by
    obtain ⟨fuel, rfl⟩ := Nat.exists_eq_add_one_of_ne_zero (Nat.ne_of_gt (Nat.zero_lt_of_lt hfuel))
    have hseparate : Separate lang rest := hrest.separate
    have hquote : rest.head? ≠ some '"' := fun hquote => (hseparate _ hquote).2 rfl
    have hread : readLiteral lang (quoteChars s.toList ++ rest) = _ := readLiteral_quoteChars s.toList hquote
    rw [quoteChars, List.cons_append] at hread ⊢
    rw [readValue, if_neg (by decide), if_neg (by decide), if_pos rfl, hread, Option.map_some,
      String.ofList_toList]

/-! ## Lists and objects -/

/-- The characters of the expression of a value. -/
def write : Language → Value → List Char
  | .server, v => Server.literalChars v
  | .client, v => Client.literalChars v

/-- The characters of the key of an entry. -/
def writeKey : Language → String → List Char
  | .server, name => quoteChars name.toList
  | .client, name => (Client.propertyKey name).toList

/-- The characters of an entry. -/
def writeEntry (lang : Language) (entry : String × Value) : List Char :=
  writeKey lang entry.1 ++ ':' :: ' ' :: write lang entry.2

theorem write_whole (lang : Language) (n : ℤ) : write lang (.number (.whole n)) = (toString n).toList := by
  cases lang with
  | server =>
    rw [write, Server.literalChars]
    rfl
  | client =>
    rw [write, Client.literalChars]
    rfl

theorem write_real (lang : Language) (negative : Bool) (m : Magnitude) :
    write lang (.number (.real (.finite negative m))) = (Numeric.document.text (.finite negative m)).toList := by
  cases lang with
  | server =>
    rw [write, Server.literalChars]
    rfl
  | client =>
    rw [write, Client.literalChars]
    rfl

theorem write_string (lang : Language) (s : String) : write lang (.string s) = quoteChars s.toList := by
  cases lang with
  | server => rw [write, Server.literalChars]
  | client => rw [write, Client.literalChars]

theorem write_sequence (lang : Language) (items : List Value) : write lang (.sequence items) =
    '[' :: (List.intercalate [',', ' '] (items.map (write lang)) ++ [']']) := by
  cases lang with
  | server =>
    simp only [write]
    rw [Server.literalChars, Server.itemChars_eq]
    rfl
  | client =>
    simp only [write]
    rw [Client.literalChars, Client.itemChars_eq]
    rfl

/-- The client writes spaces inside of braces that are not empty. -/
theorem write_mapping (lang : Language) (entries : List (String × Value)) : ∃ pad, (∀ c ∈ pad, c = ' ') ∧
    write lang (.mapping (entries.map fun e => (.string e.1, e.2))) =
      '\x7b' :: (pad ++ (List.intercalate [',', ' '] (entries.map (writeEntry lang)) ++ (pad ++ ['\x7d']))) := by
  cases lang with
  | server =>
    have hentry : ∀ e ∈ entries, (Server.pairChars ∘ fun e => (.string e.1, e.2)) e = writeEntry .server e := by
      intro e _
      simp only [Function.comp_apply, Server.pairChars, writeEntry, writeKey, write, Server.literalChars]
    refine ⟨[], by simp, ?_⟩
    simp only [write]
    rw [Server.literalChars, Server.entryChars_eq, List.map_map, List.map_congr_left hentry, List.nil_append,
      List.nil_append]
  | client =>
    have hentry : ∀ e ∈ entries, (Client.pairChars ∘ fun e => (.string e.1, e.2)) e = writeEntry .client e := by
      intro e _
      simp only [Function.comp_apply, Client.pairChars, writeEntry, writeKey, write, Client.keyChars]
    cases entries with
    | nil =>
      refine ⟨[], by simp, ?_⟩
      simp only [write, List.map_nil]
      rw [Client.literalChars]
      rfl
    | cons first entries =>
      refine ⟨[' '], by simp, ?_⟩
      simp only [write]
      rw [List.map_cons, Client.literalChars,
        ← List.map_cons (f := fun e : String × Value => (Value.string e.1, e.2)),
        Client.entryChars_eq, List.map_map, List.map_congr_left hentry]
      · simp
      · simp

/-- A key is read up to the colon. -/
theorem readKey_writeKey (lang : Language) (name : String) (rest : List Char) :
    readKey lang (writeKey lang name ++ ':' :: rest) = some (name.toList, ':' :: rest) := by
  cases lang with
  | server => exact readKey_quoteChars name.toList (separate_cons (by decide))
  | client => exact readKey_propertyKey name (separate_cons (by decide))

theorem starts_writeKey (lang : Language) (name : String) : Starts (writeKey lang name) := by
  have hquoted : Starts (quoteChars name.toList) := ⟨'"', rfl, by decide⟩
  cases lang with
  | server => exact hquoted
  | client =>
    rw [writeKey, Client.propertyKey]
    split
    · rename_i hkey
      obtain ⟨c, cs, hchars, -, hall⟩ := exists_of_isPropertyKey hkey
      rw [hchars]
      exact starts_of_isWordOf (hall c List.mem_cons_self) cs
    · rw [quote, String.toList_ofList]
      exact hquoted

/-- **The expression of a value is an expression of this value**, with its numbers as the language has them. -/
theorem parsed_write (lang : Language) (h : v.IsData reserved) :
    Parsed lang reserved (write lang v) (v.mapNumbers (numberIn lang)) := by
  induction h with
  | null =>
    rw [Value.mapNumbers]
    cases lang with
    | server =>
      rw [write, Server.literalChars]
      exact parsed_constant (by decide) (by decide) rfl
    | client =>
      rw [write, Client.literalChars]
      exact parsed_constant (by decide) (by decide) rfl
  | bool b =>
    rw [Value.mapNumbers]
    cases lang with
    | server =>
      cases b <;> rw [write, Server.literalChars] <;>
        exact parsed_constant (by decide) (by decide) rfl
    | client =>
      cases b <;> rw [write, Client.literalChars] <;>
        exact parsed_constant (by decide) (by decide) rfl
  | whole n =>
    rw [Value.mapNumbers, write_whole]
    exact parsed_whole n
  | real negative m =>
    rw [Value.mapNumbers, numberIn_real, write_real]
    exact parsed_real negative m
  | string s =>
    rw [Value.mapNumbers, write_string]
    exact parsed_quoteChars s
  | sequence items _ ih =>
    rw [write_sequence, Value.mapNumbers, Value.mapItems_eq]
    exact parsed_sequence (forall₂_map ih)
  | mapping entries hnodup hfree _ ih =>
    -- other numbers do not change the keys, so no entry replaces another one
    obtain ⟨pad, hpad, hwrite⟩ := write_mapping lang entries
    have hkeys : (entries.map fun e => (e.1, e.2.mapNumbers (numberIn lang))).map Prod.fst =
        entries.map Prod.fst := by
      rw [List.map_map]
      rfl
    have hdefine : (entries.map fun e => (e.1, e.2.mapNumbers (numberIn lang))).foldl (define reserved) [] =
        (entries.map fun e => (Value.string e.1, e.2)).map fun e =>
          (e.1.mapNumbers (numberIn lang), e.2.mapNumbers (numberIn lang)) := by
      rw [foldl_define]
      · simp only [List.map_map, Function.comp_def, Value.mapNumbers]
      · rwa [hkeys]
      · rwa [hkeys]
    rw [hwrite, Value.mapNumbers, Value.mapEntries_eq, ← hdefine]
    exact parsed_mapping hpad (forall₂_map fun e he =>
      ⟨_, _, rfl, starts_writeKey lang e.1, ih e he, readKey_writeKey lang e.1⟩)

/-- So the expression of a value is read as this value. -/
theorem read_write (lang : Language) (h : v.IsData reserved) :
    read lang reserved (String.ofList (write lang v)) = some (v.mapNumbers (numberIn lang)) := by
  refine Parsed.read_eq ?_
  rw [String.toList_ofList]
  exact parsed_write lang h

end Text

/-! ## Both languages -/

variable {reserved : List String} {v : Value}

/-- The server has numbers as they are. -/
theorem mapNumbers_server (v : Value) : v.mapNumbers (numberIn .server) = v := by
  have hid : numberIn .server = id := rfl
  rw [hid, Value.mapNumbers_id]

/-- **The expression of the server is read as the value.** -/
theorem read_server_literal (h : v.IsData reserved) : read .server reserved (Server.literal v) = some v := by
  have hread : read .server reserved (Server.literal v) = _ := read_write .server h
  rwa [mapNumbers_server] at hread

/-- **That of the client is read as the value with binary numbers.** -/
theorem read_client_literal (h : v.IsData reserved) :
    read .client reserved (Client.literal v) = some (v.mapNumbers fun n => .real n.toReal) := read_write .client h

/-- **Defaults mean the same in both languages**, up to the numbers of the client. Any keys may be reserved
that the value does not have, such as none at all, or the one that sets a prototype.

* The expression of the server is read as the value.
* That of the client is read as the value with each number as a binary one: binary numbers are kept, and whole
  numbers are rounded to the nearest one. That is the whole number itself if there is such a binary number, as
  there is for at most 53 bits. -/
theorem defaults_read (v : Value) (reserved : List String) (h : v.IsData reserved) :
    read .server reserved (Server.literal v) = some v ∧
    read .client reserved (Client.literal v) = some (v.mapNumbers fun n => .real n.toReal) ∧
    ∀ n : ℤ, ((Number.whole n).toReal.value? = some (n : ℚ) ↔ ∃ x : Binary64, x.value? = some (n : ℚ)) ∧
      (n.natAbs ≤ 2 ^ 53 → (Number.whole n).toReal.value? = some (n : ℚ)) :=
  ⟨read_server_literal h, read_client_literal h, fun _ => ⟨⟨fun hvalue => ⟨_, hvalue⟩, Binary64.value?_ofInt⟩,
    fun hbits => Binary64.value?_ofInt (Binary64.exists_value?_eq hbits)⟩⟩

/-- An object with a key that needs quotes and one that does not, a list and an empty object. -/
def nestedDefault : Value := .mapping [
  (.string "a-b", .sequence [.number (.whole (-7)), .number (.real (.finite true .zero)), .null]),
  (.string "c", .mapping []), (.string "__proto__", .string "d")]

theorem isData_nestedDefault : nestedDefault.IsData [] := by
  have hitems : ∀ v ∈ [Value.number (.whole (-7)), .number (.real (.finite true .zero)), .null],
      v.IsData [] := by
    simp only [List.forall_mem_cons, List.not_mem_nil, false_imp_iff, implies_true, and_true]
    exact ⟨.whole _, .real _ _, .null⟩
  have hentries :
      ∀ e ∈ [("a-b", Value.sequence [.number (.whole (-7)), .number (.real (.finite true .zero)), .null]),
      ("c", .mapping []), ("__proto__", .string "d")], e.2.IsData [] := by
    simp only [List.forall_mem_cons, List.not_mem_nil, false_imp_iff, implies_true, and_true]
    exact ⟨.sequence _ hitems, .mapping [] List.nodup_nil (by simp) (by simp), .string _⟩
  exact .mapping _ (by decide) (by simp) hentries

/-- Its expressions are read as this object, with a binary number in place of the whole one in the client. -/
theorem defaults_read_nested : nestedDefault.IsData [] ∧
    read .server [] (Server.literal nestedDefault) = some nestedDefault ∧
    read .client [] (Client.literal nestedDefault) = some (.mapping [
      (.string "a-b", .sequence [.number (.real (.ofInt (-7))), .number (.real (.finite true .zero)), .null]),
      (.string "c", .mapping []), (.string "__proto__", .string "d")]) := by
  obtain ⟨hserver, hclient, -⟩ := defaults_read nestedDefault [] isData_nestedDefault
  exact ⟨isData_nestedDefault, hserver, hclient⟩

/-- A whole number of 54 bits is read in the client as the one below it. -/
theorem not_read_client_wide :
    let v : Value := .number (.whole 9007199254740993)
    v.IsData [] ∧ read .server [] (Server.literal v) = some v ∧
      ∃ x : Binary64, read .client [] (Client.literal v) = some (.number (.real x)) ∧
        x.value? = some 9007199254740992 := by
  have hdata : (Value.number (.whole 9007199254740993)).IsData [] := .whole _
  have hclient := read_client_literal hdata
  rw [Value.mapNumbers] at hclient
  have hround : Binary64.ofInt 9007199254740993 = .ofInt 9007199254740992 := by decide +kernel
  have hvalue : (Binary64.ofInt 9007199254740992).value? = some ((9007199254740992 : ℤ) : ℚ) :=
    Binary64.value?_ofInt (Binary64.exists_value?_eq (by decide))
  refine ⟨hdata, read_server_literal hdata, _, hclient, ?_⟩
  have hnumber : (Number.whole 9007199254740993).toReal = Binary64.ofInt 9007199254740993 := rfl
  rw [hnumber, hround, hvalue]
  norm_num

end ApiCodegen
