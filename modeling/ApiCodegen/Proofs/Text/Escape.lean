import ApiCodegen.Proofs.Text.Token

/-!
# Literals by the rules of each language

`lex` reads what both languages read alike. Here each language has all of its own rules for what stands
behind a backslash, and its own strings: those of the server consist of code points, those of the client of
16-bit units, of which some characters take two.

* `Cursor`, `decodeStep`: the decoder, character by character.
* `units`, `ofUnits?`: the units of a text in a language, and the text of units.
* `readLiteral`: the text of the literal at the start of a text, and what stands behind it.
* `ofUnits?_units`: a text can be told from its units.
* `readLiteral_quoteChars`: **a quoted text is one literal that means this text**, by the rules of either
  language.
* `le_of_mem_quoteChars`: it stands on one line.
-/

namespace ApiCodegen.Text

/-- Where a decoder stands in a literal. -/
inductive Cursor where
  | plain
  /-- Behind a backslash. -/
  | escape
  /-- Behind an escaped carriage return, which a line feed may belong to. -/
  | lineEnd
  /-- Hexadecimal digits of a code are missing. -/
  | hex (missing code : ℕ)
  /-- Octal digits of a code may follow. -/
  | octal (left code : ℕ)
  /-- A code of four digits follows, or one in braces. -/
  | unicode
  | braces (code : Option ℕ)
  /-- Behind a zero, which no digit may follow. -/
  | zero
  | closed
  deriving DecidableEq

/-- The units of a code point. The client takes two for those beyond 16 bits. -/
def codeUnits : Language → ℕ → List ℕ
  | .server, n => [n]
  | .client, n =>
    if n < 0x10000 then [n] else [0xD800 + (n - 0x10000) / 0x400, 0xDC00 + (n - 0x10000) % 0x400]

/-- **The units of a text.** -/
def units (lang : Language) (cs : List Char) : List ℕ := cs.flatMap fun c => codeUnits lang c.toNat

/-- The units of a code of some digits. -/
def ofCode? (lang : Language) (code : ℕ) : Option (List ℕ × Cursor) :=
  if code < 0x110000 then some (codeUnits lang code, .plain) else none

/-- What the character behind a backslash means, where it is one character in either language. -/
def letter? (lang : Language) (c : Char) : Option ℕ :=
  match c with
  | '\\' => some 92
  | '\'' => some 39
  | '"' => some 34
  | 'b' => some 8
  | 't' => some 9
  | 'n' => some 10
  | 'v' => some 11
  | 'f' => some 12
  | 'r' => some 13
  | 'a' => if lang = .server then some 7 else none
  | _ => none

/-- A character that no backslash stands in front of. -/
def plainStep (lang : Language) (c : Char) : Option (List ℕ × Cursor) :=
  if c = '"' then some ([], .closed)
  else if c = '\\' then some ([], .escape)
  else if c = '\n' ∨ c = '\r' then none
  else some (codeUnits lang c.toNat, .plain)

/-- A character behind a backslash of the server. What means nothing there keeps its backslash. Names of
characters are not read. -/
def serverEscape (c : Char) : Option (List ℕ × Cursor) :=
  if c = '\n' then some ([], .plain)
  else if c = '\r' then some ([], .lineEnd)
  else if c = 'x' then some ([], .hex 2 0)
  else if c = 'u' then some ([], .hex 4 0)
  else if c = 'U' then some ([], .hex 8 0)
  else if c = 'N' then none
  else if '0' ≤ c ∧ c ≤ '7' then some ([], .octal 2 (c.toNat - 48))
  else some ([92, c.toNat], .plain)

/-- A character behind a backslash of the client. What means nothing there means itself. -/
def clientEscape (c : Char) : Option (List ℕ × Cursor) :=
  if c = '\n' ∨ c.toNat = 0x2028 ∨ c.toNat = 0x2029 then some ([], .plain)
  else if c = '\r' then some ([], .lineEnd)
  else if c = 'x' then some ([], .hex 2 0)
  else if c = 'u' then some ([], .unicode)
  else if c = '0' then some ([], .zero)
  else if c.isDigit then none
  else some (codeUnits .client c.toNat, .plain)

/-- A character behind a backslash. -/
def escapeStep (lang : Language) (c : Char) : Option (List ℕ × Cursor) :=
  match letter? lang c with
  | some n => some ([n], .plain)
  | none =>
    match lang with
    | .server => serverEscape c
    | .client => clientEscape c

/-- **One character of a literal**: the units that it completes, and where the decoder stands behind it. -/
def decodeStep (lang : Language) : Cursor → Char → Option (List ℕ × Cursor)
  | .plain, c => plainStep lang c
  | .escape, c => escapeStep lang c
  | .lineEnd, c => if c = '\n' then some ([], .plain) else plainStep lang c
  | .hex missing code, c =>
    (hexValue? c).bind fun d =>
      if missing ≤ 1 then ofCode? lang (16 * code + d) else some ([], .hex (missing - 1) (16 * code + d))
  | .octal left code, c =>
    if 0 < left ∧ '0' ≤ c ∧ c ≤ '7' then some ([], .octal (left - 1) (8 * code + (c.toNat - 48)))
    else (plainStep lang c).map fun next => (code :: next.1, next.2)
  | .unicode, c =>
    if c = '{' then some ([], .braces none) else (hexValue? c).map fun d => ([], .hex 3 d)
  | .braces code, c =>
    if c = '}' then code.bind (ofCode? lang)
    else (hexValue? c).map fun d => ([], .braces (some (16 * code.getD 0 + d)))
  | .zero, c => if c.isDigit then none else (plainStep lang c).map fun next => (0 :: next.1, next.2)
  | .closed, _ => none

/-- The units of a literal up to its end, and what stands behind it. -/
def decode (lang : Language) : Cursor → List Char → Option (List ℕ × List Char)
  | _, [] => none
  | cursor, c :: rest =>
    (decodeStep lang cursor c).bind fun step =>
      if step.2 = .closed then some (step.1, rest)
      else (decode lang step.2 rest).map fun more => (step.1 ++ more.1, more.2)

/-- The character of a code. -/
def scalar? (n : ℕ) : Option Char := if n.isValidChar then some (Char.ofNat n) else none

/-- The text of 16-bit units. Both halves of a pair are needed. -/
def ofPairs? : List ℕ → Option (List Char)
  | [] => some []
  | u :: rest =>
    if 0xD800 ≤ u ∧ u < 0xDC00 then
      match rest with
      | [] => none
      | v :: more =>
        if 0xDC00 ≤ v ∧ v < 0xE000 then
          (scalar? (0x10000 + (u - 0xD800) * 0x400 + (v - 0xDC00))).bind fun c =>
            (ofPairs? more).map (c :: ·)
        else none
    else (scalar? u).bind fun c => (ofPairs? rest).map (c :: ·)

/-- **The text of some units**, if they are those of a text. -/
def ofUnits? : Language → List ℕ → Option (List Char)
  | .server, us => us.mapM scalar?
  | .client, us => ofPairs? us

/-- **The text of the literal at the start of a text, and what stands behind it.** Three quotes of the
server open a literal of another kind. -/
def readLiteral (lang : Language) : List Char → Option (List Char × List Char)
  | '"' :: rest =>
    if lang = .server ∧ ['"', '"'] <+: rest then none
    else (decode lang .plain rest).bind fun read => (ofUnits? lang read.1).map (·, read.2)
  | _ => none

variable {lang : Language} {c : Char} {cs rest : List Char}

/-! ## Units -/

theorem scalar?_toNat (c : Char) : scalar? c.toNat = some c := by
  have hvalid : c.toNat.isValidChar := c.valid
  rw [scalar?, if_pos hvalid, Char.ofNat_toNat]

/-- A unit that is no half of a pair is a character. -/
theorem ofPairs?_single {u : ℕ} (hu : ¬ (0xD800 ≤ u ∧ u < 0xDC00)) (rest : List ℕ) :
    ofPairs? (u :: rest) = (scalar? u).bind fun c => (ofPairs? rest).map (c :: ·) := by
  rw [ofPairs?.eq_def]
  exact if_neg hu

/-- A pair of units is a character. -/
theorem ofPairs?_pair {u v : ℕ} (hu : 0xD800 ≤ u ∧ u < 0xDC00) (hv : 0xDC00 ≤ v ∧ v < 0xE000)
    (rest : List ℕ) : ofPairs? (u :: v :: rest) =
      (scalar? (0x10000 + (u - 0xD800) * 0x400 + (v - 0xDC00))).bind fun c =>
        (ofPairs? rest).map (c :: ·) := by
  rw [ofPairs?.eq_def]
  exact (if_pos hu).trans (if_pos hv)

theorem ofPairs?_codeUnits (c : Char) (us : List ℕ) :
    ofPairs? (codeUnits .client c.toNat ++ us) = (ofPairs? us).map (c :: ·) := by
  have hvalid : c.toNat < 0xD800 ∨ 0xDFFF < c.toNat ∧ c.toNat < 0x110000 := c.valid
  by_cases hsmall : c.toNat < 0x10000
  · rw [codeUnits, if_pos hsmall, List.singleton_append, ofPairs?_single (by omega), scalar?_toNat,
      Option.bind_some]
  · have hcode : 0x10000 + (0xD800 + (c.toNat - 0x10000) / 0x400 - 0xD800) * 0x400 +
        (0xDC00 + (c.toNat - 0x10000) % 0x400 - 0xDC00) = c.toNat := by omega
    rw [codeUnits, if_neg hsmall, List.cons_append, List.singleton_append,
      ofPairs?_pair (by omega) (by omega), hcode, scalar?_toNat, Option.bind_some]

/-- **A text can be told from its units.** -/
theorem ofUnits?_units (lang : Language) (cs : List Char) : ofUnits? lang (units lang cs) = some cs := by
  cases lang with
  | server =>
    induction cs with
    | nil => rfl
    | cons c cs ih =>
      have hone : units .server (c :: cs) = c.toNat :: units .server cs := rfl
      rw [ofUnits?] at ih ⊢
      rw [hone, List.mapM_cons, scalar?_toNat, ih]
      rfl
  | client =>
    induction cs with
    | nil => rfl
    | cons c cs ih =>
      rw [ofUnits?] at ih ⊢
      rw [units, List.flatMap_cons, ofPairs?_codeUnits, ← units, ih, Option.map_some]

/-! ## Quoted texts -/

/-- The letters behind backslashes, with what they mean. -/
def letters : List (Char × Char) :=
  [('"', '"'), ('\\', '\\'), ('b', '\x08'), ('f', '\x0c'), ('n', '\n'), ('r', '\r'), ('t', '\t')]

theorem letter?_of_mem (lang : Language) :
    ∀ p ∈ letters, letter? lang p.1 = some p.2.toNat ∧ p.2.toNat < 0x10000 ∧
    32 ≤ p.1.toNat := by
  cases lang <;> decide

/-- **The three ways to write a character**: as a letter behind a backslash, as a code of four digits, or as
it is. -/
theorem escapeChar_cases (c : Char) :
    (∃ p ∈ letters, c = p.2 ∧ escapeChar c = ['\\', p.1]) ∨
    (c.toNat < 32 ∧
      escapeChar c = ['\\', 'u', '0', '0', hexDigit (c.toNat / 16), hexDigit (c.toNat % 16)]) ∨
    (escapeChar c = [c] ∧ 32 ≤ c.toNat ∧ c ≠ '"' ∧ c ≠ '\\') := by
  by_cases hletter : ∃ p ∈ letters, c = p.2
  · obtain ⟨p, hp, rfl⟩ := hletter
    have hall : ∀ p ∈ letters, escapeChar p.2 = ['\\', p.1] := by decide
    exact .inl ⟨p, hp, rfl, hall p hp⟩
  · simp only [letters, List.mem_cons, List.not_mem_nil, or_false, exists_eq_or_imp, exists_eq_left,
      not_or] at hletter
    obtain ⟨hquote, hback, hb, hf, hn, hr, ht⟩ := hletter
    rw [escapeChar, if_neg hquote, if_neg hback, if_neg hb, if_neg hf, if_neg hn, if_neg hr, if_neg ht]
    by_cases hcontrol : c.toNat < 32
    · exact .inr (.inl ⟨hcontrol, if_pos hcontrol⟩)
    · exact .inr (.inr ⟨if_neg hcontrol, Nat.le_of_not_lt hcontrol, hquote, hback⟩)

theorem decode_cons {cursor next : Cursor} {us : List ℕ} (h : decodeStep lang cursor c = some (us, next))
    (hnext : next ≠ .closed) : decode lang cursor (c :: rest) =
      (decode lang next rest).map fun more => (us ++ more.1, more.2) := by
  rw [decode, h, Option.bind_some, if_neg hnext]

/-- A character that completes no unit. -/
theorem decode_silent {cursor next : Cursor} (h : decodeStep lang cursor c = some ([], next))
    (hnext : next ≠ .closed) : decode lang cursor (c :: rest) = decode lang next rest := by
  rw [decode_cons h hnext]
  exact Option.map_id'

theorem decodeStep_backslash : decodeStep lang .plain '\\' = some ([], .escape) := by
  rw [decodeStep, plainStep, if_neg (by decide), if_pos rfl]

/-- A digit of a code that is not the last one. -/
theorem decode_digit (missing code : ℕ) {n : ℕ} (hn : n < 16) :
    decode lang (.hex (missing + 2) code) (hexDigit n :: rest) =
      decode lang (.hex (missing + 1) (16 * code + n)) rest := by
  refine decode_silent ?_ (by simp)
  rw [decodeStep, hexValue?_hexDigit n hn, Option.bind_some, if_neg (by omega)]
  rfl

/-- The first digit of a code, which the client reads apart from the others. -/
theorem decode_firstDigit :
    decode lang .escape ('u' :: '0' :: rest) = decode lang (.hex 3 0) rest := by
  cases lang with
  | server =>
    have hu : decodeStep .server .escape 'u' = some ([], .hex 4 0) := rfl
    rw [decode_silent hu (by decide)]
    exact decode_digit 2 0 (Nat.zero_lt_succ 15)
  | client =>
    have hu : decodeStep .client .escape 'u' = some ([], .unicode) := rfl
    have hfirst : decodeStep .client .unicode '0' = some ([], .hex 3 0) := rfl
    rw [decode_silent hu (by decide), decode_silent hfirst (by decide)]

/-- **What a character is written as means this character.** -/
theorem decode_escapeChar (c : Char) (rest : List Char) : decode lang .plain (escapeChar c ++ rest) =
    (decode lang .plain rest).map fun more => (codeUnits lang c.toNat ++ more.1, more.2) := by
  rcases escapeChar_cases c with ⟨p, hp, rfl, hc⟩ | ⟨hcontrol, hc⟩ | ⟨hc, hspace, hquote, hback⟩
  · obtain ⟨hletter, hsmall, -⟩ := letter?_of_mem lang p hp
    have hescape : decodeStep lang .escape p.1 = some (codeUnits lang p.2.toNat, .plain) := by
      simp only [decodeStep, escapeStep, hletter]
      cases lang with
      | server => rfl
      | client => rw [codeUnits, if_pos hsmall]
    rw [hc, List.cons_append, List.singleton_append, decode_silent decodeStep_backslash (by decide),
      decode_cons hescape (by decide)]
  · -- of the four digits the first two are zeros, and the last one completes the code
    have hlast : decodeStep lang (.hex 1 (16 * (16 * 0 + 0) + c.toNat / 16)) (hexDigit (c.toNat % 16)) =
        some (codeUnits lang c.toNat, .plain) := by
      have hcode : 16 * (16 * (16 * 0 + 0) + c.toNat / 16) + c.toNat % 16 = c.toNat := by omega
      rw [decodeStep, hexValue?_hexDigit _ (by omega), Option.bind_some, if_pos (by omega), hcode, ofCode?,
        if_pos (by omega)]
    have hhigh : c.toNat / 16 < 16 := by omega
    have hzero (more : List Char) :
        decode lang (.hex 3 0) ('0' :: more) = decode lang (.hex 2 (16 * 0 + 0)) more :=
      decode_digit 1 0 (Nat.zero_lt_succ 15)
    simp only [hc, List.cons_append, List.nil_append]
    rw [decode_silent decodeStep_backslash (by decide), decode_firstDigit, hzero, decode_digit 0 _ hhigh,
      decode_cons hlast (by decide)]
  · -- a character that is written as it is ends no line, as it is no control character
    have hends : ¬ (c = '\n' ∨ c = '\r') := by
      rintro (rfl | rfl)
      · exact absurd hspace (by decide)
      · exact absurd hspace (by decide)
    have hplain : decodeStep lang .plain c = some (codeUnits lang c.toNat, .plain) := by
      rw [decodeStep, plainStep, if_neg hquote, if_neg hback, if_neg hends]
    rw [hc, List.singleton_append, decode_cons hplain (by decide)]

/-- What a text is written as means this text, up to the quote behind it. -/
theorem decode_flatMap (cs rest : List Char) :
    decode lang .plain (cs.flatMap escapeChar ++ '"' :: rest) = some (units lang cs, rest) := by
  induction cs with
  | nil => rfl
  | cons c cs ih =>
    rw [List.flatMap_cons, List.append_assoc, decode_escapeChar, ih, Option.map_some, units, units,
      List.flatMap_cons]

/-- The server takes a quoted text for no literal of another kind. -/
theorem not_quotes_prefix (cs : List Char) (h : rest.head? ≠ some '"') :
    ¬ ['"', '"'] <+: cs.flatMap escapeChar ++ '"' :: rest := by
  rintro ⟨more, hmore⟩
  cases cs with
  | nil =>
    obtain ⟨-, hrest⟩ := List.cons.inj hmore
    exact h (by rw [← hrest]; rfl)
  | cons c cs =>
    -- what a character is written as starts with no quote
    rw [List.flatMap_cons] at hmore
    rcases escapeChar_cases c with ⟨p, -, -, hc⟩ | ⟨-, hc⟩ | ⟨hc, -, hquote, -⟩
    · rw [hc] at hmore
      exact absurd (List.cons.inj hmore).1 (by decide)
    · rw [hc] at hmore
      exact absurd (List.cons.inj hmore).1 (by decide)
    · rw [hc] at hmore
      exact hquote (List.cons.inj hmore).1.symm

/-- **A quoted text is one literal that means this text**, by the rules of either language, in front of
whatever is no quote. -/
theorem readLiteral_quoteChars (cs : List Char) (h : rest.head? ≠ some '"') :
    readLiteral lang (quoteChars cs ++ rest) = some (cs, rest) := by
  rw [quoteChars, List.cons_append, List.append_assoc, List.singleton_append, readLiteral,
    if_neg fun hlong => not_quotes_prefix cs h hlong.2, decode_flatMap, Option.bind_some, ofUnits?_units,
    Option.map_some]

/-- **A quoted text stands on one line**: it has no character below the space, so no line ends in it. -/
theorem le_of_mem_quoteChars (h : c ∈ quoteChars cs) : 32 ≤ c.toNat := by
  have hdigit : ∀ n < 16, 32 ≤ (hexDigit n).toNat := by decide
  have hescape (d : Char) : ∀ e ∈ escapeChar d, 32 ≤ e.toNat := by
    rcases escapeChar_cases d with ⟨p, hp, -, hd⟩ | ⟨hcontrol, hd⟩ | ⟨hd, hspace, -⟩
    · have hletter := (letter?_of_mem .server p hp).2.2
      simpa [hd] using hletter
    · simpa [hd] using ⟨hdigit (d.toNat / 16) (by omega), hdigit (d.toNat % 16) (by omega)⟩
    · simpa [hd] using hspace
  rcases List.mem_cons.1 h with rfl | h
  · decide
  rcases List.mem_append.1 h with h | h
  · obtain ⟨d, -, hd⟩ := List.mem_flatMap.1 h
    exact hescape d c hd
  · rw [List.mem_singleton.1 h]
    decide

end ApiCodegen.Text
