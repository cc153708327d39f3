import ApiCodegen.Proofs.Name.Legal
import ApiCodegen.Proofs.Text.Words

/-!
# The tokens of a generated file

Both generated languages are read by one machine. A text is read character by character, and what is
being read is the phase of the machine: a word, a literal with what it means so far, a comment, or
nothing. The languages differ in their line ends, their comments and their long literals.

* `Token`, `Phase`, `step`, `lex`: the tokens, the phases, and the machine.
* `tokens`: the tokens of a text.
* `Separate`: what a word or a literal in front of a text does not run into.
* `lex_word`, `lex_literal`: **a name is one word, and a quoted text is one literal that means this text**,
  wherever they stand.
* `Reads`: what some characters are read as, wherever they stand, put together from marks, names and parts.
-/

namespace ApiCodegen.Text

/-- The language of a file. -/
inductive Language where
  | server
  | client
  deriving DecidableEq

/-- A token. A line of the server starts with its indentation. -/
inductive Token where
  | word (word : String)
  /-- A string literal, as what it means. -/
  | text (value : String)
  | mark (c : Char)
  | line (indent : ℕ)
  | unreadable
  deriving DecidableEq

/-- What is being read. Values are what literals mean so far. -/
inductive Phase where
  /-- A line of which only blanks were read. -/
  | line (indent : ℕ)
  | between
  | word (run : List Char)
  | literal (value : List Char)
  | escape (value : List Char)
  /-- The digits of a character code. -/
  | code (value : List Char) (digits : List ℕ)
  /-- The end of an empty literal, unless a third quote opens a long one. -/
  | closed
  | long (value : List Char) (quotes : ℕ)
  | longEscape (value : List Char)
  /-- A comment up to the end of the line. -/
  | remark
  | slash
  | comment (star : Bool)
  deriving DecidableEq

/-- The characters of words. -/
def isWordOf : Language → Char → Bool
  | .server, c => Name.isWordChar c
  | .client, c => Name.isWordChar c || c == '$'

/-- The characters that end a line. -/
def isLineEnd : Language → Char → Bool
  | .server, c => c == '\n' || c == '\r'
  | .client, c => c == '\n' || c == '\r' || c.toNat == 0x2028 || c.toNat == 0x2029

/-- What follows a line. Only the server counts lines. -/
def newLine : Language → Phase
  | .server => .line 0
  | .client => .between

/-- What the character behind a backslash means, where both languages agree. -/
def escaped? (c : Char) : Option Char :=
  if c = '"' then some '"'
  else if c = '\\' then some '\\'
  else if c = 'b' then some '\x08'
  else if c = 'f' then some '\x0c'
  else if c = 'n' then some '\n'
  else if c = 'r' then some '\r'
  else if c = 't' then some '\t'
  else none

/-- The value of a hexadecimal digit. -/
def hexValue? (c : Char) : Option ℕ :=
  if c.isDigit then some (c.toNat - 48)
  else if 'a' ≤ c ∧ c ≤ 'f' then some (c.toNat - 87)
  else if 'A' ≤ c ∧ c ≤ 'F' then some (c.toNat - 55)
  else none

/-- The character of some hexadecimal digits. -/
def charOf? (digits : List ℕ) : Option Char :=
  let n := digits.foldl (fun n d => 16 * n + d) 0
  if n.isValidChar then some (Char.ofNat n) else none

/-- What a character opens between tokens. -/
def opening (lang : Language) (c : Char) : List Token × Phase :=
  if isWordOf lang c then ([], .word [c])
  else if c = '"' then ([], .literal [])
  else if isLineEnd lang c then ([], newLine lang)
  else if c = ' ' ∨ c = '\t' ∨ c = '\x0c' then ([], .between)
  else if lang = .server ∧ c = '#' then ([], .remark)
  else if lang = .client ∧ c = '/' then ([], .slash)
  else ([.mark c], .between)

/-- Some tokens in front of a step. -/
def after (ts : List Token) (next : List Token × Phase) : List Token × Phase := (ts ++ next.1, next.2)

/-- One character: the tokens that it completes, and the next phase. -/
def step (lang : Language) : Phase → Char → List Token × Phase
  | .line indent, c =>
    if isLineEnd lang c then ([], newLine lang)
    else if c = ' ' then ([], .line (indent + 1))
    else if c = '#' then ([], .remark)
    else after [.line indent] (opening lang c)
  | .between, c => opening lang c
  | .word run, c =>
    if isWordOf lang c then ([], .word (run ++ [c]))
    else after [.word (String.ofList run)] (opening lang c)
  | .literal value, c =>
    if c = '"' then
      if lang = .server ∧ value = [] then ([], .closed)
      else ([.text (String.ofList value)], .between)
    else if c = '\\' then ([], .escape value)
    else if c = '\n' ∨ c = '\r' then ([.unreadable], newLine lang)
    else ([], .literal (value ++ [c]))
  | .escape value, c =>
    if c = 'u' then ([], .code value [])
    else match escaped? c with
      | some d => ([], .literal (value ++ [d]))
      | none => ([.unreadable], .literal value)
  | .code value digits, c =>
    match hexValue? c with
    | none => ([.unreadable], .literal value)
    | some d =>
      if digits.length < 3 then ([], .code value (digits ++ [d]))
      else match charOf? (digits ++ [d]) with
        | some c => ([], .literal (value ++ [c]))
        | none => ([.unreadable], .literal value)
  | .closed, c => if c = '"' then ([], .long [] 0) else after [.text ""] (opening lang c)
  | .long value quotes, c =>
    if c = '"' then
      if quotes < 2 then ([], .long value (quotes + 1)) else ([.text (String.ofList value)], .between)
    else if c = '\\' then ([], .longEscape (value ++ List.replicate quotes '"'))
    else ([], .long (value ++ List.replicate quotes '"' ++ [c]) 0)
  | .longEscape value, c =>
    match escaped? c with
    | some d => ([], .long (value ++ [d]) 0)
    | none => ([.unreadable], .long value 0)
  | .remark, c => if isLineEnd lang c then ([], newLine lang) else ([], .remark)
  | .slash, c =>
    if c = '/' then ([], .remark)
    else if c = '*' then ([], .comment false)
    else after [.mark '/'] (opening lang c)
  | .comment star, c => if star ∧ c = '/' then ([], .between) else ([], .comment (c == '*'))

/-- What is left where the text ends. -/
def finish : Phase → List Token
  | .word run => [.word (String.ofList run)]
  | .closed => [.text ""]
  | .slash => [.mark '/']
  | .line _ | .between | .remark => []
  | .literal _ | .escape _ | .code _ _ | .long _ _ | .longEscape _ | .comment _ => [.unreadable]

/-- The tokens that are left to read. -/
def lex (lang : Language) : Phase → List Char → List Token
  | phase, [] => finish phase
  | phase, c :: rest => (step lang phase c).1 ++ lex lang (step lang phase c).2 rest

/-- The tokens of a text that stands on its own. -/
def tokens (lang : Language) (text : String) : List Token := lex lang .between text.toList

/-- The tokens of a file. -/
def fileTokens (lang : Language) (text : String) : List Token := lex lang (newLine lang) text.toList

/-- The tokens that a part of a text completes, and the phase behind it. -/
def run (lang : Language) : Phase → List Char → List Token × Phase
  | phase, [] => ([], phase)
  | phase, c :: rest => after (step lang phase c).1 (run lang (step lang phase c).2 rest)

variable {lang : Language} {phase : Phase} {c d : Char} {value word cs ds rest : List Char} {name : String}
  {ts us : List Token}

/-- **A text is read part by part.** -/
theorem lex_append (lang : Language) (phase : Phase) (cs rest : List Char) :
    lex lang phase (cs ++ rest) = (run lang phase cs).1 ++ lex lang (run lang phase cs).2 rest := by
  induction cs generalizing phase with
  | nil => rfl
  | cons c cs ih => rw [List.cons_append, lex, ih, run, after, List.append_assoc]

/-! ## Words -/

/-- No word goes on here, and no literal starts. -/
def Separate (lang : Language) (rest : List Char) : Prop :=
  ∀ c ∈ rest.head?, isWordOf lang c = false ∧ c ≠ '"'

theorem separate_nil : Separate lang [] := fun _ hc => absurd hc (by simp)

theorem separate_cons (h : isWordOf lang c = false ∧ c ≠ '"') : Separate lang (c :: rest) := by
  intro d hd
  obtain rfl : c = d := by simpa using hd
  exact h

theorem isWordOf_of_isWordChar (h : Name.isWordChar c) : isWordOf lang c := by
  cases lang with
  | server => exact h
  | client => rw [isWordOf, h, Bool.true_or]

/-- A name that can stand as a key without quotes is a word. -/
theorem exists_of_isPropertyKey {name : String} (h : Name.isPropertyKey name) : ∃ c cs,
    name.toList = c :: cs ∧ ¬ c.isDigit ∧ ∀ d ∈ c :: cs, isWordOf .client d := by
  unfold Name.isPropertyKey at h
  split at h
  · cases h
  · rename_i c cs hchars
    rw [Bool.and_eq_true, Bool.not_eq_true'] at h
    exact ⟨c, cs, hchars, by simp [h.1], List.all_eq_true.1 h.2⟩

theorem lex_append_word (hcs : ∀ d ∈ cs, isWordOf lang d) :
    lex lang (.word word) (cs ++ rest) = lex lang (.word (word ++ cs)) rest := by
  induction cs generalizing word with
  | nil => rw [List.nil_append, List.append_nil]
  | cons c cs ih =>
    have hc := hcs c List.mem_cons_self
    have htail : ∀ d ∈ cs, isWordOf lang d := fun d hd => hcs d (List.mem_cons_of_mem _ hd)
    have hstep : step lang (.word word) c = ([], .word (word ++ [c])) := if_pos hc
    rw [List.cons_append, lex, hstep, List.nil_append, ih htail, List.append_assoc,
      List.singleton_append]

theorem lex_separate (h : Separate lang rest) :
    lex lang (.word word) rest = .word (String.ofList word) :: lex lang .between rest := by
  cases rest with
  | nil => rfl
  | cons c rest =>
    have hc := (h c rfl).1
    have hstep : step lang (.word word) c = after [.word (String.ofList word)] (opening lang c) := by
      rw [step, if_neg (by simp [hc])]
    rw [lex, hstep]
    rfl

/-- A word of some characters. -/
theorem lex_chars (hne : cs ≠ []) (hcs : ∀ d ∈ cs, isWordOf lang d) (h : Separate lang rest) :
    lex lang .between (cs ++ rest) = .word (String.ofList cs) :: lex lang .between rest := by
  cases cs with
  | nil => exact absurd rfl hne
  | cons c cs =>
    have hc := hcs c List.mem_cons_self
    have htail : ∀ d ∈ cs, isWordOf lang d := fun d hd => hcs d (List.mem_cons_of_mem _ hd)
    have hstep : step lang .between c = ([], .word [c]) := if_pos hc
    rw [List.cons_append, lex, hstep, List.nil_append, lex_append_word htail, lex_separate h]
    rfl

/-- **A name is one word.** -/
theorem lex_word (hname : Name.isIdentifier name.toList) (h : Separate lang rest) :
    lex lang .between (name.toList ++ rest) = .word name :: lex lang .between rest := by
  obtain ⟨hne, -, hall⟩ := Name.isIdentifier_iff.1 hname
  rw [lex_chars hne (fun d hd => isWordOf_of_isWordChar (hall d hd)) h, String.ofList_toList]

/-! ## Marks -/

/-- A mark is a token of its own. -/
theorem lex_mark (h : opening lang c = ([.mark c], .between)) :
    lex lang .between (c :: rest) = .mark c :: lex lang .between rest := by
  rw [lex, step, h]
  rfl

/-- A space is passed over. -/
theorem lex_space : lex lang .between (' ' :: rest) = lex lang .between rest := by
  cases lang <;> rfl

/-! ## Literals -/

theorem hexValue?_hexDigit : ∀ n < 16, hexValue? (hexDigit n) = some n := by decide

theorem charOf?_control : ∀ n < 32, charOf? [0, 0, n / 16, n % 16] = some (Char.ofNat n) := by decide

theorem lex_backslash : lex lang (.literal value) ('\\' :: rest) = lex lang (.escape value) rest := by
  rw [lex, step, if_neg (by decide), if_pos rfl, List.nil_append]

/-- A letter behind a backslash, in either language. -/
theorem lex_letter (hu : d ≠ 'u') (hd : escaped? d = some c) :
    lex lang (.literal value) ('\\' :: d :: rest) = lex lang (.literal (value ++ [c])) rest := by
  have hescape : step lang (.escape value) d = ([], .literal (value ++ [c])) := by
    rw [step, if_neg hu]
    simp only [hd]
  rw [lex_backslash, lex, hescape, List.nil_append]

/-- A digit of a code, up to the third one. -/
theorem lex_digit {n : ℕ} {digits : List ℕ} (hn : n < 16) (hlt : digits.length < 3) :
    lex lang (.code value digits) (hexDigit n :: rest) = lex lang (.code value (digits ++ [n])) rest := by
  have hstep : step lang (.code value digits) (hexDigit n) = ([], .code value (digits ++ [n])) := by
    rw [step, hexValue?_hexDigit n hn]
    exact if_pos hlt
  rw [lex, hstep, List.nil_append]

/-- The last digit of a code, with what the digits mean. -/
theorem lex_lastDigit {n : ℕ} {digits : List ℕ} (hn : n < 16) (hlength : digits.length = 3)
    (hchar : charOf? (digits ++ [n]) = some c) :
    lex lang (.code value digits) (hexDigit n :: rest) = lex lang (.literal (value ++ [c])) rest := by
  have hstep : step lang (.code value digits) (hexDigit n) = ([], .literal (value ++ [c])) := by
    rw [step, hexValue?_hexDigit n hn]
    simp only [hchar]
    exact if_neg (by omega)
  rw [lex, hstep, List.nil_append]

/-- A control character is written as four digits. -/
theorem lex_control (hcontrol : c.toNat < 32) :
    lex lang (.literal value) (['\\', 'u', '0', '0', hexDigit (c.toNat / 16), hexDigit (c.toNat % 16)] ++ rest) =
      lex lang (.literal (value ++ [c])) rest := by
  have hu (more : List Char) : lex lang (.escape value) ('u' :: more) = lex lang (.code value []) more := by
    rw [lex, step, if_pos rfl, List.nil_append]
  have hzero : '0' = hexDigit 0 := rfl
  have hchar : charOf? ([0, 0, c.toNat / 16] ++ [c.toNat % 16]) = some c := by
    have hc := charOf?_control c.toNat hcontrol
    rwa [Char.ofNat_toNat] at hc
  simp only [List.cons_append, List.nil_append]
  rw [lex_backslash, hu, hzero, lex_digit (by omega) (by simp), lex_digit (by omega) (by simp),
    lex_digit (by omega) (by simp)]
  exact lex_lastDigit (by omega) rfl hchar

/-- What a character is written as means this character. -/
theorem lex_escapeChar (c : Char) (rest : List Char) :
    lex lang (.literal value) (escapeChar c ++ rest) = lex lang (.literal (value ++ [c])) rest := by
  unfold escapeChar
  split_ifs with hquote hback hb hf hn hr ht hcontrol
  · exact lex_letter (by decide) (by rw [hquote]; rfl)
  · exact lex_letter (by decide) (by rw [hback]; rfl)
  · exact lex_letter (by decide) (by rw [hb]; rfl)
  · exact lex_letter (by decide) (by rw [hf]; rfl)
  · exact lex_letter (by decide) (by rw [hn]; rfl)
  · exact lex_letter (by decide) (by rw [hr]; rfl)
  · exact lex_letter (by decide) (by rw [ht]; rfl)
  · exact lex_control hcontrol
  · have hplain : step lang (.literal value) c = ([], .literal (value ++ [c])) := by
      rw [step, if_neg hquote, if_neg hback, if_neg (not_or.2 ⟨hn, hr⟩)]
    rw [List.singleton_append, lex, hplain, List.nil_append]

theorem lex_escapeChars (cs rest : List Char) :
    lex lang (.literal value) (cs.flatMap escapeChar ++ rest) = lex lang (.literal (value ++ cs)) rest := by
  induction cs generalizing value with
  | nil => rw [List.flatMap_nil, List.nil_append, List.append_nil]
  | cons c cs ih =>
    rw [List.flatMap_cons, List.append_assoc, lex_escapeChar, ih, List.append_assoc, List.singleton_append]

/-- A literal ends at its quote. -/
theorem lex_endQuote (h : Separate lang rest) :
    lex lang (.literal value) ('"' :: rest) = .text (String.ofList value) :: lex lang .between rest := by
  by_cases hempty : lang = .server ∧ value = []
  · obtain ⟨rfl, rfl⟩ := hempty
    have hclosed : step .server (.literal []) '"' = ([], .closed) := by rfl
    rw [lex, hclosed, List.nil_append]
    -- no third quote follows
    cases rest with
    | nil => rfl
    | cons c rest =>
      have hc := (h c rfl).2
      have hstep : step .server .closed c = after [.text ""] (opening .server c) := if_neg hc
      rw [lex, hstep]
      rfl
  · have hend : step lang (.literal value) '"' = ([.text (String.ofList value)], .between) := by
      rw [step, if_pos rfl, if_neg hempty]
    rw [lex, hend]
    rfl

/-- **A quoted text is one literal that means this text.** -/
theorem lex_literal (cs : List Char) (h : Separate lang rest) :
    lex lang .between (quoteChars cs ++ rest) =
      .text (String.ofList cs) :: lex lang .between rest := by
  have hopening : opening lang '"' = ([], .literal []) := by cases lang <;> rfl
  rw [quoteChars, List.cons_append, List.append_assoc, List.singleton_append, lex, step, hopening,
    List.nil_append, lex_escapeChars, List.nil_append, lex_endQuote h]

/-! ## Parts of a text -/

/-- Some characters are read as some tokens, wherever they stand. -/
def Reads (lang : Language) (cs : List Char) (ts : List Token) : Prop :=
  ∀ rest, Separate lang rest → lex lang .between (cs ++ rest) = ts ++ lex lang .between rest

theorem reads_nil : Reads lang [] [] := fun _ _ => rfl

/-- What is read everywhere is read where it stands on its own. -/
theorem Reads.tokens_eq {text : String} (h : Reads lang text.toList ts) : tokens lang text = ts := by
  have halone := h [] separate_nil
  rw [List.append_nil] at halone
  rw [tokens, halone]
  exact List.append_nil _

theorem Reads.tokens_ofList (h : Reads lang cs ts) : tokens lang (String.ofList cs) = ts :=
  Reads.tokens_eq (by rwa [String.toList_ofList])

theorem reads_word (hname : Name.isIdentifier name.toList) : Reads lang name.toList [.word name] :=
  fun _ h => lex_word hname h

theorem reads_literal (cs : List Char) : Reads lang (quoteChars cs) [.text (String.ofList cs)] :=
  fun _ h => lex_literal cs h

theorem reads_text (s : String) : Reads lang (quoteChars s.toList) [.text s] := by
  have hreads : Reads lang (quoteChars s.toList) _ := reads_literal s.toList
  rwa [String.ofList_toList] at hreads

theorem reads_quote (s : String) : Reads lang (quote s).toList [.text s] := by
  rw [quote, String.toList_ofList]
  exact reads_text s

/-- A mark in front of what is read. -/
theorem Reads.cons_mark (hc : opening lang c = ([.mark c], .between)) (h : Reads lang cs ts) :
    Reads lang (c :: cs) (.mark c :: ts) := by
  intro rest hrest
  rw [List.cons_append, lex_mark hc, h rest hrest]
  rfl

/-- A space in front of what is read. -/
theorem Reads.cons_space (h : Reads lang cs ts) : Reads lang (' ' :: cs) ts := by
  intro rest hrest
  rw [List.cons_append, lex_space, h rest hrest]

/-- **Parts are read one after the other**, if nothing runs into the second part. -/
theorem Reads.append (h : Reads lang cs ts) (hc : isWordOf lang c = false ∧ c ≠ '"')
    (hmore : Reads lang (c :: ds) us) : Reads lang (cs ++ c :: ds) (ts ++ us) := by
  intro rest hrest
  have hseparate : Separate lang (c :: ds ++ rest) := separate_cons hc
  rw [List.append_assoc, h _ hseparate, hmore rest hrest, List.append_assoc]

/-- A name in front of what is read. -/
theorem Reads.cons_word (hname : Name.isIdentifier name.toList) (hc : isWordOf lang c = false ∧ c ≠ '"')
    (h : Reads lang (c :: cs) ts) : Reads lang (name.toList ++ c :: cs) (.word name :: ts) :=
  (reads_word hname).append hc h

end ApiCodegen.Text
