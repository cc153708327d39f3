import ApiCodegen.Proofs.Markup.Value
import ApiCodegen.Proofs.Text.Lexeme

/-!
# Expressions of values

A value in a generated file is an expression without names: constants, numbers, texts, and lists and objects
of expressions. It is read by the rules of the language, for as much of these as expressions of values need.

* `readValue`, `readItems`, `readEntries`: the readers. The fuel is a number of characters: what stands inside
  of an expression has fewer than the expression.
* `define`: an entry of an object. A key that is there already keeps its place and gets the value. Keys may be
  reserved, as the one that sets the prototype of an object of the client.
* `read`: **the value of an expression.**
* `Parsed`: an expression of a value, in front of whatever may follow it.
* `ReadsParts`: a reader of parts with commas between them.
* `parsed_sequence`, `parsed_mapping`: **lists and objects of expressions are expressions of the values.**
-/

namespace ApiCodegen

open Markup (Entries Number Value)
open Numeric (Binary64)

/-- The number with the other sign. -/
def Numeric.Binary64.neg : Binary64 → Binary64
  | .nan => .nan
  | .infinity negative => .infinity (!negative)
  | .finite negative v => .finite (!negative) v

/-- The number with the other sign. -/
def Markup.Number.neg : Number → Number
  | .whole n => .whole (-n)
  | .real x => .real x.neg

namespace Text

/-- Spaces between tokens, inside of brackets. -/
def isSpace (c : Char) : Bool := c == ' ' || c == '\t' || c == '\n' || c == '\r'

/-- A text without the spaces at its start. -/
def skip (cs : List Char) : List Char := cs.dropWhile isSpace

/-- The value of a constant. -/
def constant? (lang : Language) (word : List Char) : Option Value :=
  match lang, String.ofList word with
  | .server, "None" => some .null
  | .server, "True" => some (.bool true)
  | .server, "False" => some (.bool false)
  | .client, "null" => some .null
  | .client, "true" => some (.bool true)
  | .client, "false" => some (.bool false)
  | _, _ => none

/-- The entries of an object with another value for a key. -/
def replace (name : String) (v : Value) (entries : Entries) : Entries :=
  entries.map fun e => if e.1.string? = some name then (e.1, v) else e

/-- **An entry of an object.** Reserved keys make no entry. -/
def define (reserved : List String) (entries : Entries) (entry : String × Value) : Entries :=
  if entry.1 ∈ reserved then entries
  else if entries.any fun e => e.1.string? = some entry.1 then replace entry.1 entry.2 entries
  else entries ++ [(.string entry.1, entry.2)]

mutual

/-- A value at the start of a text. -/
def readValue (lang : Language) (reserved : List String) : ℕ → List Char → Option (Value × List Char)
  | 0, _ => none
  | _, [] => none
  | fuel + 1, c :: rest =>
    if c = '[' then (readItems lang reserved fuel rest).map fun read => (.sequence read.1, read.2)
    else if c = '\x7b' then
      (readEntries lang reserved fuel rest).map fun read => (.mapping (read.1.foldl (define reserved) []), read.2)
    else if c = '"' then
      (readLiteral lang (c :: rest)).map fun read => (.string (String.ofList read.1), read.2)
    else if c = '-' then (readNumber lang rest).map fun read => (.number read.1.neg, read.2)
    else if c.isDigit then (readNumber lang (c :: rest)).map fun read => (.number read.1, read.2)
    else (readWord lang (c :: rest)).bind fun read => (constant? lang read.1).map (·, read.2)

/-- The items of a list, behind its bracket or behind a comma. -/
def readItems (lang : Language) (reserved : List String) : ℕ → List Char → Option (List Value × List Char)
  | 0, _ => none
  | fuel + 1, cs =>
    match skip cs with
    | ']' :: rest => some ([], rest)
    | cs =>
      (readValue lang reserved fuel cs).bind fun item =>
        match skip item.2 with
        | ']' :: rest => some ([item.1], rest)
        | ',' :: rest => (readItems lang reserved fuel rest).map fun more => (item.1 :: more.1, more.2)
        | _ => none

/-- The entries of an object, behind its brace or behind a comma. -/
def readEntries (lang : Language) (reserved : List String) :
    ℕ → List Char → Option (List (String × Value) × List Char)
  | 0, _ => none
  | fuel + 1, cs =>
    match skip cs with
    | '\x7d' :: rest => some ([], rest)
    | cs =>
      (readKey lang cs).bind fun key =>
        match skip key.2 with
        | ':' :: rest =>
          (readValue lang reserved fuel (skip rest)).bind fun item =>
            match skip item.2 with
            | '\x7d' :: rest => some ([(String.ofList key.1, item.1)], rest)
            | ',' :: rest =>
              (readEntries lang reserved fuel rest).map fun more =>
                ((String.ofList key.1, item.1) :: more.1, more.2)
            | _ => none
        | _ => none

end

/-- **The value of an expression**, if it can be read. -/
def read (lang : Language) (reserved : List String) (text : String) : Option Value :=
  (readValue lang reserved text.toList.length (skip text.toList)).bind fun item =>
    if item.2.all isSpace then some item.1 else none

variable {lang : Language} {reserved : List String} {cs rest : List Char} {v : Value}

/-- What may follow an expression. -/
def Follows (rest : List Char) : Prop := ∀ c ∈ rest.head?, c ∈ [',', ' ', ']', '\x7d']

/-- A character that an expression or a key starts with: no space, and no end of a list or an object. -/
def Starts (cs : List Char) : Prop := ∃ c ∈ cs.head?, isSpace c = false ∧ c ∉ [',', ']', '\x7d']

/-- **An expression of a value**, in front of whatever may follow it. -/
structure Parsed (lang : Language) (reserved : List String) (cs : List Char) (v : Value) : Prop where
  starts : Starts cs
  reads : ∀ (fuel : ℕ) (rest : List Char), cs.length ≤ fuel → Follows rest →
    readValue lang reserved fuel (cs ++ rest) = some (v, rest)

theorem skip_starts (h : Starts cs) (rest : List Char) : skip (cs ++ rest) = cs ++ rest := by
  obtain ⟨c, hc, hspace, -⟩ := h
  cases cs with
  | nil => cases hc
  | cons d cs =>
    obtain rfl : d = c := by simpa using hc
    exact List.dropWhile_cons_of_neg (by simp [hspace])

/-- A list or an object does not end where something starts. -/
theorem Starts.ne_cons {c : Char} (h : Starts cs) (hc : c ∈ [',', ']', '\x7d']) (rest more : List Char) :
    cs ++ rest ≠ c :: more := by
  obtain ⟨d, hd, -, hnot⟩ := h
  rintro heq
  cases cs with
  | nil => cases hd
  | cons e cs =>
    obtain rfl : e = d := by simpa using hd
    exact hnot ((List.cons.inj heq).1 ▸ hc)

theorem skip_cons_space (cs : List Char) : skip (' ' :: cs) = skip cs := List.dropWhile_cons_of_pos (by decide)

theorem skip_spaces {pad : List Char} (hpad : ∀ c ∈ pad, c = ' ') {c : Char} (hc : isSpace c = false)
    (rest : List Char) : skip (pad ++ c :: rest) = c :: rest := by
  induction pad with
  | nil => exact List.dropWhile_cons_of_neg (by simp [hc])
  | cons d pad ih =>
    rw [hpad d List.mem_cons_self, List.cons_append, skip_cons_space]
    exact ih fun e he => hpad e (List.mem_cons_of_mem _ he)

theorem follows_spaces {pad : List Char} (hpad : ∀ c ∈ pad, c = ' ') {c : Char} (hc : Follows [c])
    (rest : List Char) : Follows (pad ++ c :: rest) := by
  intro d hd
  cases pad with
  | nil => exact hc d hd
  | cons e pad =>
    obtain rfl := Option.some.inj hd
    rw [hpad _ List.mem_cons_self]
    simp

/-! ## Parts -/

/-- **A reader of parts** with commas between them, up to an end: what it does where there is no part, behind
the last one, and behind another one. -/
structure ReadsParts {α : Type} (P : List Char → α → Prop) (readAll : ℕ → List Char → Option (List α × List Char))
    (close : List Char) : Prop where
  nothing : ∀ fuel rest, readAll (fuel + 1) (close ++ rest) = some ([], rest)
  last : ∀ {part a fuel}, P part a → part.length ≤ fuel → ∀ rest,
    readAll (fuel + 1) (part ++ (close ++ rest)) = some ([a], rest)
  next : ∀ {part a fuel}, P part a → part.length ≤ fuel →
    ∀ rest, readAll (fuel + 1) (part ++ ',' :: ' ' :: rest) =
    (readAll fuel rest).map fun more => (a :: more.1, more.2)

/-- **It reads them one after the other.** -/
theorem ReadsParts.intercalate {α : Type} {P : List Char → α → Prop}
    {readAll : ℕ → List Char → Option (List α × List Char)} {close : List Char} (h : ReadsParts P readAll close)
    {parts : List (List Char)} {as : List α} (hall : List.Forall₂ P parts as) {fuel : ℕ}
    (hfuel : (List.intercalate [',', ' '] parts).length < fuel) (rest : List Char) :
    readAll fuel (List.intercalate [',', ' '] parts ++ (close ++ rest)) = some (as, rest) := by
  induction hall generalizing fuel with
  | nil =>
    obtain ⟨fuel, rfl⟩ := Nat.exists_eq_add_one_of_ne_zero (Nat.ne_of_gt (Nat.zero_lt_of_lt hfuel))
    rw [List.intercalate_nil, List.nil_append]
    exact h.nothing fuel rest
  | @cons part a parts as hfirst hmore ih =>
    obtain ⟨fuel, rfl⟩ := Nat.exists_eq_add_one_of_ne_zero (Nat.ne_of_gt (Nat.zero_lt_of_lt hfuel))
    cases hmore with
    | nil =>
      rw [List.intercalate_singleton] at hfuel ⊢
      exact h.last hfirst (Nat.lt_succ_iff.1 hfuel) rest
    | cons =>
      rw [List.intercalate_cons_cons] at hfuel ⊢
      simp only [List.length_append, List.length_cons, List.length_nil] at hfuel
      rw [List.append_assoc, List.append_assoc, List.cons_append, List.singleton_append,
        h.next hfirst (by omega), ih (by omega)]
      rfl

/-! ## Lists -/

/-- Spaces at the start are passed over. -/
theorem readItems_space (fuel : ℕ) (cs : List Char) :
    readItems lang reserved fuel (' ' :: cs) = readItems lang reserved fuel cs := by
  cases fuel with
  | zero => rw [readItems, readItems]
  | succ fuel => rw [readItems, readItems, skip_cons_space]

/-- An item, and what follows it. -/
theorem readItems_item (h : Parsed lang reserved cs v) {fuel : ℕ} (hfuel : cs.length ≤ fuel)
    (hrest : Follows rest) :
    readItems lang reserved (fuel + 1) (cs ++ rest) =
      match skip rest with
      | ']' :: rest => some ([v], rest)
      | ',' :: rest => (readItems lang reserved fuel rest).map fun more => (v :: more.1, more.2)
      | _ => none := by
  rw [readItems, skip_starts h.starts]
  split
  · exact absurd ‹_› (h.starts.ne_cons (by decide) _ _)
  · rw [h.reads fuel rest hfuel hrest, Option.bind_some]

/-- **Items with commas between them are read one after the other**, up to the bracket. -/
theorem readsParts_readItems : ReadsParts (Parsed lang reserved) (readItems lang reserved) [']'] where
  nothing fuel rest := by
    rw [readItems]
    rfl
  last h hfuel rest := by
    rw [List.singleton_append, readItems_item h hfuel (by simp [Follows])]
    rfl
  next h hfuel rest := by
    have hskip : skip (',' :: ' ' :: rest) = ',' :: ' ' :: rest := rfl
    rw [readItems_item h hfuel (by simp [Follows]), hskip, ← readItems_space]
    rfl

/-- **A list of expressions is an expression of the list of their values.** -/
theorem parsed_sequence {parts : List (List Char)} {items : List Value}
    (h : List.Forall₂ (Parsed lang reserved) parts items) :
    Parsed lang reserved ('[' :: (List.intercalate [',', ' '] parts ++ [']'])) (.sequence items) where
  starts := ⟨'[', rfl, by decide⟩
  reads fuel rest hfuel _ := by
    rw [List.length_cons, List.length_append, List.length_singleton] at hfuel
    obtain ⟨fuel, rfl⟩ := Nat.exists_eq_add_one_of_ne_zero (Nat.ne_of_gt (Nat.zero_lt_of_lt hfuel))
    rw [List.cons_append, List.append_assoc, readValue, if_pos rfl,
      readsParts_readItems.intercalate h (by omega)]
    rfl

/-! ## Objects -/

theorem readEntries_space (fuel : ℕ) (cs : List Char) :
    readEntries lang reserved fuel (' ' :: cs) = readEntries lang reserved fuel cs := by
  cases fuel with
  | zero => rw [readEntries, readEntries]
  | succ fuel => rw [readEntries, readEntries, skip_cons_space]

/-- Spaces of any number are passed over. -/
theorem readEntries_spaces {pad : List Char} (hpad : ∀ c ∈ pad, c = ' ') (fuel : ℕ) (cs : List Char) :
    readEntries lang reserved fuel (pad ++ cs) = readEntries lang reserved fuel cs := by
  induction pad with
  | nil => rfl
  | cons c pad ih =>
    rw [hpad c List.mem_cons_self, List.cons_append, readEntries_space]
    exact ih fun d hd => hpad d (List.mem_cons_of_mem _ hd)

/-- **An entry of an object**: a key, and an expression of a value behind a colon. -/
structure ParsedEntry (lang : Language) (reserved : List String) (part : List Char) (entry : String × Value) :
    Prop where
  parts : ∃ key cs, part = key ++ ':' :: ' ' :: cs ∧ Starts key ∧ Parsed lang reserved cs entry.2 ∧
    ∀ rest, readKey lang (key ++ ':' :: rest) = some (entry.1.toList, ':' :: rest)

/-- An entry, and what follows it. -/
theorem readEntries_entry {part : List Char} {entry : String × Value}
    (h : ParsedEntry lang reserved part entry) {fuel : ℕ} (hfuel : part.length ≤ fuel) (hrest : Follows rest) :
    readEntries lang reserved (fuel + 1) (part ++ rest) =
      match skip rest with
      | '\x7d' :: rest => some ([entry], rest)
      | ',' :: rest => (readEntries lang reserved fuel rest).map fun more => (entry :: more.1, more.2)
      | _ => none := by
  obtain ⟨key, cs, rfl, hstarts, hparsed, hkey⟩ := h.parts
  have hcolon : skip (':' :: ' ' :: (cs ++ rest)) = ':' :: ' ' :: (cs ++ rest) := rfl
  have hlength : cs.length ≤ fuel := by
    simp only [List.length_append, List.length_cons] at hfuel
    omega
  rw [List.append_assoc, List.cons_append, List.cons_append, readEntries, skip_starts hstarts]
  split
  · exact absurd ‹_› (hstarts.ne_cons (by decide) _ _)
  · rw [hkey, Option.bind_some, hcolon]
    change (readValue lang reserved fuel (skip (' ' :: (cs ++ rest)))).bind _ = _
    rw [skip_cons_space, skip_starts hparsed.starts, hparsed.reads fuel rest hlength hrest, Option.bind_some,
      String.ofList_toList]

/-- **So are entries**, up to the brace and the spaces in front of it. -/
theorem readsParts_readEntries {pad : List Char} (hpad : ∀ c ∈ pad, c = ' ') :
    ReadsParts (ParsedEntry lang reserved) (readEntries lang reserved) (pad ++ ['\x7d']) where
  nothing fuel rest := by
    rw [List.append_assoc, List.singleton_append, readEntries, skip_spaces hpad (by decide)]
    rfl
  last h hfuel rest := by
    have hfollows : Follows (pad ++ '\x7d' :: rest) := follows_spaces hpad (by simp [Follows]) rest
    rw [List.append_assoc, List.singleton_append, readEntries_entry h hfuel hfollows,
      skip_spaces hpad (by decide)]
    rfl
  next h hfuel rest := by
    have hskip : skip (',' :: ' ' :: rest) = ',' :: ' ' :: rest := rfl
    rw [readEntries_entry h hfuel (by simp [Follows]), hskip, ← readEntries_space]
    rfl

/-- **An object of expressions is an expression of the object of their values**, with spaces inside of its
braces or without. -/
theorem parsed_mapping {pad : List Char} (hpad : ∀ c ∈ pad, c = ' ') {parts : List (List Char)}
    {entries : List (String × Value)} (h : List.Forall₂ (ParsedEntry lang reserved) parts entries) :
    Parsed lang reserved ('\x7b' :: (pad ++ (List.intercalate [',', ' '] parts ++ (pad ++ ['\x7d']))))
      (.mapping (entries.foldl (define reserved) [])) where
  starts := ⟨'\x7b', rfl, by decide⟩
  reads fuel rest hfuel _ := by
    simp only [List.length_cons, List.length_append, List.length_nil] at hfuel
    obtain ⟨fuel, rfl⟩ := Nat.exists_eq_add_one_of_ne_zero (Nat.ne_of_gt (Nat.zero_lt_of_lt hfuel))
    rw [List.cons_append, List.append_assoc, List.append_assoc, readValue, if_neg (by decide), if_pos rfl,
      readEntries_spaces hpad, (readsParts_readEntries hpad).intercalate h (by omega)]
    rfl

/-- Whether an object has a key. -/
theorem any_string?_iff (entries : List (String × Value)) (name : String) :
    ((entries.map fun e => ((.string e.1 : Value), e.2)).any fun e => e.1.string? = some name) ↔
      name ∈ entries.map Prod.fst := by
  simp [Value.string?, Value.untag]

/-- An entry with a key that is not there is added. -/
theorem define_new {entries : List (String × Value)} {entry : String × Value}
    (hnew : entry.1 ∉ entries.map Prod.fst) (hfree : entry.1 ∉ reserved) :
    define reserved (entries.map fun e => (.string e.1, e.2)) entry =
      (entries ++ [entry]).map fun e => (.string e.1, e.2) := by
  rw [define, if_neg hfree, if_neg fun h => hnew ((any_string?_iff entries entry.1).1 h), List.map_append,
    List.map_singleton]

/-- **Entries with distinct keys are kept**, in order. -/
theorem foldl_define {entries : List (String × Value)} (hnodup : (entries.map Prod.fst).Nodup)
    (hfree : ∀ key ∈ entries.map Prod.fst, key ∉ reserved) :
    entries.foldl (define reserved) [] = entries.map fun e => (.string e.1, e.2) := by
  induction entries using List.reverseRecOn with
  | nil => rfl
  | append_singleton entries entry ih =>
    rw [List.map_append, List.map_singleton] at hnodup hfree
    obtain ⟨hfront, -, hnew⟩ := List.nodup_append.1 hnodup
    have hentry : entry.1 ∉ entries.map Prod.fst := fun h => hnew _ h _ (List.mem_singleton_self _) rfl
    rw [List.foldl_append, ih hfront fun key hkey => hfree key (List.mem_append_left _ hkey)]
    exact define_new hentry (hfree _ (List.mem_append_right _ (List.mem_singleton_self _)))

/-- **The value of an expression that stands alone.** -/
theorem Parsed.read_eq {text : String} (h : Parsed lang reserved text.toList v) :
    read lang reserved text = some v := by
  have hskip := skip_starts h.starts []
  have hread := h.reads text.toList.length [] le_rfl (by simp [Follows])
  rw [List.append_nil] at hskip hread
  rw [read, hskip, hread]
  rfl

end Text

end ApiCodegen
