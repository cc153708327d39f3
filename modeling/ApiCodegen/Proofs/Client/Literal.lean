import ApiCodegen.Client.Literal
import ApiCodegen.Proofs.Markup.Value
import ApiCodegen.Proofs.Numeric.Text

/-!
# Literals of the client are read as a whole

* `keyToken`, `keyOf?`: the token of a property key, and the name that it stands for.
* `reads_propertyKey`: **a property key is read as one token**, with or without quotes.
* `exists_reads_literalChars`: **an expression of a value has closed brackets, wherever it stands.**
-/

namespace ApiCodegen.Client

open Markup (Entries Number Value)
open Text

/-- The token of a property key. -/
def keyToken (name : String) : Token := if Name.isPropertyKey name then .word name else .text name

/-- The name that a property key stands for. -/
def keyOf? : Token → Option String
  | .word name => some name
  | .text name => some name
  | _ => none

theorem keyOf?_keyToken (name : String) : keyOf? (keyToken name) = some name := by
  unfold keyToken
  split <;> rfl

theorem isPlain_keyToken (name : String) : isPlain (keyToken name) := by
  unfold keyToken
  split <;> rfl

/-- **A property key is read as one token.** -/
theorem reads_propertyKey (name : String) : Reads .client (propertyKey name).toList [keyToken name] := by
  unfold propertyKey keyToken
  split
  · rename_i hkey
    intro rest hrest
    obtain ⟨c, cs, hchars, -, hall⟩ := exists_of_isPropertyKey hkey
    rw [← hchars] at hall
    rw [lex_chars (hchars ▸ List.cons_ne_nil c cs) hall hrest, String.ofList_toList]
    rfl
  · exact reads_quote name

theorem itemChars_eq (items : List Value) :
    itemChars items = List.intercalate [',', ' '] (items.map literalChars) :=
  eq_intercalate_map itemChars (by simp [itemChars]) (by simp [itemChars]) (by simp [itemChars]) items

/-- The characters of an entry. -/
def pairChars (entry : Value × Value) : List Char :=
  keyChars entry.1 ++ ':' :: ' ' :: literalChars entry.2

theorem entryChars_eq (entries : Entries) :
    entryChars entries = List.intercalate [',', ' '] (entries.map pairChars) :=
  eq_intercalate_map entryChars (by simp [entryChars]) (by simp [entryChars, pairChars])
    (by simp [entryChars, pairChars]) entries

theorem readsClosed_word {name : String} (h : Name.isIdentifier name.toList) :
    ReadsClosed .client false name.toList := ⟨_, .singleton rfl, reads_word h⟩

theorem readsClosed_number (n : Number) : ReadsClosed .client false (numberLiteral n).toList := by
  -- a member of the object of numbers
  have hmember (name : String) (h : Name.isIdentifier name.toList) :
      ReadsClosed .client false ("Number".toList ++ '.' :: name.toList) := by
    exact ⟨_, .token rfl (.token rfl (.singleton rfl)),
      .cons_word (by decide) (by decide) (.cons_mark (by decide) (reads_word h))⟩
  unfold numberLiteral
  split
  · exact hmember "NaN" (by decide)
  · exact hmember "POSITIVE_INFINITY" (by decide)
  · exact hmember "NEGATIVE_INFINITY" (by decide)
  · obtain ⟨ts, hts, hreads⟩ := Numeric.exists_reads_number .client (Numeric.forall_number n)
    exact ⟨ts, hts.nested, hreads⟩

/-- A key of an entry is read as one token. -/
theorem readsClosed_keyChars (v : Value) : ReadsClosed .client false (keyChars v) := by
  unfold keyChars
  split
  · exact ⟨_, .singleton (isPlain_keyToken _), reads_propertyKey _⟩
  · exact ⟨_, .singleton rfl, reads_literal _⟩

/-- **An expression of a value has closed brackets, wherever it stands.** -/
theorem readsClosed_literalChars (v : Value) : ReadsClosed .client false (literalChars v) := by
  induction v with
  | null =>
    rw [literalChars]
    exact readsClosed_word (by decide)
  | bool b =>
    cases b with
    | true | false =>
      rw [literalChars]
      exact readsClosed_word (by decide)
  | number n =>
    rw [literalChars]
    exact readsClosed_number n
  | string s =>
    rw [literalChars]
    exact ⟨_, .singleton rfl, reads_text s⟩
  | sequence items ih =>
    have hitems : ReadsClosed .client true (itemChars items) := by
      rw [itemChars_eq]
      refine readsClosed_intercalate fun cs hcs => ?_
      obtain ⟨v, hv, rfl⟩ := List.mem_map.1 hcs
      exact ih v hv
    obtain ⟨ts, hnested, hreads⟩ := hitems
    rw [literalChars]
    exact ⟨_, hnested.wrap (by decide), hreads.wrap (by decide)⟩
  | mapping entries ih =>
    cases entries with
    | nil =>
      rw [literalChars]
      exact ⟨_, Nested.nil.wrap (by decide), reads_nil.wrap (by decide)⟩
    | cons first entries =>
      have hentries : ReadsClosed .client true (entryChars (first :: entries)) := by
        rw [entryChars_eq]
        refine readsClosed_intercalate fun cs hcs => ?_
        obtain ⟨e, he, rfl⟩ := List.mem_map.1 hcs
        obtain ⟨ks, hks, hkreads⟩ := readsClosed_keyChars e.1
        obtain ⟨vs, hvs, hvreads⟩ := (ih e he).2
        exact ⟨_, hks.append (.token rfl hvs),
          hkreads.append (by decide) (.cons_mark (by decide) (.cons_space hvreads))⟩
      obtain ⟨ts, hnested, hreads⟩ := hentries
      have hclose : Reads .client [' ', '\x7d'] [.mark '\x7d'] := .cons_space (.cons_mark (by decide) reads_nil)
      have hbraces : Reads .client (literalChars (.mapping (first :: entries)))
          (.mark '\x7b' :: (ts ++ [Token.mark '\x7d'])) := by
        rw [literalChars]
        · exact .cons_mark (by decide) (.cons_space (hreads.append (by decide) hclose))
        · simp
      exact ⟨_, hnested.wrap (by decide), hbraces⟩
  | tagged tag inner ih =>
    rw [literalChars]
    exact ih

end ApiCodegen.Client
