import ApiCodegen.Proofs.Client.Literal
import ApiCodegen.Proofs.Client.TypeExpr
import ApiCodegen.Proofs.Server.Literal
import ApiCodegen.Proofs.Server.TypeExpr
import ApiCodegen.Proofs.Text.Embedded

/-!
# The texts of schemas and values

An enumeration has its alternatives as texts, and a default the strings in it. Both languages write them as
literals, in order.

* `Schema.texts`, `literalTexts`: the texts of a schema and of a value.
* `Server.TypeExpr.embeds_ofSchema`, `Client.TypeExpr.embeds_ofSchema`: **the literals of a type are the texts
  of its schema.**
* `Server.embeds_literalChars`, `Client.embeds_literalChars`: **those of an expression are the texts of its
  value.**
-/

namespace ApiCodegen

open Markup (Entries Number Value)
open Text

/-- The texts of a schema: the alternatives of an enumeration. -/
def Schema.texts : Schema → List String
  | .enumeration values => values
  | .array items => items.texts
  | .nullable inner => inner.texts
  | .primitive _ _ | .reference _ | .object _ _ | .untyped => []

/-- The texts of a number: the server has a name in quotes for what is not finite. -/
def numberTexts : Language → Number → List String
  | .server, .real .nan => ["nan"]
  | .server, .real (.infinity false) => ["inf"]
  | .server, .real (.infinity true) => ["-inf"]
  | _, _ => []

/-- The texts of a property key: none, if it needs no quotes. -/
def propertyTexts (name : String) : List String := if Name.isPropertyKey name then [] else [name]

mutual

/-- The texts of a value. -/
def literalTexts (lang : Language) : Value → List String
  | .null | .bool _ => []
  | .number n => numberTexts lang n
  | .string s => [s]
  | .sequence items => itemTexts lang items
  | .mapping entries => entryTexts lang entries
  | .tagged _ inner => literalTexts lang inner

/-- The texts of items. -/
def itemTexts (lang : Language) : List Value → List String
  | [] => []
  | v :: more => literalTexts lang v ++ itemTexts lang more

/-- The texts of a key. The client has the text of its expression, if it is no string. -/
def keyTexts : Language → Value → List String
  | .server, k => literalTexts .server k
  | .client, .string s => propertyTexts s
  | .client, k => [Client.literal k]

/-- The texts of entries. -/
def entryTexts (lang : Language) : List (Value × Value) → List String
  | [] => []
  | (k, v) :: more => keyTexts lang k ++ literalTexts lang v ++ entryTexts lang more

end

theorem itemTexts_eq (lang : Language) (items : List Value) :
    itemTexts lang items = items.flatMap (literalTexts lang) :=
  eq_flatMap (itemTexts lang) (by rw [itemTexts]) (fun _ _ => by rw [itemTexts]) items

theorem entryTexts_eq (lang : Language) (entries : Entries) : entryTexts lang entries =
    entries.flatMap fun e => keyTexts lang e.1 ++ literalTexts lang e.2 :=
  eq_flatMap (entryTexts lang) (by rw [entryTexts]) (fun _ _ => by rw [entryTexts]) entries

/-! ## Parts of lines -/

variable {lang : Language} {name : String}

theorem not_mem_of_isIdentifier {cs : List Char} (h : Name.isIdentifier cs) : '"' ∉ cs :=
  fun hmem => absurd ((Name.isIdentifier_iff.1 h).2.2 _ hmem) (by decide)

theorem embeds_name (h : Name.isIdentifier name.toList) : Embeds lang name.toList [] :=
  embeds_plain (not_mem_of_isIdentifier h)

/-- The text of a number has no quotes. -/
theorem embeds_number {cs : List Char} (h : ∀ c ∈ cs, Numeric.isNumberChar c) : Embeds lang cs [] :=
  embeds_plain fun hmem => absurd (h _ hmem) (by decide)

/-! ## Types -/

namespace Server.TypeExpr

/-- A name with an argument in brackets. -/
theorem embeds_apply {head : String} {args : List TypeExpr} {texts : List String}
    (hhead : '"' ∉ head.toList) (h : Embeds .server (charsAll args) texts) :
    Embeds .server (chars (.apply head args)) texts := by
  have hopen : '"' ∉ head.toList ++ ['['] := by simp [hhead]
  have hwrapped := (h.before [']'] (by decide)).behind _ hopen
  rwa [List.append_assoc] at hwrapped

/-- **An annotation has the texts of the schema as its literals.** -/
theorem embeds_ofSchema (s : Schema) : Embeds .server (ofSchema s).chars s.texts := by
  induction s with
  | primitive kind format =>
    obtain ⟨n, hn, hkind⟩ := exists_ofKind kind format
    rw [ofSchema, hkind]
    exact embeds_name (isIdentifier_vocabulary n hn)
  | reference component => exact embeds_name (Name.isIdentifier_declaration component)
  | untyped => exact embeds_plain (by decide)
  | object properties required _ =>
    have hplain : '"' ∉ mapping.chars := by decide
    exact embeds_plain hplain
  | array items ih | nullable inner ih => exact embeds_apply (by decide) ih
  | enumeration values =>
    rw [ofSchema, Schema.texts]
    split
    · rename_i hempty
      rw [List.isEmpty_iff.1 hempty]
      exact embeds_plain (by decide)
    · refine embeds_apply (by decide) ?_
      have hvalues : Embeds .server _ (values.flatMap _) := embeds_map [',', ' '] (by decide) (by decide)
        fun v _ => embeds_quoteChars v.toList
      rw [charsAll_texts]
      simpa using hvalues

end Server.TypeExpr

namespace Client.TypeExpr

/-- **A type has the texts of the schema as its literals.** -/
theorem embeds_ofSchema (s : Schema) : Embeds .client (ofSchema s).chars s.texts := by
  induction s with
  | primitive kind format =>
    obtain ⟨n, hn, hkind⟩ := exists_ofKind kind format
    rw [ofSchema, hkind]
    exact embeds_name (isIdentifier_vocabulary n hn)
  | reference component => exact embeds_name (Name.isIdentifier_declaration component)
  | untyped => exact embeds_plain (by decide)
  | object properties required _ =>
    have hplain : '"' ∉ record.chars := by decide
    exact embeds_plain hplain
  | array items ih =>
    rw [ofSchema, chars_array]
    split
    · exact (ih.before [')', '[', ']'] (by decide)).behind ['('] (by decide)
    · exact ih.before _ (by decide)
  | nullable inner ih =>
    rw [ofSchema, chars_orNull]
    exact ih.before _ (by decide)
  | enumeration values =>
    rw [ofSchema, Schema.texts]
    split
    · rename_i hempty
      rw [List.isEmpty_iff.1 hempty]
      exact embeds_plain (by decide)
    · have hvalues : Embeds .client _ (values.flatMap _) := embeds_map [' ', '|', ' '] (by decide) (by decide)
        fun v _ => embeds_quoteChars v.toList
      rw [chars_union, charsAll_texts]
      simpa using hvalues

end Client.TypeExpr

/-! ## Values -/

namespace Server

theorem embeds_numberLiteral (n : Number) :
    Embeds .server (numberLiteral n).toList (numberTexts .server n) := by
  -- a call with the name of what is no finite number
  have hcall (given : String) :
      Embeds .server ("float(".toList ++ (quoteChars given.toList ++ [')'])) [given] := by
    have hname : Embeds .server (quoteChars given.toList) [String.ofList given.toList] :=
      embeds_quoteChars given.toList
    rw [String.ofList_toList] at hname
    exact (hname.before _ (by decide)).behind _ (by decide)
  have hnumber (n : Number) : Embeds .server n.text.toList [] := embeds_number (Numeric.forall_number n)
  unfold numberLiteral
  split
  · exact hcall "nan"
  · exact hcall "inf"
  · exact hcall "-inf"
  · have hnone : numberTexts .server n = [] := by
      unfold numberTexts
      split <;> simp_all
    rw [hnone]
    exact hnumber n

/-- **An expression of a value has the texts of the value as its literals.** -/
theorem embeds_literalChars (v : Value) : Embeds .server (literalChars v) (literalTexts .server v) := by
  induction v with
  | null =>
    rw [literalChars, literalTexts]
    exact embeds_plain (by decide)
  | bool b =>
    cases b with
    | true | false =>
      rw [literalChars, literalTexts]
      exact embeds_plain (by decide)
  | number n =>
    rw [literalChars, literalTexts]
    exact embeds_numberLiteral n
  | string s =>
    rw [literalChars, literalTexts]
    have hquote : Embeds .server (quote s).toList [s] := embeds_quote s
    rwa [quote, String.toList_ofList] at hquote
  | sequence items ih =>
    rw [literalChars, literalTexts, itemTexts_eq, itemChars_eq]
    have hitems := embeds_map [',', ' '] (by decide) (by decide) ih
    exact (hitems.before _ (by decide)).behind ['['] (by decide)
  | mapping entries ih =>
    have hentry (e : Value × Value) (he : e ∈ entries) : Embeds .server (pairChars e)
        (keyTexts .server e.1 ++ literalTexts .server e.2) := by
      rw [keyTexts]
      exact (ih e he).1.append ((ih e he).2.behind [':', ' '] (by decide)) (by simp)
    rw [literalChars, literalTexts, entryTexts_eq, entryChars_eq]
    have hentries := embeds_map [',', ' '] (by decide) (by decide) hentry
    exact (hentries.before _ (by decide)).behind ['\x7b'] (by decide)
  | tagged tag inner ih =>
    rw [literalChars, literalTexts]
    exact ih

end Server

namespace Client

/-- **A property key has the name as its literal**, if it needs quotes. -/
theorem embeds_propertyKey (name : String) : Embeds .client (propertyKey name).toList (propertyTexts name) := by
  unfold propertyKey propertyTexts
  split
  · rename_i hkey
    obtain ⟨c, cs, hchars, -, hall⟩ := exists_of_isPropertyKey hkey
    rw [hchars]
    exact embeds_plain fun hmem => absurd (hall _ hmem) (by decide)
  · exact embeds_quote name

theorem embeds_numberLiteral (n : Number) : Embeds .client (numberLiteral n).toList [] := by
  unfold numberLiteral
  split
  · exact embeds_plain (by decide)
  · exact embeds_plain (by decide)
  · exact embeds_plain (by decide)
  · exact embeds_number (Numeric.forall_number n)

theorem embeds_keyChars (v : Value) : Embeds .client (keyChars v) (keyTexts .client v) := by
  unfold keyChars
  split
  · rw [keyTexts]
    exact embeds_propertyKey _
  · rename_i hstring
    rw [keyTexts]
    · exact embeds_quoteChars _
    · exact hstring

/-- **An expression of a value has the texts of the value as its literals.** -/
theorem embeds_literalChars (v : Value) : Embeds .client (literalChars v) (literalTexts .client v) := by
  induction v with
  | null =>
    rw [literalChars, literalTexts]
    exact embeds_plain (by decide)
  | bool b =>
    cases b with
    | true | false =>
      rw [literalChars, literalTexts]
      exact embeds_plain (by decide)
  | number n =>
    rw [literalChars, literalTexts, numberTexts]
    · exact embeds_numberLiteral n
    all_goals simp
  | string s =>
    rw [literalChars, literalTexts]
    have hquote : Embeds .client (quote s).toList [s] := embeds_quote s
    rwa [quote, String.toList_ofList] at hquote
  | sequence items ih =>
    rw [literalChars, literalTexts, itemTexts_eq, itemChars_eq]
    have hitems := embeds_map [',', ' '] (by decide) (by decide) ih
    exact (hitems.before _ (by decide)).behind ['['] (by decide)
  | mapping entries ih =>
    have hentry (e : Value × Value) (he : e ∈ entries) : Embeds .client (pairChars e)
        (keyTexts .client e.1 ++ literalTexts .client e.2) :=
      (embeds_keyChars e.1).append ((ih e he).2.behind [':', ' '] (by decide)) (by simp)
    rw [literalTexts, entryTexts_eq]
    have hentries := embeds_map [',', ' '] (by decide) (by decide) hentry
    rw [← entryChars_eq] at hentries
    cases entries with
    | nil =>
      rw [literalChars]
      exact embeds_plain (by decide)
    | cons first entries =>
      rw [literalChars]
      · exact (hentries.before _ (by decide)).behind ['\x7b', ' '] (by decide)
      · simp
  | tagged tag inner ih =>
    rw [literalChars, literalTexts]
    exact ih

end Client

end ApiCodegen
