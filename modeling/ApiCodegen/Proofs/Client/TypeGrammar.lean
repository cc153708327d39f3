import ApiCodegen.Proofs.Client.TypeExpr
import ApiCodegen.Proofs.Text.Bracket

/-!
# Types of the client are read as they are meant

Items of an array are put in parentheses when a bar is found in their text, which may also stand inside
a literal. Whether this is enough is a question about the grammar of types: brackets bind tighter than
bars, and parentheses bind everything.

* `TypeExpr.denoted`: the type that a schema means; what admits several types is a flat union.
* `TypeExpr.Derives`: **the grammar of types**, over tokens.
* `TypeReader`, `TypeExpr.read`: a reader that goes through the tokens once.
* `TypeExpr.read_of_derives`: **what the grammar derives is what the reader finds**, so no text has two
  types.
* `TypeExpr.members_eq_singleton`: a type that is written without a bar has one alternative.
* `TypeExpr.isType_ofSchema_iff`: **a written type derives the type that its schema means, and no other.**
-/

namespace ApiCodegen.Client

open Text

namespace TypeExpr

/-! ## What a schema means -/

/-- A type of some alternatives. A single alternative is no union. -/
def ofMembers : List TypeExpr → TypeExpr
  | [t] => t
  | members => .union members

/-- The alternatives that a schema admits. -/
def members : Schema → List TypeExpr
  | .primitive .string format =>
    if format = some "date-time" then [.name dateTimeName] else [.name "string"]
  | .primitive .boolean _ => [.name "boolean"]
  | .primitive _ _ => [.name "number"]
  | .enumeration values => if values.isEmpty then [.name "string"] else values.map .text
  | .array items => [.array (ofMembers (members items))]
  | .object _ _ => [.record]
  | .reference component => [.name (Name.declaration component)]
  | .nullable inner => members inner ++ [.name "null"]
  | .untyped => [.name "any"]

/-- **The type that a schema means.** -/
def denoted (s : Schema) : TypeExpr := ofMembers (members s)

/-! ## The grammar -/

/-- What some tokens may be: a type that brackets can follow, or alternatives between bars. -/
inductive Phrase where
  | operand (t : TypeExpr)
  | alternatives (members : List TypeExpr)

/-- The tokens of an open record behind its name. -/
def recordTail : List Token := [.word "string", .mark ',', .word "any", .mark '>']

/-- **The grammar of types.** -/
inductive Derives : List Token → Phrase → Prop
  | name (n : String) : Derives [.word n] (.operand (.name n))
  | text (value : String) : Derives [.text value] (.operand (.text value))
  | record : Derives (.word "Record" :: .mark '<' :: recordTail) (.operand .record)
  | parentheses {ts : List Token} {alternatives : List TypeExpr}
      (h : Derives ts (.alternatives alternatives)) :
      Derives (.mark '(' :: (ts ++ [.mark ')'])) (.operand (ofMembers alternatives))
  | array {ts : List Token} {t : TypeExpr} (h : Derives ts (.operand t)) :
      Derives (ts ++ [.mark '[', .mark ']']) (.operand (.array t))
  | one {ts : List Token} {t : TypeExpr} (h : Derives ts (.operand t)) :
      Derives ts (.alternatives [t])
  | more {ts us : List Token} {t : TypeExpr} {alternatives : List TypeExpr}
      (h : Derives ts (.operand t)) (hmore : Derives us (.alternatives alternatives)) :
      Derives (ts ++ .mark '|' :: us) (.alternatives (t :: alternatives))

/-- Some tokens are a type. -/
def IsType (ts : List Token) (t : TypeExpr) : Prop :=
  ∃ alternatives, Derives ts (.alternatives alternatives) ∧ t = ofMembers alternatives

end TypeExpr

/-! ## A reader -/

/-- Where a reader stands in a type. -/
inductive TypePlace where
  | operand
  /-- Behind a name, which may be that of the open record. -/
  | named (n : String)
  | behind (t : TypeExpr)
  | bracket (t : TypeExpr)
  | record (expected : List Token)

/-- A reader of types: the alternatives that are finished, here and outside of every parenthesis that is
open. -/
structure TypeReader where
  outer : List (List TypeExpr) := []
  finished : List TypeExpr := []
  place : TypePlace := .operand

namespace TypeReader

/-- A token behind a type. -/
def next (r : TypeReader) (t : TypeExpr) : Token → Option TypeReader
  | .mark '[' => some { r with place := .bracket t }
  | .mark '|' => some { r with finished := r.finished ++ [t], place := .operand }
  | .mark ')' =>
    match r.outer with
    | [] => none
    | finished :: outer => some ⟨outer, finished, .behind (.ofMembers (r.finished ++ [t]))⟩
  | _ => none

/-- One token. -/
def step (r : TypeReader) (token : Token) : Option TypeReader :=
  match r.place with
  | .operand =>
    match token with
    | .word n => some { r with place := .named n }
    | .text value => some { r with place := .behind (.text value) }
    | .mark '(' => some ⟨r.finished :: r.outer, [], .operand⟩
    | _ => none
  | .named n =>
    if n = "Record" ∧ token = .mark '<' then some { r with place := .record TypeExpr.recordTail }
    else r.next (.name n) token
  | .behind t => r.next t token
  | .bracket t => if token = .mark ']' then some { r with place := .behind (.array t) } else none
  | .record [last] => if token = last then some { r with place := .behind .record } else none
  | .record (first :: more) => if token = first then some { r with place := .record more } else none
  | .record [] => none

/-- The type that was read. -/
def result? (r : TypeReader) : Option TypeExpr :=
  match r.outer, r.place with
  | [], .named n => some (.ofMembers (r.finished ++ [.name n]))
  | [], .behind t => some (.ofMembers (r.finished ++ [t]))
  | _, _ => none

end TypeReader

namespace TypePlace

/-- A type stands in front of this place. -/
inductive Behind : TypePlace → TypeExpr → Prop
  | named (n : String) : Behind (.named n) (.name n)
  | behind (t : TypeExpr) : Behind (.behind t) t

end TypePlace

namespace TypeExpr

/-- The type that some tokens are. -/
def read (ts : List Token) : Option TypeExpr :=
  (ts.foldlM TypeReader.step {}).bind TypeReader.result?

section Reader

variable {ts : List Token} {t : TypeExpr} {alternatives finished : List TypeExpr}
  {outer : List (List TypeExpr)} {place : TypePlace}

theorem step_bracket (h : place.Behind t) :
    TypeReader.step ⟨outer, finished, place⟩ (.mark '[') = some ⟨outer, finished, .bracket t⟩ := by
  cases h with
  | named n => exact if_neg (by simp)
  | behind => rfl

theorem step_bar (h : place.Behind t) :
    TypeReader.step ⟨outer, finished, place⟩ (.mark '|') =
      some ⟨outer, finished ++ [t], .operand⟩ := by
  cases h with
  | named n => exact if_neg (by simp)
  | behind => rfl

theorem step_close (h : place.Behind t) {inner : List TypeExpr} :
    TypeReader.step ⟨finished :: outer, inner, place⟩ (.mark ')') =
      some ⟨outer, finished, .behind (ofMembers (inner ++ [t]))⟩ := by
  cases h with
  | named n => exact if_neg (by simp)
  | behind => rfl

theorem result?_eq (h : place.Behind t) :
    TypeReader.result? ⟨[], finished, place⟩ = some (ofMembers (finished ++ [t])) := by
  cases h <;> rfl

/-- What a reader has done behind a phrase. -/
def Finds (ts : List Token) : Phrase → Prop
  | .operand t => ∀ outer finished, ∃ place : TypePlace, place.Behind t ∧
      ts.foldlM TypeReader.step ⟨outer, finished, .operand⟩ = some ⟨outer, finished, place⟩
  | .alternatives alternatives => ∀ outer finished, ∃ front t, ∃ place : TypePlace,
      alternatives = front ++ [t] ∧ place.Behind t ∧
        ts.foldlM TypeReader.step ⟨outer, finished, .operand⟩ = some ⟨outer, finished ++ front, place⟩

/-- **The reader finds every phrase**, inside whatever is open around it. -/
theorem finds_of_derives {phrase : Phrase} (h : Derives ts phrase) : Finds ts phrase := by
  induction h with
  | name n => exact fun outer finished => ⟨.named n, .named n, rfl⟩
  | text value => exact fun outer finished => ⟨.behind (.text value), .behind _, rfl⟩
  | record => exact fun outer finished => ⟨.behind .record, .behind _, rfl⟩
  | @parentheses ts alternatives h ih =>
    intro outer finished
    obtain ⟨front, t, place, rfl, hbehind, hrun⟩ := ih (finished :: outer) []
    refine ⟨.behind (ofMembers (front ++ [t])), .behind _, ?_⟩
    have hopen : TypeReader.step ⟨outer, finished, .operand⟩ (.mark '(') =
        some ⟨finished :: outer, [], .operand⟩ := rfl
    rw [foldlM_cons_of_some hopen, foldlM_append_of_some hrun, foldlM_cons_of_some (step_close hbehind)]
    rfl
  | @array ts t h ih =>
    intro outer finished
    obtain ⟨place, hbehind, hrun⟩ := ih outer finished
    refine ⟨.behind (.array t), .behind _, ?_⟩
    rw [foldlM_append_of_some hrun, foldlM_cons_of_some (step_bracket hbehind)]
    rfl
  | @one ts t h ih =>
    intro outer finished
    obtain ⟨place, hbehind, hrun⟩ := ih outer finished
    exact ⟨[], t, place, rfl, hbehind, by rw [hrun, List.append_nil]⟩
  | @more ts us t alternatives h hmore ih ihmore =>
    intro outer finished
    obtain ⟨place, hbehind, hrun⟩ := ih outer finished
    obtain ⟨front, last, lastPlace, rfl, hlast, hrest⟩ := ihmore outer (finished ++ [t])
    refine ⟨t :: front, last, lastPlace, rfl, hlast, ?_⟩
    rw [foldlM_append_of_some hrun, foldlM_cons_of_some (step_bar hbehind), hrest, List.append_assoc,
      List.singleton_append]

/-- **What the grammar derives is what the reader finds.** -/
theorem read_of_isType (h : IsType ts t) : read ts = some t := by
  obtain ⟨alternatives, hderives, rfl⟩ := h
  obtain ⟨front, last, place, rfl, hbehind, hrun⟩ := finds_of_derives hderives [] []
  have hread : ts.foldlM TypeReader.step {} = some ⟨[], [] ++ front, place⟩ := hrun
  rw [read, hread, Option.bind_some, List.nil_append, result?_eq hbehind]

end Reader

/-! ## Written types -/

mutual

/-- The tokens of a written type. -/
def written : TypeExpr → List Token
  | .name n => [.word n]
  | .text value => [.text value]
  | .record => .word "Record" :: .mark '<' :: recordTail
  | .array items =>
    if hasBar items.chars then .mark '(' :: (written items ++ [.mark ')', .mark '[', .mark ']'])
    else written items ++ [.mark '[', .mark ']']
  | .union members => writtenAll members

/-- The tokens of alternatives, with bars between them. -/
def writtenAll : List TypeExpr → List Token
  | [] => []
  | [t] => written t
  | t :: more => written t ++ .mark '|' :: writtenAll more

end

variable {ts : List Token} {t : TypeExpr}

theorem writtenAll_texts (values : List String) : writtenAll (values.map .text) =
    List.intercalate [.mark '|'] (values.map fun v => [.text v]) :=
  eq_intercalate_map (fun values => writtenAll (values.map .text)) rfl (fun _ => rfl) (fun _ _ _ => rfl) values

/-- **A written type is read as its tokens**, wherever it stands. -/
theorem reads_ofSchema (s : Schema) : Reads .client (ofSchema s).chars (ofSchema s).written := by
  induction s with
  | primitive kind format =>
    obtain ⟨n, hn, hkind⟩ := exists_ofKind kind format
    rw [ofSchema, hkind]
    exact reads_word (isIdentifier_vocabulary n hn)
  | reference name => exact reads_word (Name.isIdentifier_declaration name)
  | untyped => exact reads_word (by decide)
  | object properties required _ =>
    have harguments : Reads .client ("string".toList ++ ',' :: ' ' :: "any".toList)
        [.word "string", .mark ',', .word "any"] :=
      .cons_word (by decide) (by decide) (.cons_comma (reads_word (by decide)))
    have hrecord :
        Reads .client ("Record".toList ++ '<' :: ("string".toList ++ ',' :: ' ' :: "any".toList ++ ['>']))
        (.word "Record" :: .mark '<' :: recordTail) :=
      .cons_word (by decide) (by decide) (harguments.wrap (by decide))
    exact hrecord
  | array items ih =>
    have hbrackets : Reads .client ['[', ']'] [.mark '[', .mark ']'] := reads_nil.wrap (by decide)
    simp only [ofSchema, chars_array, written]
    split
    · exact .cons_mark (by decide) (ih.append (by decide) (.cons_mark (by decide) hbrackets))
    · exact ih.append (by decide) hbrackets
  | nullable inner ih =>
    rw [ofSchema, chars_orNull]
    have hnull : Reads .client (' ' :: '|' :: ' ' :: "null".toList) [.mark '|', .word "null"] :=
      .cons_space (.cons_mark (by decide) (.cons_space (reads_word (by decide))))
    exact ih.append (by decide) hnull
  | enumeration values =>
    rw [ofSchema]
    split
    · exact reads_word (by decide)
    · rw [chars_union, charsAll_texts, written, writtenAll_texts]
      exact reads_texts (by decide) (fun h => .cons_space (.cons_mark (by decide) (.cons_space h))) values

theorem tokens_ofSchema (s : Schema) : tokens .client (ofSchema s).render = (ofSchema s).written :=
  (reads_ofSchema s).tokens_ofList

/-! ## Bars -/

theorem hasBar_append (front more : List Char) : hasBar (front ++ ' ' :: '|' :: ' ' :: more) = true := by
  induction front with
  | nil => rfl
  | cons c front ih =>
    rw [List.cons_append]
    unfold hasBar
    split
    · rfl
    · rename_i hcons
      obtain ⟨-, rfl⟩ := List.cons.inj hcons
      exact ih
    · rename_i hnil
      cases hnil

/-- **A type that is written without a bar has one alternative**, whatever its literals are. -/
theorem members_eq_singleton {s : Schema} (h : hasBar (ofSchema s).chars = false) :
    ∃ t, members s = [t] := by
  cases s with
  | enumeration values =>
    rw [ofSchema] at h
    rw [members]
    split at h
    · rename_i hempty
      exact ⟨_, if_pos hempty⟩
    · rename_i hne
      rw [if_neg hne]
      cases values with
      | nil => exact absurd rfl hne
      | cons v more =>
        cases more with
        | nil => exact ⟨_, rfl⟩
        | cons w more =>
          rw [chars_union, List.map_cons, List.map_cons, charsAll_cons_cons, hasBar_append] at h
          cases h
  | nullable inner =>
    rw [ofSchema, chars_orNull, hasBar_append] at h
    cases h
  | primitive kind format =>
    cases kind with
    | string =>
      rw [members]
      split <;> exact ⟨_, rfl⟩
    | integer | number | boolean => exact ⟨_, rfl⟩
  | array | object | reference | untyped => exact ⟨_, rfl⟩

/-! ## Written types are types -/

theorem derives_texts (v : String) (values : List String) :
    Derives (writtenAll ((v :: values).map .text)) (.alternatives ((v :: values).map .text)) := by
  induction values generalizing v with
  | nil => exact .one (.text v)
  | cons w values ih => exact .more (.text v) (ih w)

/-- Alternatives in front of one more. -/
theorem derives_append {alternatives : List TypeExpr} {us : List Token}
    (h : Derives ts (.alternatives alternatives)) (hlast : Derives us (.operand t)) :
    Derives (ts ++ .mark '|' :: us) (.alternatives (alternatives ++ [t])) := by
  generalize hphrase : Phrase.alternatives alternatives = phrase at h
  induction h generalizing alternatives with
  | name | text | record | parentheses | array => cases hphrase
  | one hfirst =>
    cases hphrase
    exact .more hfirst (.one hlast)
  | more hfirst hmore _ ih =>
    cases hphrase
    rw [List.append_assoc, List.cons_append]
    exact .more hfirst (ih rfl)

/-- A single alternative can have brackets behind it. -/
theorem operand_of_alternatives (h : Derives ts (.alternatives [t])) : Derives ts (.operand t) := by
  cases h with
  | one hone => exact hone
  | more hfirst hmore =>
    cases hmore

theorem derives_ofSchema (s : Schema) : Derives (ofSchema s).written (.alternatives (members s)) := by
  induction s with
  | primitive kind format =>
    cases kind with
    | string =>
      rw [ofSchema, ofKind, members]
      split <;> exact .one (.name _)
    | integer | number | boolean => exact .one (.name _)
  | reference name => exact .one (.name _)
  | untyped => exact .one (.name _)
  | object properties required _ => exact .one .record
  | enumeration values =>
    rw [ofSchema, members]
    split
    · exact .one (.name _)
    · rename_i hne
      obtain ⟨v, values, rfl⟩ := List.exists_cons_of_ne_nil (mt List.isEmpty_iff.2 hne)
      exact derives_texts v values
  | nullable inner ih => exact derives_append ih (.name _)
  | array items ih =>
    rw [ofSchema, members, written]
    refine .one ?_
    split
    · -- whatever stands in parentheses can have brackets behind it
      have hitems := Derives.array (.parentheses ih)
      rwa [List.cons_append, List.append_assoc] at hitems
    · rename_i hbar
      obtain ⟨t, ht⟩ := members_eq_singleton (by simpa using hbar)
      rw [ht] at ih ⊢
      exact .array (operand_of_alternatives ih)

/-- **A written type derives the type that its schema means, and no other.** -/
theorem isType_ofSchema_iff (s : Schema) (t : TypeExpr) :
    IsType (tokens .client (ofSchema s).render) t ↔ t = denoted s := by
  have hdenoted : IsType (tokens .client (ofSchema s).render) (denoted s) := by
    rw [tokens_ofSchema]
    exact ⟨members s, derives_ofSchema s, rfl⟩
  refine ⟨fun h => ?_, fun h => h ▸ hdenoted⟩
  have hread := read_of_isType hdenoted
  rw [read_of_isType h] at hread
  exact Option.some.inj hread

end TypeExpr

end ApiCodegen.Client
