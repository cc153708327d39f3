import ApiCodegen.Proofs.Name.Legal
import ApiCodegen.Proofs.Plan.Route
import ApiCodegen.Proofs.Server.Docstring
import ApiCodegen.Proofs.Server.Literal
import ApiCodegen.Proofs.Server.TypeGrammar
import ApiCodegen.Server.Models

/-!
# What the text of a models file declares

The text is read from its tokens on, line by line: a class with the indented lines behind it, or a
definition. Whether a name is a keyword is not asked.

* `Line`, `logicalLines`: the lines of a file, as their indentations and tokens.
* `DeclaredField`, `field?`: an attribute as it is read. What it holds is named by its alias, or by itself;
  its default stands behind `=`, or in a call of `Field`.
* `Declared`, `declared?`, `declaredIn`: **what is declared in a text.**
* `ReadLines`, `Body`, `Declares`: some lines of a text are read as some lines, make a body, or declare
  something in front of whatever follows.
* `Attribute.Proper.exists_isLine`, `Attribute.IsLine.field?_eq`: **the line of an attribute is read as the
  attribute.**
* `ModelClass.BodyLines`, `ModelClass.exists_bodyLines`: **the body of a class is read as its attributes**,
  behind what no reader of attributes looks at.
* `ModelsFile.declaredIn_render`: **what the text of a models file declares.**
-/

namespace ApiCodegen.Server

open Markup (Value)
open Numeric Text

/-! ## Reading lines -/

/-- A line, as its indentation and its tokens. -/
abbrev Line := ℕ × List Token

/-- Whether a line starts here. -/
def startsLine : Token → Bool
  | .line _ => true
  | _ => false

/-- The lines of some tokens. -/
def logicalLines : List Token → List Line
  | [] => []
  | .line indent :: rest => (indent, rest.takeWhile fun t => !startsLine t) :: logicalLines rest
  | _ :: rest => logicalLines rest

/-- An attribute, as its name, the property that it holds, and the tokens of its default. -/
structure DeclaredField where
  name : String
  property : String
  default? : Option (List Token)
  deriving DecidableEq

/-- What a file declares. -/
inductive Declared where
  | alias (name : String)
  | model (name : String) (fields : List DeclaredField)
  deriving DecidableEq

/-- An argument, as its keyword and its value. -/
abbrev Argument := Option String × List Token

def argumentOf : List Token → Argument
  | .word keyword :: .mark '=' :: value => (some keyword, value)
  | value => (none, value)

/-- The value that stands for no default. -/
def ellipsis : List Token := [.mark '.', .mark '.', .mark '.']

/-- The default that an argument of `Field` gives. -/
def Argument.default? : Argument → Option (List Token)
  | (none, value) => if value = ellipsis then none else some value
  | (some keyword, value) => if keyword = "default" then some value else none

/-- The alias that an argument of `Field` gives. -/
def Argument.alias? : Argument → Option String
  | (some "alias", [.text property]) => some property
  | _ => none

/-- The alias and the default of a value. -/
def meaning : List Token → Option String × Option (List Token)
  | .word "Field" :: .mark '(' :: more =>
    let arguments := (parts (separatedBy ',') 0 more.dropLast).map argumentOf
    (arguments.findSome? Argument.alias?, arguments.findSome? Argument.default?)
  | value => (none, some value)

/-- The attribute that a line of a class declares. -/
def field? : Line → Option DeclaredField
  | (_, .word name :: .mark ':' :: more) =>
    match more.dropWhile fun t => t ≠ .mark '=' with
    | [] => some ⟨name, name, none⟩
    | _ :: value => some ⟨name, (meaning value).1.getD name, (meaning value).2⟩
  | _ => none

/-- What a line declares, with a body behind it. -/
def declared? (body : List Line) : Line → Option Declared
  | (0, .word "class" :: .word name :: _) => some (.model name (body.filterMap field?))
  | (0, .word name :: .mark '=' :: _) => some (.alias name)
  | _ => none

/-- What some lines declare. The indented lines behind a line are its body. -/
def declaredBy : List Line → List Declared
  | [] => []
  | line :: rest =>
    (declared? (rest.takeWhile fun l => 0 < l.1) line).toList ++ declaredBy rest

/-- **What is declared in a text.** -/
def declaredIn (text : String) : List Declared := declaredBy (logicalLines (fileTokens .server text))

/-! ## Lines -/

variable {ts us : List Token} {cs : List Char} {lines more : List String} {ls rest : List Line} {l : String}
  {n : ℕ}

/-- The tokens of some lines. -/
def lineTokens (ls : List Line) : List Token := ls.flatMap fun l => .line l.1 :: l.2

/-- No line starts inside of a line. -/
def Whole (ls : List Line) : Prop := ∀ l ∈ ls, ∀ t ∈ l.2, startsLine t = false

theorem startsLine_of_nested {b : Bool} (h : Nested b ts) : ∀ t ∈ ts, startsLine t = false := by
  intro t ht
  cases t with
  | line indent => exact absurd rfl (h.ne_line ht indent)
  | word | text | mark | unreadable => rfl

/-- **The lines of some tokens are found again.** -/
theorem logicalLines_lineTokens (h : Whole ls) : logicalLines (lineTokens ls) = ls := by
  have hskip (ts : List Token) (hts : ∀ t ∈ ts, startsLine t = false) (rest : List Token) :
      logicalLines (ts ++ rest) = logicalLines rest := by
    induction ts with
    | nil => rfl
    | cons t ts ih =>
      have hmore := ih fun u hu => hts u (List.mem_cons_of_mem _ hu)
      have ht := hts t List.mem_cons_self
      cases t with
      | line => cases ht
      | word | text | mark | unreadable => exact hmore
  induction ls with
  | nil => rfl
  | cons l ls ih =>
    have hl := h l List.mem_cons_self
    have hmore := ih fun m hm => h m (List.mem_cons_of_mem _ hm)
    have htake : (l.2 ++ lineTokens ls).takeWhile (fun t => !startsLine t) = l.2 := by
      rw [List.takeWhile_append_of_pos fun t ht => by simp [hl t ht]]
      cases ls with
      | nil => simp [lineTokens]
      | cons m ls => simp [lineTokens, startsLine]
    have htokens : lineTokens (l :: ls) = .line l.1 :: (l.2 ++ lineTokens ls) := rfl
    rw [htokens, logicalLines, htake, hskip _ hl, hmore]

theorem lineTokens_append (ls ms : List Line) : lineTokens (ls ++ ms) = lineTokens ls ++ lineTokens ms :=
  List.flatMap_append

/-- A line behind its indentation. -/
theorem linesRead_line (hl : l.toList = List.replicate n ' ' ++ cs)
    (hstart : ∃ c ∈ cs.head?, Name.isWordChar c) (h : Reads .server cs ts) :
    LinesRead .server [l] (lineTokens [(n, ts)]) := by
  obtain ⟨c, hc, hword⟩ := hstart
  obtain ⟨more, rfl⟩ := List.head?_eq_some_iff.1 hc
  refine linesRead_singleton fun rest => ?_
  have hstep : step .server (.line n) c = after [.line n] (opening .server c) := by
    -- a character of a word is no blank, and starts no comment
    have hne (d : Char) (hd : Name.isWordChar d = false) : c ≠ d := by
      rintro rfl
      rw [hword] at hd
      cases hd
    have hend : isLineEnd .server c = false := by
      simp [isLineEnd, hne '\n' (by decide), hne '\r' (by decide)]
    rw [step, if_neg (by simp [hend]), if_neg (hne ' ' (by decide)), if_neg (hne '#' (by decide))]
  have hline : lex .server (.line n) (c :: (more ++ '\n' :: rest)) =
      .line n :: lex .server .between (c :: (more ++ '\n' :: rest)) := by
    rw [lex, hstep, lex, step]
    rfl
  have hreads := h ('\n' :: rest) (separate_newline rest)
  rw [List.cons_append, lex_newline] at hreads
  rw [hl, newLine, List.append_assoc, lex_spaces, Nat.zero_add, List.cons_append, hline, hreads]
  simp [lineTokens, newLine]

/-- A name starts with a character of a word. -/
theorem head?_name {name : String} (h : Name.isIdentifier name.toList) (cs : List Char) :
    ∃ c ∈ (name.toList ++ cs).head?, Name.isWordChar c := by
  obtain ⟨hne, -, hall⟩ := Name.isIdentifier_iff.1 h
  rw [List.head?_append_of_ne_nil _ hne]
  obtain ⟨c, more, hchars⟩ := List.exists_cons_of_ne_nil hne
  refine ⟨c, by rw [hchars]; rfl, hall c ?_⟩
  rw [hchars]
  exact List.mem_cons_self

/-! ## Annotations -/

namespace TypeExpr

/-- Brackets of annotations are closed, and arguments have commas between them. -/
theorem nested_of_derives {phrase : Phrase} (h : Derives ts phrase) :
    Nested (match phrase with | .operand _ => false | .arguments _ => true) ts := by
  induction h with
  | name | text => exact .singleton rfl
  | apply head _ ih => exact .token rfl (ih.wrap (by decide))
  | one _ ih => exact ih.weaken
  | more _ _ ih ihmore => exact ih.weaken.append (.comma ihmore)

/-- Nothing is assigned inside of an annotation. -/
theorem assign_not_mem {phrase : Phrase} (h : Derives ts phrase) : .mark '=' ∉ ts := by
  induction h with
  | name | text => simp
  | apply head _ ih => simpa using ih
  | one _ ih => exact ih
  | more _ _ ih ihmore => simpa using ⟨ih, ihmore⟩

/-- The annotation of a field is that of a schema. -/
theorem exists_eq_ofSchema (field : Field) : ∃ s, Attribute.annotationOf field = .ofSchema s := by
  have hoptional : ∃ s, optional field.schema = .ofSchema s := by
    unfold optional
    split
    · exact ⟨_, rfl⟩
    · exact ⟨.nullable field.schema, rfl⟩
  unfold Attribute.annotationOf
  split
  · exact ⟨_, rfl⟩
  · exact hoptional
  · exact hoptional
  · exact ⟨_, rfl⟩

end TypeExpr

/-! ## Arguments -/

namespace Attribute

variable {a : Attribute}

/-- The arguments of an attribute, as keywords and texts of values. -/
def keywords (a : Attribute) : List (String × String) :=
  let pair {α : Type} (keyword : String) (text : α → String) (value : Option α) : List (String × String) :=
    (value.map fun v => (keyword, text v)).toList
  pair "alias" Text.quote a.alias? ++
  pair "description" (fun d => Text.quote (Text.trimmed d)) a.description ++
  pair "ge" bound a.constraints.minimum ++
  pair "le" bound a.constraints.maximum ++
  pair "min_length" toString a.constraints.minLength ++
  pair "max_length" toString a.constraints.maxLength

theorem arguments_eq (a : Attribute) : a.arguments = a.keywords.map fun k => k.1 ++ "=" ++ k.2 := by
  have hpair {α : Type} (keyword : String) (text : α → String) (value : Option α) :
      argument keyword text value =
        (value.map fun v => (keyword, text v)).toList.map fun k => k.1 ++ "=" ++ k.2 := by
    cases value <;> rfl
  simp only [arguments, keywords, List.map_append, hpair]

theorem readsClosed_quote (s : String) : ReadsClosed .server false (Text.quote s).toList :=
  ⟨[.text s], .singleton rfl, reads_quote s⟩

theorem readsClosed_number {text : String} (h : ∀ c ∈ text.toList, isNumberChar c) :
    ReadsClosed .server false text.toList := by
  obtain ⟨ts, hts, hreads⟩ := Numeric.exists_reads_number .server h
  exact ⟨ts, hts.nested, hreads⟩

/-- **Keywords are names, and none is that of the default.** The values are read wherever they stand. -/
theorem of_mem_keywords {k : String × String} (h : k ∈ a.keywords) : Name.isIdentifier k.1.toList ∧
    k.1 ≠ "default" ∧ ReadsClosed .server false k.2.toList := by
  have hpair {α : Type} {keyword : String} {text : α → String} {value : Option α}
      (hkeyword : Name.isIdentifier keyword.toList ∧ keyword ≠ "default")
      (htext : ∀ v, ReadsClosed .server false (text v).toList)
      (h : k ∈ (value.map fun v => (keyword, text v)).toList) : Name.isIdentifier k.1.toList ∧
        k.1 ≠ "default" ∧ ReadsClosed .server false k.2.toList := by
    obtain ⟨v, -, rfl⟩ := Option.map_eq_some_iff.1 (Option.mem_toList.1 h)
    exact ⟨hkeyword.1, hkeyword.2, htext v⟩
  simp only [keywords, List.mem_append] at h
  rcases h with ((((h | h) | h) | h) | h) | h
  · exact hpair (by decide) readsClosed_quote h
  · exact hpair (by decide) (fun d => readsClosed_quote _) h
  · exact hpair (by decide) (fun x => readsClosed_number (forall_bound x)) h
  · exact hpair (by decide) (fun x => readsClosed_number (forall_bound x)) h
  · exact hpair (by decide) (fun n => readsClosed_number fun _ => forall_nat n) h
  · exact hpair (by decide) (fun n => readsClosed_number fun _ => forall_nat n) h

/-- An argument as it is read. -/
def argumentTokens (k : String × String) : List Token :=
  .word k.1 :: .mark '=' :: tokens .server k.2

theorem reads_argument {k : String × String} (h : k ∈ a.keywords) : Nested false (argumentTokens k) ∧
    Reads .server (k.1 ++ "=" ++ k.2).toList (argumentTokens k) := by
  obtain ⟨hident, -, hclosed⟩ := of_mem_keywords h
  obtain ⟨hnested, hreads⟩ := readsClosed_tokens hclosed
  have hchars : (k.1 ++ "=" ++ k.2).toList = k.1.toList ++ '=' :: k.2.toList := by simp
  rw [hchars]
  exact ⟨.token rfl (.token rfl hnested), .cons_word hident (by decide) (.cons_mark (by decide) hreads)⟩

/-- **The arguments give the alias**, and no default. -/
theorem findSome?_arguments (a : Attribute) :
    ((a.keywords.map argumentTokens).map argumentOf).findSome? Argument.alias? = a.alias? ∧
    ((a.keywords.map argumentTokens).map argumentOf).findSome? Argument.default? = none := by
  rw [List.map_map]
  constructor
  · have hother {α : Type} {keyword : String} (text : α → String) (value : Option α)
        (hkeyword : keyword ≠ "alias") : (((value.map fun v => (keyword, text v)).toList).map
          (argumentOf ∘ argumentTokens)).findSome? Argument.alias? = none := by
      cases value with
      | none => rfl
      | some v =>
        have hnone (ts : List Token) : Argument.alias? (some keyword, ts) = none := by
          unfold Argument.alias?
          split
          · rename_i heq
            exact absurd (Option.some.inj (Prod.mk.inj heq).1) hkeyword
          · rfl
        simp [argumentOf, argumentTokens, hnone]
    have halias : (((a.alias?.map fun p => ("alias", Text.quote p)).toList).map
        (argumentOf ∘ argumentTokens)).findSome? Argument.alias? = a.alias? := by
      cases a.alias? with
      | none => rfl
      | some p =>
        have htokens : tokens .server (Text.quote p) = [.text p] := (reads_quote p).tokens_eq
        simp [argumentOf, argumentTokens, htokens, Argument.alias?]
    simp only [keywords, List.map_append, List.findSome?_append, halias]
    rw [hother _ _ (by decide), hother _ _ (by decide), hother _ _ (by decide), hother _ _ (by decide),
      hother _ _ (by decide)]
    simp
  · refine List.findSome?_eq_none_iff.2 fun x hx => ?_
    obtain ⟨k, hk, rfl⟩ := List.mem_map.1 hx
    exact if_neg (of_mem_keywords hk).2.1

/-! ## Values -/

/-- An attribute as it is declared. -/
def declared (a : Attribute) : DeclaredField :=
  ⟨a.name, a.alias?.getD a.name, a.default?.map fun v => tokens .server (literal v)⟩

theorem reads_literal (v : Value) : Nested false (tokens .server (literal v)) ∧
    NoField (tokens .server (literal v)) ∧ Reads .server (literal v).toList (tokens .server (literal v)) := by
  obtain ⟨ts, hnested, hfield, hreads⟩ := exists_reads_literalChars v
  have hliteral : Reads .server (literal v).toList ts := by
    rwa [literal, String.toList_ofList]
  rw [hliteral.tokens_eq]
  exact ⟨hnested, hfield, hliteral⟩

/-- A literal is no call, and means itself. -/
theorem meaning_of_noField (h : NoField ts) : meaning ts = (none, some ts) := by
  unfold meaning
  split
  · exact absurd rfl h
  · rfl

/-- **A call of `Field` is read as its arguments.** -/
theorem exists_reads_field {first : String} (hnested : Nested false us) (hfirst : Reads .server first.toList us)
    (halias : (argumentOf us).alias? = none) : ∃ ts, Nested false ts ∧
      Reads .server ("Field(" ++ String.intercalate ", " (first :: a.arguments) ++ ")").toList ts ∧
      meaning ts = (a.alias?, (argumentOf us).default?) := by
  have htss : ∀ ts ∈ us :: a.keywords.map argumentTokens, Nested false ts := by
    intro ts hts
    rcases List.mem_cons.1 hts with rfl | hts
    · exact hnested
    · obtain ⟨k, hk, rfl⟩ := List.mem_map.1 hts
      exact (reads_argument hk).1
  have hparts : parts (separatedBy ',') 0 (List.intercalate [.mark ','] (us :: a.keywords.map argumentTokens)) =
      us :: a.keywords.map argumentTokens :=
    parts_intercalate (List.cons_ne_nil _ _) fun ts hts => (htss ts hts).inside (quiet_comma ts 0) le_rfl
  have hreads : Reads .server (List.intercalate [',', ' '] ((first :: a.arguments).map String.toList))
      (List.intercalate [.mark ','] (us :: a.keywords.map argumentTokens)) := by
    refine reads_commas ?_
    rw [List.map_cons, arguments_eq, List.map_map]
    exact .cons hfirst (forall₂_map fun k hk => (reads_argument hk).2)
  obtain ⟨halias', hdefault⟩ := findSome?_arguments a
  refine ⟨.word "Field" :: .mark '(' :: (List.intercalate [.mark ','] (us :: a.keywords.map argumentTokens) ++
    [Token.mark ')']), .token rfl ((Nested.intercalate htss).wrap (by decide)), ?_, ?_⟩
  · have hchars : ("Field(" ++ String.intercalate ", " (first :: a.arguments) ++ ")").toList =
        "Field".toList ++ '(' :: (List.intercalate [',', ' '] ((first :: a.arguments).map String.toList) ++
          [')']) := by
      simp [String.toList_intercalate]
    rw [hchars]
    exact .cons_word (by decide) (by decide) (hreads.wrap (by decide))
  · simp only [meaning, List.dropLast_concat, hparts, List.map_cons, List.findSome?_cons, halias, halias',
      hdefault]
    cases (argumentOf us).default? <;> rfl

/-- **The value of an attribute means its alias and its default.** Without a value it has neither. -/
theorem exists_reads_value (a : Attribute) :
    (a.value? = none ∧ a.alias? = none ∧ a.default? = none) ∨
    ∃ value ts, a.value? = some value ∧ Nested false ts ∧ Reads .server value.toList ts ∧
      meaning ts = (a.alias?, a.default?.map fun v => tokens .server (literal v)) := by
  have halias (h : a.arguments = []) : a.alias? = none := by
    rw [arguments_eq, List.map_eq_nil_iff] at h
    rw [← (findSome?_arguments a).1, h]
    rfl
  unfold value?
  split
  · rename_i hdefault harguments
    exact .inl ⟨rfl, halias harguments, hdefault⟩
  · rename_i hdefault _
    -- three points stand for no default
    have hpoints : Reads .server "...".toList ellipsis :=
      .cons_mark (by decide) (.cons_mark (by decide) (.cons_mark (by decide) reads_nil))
    have hnested : Nested false ellipsis := .token rfl (.token rfl (.singleton rfl))
    obtain ⟨ts, hts, hreads, hmeaning⟩ := exists_reads_field (a := a) hnested hpoints rfl
    refine .inr ⟨_, ts, rfl, hts, hreads, ?_⟩
    rw [hmeaning, hdefault]
    rfl
  · rename_i v hdefault harguments
    obtain ⟨hnested, hfield, hreads⟩ := reads_literal v
    refine .inr ⟨_, _, rfl, hnested, hreads, ?_⟩
    rw [meaning_of_noField hfield, hdefault, halias harguments]
    rfl
  · rename_i v hdefault _
    obtain ⟨hnested, -, hreads⟩ := reads_literal v
    have hkeyword : Reads .server ("default=" ++ literal v).toList
        (.word "default" :: .mark '=' :: tokens .server (literal v)) := by
      have hchars : ("default=" ++ literal v).toList = "default".toList ++ '=' :: (literal v).toList := by
        simp
      rw [hchars]
      exact .cons_word (by decide) (by decide) (.cons_mark (by decide) hreads)
    obtain ⟨ts, hts, hreads, hmeaning⟩ :=
      exists_reads_field (a := a) (.token rfl (.token rfl hnested)) hkeyword rfl
    refine .inr ⟨_, ts, rfl, hts, hreads, ?_⟩
    rw [hmeaning, hdefault]
    rfl

end Attribute

/-! ## Bodies -/

variable {fields : List DeclaredField}

/-- **Some lines of a text are read as some lines.** -/
structure ReadLines (lines : List String) (ls : List Line) : Prop where
  read : LinesRead .server lines (lineTokens ls)
  whole : Whole ls

theorem readLines_nil (h : LinesRead .server lines []) : ReadLines lines [] :=
  ⟨h, fun _ hl => absurd hl List.not_mem_nil⟩

/-- Lines that are read as one line. -/
theorem readLines_line (h : LinesRead .server lines (lineTokens [(n, ts)]))
    (hts : ∀ t ∈ ts, startsLine t = false) : ReadLines lines [(n, ts)] := by
  refine ⟨h, fun l hl => ?_⟩
  rw [List.mem_singleton.1 hl]
  exact hts

theorem ReadLines.append {ms : List Line} (h : ReadLines lines ls) (hmore : ReadLines more ms) :
    ReadLines (lines ++ more) (ls ++ ms) := by
  refine ⟨?_, fun l hl => (List.mem_append.1 hl).elim (h.whole l) (hmore.whole l)⟩
  rw [lineTokens_append]
  exact h.read.append hmore.read

/-- **Some lines make a body** with some attributes. -/
structure IsBody (lines : List String) (fields : List DeclaredField) (ls : List Line) : Prop where
  read : LinesRead .server lines (lineTokens ls)
  whole : Whole ls
  indented : ∀ l ∈ ls, 0 < l.1
  fields : ls.filterMap field? = fields

/-- Lines that make a body. -/
def Body (lines : List String) (fields : List DeclaredField) : Prop := ∃ ls, IsBody lines fields ls

theorem ReadLines.body (h : ReadLines lines ls) (hindented : ∀ l ∈ ls, 0 < l.1) :
    Body lines (ls.filterMap field?) :=
  ⟨ls, h.read, h.whole, hindented, rfl⟩

theorem body_of_read_nil (h : LinesRead .server lines []) : Body lines [] :=
  (readLines_nil h).body fun _ hl => absurd hl List.not_mem_nil

/-- The name of an attribute is one, and its annotation is that of a schema. -/
structure Attribute.Proper (a : Attribute) : Prop where
  name : Name.isIdentifier a.name.toList
  annotation : ∃ s, a.annotation = .ofSchema s

/-- What the tokens behind the colon of an attribute mean: its annotation alone, or a value behind it that
means the alias and the default. -/
def Attribute.Means (a : Attribute) (ts : List Token) : Prop :=
  match ts.dropWhile fun t => t ≠ .mark '=' with
  | [] => a.alias? = none ∧ a.default? = none
  | _ :: value => meaning value = (a.alias?, a.default?.map fun v => tokens .server (literal v))

/-- What the line of an attribute is read as: the name, and behind it what the attribute means. -/
def Attribute.IsLine (a : Attribute) (l : Line) : Prop :=
  ∃ ts, l = (4, .word a.name :: .mark ':' :: ts) ∧ a.Means ts

/-- **The line of an attribute is read as its name and what it means.** -/
theorem Attribute.Proper.exists_isLine {a : Attribute} (h : a.Proper) :
    ∃ l, a.IsLine l ∧ ReadLines [a.line] [l] := by
  obtain ⟨s, hs⟩ := h.annotation
  have hderives := TypeExpr.derives_written s
  have htype : Nested false (TypeExpr.ofSchema s).written := TypeExpr.nested_of_derives hderives
  have hassign : ∀ t ∈ (TypeExpr.ofSchema s).written, decide (t ≠ .mark '=') := by
    intro t ht
    refine decide_eq_true fun heq => TypeExpr.assign_not_mem hderives ?_
    rwa [← heq]
  have hline (tail : List Char) (vs : List Token) (hvs : Nested false vs)
      (hl : a.line.toList = List.replicate 4 ' ' ++
        (a.name.toList ++ ':' :: ' ' :: ((TypeExpr.ofSchema s).chars ++ tail)))
      (hmore : Reads .server ((TypeExpr.ofSchema s).chars ++ tail) ((TypeExpr.ofSchema s).written ++ vs))
      (hmeans : a.Means ((TypeExpr.ofSchema s).written ++ vs)) :
      ∃ l, a.IsLine l ∧ ReadLines [a.line] [l] := by
    have hreads : Reads .server (a.name.toList ++ ':' :: ' ' :: ((TypeExpr.ofSchema s).chars ++ tail))
        (.word a.name :: .mark ':' :: ((TypeExpr.ofSchema s).written ++ vs)) :=
      .cons_word h.name (by decide) (.cons_mark (by decide) (.cons_space hmore))
    have hnested : Nested false (.word a.name :: .mark ':' :: ((TypeExpr.ofSchema s).written ++ vs)) :=
      .token rfl (.token rfl (htype.append hvs))
    have hread := linesRead_line hl (head?_name h.name _) hreads
    exact ⟨_, ⟨_, rfl, hmeans⟩, readLines_line hread (startsLine_of_nested hnested)⟩
  rcases exists_reads_value a with ⟨hvalue, halias, hdefault⟩ | ⟨value, ts, hvalue, hts, hreads, hmeaning⟩
  · refine hline [] [] .nil ?_ ?_ ?_
    · simp [line, hvalue, hs, TypeExpr.render]
    · simpa using TypeExpr.reads_ofSchema s
    · rw [Means, List.append_nil, List.dropWhile_eq_nil_iff.2 hassign]
      exact ⟨halias, hdefault⟩
  · refine hline (' ' :: '=' :: ' ' :: value.toList) (.mark '=' :: ts) (.token rfl hts) ?_ ?_ ?_
    · simp [line, hvalue, hs, TypeExpr.render]
    · exact (TypeExpr.reads_ofSchema s).append (by decide)
        (.cons_space (.cons_mark (by decide) (.cons_space hreads)))
    · rw [Means, List.dropWhile_append_of_pos hassign, List.dropWhile_cons_of_neg (by simp)]
      exact hmeaning

/-- **Such a line is that of the attribute as it is declared.** -/
theorem Attribute.IsLine.field?_eq {a : Attribute} {l : Line} (h : a.IsLine l) : field? l = some a.declared := by
  obtain ⟨ts, rfl, hmeans⟩ := h
  rw [field?]
  unfold Means at hmeans
  split
  · rename_i hnone
    rw [hnone] at hmeans
    simp [declared, hmeans.1, hmeans.2]
  · rename_i hsome
    rw [hsome] at hmeans
    simp [declared, show meaning _ = _ from hmeans]

/-- A reader that reads the lines of attributes reads what it reads from each. -/
theorem Attribute.filterMap_isLine {β : Type} {r : Line → Option β} {g : Attribute → β}
    (h : ∀ a l, a.IsLine l → r l = some (g a)) {attributes : List Attribute}
    (hls : List.Forall₂ IsLine attributes ls) : ls.filterMap r = attributes.map g := by
  induction hls with
  | nil => rfl
  | cons hline _ ih => rw [List.filterMap_cons_some (h _ _ hline), ih, List.map_cons]

/-- Each of their lines is that of an attribute. -/
theorem Attribute.exists_isLine_of_mem {attributes : List Attribute} {l : Line}
    (hls : List.Forall₂ IsLine attributes ls) (hl : l ∈ ls) : ∃ a : Attribute, a.IsLine l := by
  induction hls with
  | nil => exact absurd hl List.not_mem_nil
  | cons hline _ ih =>
    rcases List.mem_cons.1 hl with rfl | hl
    · exact ⟨_, hline⟩
    · exact ih hl

/-! ## Declarations -/

variable {ds es : List Declared}

/-- What follows starts without indentation. -/
def TopLevel (rest : List Line) : Prop := ∀ l ∈ rest.head?, l.1 = 0

/-- **Some lines declare something**, in front of whatever is not indented. -/
def Declares (lines : List String) (ds : List Declared) : Prop :=
  ∃ ls, LinesRead .server lines (lineTokens ls) ∧ Whole ls ∧
    ∀ rest, TopLevel rest → TopLevel (ls ++ rest) ∧ declaredBy (ls ++ rest) = ds ++ declaredBy rest

theorem declares_nil (h : LinesRead .server lines []) : Declares lines [] :=
  ⟨[], h, fun _ h => absurd h List.not_mem_nil, fun _ hrest => ⟨hrest, rfl⟩⟩

theorem Declares.append (h : Declares lines ds) (hmore : Declares more es) :
    Declares (lines ++ more) (ds ++ es) := by
  obtain ⟨ls, hlines, hls, hds⟩ := h
  obtain ⟨ms, hmore, hms, hes⟩ := hmore
  refine ⟨ls ++ ms, ?_, ?_, fun rest hrest => ?_⟩
  · rw [lineTokens_append]
    exact hlines.append hmore
  · intro l hl
    rcases List.mem_append.1 hl with hl | hl
    · exact hls l hl
    · exact hms l hl
  · obtain ⟨htop, hread⟩ := hes rest hrest
    rw [List.append_assoc, (hds _ htop).2, hread, List.append_assoc]
    exact ⟨(hds _ htop).1, rfl⟩

theorem declares_flatMap {α : Type} {f : α → List String} {g : α → List Declared} {as : List α}
    (h : ∀ a ∈ as, Declares (f a) (g a)) : Declares (as.flatMap f) (as.flatMap g) :=
  flatMap_of_append (declares_nil linesRead_nil) .append h

theorem Declares.declaredIn_eq (h : Declares lines ds) : declaredIn (ofLines lines) = ds := by
  obtain ⟨ls, hlines, hls, hds⟩ := h
  have halone := (hds [] fun _ h => absurd h (by simp)).2
  rw [List.append_nil] at halone
  rw [declaredIn, hlines.fileTokens_eq, logicalLines_lineTokens hls, halone]
  exact List.append_nil _

theorem declared?_indented (body : List Line) {l : Line} (h : 0 < l.1) : declared? body l = none := by
  obtain ⟨n, ts⟩ := l
  cases n with
  | zero => cases h
  | succ n => rfl

theorem declaredBy_indented (h : ∀ l ∈ ls, 0 < l.1) : declaredBy (ls ++ rest) = declaredBy rest := by
  induction ls with
  | nil => rfl
  | cons l ls ih =>
    have hnone := declared?_indented ((ls ++ rest).takeWhile fun l => 0 < l.1) (h l List.mem_cons_self)
    rw [List.cons_append, declaredBy, hnone, ih fun m hm => h m (List.mem_cons_of_mem _ hm)]
    rfl

/-- **A line with a body behind it.** -/
theorem declares_body (d? : Option Declared) (hread : LinesRead .server [l] (lineTokens [(0, ts)]))
    (hts : ∀ t ∈ ts, startsLine t = false) (hbody : Body lines fields)
    (hd : ∀ ls, ls.filterMap field? = fields → declared? ls (0, ts) = d?) :
    Declares (l :: lines) d?.toList := by
  obtain ⟨ls, hbody⟩ := hbody
  have hlines := hread.append hbody.read
  rw [← lineTokens_append] at hlines
  refine ⟨(0, ts) :: ls, hlines, ?_, fun rest hrest => ⟨?_, ?_⟩⟩
  · intro m hm
    rcases List.mem_cons.1 hm with rfl | hm
    · exact hts
    · exact hbody.whole m hm
  · intro m hm
    rw [← Option.some.inj hm]
  · have htake : (ls ++ rest).takeWhile (fun l => 0 < l.1) = ls := by
      rw [List.takeWhile_append_of_pos fun m hm => by simpa using hbody.indented m hm]
      cases rest with
      | nil => simp
      | cons m rest => simp [hrest m rfl]
    rw [List.cons_append, declaredBy, htake, hd ls hbody.fields, declaredBy_indented hbody.indented]

/-- Two empty lines in front. -/
theorem Declares.apart (h : Declares lines ds) : Declares (ModelsFile.apart lines) ds := by
  unfold ModelsFile.apart
  split
  · exact h
  · have hempty : Declares [""] [] := declares_nil linesRead_empty
    exact hempty.append (hempty.append h)

/-! ## Classes -/

namespace ModelClass

variable {c : ModelClass}

/-- What the line is read as that admits attribute names beside aliases. -/
def configTokens : List Token := [.word "model_config", .mark '=', .word "ConfigDict", .mark '(',
  .word "populate_by_name", .mark '=', .word "True", .mark ')']

/-- This line, if an attribute has an alias. -/
def configRead (c : ModelClass) : List Line := if c.hasAliases then [(4, configTokens)] else []

/-- **What the body of a class is read as**: single tokens in front, which are a docstring or `pass`, the line
that admits names, and the attributes. -/
def BodyLines (c : ModelClass) (ls : List Line) : Prop :=
  ∃ front attributes, ls = front ++ (c.configRead ++ attributes) ∧ (∀ l ∈ front, ∃ t, l = (4, [t])) ∧
    List.Forall₂ Attribute.IsLine c.attributes attributes

/-- **What a reader finds in the body of a class** that passes over single tokens and reads attributes. -/
theorem BodyLines.filterMap {β : Type} {r : Line → Option β} {g : Attribute → β} (h : c.BodyLines ls)
    (hfront : ∀ t, r (4, [t]) = none) (hattributes : ∀ a l, a.IsLine l → r l = some (g a)) :
    ls.filterMap r = c.configRead.filterMap r ++ c.attributes.map g := by
  obtain ⟨front, attributes, rfl, htokens, hlines⟩ := h
  have hnone : front.filterMap r = [] := by
    refine List.filterMap_eq_nil_iff.2 fun l hl => ?_
    obtain ⟨t, rfl⟩ := htokens l hl
    exact hfront t
  rw [List.filterMap_append, List.filterMap_append, hnone, Attribute.filterMap_isLine hattributes hlines,
    List.nil_append]

theorem BodyLines.indented (h : c.BodyLines ls) : ∀ l ∈ ls, 0 < l.1 := by
  obtain ⟨front, attributes, rfl, htokens, hlines⟩ := h
  intro l hl
  rw [List.mem_append, List.mem_append] at hl
  rcases hl with hl | hl | hl
  · obtain ⟨t, rfl⟩ := htokens l hl
    exact Nat.succ_pos 3
  · unfold configRead at hl
    split at hl
    · rw [List.mem_singleton.1 hl]
      exact Nat.succ_pos 3
    · exact absurd hl List.not_mem_nil
  · obtain ⟨a, ts, rfl, -⟩ := Attribute.exists_isLine_of_mem hlines hl
    exact Nat.succ_pos 3

theorem readLines_configLines (c : ModelClass) : ReadLines c.configLines c.configRead := by
  have hconfig : LinesRead .server ["    model_config = ConfigDict(populate_by_name=True)"]
      (lineTokens [(4, configTokens)]) :=
    linesRead_of_run (by decide +kernel)
  have hline := readLines_line hconfig (by decide)
  unfold configLines configRead
  split
  · split
    · exact (readLines_nil linesRead_empty).append hline
    · exact hline
  · exact readLines_nil linesRead_nil

theorem exists_readLines_attributes {attributes : List Attribute} (h : ∀ a ∈ attributes, a.Proper) :
    ∃ ls, List.Forall₂ Attribute.IsLine attributes ls ∧ ReadLines (attributes.map Attribute.line) ls := by
  induction attributes with
  | nil => exact ⟨[], .nil, readLines_nil linesRead_nil⟩
  | cons a attributes ih =>
    obtain ⟨l, hl, hline⟩ := (h a List.mem_cons_self).exists_isLine
    obtain ⟨ls, hls, hlines⟩ := ih fun b hb => h b (List.mem_cons_of_mem _ hb)
    exact ⟨l :: ls, .cons hl hls, hline.append hlines⟩

/-- **The body of a class is read as its attributes.** -/
theorem exists_bodyLines (h : ∀ a ∈ c.attributes, a.Proper) : ∃ ls, c.BodyLines ls ∧
    ReadLines ((c.description.map (docstring "    ")).getD [] ++ c.configLines ++ c.attributeLines) ls := by
  have hdoc : ∃ doc, (∀ l ∈ doc, ∃ t, l = ((4, [t]) : Line)) ∧
      ReadLines ((c.description.map (docstring "    ")).getD []) doc := by
    cases c.description with
    | none => exact ⟨[], by simp, readLines_nil linesRead_nil⟩
    | some d =>
      obtain ⟨value, hread⟩ := linesRead_docstring 4 d
      exact ⟨[(4, [.text value])], by simp, readLines_line hread (by simp [startsLine])⟩
  obtain ⟨doc, htokens, hdoc⟩ := hdoc
  unfold attributeLines
  split
  · rename_i hnil
    have hconfig : c.configLines = [] := by simp [configLines, hasAliases, hnil]
    have hread : c.configRead = [] := by simp [configRead, hasAliases, hnil]
    rw [hconfig, List.append_nil]
    split
    · have hpass : LinesRead .server ["    pass"] (lineTokens [(4, [.word "pass"])]) :=
        linesRead_of_run (by decide +kernel)
      refine ⟨doc ++ [(4, [.word "pass"])], ⟨doc ++ [(4, [.word "pass"])], [], ?_, ?_, ?_⟩,
        hdoc.append (readLines_line hpass (by decide))⟩
      · rw [hread, List.append_nil, List.append_nil]
      · intro l hl
        rcases List.mem_append.1 hl with hl | hl
        · exact htokens l hl
        · exact ⟨_, List.mem_singleton.1 hl⟩
      · rw [hnil]
        exact .nil
    · refine ⟨doc, ⟨doc, [], ?_, htokens, ?_⟩, ?_⟩
      · rw [hread, List.append_nil, List.append_nil]
      · rw [hnil]
        exact .nil
      · rwa [List.append_nil]
  · obtain ⟨ls, hls, hlines⟩ := exists_readLines_attributes h
    have hempty : ReadLines (if c.hasAliases || c.description.isSome then [""] else []) [] := by
      split
      · exact readLines_nil linesRead_empty
      · exact readLines_nil linesRead_nil
    refine ⟨doc ++ (c.configRead ++ ls), ⟨doc, ls, rfl, htokens, hls⟩, ?_⟩
    rw [List.append_assoc]
    exact hdoc.append ((readLines_configLines c).append (hempty.append hlines))

/-- What the first line of a class is read as. -/
def classTokens (c : ModelClass) : List Token :=
  [.word "class", .word c.name, .mark '(', .word "BaseModel", .mark ')', .mark ':']

theorem linesRead_class (hname : Name.isIdentifier c.name.toList) :
    LinesRead .server ["class " ++ c.name ++ "(BaseModel):"] (lineTokens [(0, c.classTokens)]) := by
  have hend : Reads .server [')', ':'] [.mark ')', .mark ':'] :=
    .cons_mark (by decide) (.cons_mark (by decide) reads_nil)
  have hreads : Reads .server ("class".toList ++ ' ' :: (c.name.toList ++ '(' ::
      ("BaseModel".toList ++ [')', ':']))) c.classTokens :=
    .cons_word (by decide) (by decide) (.cons_space (.cons_word hname (by decide)
      (.cons_mark (by decide) (.cons_word (by decide) (by decide) hend))))
  exact linesRead_line (by simp) (head?_name (by decide) _) hreads

/-- **A class is read as its attributes.** -/
theorem declares_lines (hname : Name.isIdentifier c.name.toList) (h : ∀ a ∈ c.attributes, a.Proper) :
    Declares c.lines [.model c.name (c.attributes.map Attribute.declared)] := by
  obtain ⟨ls, hls, hread⟩ := exists_bodyLines h
  have hfields : ls.filterMap field? = c.attributes.map Attribute.declared := by
    have hconfig : c.configRead.filterMap field? = [] := by
      unfold configRead
      split <;> rfl
    rw [hls.filterMap (fun t => by cases t <;> rfl) fun a l hl => hl.field?_eq, hconfig, List.nil_append]
  have hbody := hread.body hls.indented
  rw [hfields] at hbody
  refine declares_body (some _) (linesRead_class hname) (by simp [classTokens, startsLine]) hbody
    fun body hbody => ?_
  simp [classTokens, declared?, hbody]

/-- Completing a class declares nothing. -/
theorem declares_rebuild (hname : Name.isIdentifier c.name.toList) :
    Declares [c.name ++ ".model_rebuild()"] [] := by
  have hreads : Reads .server (c.name.toList ++ '.' :: ("model_rebuild".toList ++ ['(', ')']))
      [.word c.name, .mark '.', .word "model_rebuild", .mark '(', .mark ')'] :=
    .cons_word hname (by decide) (.cons_mark (by decide)
      (.cons_word (by decide) (by decide) (reads_nil.wrap (by decide))))
  have hread : LinesRead .server [c.name ++ ".model_rebuild()"] (lineTokens [(0, _)]) :=
    linesRead_line (by simp) (head?_name hname _) hreads
  refine declares_body none hread (by simp [startsLine]) (body_of_read_nil linesRead_nil) fun _ _ => ?_
  simp [declared?]

end ModelClass

/-! ## Aliases -/

namespace Alias

variable {a : Alias}

/-- Nothing of the description of an alias ends a line early. -/
def CommentsOnly (a : Alias) : Prop :=
  ∀ d ∈ a.description, ∀ line ∈ Text.lines (trim d.toList), '\r' ∉ trimEnd line

/-- A comment is read as nothing. -/
theorem linesRead_comment (hnewline : '\n' ∉ cs) (hreturn : '\r' ∉ cs) :
    LinesRead .server ["# " ++ String.ofList cs] [] := by
  have hremark (rest : List Char) : lex .server .remark (cs ++ '\n' :: rest) = lex .server (.line 0) rest := by
    induction cs with
    | nil => rfl
    | cons c cs ih =>
      have hstep : step .server .remark c = ([], .remark) := by
        have hc : c ≠ '\n' ∧ c ≠ '\r' :=
          ⟨fun h => hnewline (h ▸ List.mem_cons_self), fun h => hreturn (h ▸ List.mem_cons_self)⟩
        simp [step, isLineEnd, hc.1, hc.2]
      rw [List.cons_append, lex, hstep]
      exact ih (fun h => hnewline (List.mem_cons_of_mem _ h)) fun h => hreturn (List.mem_cons_of_mem _ h)
  refine linesRead_singleton fun rest => ?_
  have hchars : ("# " ++ String.ofList cs).toList ++ '\n' :: rest = '#' :: ' ' :: (cs ++ '\n' :: rest) := by
    simp
  have hopen (more : List Char) : lex .server (.line 0) ('#' :: ' ' :: more) = lex .server .remark more := rfl
  rw [hchars, newLine, hopen, hremark]
  rfl

/-- **An alias is read as its definition**, if its description stays a comment. -/
theorem declares_lines (hname : Name.isIdentifier a.name.toList) (h : a.CommentsOnly) :
    Declares a.lines [.alias a.name] := by
  have hderives := TypeExpr.derives_written a.schema
  have hreads : Reads .server (a.name.toList ++ ' ' :: '=' :: ' ' :: (TypeExpr.ofSchema a.schema).chars)
      (.word a.name :: .mark '=' :: (TypeExpr.ofSchema a.schema).written) :=
    .cons_word hname (by decide) (.cons_space (.cons_mark (by decide)
      (.cons_space (TypeExpr.reads_ofSchema a.schema))))
  have hread : LinesRead .server [a.name ++ " = " ++ (TypeExpr.ofSchema a.schema).render]
      (lineTokens [(0, _)]) :=
    linesRead_line (by simp [TypeExpr.render]) (head?_name hname _) hreads
  have hnested : Nested false (.word a.name :: .mark '=' :: (TypeExpr.ofSchema a.schema).written) :=
    .token rfl (.token rfl (TypeExpr.nested_of_derives hderives))
  have hdefinition : Declares [a.name ++ " = " ++ (TypeExpr.ofSchema a.schema).render] [.alias a.name] := by
    refine declares_body (some _) hread (startsLine_of_nested hnested) (body_of_read_nil linesRead_nil)
      fun _ _ => ?_
    simp [declared?]
  unfold lines
  cases hd : a.description with
  | none => exact hdefinition
  | some d =>
    have hcomment : LinesRead .server ((Text.lines (trim d.toList)).map fun line =>
        "# " ++ String.ofList (trimEnd line)) [] := by
      have hlines : LinesRead .server ((Text.lines (trim d.toList)).flatMap fun line =>
          ["# " ++ String.ofList (trimEnd line)]) ((Text.lines (trim d.toList)).flatMap fun _ => []) := by
        refine linesRead_flatMap fun line hline => linesRead_comment ?_ (h d hd line hline)
        exact fun hmem => newline_not_mem_line hline ((prefix_of_trimEnd line).subset hmem)
      rwa [List.flatMap_eq_nil_iff.2 fun _ _ => rfl, ← List.map_eq_flatMap] at hlines
    exact (declares_nil hcomment).append hdefinition

end Alias

/-! ## The file -/

namespace ModelsFile

/-- The lines that every models file starts with. -/
def headerLines : List Line := [
  (0, [.text ("Pydantic models generated from the OpenAPI schema.\n\n" ++
    "Do not edit by hand; edit the schema and rerun the generator.\n")]),
  (0, [.word "from", .word "__future__", .word "import", .word "annotations"]),
  (0, [.word "from", .word "datetime", .word "import", .word "datetime"]),
  (0, [.word "from", .word "typing", .word "import", .word "Any", .mark ',', .word "Literal", .mark ',',
    .word "Optional"]),
  (0, [.word "from", .word "pydantic", .word "import", .word "BaseModel", .mark ',', .word "ConfigDict",
    .mark ',', .word "Field"])]

theorem declares_header : Declares (header "Pydantic models generated from the OpenAPI schema." ++
    ["from pydantic import BaseModel, ConfigDict, Field"]) [] := by
  have hread : LinesRead .server (header "Pydantic models generated from the OpenAPI schema." ++
      ["from pydantic import BaseModel, ConfigDict, Field"]) (lineTokens headerLines) := by
    refine linesRead_of_run ?_
    simp only [header, List.cons_append, List.nil_append, List.flatMap_cons, List.flatMap_nil,
      String.toList_append]
    repeat rw [String.toList_ofList]
    decide +kernel
  refine ⟨headerLines, hread, by simp [Whole, headerLines, startsLine], fun rest _ => ⟨?_, rfl⟩⟩
  intro l hl
  rw [← Option.some.inj hl]

/-- What a models file declares. -/
def declares (file : ModelsFile) : List Declared :=
  file.classes.map (fun c => .model c.name (c.attributes.map Attribute.declared)) ++
    file.aliases.map fun a => .alias a.name

/-- **What the text of a models file declares.** -/
theorem declaredIn_render {file : ModelsFile}
    (hclasses : ∀ c ∈ file.classes, Name.isIdentifier c.name.toList ∧ ∀ a ∈ c.attributes, a.Proper)
    (haliases : ∀ a ∈ file.aliases, Name.isIdentifier a.name.toList ∧ a.CommentsOnly) :
    declaredIn file.render = file.declares := by
  have hclassLines : Declares (file.classes.flatMap fun c => apart c.lines)
      (file.classes.flatMap fun c => [.model c.name (c.attributes.map Attribute.declared)]) :=
    declares_flatMap fun c hc => (ModelClass.declares_lines (hclasses c hc).1 (hclasses c hc).2).apart
  have haliasLines : Declares (file.aliases.flatMap Alias.lines)
      (file.aliases.flatMap fun a => [.alias a.name]) :=
    declares_flatMap fun a ha => Alias.declares_lines (haliases a ha).1 (haliases a ha).2
  have hrebuild : Declares (file.classes.flatMap fun c => [c.name ++ ".model_rebuild()"])
      (file.classes.flatMap fun _ => []) :=
    declares_flatMap fun c hc => ModelClass.declares_rebuild (hclasses c hc).1
  rw [← List.map_eq_flatMap] at hrebuild
  have hall := ((declares_header.append hclassLines).append haliasLines.apart).append hrebuild.apart
  rw [render, lines, hall.declaredIn_eq]
  simp [declares, List.map_eq_flatMap]

end ModelsFile

end ApiCodegen.Server
