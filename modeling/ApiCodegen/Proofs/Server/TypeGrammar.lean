import ApiCodegen.Proofs.Server.TypeExpr
import ApiCodegen.Proofs.Text.Bracket

/-!
# Annotations of the server are read as they are meant

An annotation is a name, a literal, or a name with arguments in brackets.

* `TypeExpr.Denotes`: the annotation that a schema means.
* `TypeExpr.Derives`: **the grammar of annotations**, over tokens.
* `AnnotationReader`, `TypeExpr.read`: a reader that goes through the tokens once.
* `TypeExpr.read_of_derives`: **what the grammar derives is what the reader finds**, so no text has two
  readings.
* `TypeExpr.derives_ofSchema_iff`: **a written annotation derives what its schema means, and nothing
  else.**
-/

namespace ApiCodegen.Server

open Text

namespace TypeExpr

/-- **The annotation that a schema means.** -/
inductive Denotes : Schema → TypeExpr → Prop
  | dateTime : Denotes (.primitive .string (some "date-time")) (.name "datetime")
  | string {format : Option String} (h : format ≠ some "date-time") :
      Denotes (.primitive .string format) (.name "str")
  | integer (format : Option String) : Denotes (.primitive .integer format) (.name "int")
  | number (format : Option String) : Denotes (.primitive .number format) (.name "float")
  | boolean (format : Option String) : Denotes (.primitive .boolean format) (.name "bool")
  | noValues : Denotes (.enumeration []) (.name "str")
  | values (v : String) (more : List String) :
      Denotes (.enumeration (v :: more)) (.apply "Literal" (.text v :: more.map .text))
  | array {items : Schema} {t : TypeExpr} (h : Denotes items t) :
      Denotes (.array items) (.apply "list" [t])
  | object (properties : List (Property Schema)) (required : List String) :
      Denotes (.object properties required) (.apply "dict" [.name "str", .name "Any"])
  | reference (component : String) :
      Denotes (.reference component) (.name (Name.declaration component))
  | nullable {inner : Schema} {t : TypeExpr} (h : Denotes inner t) :
      Denotes (.nullable inner) (.apply "Optional" [t])
  | untyped : Denotes .untyped (.name "Any")

/-! ## The grammar -/

/-- What some tokens may be: an annotation, or arguments between commas. -/
inductive Phrase where
  | operand (t : TypeExpr)
  | arguments (args : List TypeExpr)

/-- **The grammar of annotations.** -/
inductive Derives : List Token → Phrase → Prop
  | name (n : String) : Derives [.word n] (.operand (.name n))
  | text (value : String) : Derives [.text value] (.operand (.text value))
  | apply (head : String) {ts : List Token} {args : List TypeExpr} (h : Derives ts (.arguments args)) :
      Derives (.word head :: .mark '[' :: (ts ++ [.mark ']'])) (.operand (.apply head args))
  | one {ts : List Token} {t : TypeExpr} (h : Derives ts (.operand t)) : Derives ts (.arguments [t])
  | more {ts us : List Token} {t : TypeExpr} {args : List TypeExpr} (h : Derives ts (.operand t))
      (hmore : Derives us (.arguments args)) :
      Derives (ts ++ .mark ',' :: us) (.arguments (t :: args))

end TypeExpr

/-! ## A reader -/

/-- Where a reader stands in an annotation. -/
inductive AnnotationPlace where
  | operand
  /-- Behind a name, which may have arguments. -/
  | named (n : String)
  | behind (t : TypeExpr)

/-- A reader of annotations: the heads of all brackets that are open, the innermost first, and their
finished arguments. -/
structure AnnotationReader where
  opened : List (String × List TypeExpr) := []
  place : AnnotationPlace := .operand

namespace AnnotationReader

/-- A token behind an annotation. -/
def next (r : AnnotationReader) (t : TypeExpr) (token : Token) : Option AnnotationReader :=
  match r.opened, token with
  | (head, args) :: outer, .mark ',' => some ⟨(head, args ++ [t]) :: outer, .operand⟩
  | (head, args) :: outer, .mark ']' => some ⟨outer, .behind (.apply head (args ++ [t]))⟩
  | _, _ => none

/-- One token. -/
def step (r : AnnotationReader) (token : Token) : Option AnnotationReader :=
  match r.place with
  | .operand =>
    match token with
    | .word n => some { r with place := .named n }
    | .text value => some { r with place := .behind (.text value) }
    | _ => none
  | .named n =>
    if token = .mark '[' then some ⟨(n, []) :: r.opened, .operand⟩ else r.next (.name n) token
  | .behind t => r.next t token

/-- The annotation that was read. -/
def result? (r : AnnotationReader) : Option TypeExpr :=
  match r.opened, r.place with
  | [], .named n => some (.name n)
  | [], .behind t => some t
  | _, _ => none

end AnnotationReader

namespace AnnotationPlace

/-- An annotation stands in front of this place. -/
inductive Behind : AnnotationPlace → TypeExpr → Prop
  | named (n : String) : Behind (.named n) (.name n)
  | behind (t : TypeExpr) : Behind (.behind t) t

end AnnotationPlace

namespace TypeExpr

/-- The annotation that some tokens are. -/
def read (ts : List Token) : Option TypeExpr :=
  (ts.foldlM AnnotationReader.step {}).bind AnnotationReader.result?

section Reader

variable {ts : List Token} {t : TypeExpr} {args : List TypeExpr} {head : String}
  {outer : List (String × List TypeExpr)} {place : AnnotationPlace}

theorem step_comma (h : place.Behind t) :
    AnnotationReader.step ⟨(head, args) :: outer, place⟩ (.mark ',') =
      some ⟨(head, args ++ [t]) :: outer, .operand⟩ := by
  cases h with
  | named n => simp [AnnotationReader.step, AnnotationReader.next]
  | behind => rfl

theorem step_close (h : place.Behind t) :
    AnnotationReader.step ⟨(head, args) :: outer, place⟩ (.mark ']') =
      some ⟨outer, .behind (.apply head (args ++ [t]))⟩ := by
  cases h with
  | named n => simp [AnnotationReader.step, AnnotationReader.next]
  | behind => rfl

/-- What a reader has done behind a phrase. Arguments stand in brackets. -/
def Finds (ts : List Token) : Phrase → Prop
  | .operand t => ∀ opened, ∃ place : AnnotationPlace, place.Behind t ∧
      ts.foldlM AnnotationReader.step ⟨opened, .operand⟩ = some ⟨opened, place⟩
  | .arguments args => ∀ head known outer, ∃ front t, ∃ place : AnnotationPlace,
      args = front ++ [t] ∧ place.Behind t ∧
        ts.foldlM AnnotationReader.step ⟨(head, known) :: outer, .operand⟩ =
          some ⟨(head, known ++ front) :: outer, place⟩

/-- **The reader finds every phrase**, inside whatever is open around it. -/
theorem finds_of_derives {phrase : Phrase} (h : Derives ts phrase) : Finds ts phrase := by
  induction h with
  | name n => exact fun opened => ⟨.named n, .named n, rfl⟩
  | text value => exact fun opened => ⟨.behind (.text value), .behind _, rfl⟩
  | @apply head ts args h ih =>
    intro opened
    obtain ⟨front, t, place, rfl, hbehind, hrun⟩ := ih head [] opened
    refine ⟨.behind (.apply head (front ++ [t])), .behind _, ?_⟩
    have hhead : AnnotationReader.step ⟨opened, .operand⟩ (.word head) =
        some ⟨opened, .named head⟩ := rfl
    have hopen : AnnotationReader.step ⟨opened, .named head⟩ (.mark '[') =
        some ⟨(head, []) :: opened, .operand⟩ := by
      simp [AnnotationReader.step]
    rw [foldlM_cons_of_some hhead, foldlM_cons_of_some hopen, foldlM_append_of_some hrun,
      foldlM_cons_of_some (step_close hbehind)]
    rfl
  | @one ts t h ih =>
    intro head known outer
    obtain ⟨place, hbehind, hrun⟩ := ih ((head, known) :: outer)
    exact ⟨[], t, place, rfl, hbehind, by rw [hrun, List.append_nil]⟩
  | @more ts us t args h hmore ih ihmore =>
    intro head known outer
    obtain ⟨place, hbehind, hrun⟩ := ih ((head, known) :: outer)
    obtain ⟨front, last, lastPlace, rfl, hlast, hrest⟩ := ihmore head (known ++ [t]) outer
    refine ⟨t :: front, last, lastPlace, rfl, hlast, ?_⟩
    rw [foldlM_append_of_some hrun, foldlM_cons_of_some (step_comma hbehind), hrest, List.append_assoc,
      List.singleton_append]

/-- **What the grammar derives is what the reader finds.** -/
theorem read_of_derives (h : Derives ts (.operand t)) : read ts = some t := by
  obtain ⟨place, hbehind, hrun⟩ := finds_of_derives h []
  have hread : ts.foldlM AnnotationReader.step {} = some ⟨[], place⟩ := hrun
  rw [read, hread, Option.bind_some]
  cases hbehind <;> rfl

end Reader

/-! ## Written annotations -/

mutual

/-- The tokens of a written annotation. -/
def written : TypeExpr → List Token
  | .name n => [.word n]
  | .text value => [.text value]
  | .apply head args => .word head :: .mark '[' :: (writtenAll args ++ [.mark ']'])

/-- The tokens of arguments, with commas between them. -/
def writtenAll : List TypeExpr → List Token
  | [] => []
  | [t] => written t
  | t :: more => written t ++ .mark ',' :: writtenAll more

end

variable {ts : List Token} {t : TypeExpr}

theorem writtenAll_texts (values : List String) : writtenAll (values.map .text) =
    List.intercalate [.mark ','] (values.map fun v => [.text v]) :=
  eq_intercalate_map (fun values => writtenAll (values.map .text)) rfl (fun _ => rfl) (fun _ _ _ => rfl) values

/-- A head with one argument. -/
theorem reads_apply {head : String} (hhead : Name.isIdentifier head.toList)
    (ht : Reads .server t.chars t.written) :
    Reads .server (TypeExpr.apply head [t]).chars (TypeExpr.apply head [t]).written :=
  .cons_word hhead (by decide) (ht.wrap (by decide))

/-- **A written annotation is read as its tokens**, wherever it stands. -/
theorem reads_ofSchema (s : Schema) : Reads .server (ofSchema s).chars (ofSchema s).written := by
  induction s with
  | primitive kind format =>
    obtain ⟨n, hn, hkind⟩ := exists_ofKind kind format
    rw [ofSchema, hkind]
    exact reads_word (isIdentifier_vocabulary n hn)
  | reference name => exact reads_word (Name.isIdentifier_declaration name)
  | untyped => exact reads_word (by decide)
  | array items ih => exact reads_apply (by decide) ih
  | nullable inner ih => exact reads_apply (by decide) ih
  | object properties required _ =>
    have harguments : Reads .server ("str".toList ++ ',' :: ' ' :: "Any".toList)
        [.word "str", .mark ',', .word "Any"] :=
      .cons_word (by decide) (by decide) (.cons_comma (reads_word (by decide)))
    exact .cons_word (by decide) (by decide) (harguments.wrap (by decide))
  | enumeration values =>
    rw [ofSchema]
    split
    · exact reads_word (by decide)
    · have hvalues : Reads .server (charsAll (values.map .text)) (writtenAll (values.map .text)) := by
        rw [charsAll_texts, writtenAll_texts]
        exact reads_texts (by decide) .cons_comma values
      exact .cons_word (by decide) (by decide) (hvalues.wrap (by decide))

theorem tokens_ofSchema (s : Schema) : tokens .server (ofSchema s).render = (ofSchema s).written :=
  (reads_ofSchema s).tokens_ofList

/-! ## Written annotations are annotations -/

theorem derives_texts (v : String) (values : List String) :
    Derives (writtenAll ((v :: values).map .text)) (.arguments ((v :: values).map .text)) := by
  induction values generalizing v with
  | nil => exact .one (.text v)
  | cons w values ih => exact .more (.text v) (ih w)

theorem derives_written (s : Schema) :
    Derives (ofSchema s).written (.operand (ofSchema s)) := by
  induction s with
  | primitive kind format =>
    obtain ⟨n, -, hkind⟩ := exists_ofKind kind format
    rw [ofSchema, hkind]
    exact .name n
  | reference name => exact .name _
  | untyped => exact .name _
  | array items ih => exact .apply "list" (.one ih)
  | nullable inner ih => exact .apply "Optional" (.one ih)
  | object properties required _ => exact .apply "dict" (.more (.name "str") (.one (.name "Any")))
  | enumeration values =>
    rw [ofSchema]
    split
    · exact .name _
    · rename_i hne
      obtain ⟨v, values, rfl⟩ := List.exists_cons_of_ne_nil (mt List.isEmpty_iff.2 hne)
      exact .apply "Literal" (derives_texts v values)

theorem denotes_iff {s : Schema} {t : TypeExpr} : Denotes s t ↔ t = ofSchema s := by
  constructor
  · intro h
    induction h with
    | string hformat => exact (if_neg hformat).symm
    | array _ ih => rw [ih, ofSchema]
    | nullable _ ih => rw [ih, ofSchema, orNone]
    | dateTime | integer | number | boolean | noValues | values | object | reference | untyped => rfl
  · rintro rfl
    induction s with
    | primitive kind format =>
      cases kind with
      | string =>
        rw [ofSchema, ofKind]
        split
        · rename_i hformat
          rw [hformat]
          exact .dateTime
        · rename_i hformat
          exact .string hformat
      | integer => exact .integer format
      | number => exact .number format
      | boolean => exact .boolean format
    | enumeration values =>
      cases values with
      | nil => exact .noValues
      | cons v more => exact .values v more
    | array items ih => exact .array ih
    | nullable inner ih => exact .nullable ih
    | object properties required _ => exact .object properties required
    | reference component => exact .reference component
    | untyped => exact .untyped

/-- **A written annotation derives what its schema means, and nothing else.** -/
theorem derives_ofSchema_iff (s : Schema) (t : TypeExpr) :
    Derives (tokens .server (ofSchema s).render) (.operand t) ↔ Denotes s t := by
  have hown : Derives (tokens .server (ofSchema s).render) (.operand (ofSchema s)) := by
    rw [tokens_ofSchema]
    exact derives_written s
  rw [denotes_iff]
  refine ⟨fun h => ?_, fun h => h ▸ hown⟩
  have hread := read_of_derives hown
  rw [read_of_derives h] at hread
  exact Option.some.inj hread

end TypeExpr

end ApiCodegen.Server
