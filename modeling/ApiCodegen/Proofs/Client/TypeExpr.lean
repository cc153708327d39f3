import ApiCodegen.Client.Methods
import ApiCodegen.Proofs.Name.Identifier
import ApiCodegen.Proofs.Schema.Reference
import ApiCodegen.Proofs.Text.Words

/-!
# The names in types of the client

* `TypeExpr.names`: the names of a type.
* `TypeExpr.words_ofSchema`: **the words of a written type are its names.**
* `TypeExpr.names_ofSchema`: **they belong to the vocabulary, are declared names of what the schema
  refers to, or name dates with times.** The last only where `Schema.usesDateTime` says so.
* `TypeExpr.FromSchema`: types of requests and responses are types of schemas as well.
-/

namespace ApiCodegen.Client

/-- The names that types use beside declared ones. All are built in. -/
def vocabulary : List String := ["string", "number", "boolean", "null", "any", "Record"]

namespace TypeExpr

open Name Text

mutual

/-- The names of a type, in order. -/
def names : TypeExpr → List String
  | .name n => [n]
  | .text _ => []
  | .record => ["Record", "string", "any"]
  | .array items => names items
  | .union members => namesAll members

/-- The names of the members of a union. -/
def namesAll : List TypeExpr → List String
  | [] => []
  | t :: more => names t ++ namesAll more

end

variable {s : Schema}

/-! ## The characters of a type -/

theorem chars_array (t : TypeExpr) : (TypeExpr.array t).chars =
    if hasBar t.chars then '(' :: (t.chars ++ [')', '[', ']']) else t.chars ++ ['[', ']'] := rfl

theorem chars_union (members : List TypeExpr) : (TypeExpr.union members).chars = charsAll members :=
  rfl

theorem charsAll_cons_cons (t u : TypeExpr) (more : List TypeExpr) :
    charsAll (t :: u :: more) = t.chars ++ ' ' :: '|' :: ' ' :: charsAll (u :: more) := rfl

theorem chars_orNull (t : TypeExpr) :
    (orNull t).chars = t.chars ++ ' ' :: '|' :: ' ' :: "null".toList := rfl

theorem charsAll_texts (values : List String) : charsAll (values.map .text) =
    List.intercalate [' ', '|', ' '] (values.map fun v => quoteChars v.toList) :=
  eq_intercalate_map (fun values => charsAll (values.map .text)) rfl (fun _ => rfl) (fun _ _ _ => rfl) values

/-! ## Reading a type -/

/-- A primitive is a name of the vocabulary, or names dates with times. -/
theorem exists_ofKind (kind : Kind) (format : Option String) :
    ∃ n ∈ dateTimeName :: vocabulary, ofKind kind format = .name n := by
  unfold ofKind
  split
  · split <;> exact ⟨_, by decide, rfl⟩
  all_goals exact ⟨_, by decide, rfl⟩

theorem isIdentifier_vocabulary : ∀ n ∈ dateTimeName :: vocabulary, isIdentifier n.toList := by decide

/-- Texts have no names. -/
theorem namesAll_texts (values : List String) : namesAll (values.map .text) = [] := by
  rw [eq_flatMap namesAll rfl (fun _ _ => rfl), List.flatMap_map]
  exact List.flatMap_eq_nil_iff.2 fun _ _ => rfl

/-- **A written type spells its names.** -/
theorem spells_ofSchema (s : Schema) : Spells (ofSchema s).chars (ofSchema s).names := by
  induction s with
  | primitive kind format =>
    obtain ⟨n, hn, hkind⟩ := exists_ofKind kind format
    rw [ofSchema, hkind]
    exact spells_name (isIdentifier_vocabulary n hn)
  | reference name => exact spells_name (isIdentifier_declaration name)
  | untyped => exact spells_name (by decide)
  | object properties required _ =>
    have harguments : Spells ("string".toList ++ ',' :: ' ' :: "any".toList) ["string", "any"] :=
      .cons_name (by decide) (by decide)
        (.cons_mark (by decide) (.cons_mark (by decide) (spells_name (by decide))))
    have hrecord :
        Spells ("Record".toList ++ '<' :: ("string".toList ++ ',' :: ' ' :: "any".toList ++ ['>'])) _ :=
      .cons_name (by decide) (by decide) (.cons_mark (by decide) (harguments.concat_mark (by decide)))
    exact hrecord
  | array items ih =>
    simp only [ofSchema, chars_array, names]
    -- items that are written with a bar stand in parentheses
    split
    · have hclose : Spells [')', '[', ']'] [] :=
        .cons_mark (by decide) (.cons_mark (by decide) (.cons_mark (by decide) spells_nil))
      have hitems := ih.append (by decide) hclose
      rw [List.append_nil] at hitems
      exact .cons_mark (by decide) hitems
    · have hclose : Spells ['[', ']'] [] := .cons_mark (by decide) (.cons_mark (by decide) spells_nil)
      have hitems := ih.append (by decide) hclose
      rwa [List.append_nil] at hitems
  | nullable inner ih =>
    rw [ofSchema, chars_orNull]
    have hnull : Spells (' ' :: '|' :: ' ' :: "null".toList) ["null"] :=
      .cons_mark (by decide) (.cons_mark (by decide) (.cons_mark (by decide) (spells_name (by decide))))
    exact ih.append (by decide) hnull
  | enumeration values =>
    rw [ofSchema]
    split
    · exact spells_name (by decide)
    · rw [chars_union, names, namesAll_texts, charsAll_texts]
      exact spells_texts (by simp [isWordChar]) values

/-- **The words of a written type are its names.** -/
theorem words_ofSchema (s : Schema) : words (ofSchema s).render = (ofSchema s).names :=
  (spells_ofSchema s).words_ofList

/-- **The names of a type** belong to the vocabulary, are the declared names of what the schema
refers to, or name dates with times. -/
theorem names_ofSchema {n : String} (h : n ∈ (ofSchema s).names) :
    n ∈ vocabulary ∨ n ∈ s.references.map Name.declaration ∨
      n = dateTimeName ∧ s.usesDateTime = true := by
  induction s with
  | primitive kind format =>
    cases kind with
    | string =>
      rw [ofSchema, ofKind] at h
      split at h
      · -- the format that makes the name is the one that `usesDateTime` looks for
        rename_i hf
        exact .inr (.inr ⟨List.mem_singleton.1 h, decide_eq_true hf⟩)
      · rw [List.mem_singleton.1 h]
        exact .inl (by decide)
    | integer | number | boolean =>
      rw [List.mem_singleton.1 h]
      exact .inl (by decide)
  | reference name => exact .inr (.inl h)
  | untyped =>
    rw [List.mem_singleton.1 h]
    exact .inl (by decide)
  | object properties required _ =>
    have hsub : ∀ n ∈ TypeExpr.record.names, n ∈ vocabulary := by decide
    exact .inl (hsub n h)
  | array items ih => exact ih h
  | nullable inner ih =>
    rw [ofSchema, orNull, names, namesAll] at h
    rcases List.mem_append.1 h with h | h
    · exact ih h
    · rw [List.mem_singleton.1 h]
      exact .inl (by decide)
  | enumeration values =>
    rw [ofSchema] at h
    split at h
    · rw [List.mem_singleton.1 h]
      exact .inl (by decide)
    · rw [names, namesAll_texts] at h
      exact absurd h List.not_mem_nil

/-! ## Types that are made of schemas -/

/-- A type is that of a schema which refers to no more than a given one. -/
def FromSchema (s : Schema) (t : TypeExpr) : Prop :=
  ∃ s' : Schema, t = ofSchema s' ∧ s'.references ⊆ s.references ∧
    (s'.usesDateTime = true → s.usesDateTime = true)

theorem optional_eq (s : Schema) : optional s = ofSchema s.orNull := by
  rw [optional, Schema.orNull]
  split <;> rfl

theorem ofBody_eq (s : Schema) : ofBody s = ofSchema s.body := by
  cases s <;> rfl

/-- **The words of a type that is made of a schema.** -/
theorem FromSchema.words {t : TypeExpr} (h : FromSchema s t) {w : String}
    (hw : w ∈ Text.words t.render) : w ∈ vocabulary ∨ w ∈ s.references.map Name.declaration ∨
      w = dateTimeName ∧ s.usesDateTime = true := by
  obtain ⟨s', rfl, hsub, hdate⟩ := h
  rw [words_ofSchema] at hw
  rcases names_ofSchema hw with h | h | ⟨h, hd⟩
  · exact .inl h
  · exact .inr (.inl (List.map_subset _ hsub h))
  · exact .inr (.inr ⟨h, hdate hd⟩)

end TypeExpr

end ApiCodegen.Client
