import ApiCodegen.Proofs.Name.Identifier
import ApiCodegen.Proofs.Schema.Reference
import ApiCodegen.Proofs.Text.Words
import ApiCodegen.Server.TypeExpr

/-!
# The names in annotations of the server

* `TypeExpr.names`: the names of an annotation.
* `TypeExpr.words_ofSchema`: **the words of a written annotation are its names.**
* `TypeExpr.names_ofSchema`: **they belong to the vocabulary, or are declared names of what the
  schema refers to.**
* `TypeExpr.FromSchema`: annotations of requests, responses and optional values are annotations of
  schemas as well.
-/

namespace ApiCodegen.Server

/-- The names that annotations use beside declared ones. The header of every file imports those
that are not built in. -/
def vocabulary : List String :=
  ["str", "int", "float", "bool", "datetime", "Any", "Literal", "Optional", "list", "dict"]

namespace TypeExpr

open Name Text

mutual

/-- The names of an annotation, in order. -/
def names : TypeExpr → List String
  | .name n => [n]
  | .text _ => []
  | .apply head args => head :: namesAll args

/-- The names of arguments. -/
def namesAll : List TypeExpr → List String
  | [] => []
  | t :: more => names t ++ namesAll more

end

variable {s : Schema}

/-- A primitive is a name of the vocabulary. -/
theorem exists_ofKind (kind : Kind) (format : Option String) :
    ∃ n ∈ vocabulary, ofKind kind format = .name n := by
  unfold ofKind
  split
  · split <;> exact ⟨_, by decide, rfl⟩
  all_goals exact ⟨_, by decide, rfl⟩

theorem isIdentifier_vocabulary : ∀ n ∈ vocabulary, isIdentifier n.toList := by decide

/-- Texts have no names. -/
theorem namesAll_texts (values : List String) : namesAll (values.map .text) = [] := by
  rw [eq_flatMap namesAll rfl (fun _ _ => rfl), List.flatMap_map]
  exact List.flatMap_eq_nil_iff.2 fun _ _ => rfl

theorem charsAll_texts (values : List String) : charsAll (values.map .text) =
    List.intercalate [',', ' '] (values.map fun v => quoteChars v.toList) :=
  eq_intercalate_map (fun values => charsAll (values.map .text)) rfl (fun _ => rfl) (fun _ _ _ => rfl) values

/-- A head with one argument. -/
theorem spells_apply {head : String} {t : TypeExpr} (hhead : isIdentifier head.toList)
    (ht : Spells t.chars t.names) : Spells (apply head [t]).chars (apply head [t]).names := by
  simp only [names, namesAll, List.append_nil]
  exact .cons_name hhead (by decide) (.cons_mark (by decide) (ht.concat_mark (by decide)))

/-- **A written annotation spells its names.** -/
theorem spells_ofSchema (s : Schema) : Spells (ofSchema s).chars (ofSchema s).names := by
  induction s with
  | primitive kind format =>
    obtain ⟨n, hn, hkind⟩ := exists_ofKind kind format
    rw [ofSchema, hkind]
    exact spells_name (isIdentifier_vocabulary n hn)
  | reference name => exact spells_name (isIdentifier_declaration name)
  | untyped => exact spells_name (by decide)
  | array items ih => exact spells_apply (by decide) ih
  | nullable inner ih => exact spells_apply (by decide) ih
  | enumeration values =>
    rw [ofSchema]
    split
    · exact spells_name (by decide)
    · have hvalues : Spells (charsAll (values.map .text)) [] := by
        rw [charsAll_texts]
        exact spells_texts (by simp [isWordChar]) values
      rw [names, namesAll_texts]
      exact .cons_name (by decide) (by decide) (.cons_mark (by decide) (hvalues.concat_mark (by decide)))
  | object properties required _ =>
    have harguments : Spells ("str".toList ++ ',' :: ' ' :: "Any".toList) ["str", "Any"] :=
      .cons_name (by decide) (by decide)
        (.cons_mark (by decide) (.cons_mark (by decide) (spells_name (by decide))))
    exact .cons_name (by decide) (by decide) (.cons_mark (by decide) (harguments.concat_mark (by decide)))

/-- **The words of a written annotation are its names.** -/
theorem words_ofSchema (s : Schema) : words (ofSchema s).render = (ofSchema s).names :=
  (spells_ofSchema s).words_ofList

/-- **The names of an annotation** belong to the vocabulary, or are the declared names of what the
schema refers to. -/
theorem names_ofSchema {n : String} (h : n ∈ (ofSchema s).names) :
    n ∈ vocabulary ∨ n ∈ s.references.map Name.declaration := by
  induction s with
  | primitive kind format =>
    left
    obtain ⟨m, hm, hkind⟩ := exists_ofKind kind format
    rw [ofSchema, hkind] at h
    rwa [List.mem_singleton.1 h]
  | reference name => exact .inr h
  | untyped =>
    left
    rw [List.mem_singleton.1 h]
    decide
  | array items ih =>
    rw [ofSchema, names, namesAll, namesAll, List.append_nil] at h
    rcases List.mem_cons.1 h with rfl | h
    · exact .inl (by decide)
    · exact ih h
  | nullable inner ih =>
    rw [ofSchema, orNone, names, namesAll, namesAll, List.append_nil] at h
    rcases List.mem_cons.1 h with rfl | h
    · exact .inl (by decide)
    · exact ih h
  | enumeration values =>
    left
    rw [ofSchema] at h
    split at h
    · rw [List.mem_singleton.1 h]
      decide
    · rw [names, namesAll_texts] at h
      rw [List.mem_singleton.1 h]
      decide
  | object properties required _ =>
    left
    have hsub : ∀ n ∈ mapping.names, n ∈ vocabulary := by decide
    exact hsub n h

/-! ## Annotations that are made of schemas -/

/-- An annotation is that of a schema which refers to no more than a given one. -/
def FromSchema (s : Schema) (t : TypeExpr) : Prop :=
  ∃ s' : Schema, t = ofSchema s' ∧ s'.references ⊆ s.references

theorem optional_eq (s : Schema) : optional s = ofSchema s.orNull := by
  rw [optional, Schema.orNull]
  split <;> rfl

theorem ofBody_eq (s : Schema) : ofBody s = ofSchema s.body := by
  cases s <;> rfl

/-- **The words of an annotation that is made of a schema.** -/
theorem FromSchema.words {t : TypeExpr} (h : FromSchema s t) {w : String}
    (hw : w ∈ Text.words t.render) : w ∈ vocabulary ∨ w ∈ s.references.map Name.declaration := by
  obtain ⟨s', rfl, hsub⟩ := h
  rw [words_ofSchema] at hw
  exact (names_ofSchema hw).imp_right fun h => List.map_subset _ hsub h

end TypeExpr

end ApiCodegen.Server
