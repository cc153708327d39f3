import ApiCodegen.Proofs.Schema.Reachable
import ApiCodegen.Proofs.Schema.Remarks

/-!
# Loaded schemas are in normal form

Null is admitted by a flag, by a name among several types, by the type `null` itself, by an alternative,
and by what stands inside of these. Each place has a guard of its own.

* `Schema.Normal`: **null is admitted once where it is admitted, and enumerations have values**, at any
  depth.
* `Schema.gives_parse`: **every schema that is read is in normal form**, and the reading remarks on required
  properties and fails at malformed parts only, by its own recursion.
* `Document.gives_read`: what every schema satisfies that is read, all schemas of a description satisfy.
* `Document.descriptive_read`: **so reading a description remarks on required properties only.**
* `Document.normal_load`: **all schemas of a loaded document are in normal form**, under either policy.
* `Schema.Part`, `Schema.normal_iff`: the same, said of the types that stand somewhere in a schema.
-/

namespace ApiCodegen

open Markup

open Reported

namespace Schema

/-- **A schema in normal form**: null is admitted once where it is admitted, and enumerations have
values, at any depth. -/
inductive Normal : Schema → Prop
  | primitive (kind : Kind) (format : Option String) : Normal (.primitive kind format)
  | reference (name : String) : Normal (.reference name)
  | array {items : Schema} (h : Normal items) : Normal (.array items)
  | object {properties : List (Property Schema)} (required : List String)
      (h : ∀ p ∈ properties, Normal p.schema) : Normal (.object properties required)
  | nullable {inner : Schema} (h : Normal inner) (honce : inner.isNullable = false) :
      Normal (.nullable inner)
  | enumeration {values : List String} (hne : values ≠ []) : Normal (.enumeration values)
  | untyped : Normal .untyped

variable {s t : Schema} {name location : String} {entries : Entries}

/-! ## Reading a schema -/

theorem Normal.body (h : s.Normal) : s.body.Normal := by
  unfold Schema.body
  split
  · exact .object [] fun p hp => absurd hp List.not_mem_nil
  · exact h

theorem Normal.orNull (h : s.Normal) : s.orNull.Normal := by
  unfold Schema.orNull
  split
  · exact h
  · rename_i hnull
    exact .nullable h (Bool.eq_false_iff.2 hnull)

theorem gives_stringOf (entries : Entries) (location : String) :
    (stringOf entries location).Gives Normal := by
  unfold stringOf
  split
  · rename_i values _
    split
    · exact gives_pure (.primitive _ _)
    · rename_i hne
      split
      · rename_i texts htexts
        refine gives_pure (.enumeration ?_)
        -- there are as many texts as values
        rintro rfl
        cases values with
        | nil => exact hne rfl
        | cons v more =>
          rw [List.mapM_cons] at htexts
          obtain ⟨text, -, htexts⟩ := Option.bind_eq_some_iff.1 htexts
          obtain ⟨texts, -, htexts⟩ := Option.bind_eq_some_iff.1 htexts
          cases htexts
      · exact gives_malformed _
  · exact gives_pure (.primitive _ _)

theorem mem_addProperty {known : List (Property Schema)} {p q : Property Schema}
    (h : q ∈ addProperty known p) : q ∈ known ∨ q = p := by
  induction known with
  | nil => exact .inr (List.mem_singleton.1 h)
  | cons other known ih =>
    unfold addProperty at h
    split at h
    · rcases List.mem_cons.1 h with rfl | h
      · exact .inr rfl
      · exact .inl (List.mem_cons_of_mem _ h)
    · rcases List.mem_cons.1 h with rfl | h
      · exact .inl List.mem_cons_self
      · exact (ih h).imp_left (List.mem_cons_of_mem _)

theorem mem_foldl_addProperty {known properties : List (Property Schema)} {q : Property Schema}
    (h : q ∈ properties.foldl addProperty known) : q ∈ known ∨ q ∈ properties := by
  induction properties generalizing known with
  | nil => exact .inl h
  | cons p properties ih =>
    rcases ih h with h | h
    · rcases mem_addProperty h with h | rfl
      · exact .inl h
      · exact .inr List.mem_cons_self
    · exact .inr (List.mem_cons_of_mem _ h)

theorem gives_objectOf (location : String) {properties : List (Property Schema)}
    (required : List String) (h : ∀ p ∈ properties, p.schema.Normal) :
    (objectOf location properties required).Gives Normal := by
  refine ⟨⟨fun w hw => ?_, fun f hf => by cases hf⟩, fun s hs => ?_⟩
  · obtain ⟨name, -, rfl⟩ := List.mem_map.1 hw
    exact ⟨name, location, rfl⟩
  · obtain rfl := Except.ok.inj hs
    refine .object required fun p hp => h p ?_
    exact (mem_foldl_addProperty hp).resolve_left List.not_mem_nil

mutual

/-- **Every schema that is read is in normal form**, and no reference is looked up for it. -/
theorem gives_parse (node : Value) (location : String) : (parse node location).Gives Normal := by
  rw [parse]
  split
  · rename_i entries h
    have := Value.sizeOf_entries? h
    refine (gives_parseEntries entries location).bind fun s hs => gives_pure ?_
    split
    · exact hs.orNull
    · exact hs
  · split
    · exact gives_pure .untyped
    · exact gives_malformed _
termination_by (sizeOf node, 0)

theorem gives_parseEntries (entries : Entries) (location : String) :
    (parseEntries entries location).Gives Normal := by
  rw [parseEntries]
  split
  · split
    · exact gives_pure (.reference _)
    · exact gives_malformed _
  · split
    · rename_i members h
      have := sizeOf_alternatives? h
      exact gives_parseAlternatives members location
    · split
      · split
        · exact gives_parseObject entries location
        · exact gives_pure .untyped
      · split
        · exact gives_parseObject entries location
        · exact gives_pure .untyped
      · exact gives_parseTyped _ entries location
      · rename_i types _
        -- the one name that is left is not `null`
        have hinner : ∀ inner : Schema, inner.Normal ∧ inner.isNullable = false →
            (pure (if (types.filterMap Value.string?).contains "null" then .nullable inner else inner) :
              Reported Schema).Gives Normal := by
          rintro inner ⟨hnormal, honce⟩
          refine gives_pure ?_
          split
          · exact .nullable hnormal honce
          · exact hnormal
        dsimp only
        split
        · rename_i name hsingle
          have hname : name ≠ "null" := by
            have hmem : name ∈ (types.filterMap Value.string?).filter (· != "null") := by
              rw [hsingle]
              exact List.mem_singleton.2 rfl
            simpa using (List.mem_filter.1 hmem).2
          have hgives := gives_parseTyped name entries location
          have htyped : (parseTyped name entries location).Gives fun s => s.Normal ∧ s.isNullable = false :=
            ⟨hgives.descriptive,
              fun s hs => ⟨hgives.yields s hs, isNullable_parseTyped entries location hname s hs⟩⟩
          exact htyped.bind hinner
        · exact (gives_pure (P := fun s => s.Normal ∧ s.isNullable = false) ⟨.untyped, rfl⟩).bind hinner
      · exact gives_malformed _
termination_by (sizeOf entries, 3)

theorem gives_parseAlternatives (members : List Value) (location : String) :
    (parseAlternatives members location).Gives Normal := by
  rw [parseAlternatives]
  have hinner : ∀ inner : Schema, inner.Normal →
      (pure (if (members.filter fun member => !isNullType member).length < members.length then
        orNull inner else inner) : Reported Schema).Gives Normal := by
    intro inner h
    refine gives_pure ?_
    split
    · exact h.orNull
    · exact h
  split
  · rename_i member h
    have := sizeOf_of_filter_eq_singleton h
    exact (gives_parse member location).bind hinner
  · exact (gives_pure Normal.untyped).bind hinner
termination_by (sizeOf members, 0)

theorem gives_parseTyped (name : String) (entries : Entries) (location : String) :
    (parseTyped name entries location).Gives Normal := by
  rw [parseTyped]
  split_ifs
  · exact gives_stringOf entries location
  · exact gives_pure (.primitive _ _)
  · exact gives_pure (.primitive _ _)
  · exact gives_pure (.primitive _ _)
  · dsimp only
    split
    · rename_i items h
      have := Entries.sizeOf_get? h
      exact (gives_parse items _).bind fun _ h => gives_pure (.array h)
    · exact (gives_pure Normal.untyped).bind fun _ h => gives_pure (.array h)
  · exact gives_parseObject entries location
  · exact gives_pure (.nullable .untyped rfl)
  · exact gives_malformed _
termination_by (sizeOf entries, 2)

theorem gives_parseObject (entries : Entries) (location : String) :
    (parseObject entries location).Gives Normal := by
  rw [parseObject]
  have hobject : ∀ properties : List (Property Schema), (∀ p ∈ properties, p.schema.Normal) →
      (objectOf location properties (requiredOf entries)).Gives Normal :=
    fun properties h => gives_objectOf location (requiredOf entries) h
  split
  · rename_i value h
    split
    · rename_i properties h'
      have := Entries.sizeOf_get? h
      have := Value.sizeOf_entries? h'
      exact (gives_parseProperties properties location).bind hobject
    · exact (gives_malformed _).bind hobject
  · exact (gives_pure fun p hp => absurd hp List.not_mem_nil).bind hobject
termination_by (sizeOf entries, 1)

theorem gives_parseProperties (entries : Entries) (location : String) :
    (parseProperties entries location).Gives fun properties => ∀ p ∈ properties, p.schema.Normal := by
  rw [parseProperties.eq_def]
  split
  · exact gives_pure fun p hp => absurd hp List.not_mem_nil
  · rename_i key node more
    split
    · exact gives_malformed _
    · refine (gives_parse node _).bind fun schema hschema => ?_
      refine (gives_parseProperties more location).bind fun properties hproperties => ?_
      exact gives_pure (List.forall_mem_cons.2 ⟨hschema, hproperties⟩)
termination_by (sizeOf entries, 0)

end

/-! ## Undeclared references -/

theorem isNullable_generalize (known : List String) (s : Schema) :
    (s.generalize known).isNullable = s.isNullable := by
  cases s with
  | reference name =>
    rw [generalize]
    split <;> rfl
  | primitive | array | object | nullable | enumeration | untyped => rfl

/-- **The generic type for a reference keeps the normal form.** -/
theorem Normal.generalize (h : s.Normal) (known : List String) : (s.generalize known).Normal := by
  induction h with
  | primitive kind format => exact .primitive kind format
  | reference name =>
    rw [Schema.generalize]
    split
    · exact .reference name
    · exact .untyped
  | array _ ih => exact .array ih
  | object required _ ih =>
    rw [Schema.generalize, generalizeAll_eq]
    refine .object required fun p hp => ?_
    obtain ⟨q, hq, rfl⟩ := List.mem_map.1 hp
    exact ih q hq
  | nullable _ honce ih => exact .nullable ih ((isNullable_generalize known _).trans honce)
  | enumeration hne => exact .enumeration hne
  | untyped => exact .untyped

/-! ## The types of a schema -/

/-- **A type that stands somewhere in a schema**: the schema itself, or one of what it is made of. -/
inductive Part (t : Schema) : Schema → Prop
  | self : Part t t
  | items {items : Schema} (h : Part t items) : Part t (.array items)
  | inner {inner : Schema} (h : Part t inner) : Part t (.nullable inner)
  | property {properties : List (Property Schema)} {p : Property Schema} (required : List String)
      (hp : p ∈ properties) (h : Part t p.schema) : Part t (.object properties required)

theorem Normal.part (h : s.Normal) (hpart : t.Part s) : t.Normal := by
  induction hpart with
  | self => exact h
  | items _ ih =>
    cases h with
    | array h => exact ih h
  | inner _ ih =>
    cases h with
    | nullable h _ => exact ih h
  | property required hp _ ih =>
    cases h with
    | object _ h => exact ih (h _ hp)

/-- **The normal form, said of the types in a schema.** -/
theorem normal_iff : s.Normal ↔
    ∀ t : Schema, t.Part s → (∀ inner, t ≠ .nullable (.nullable inner)) ∧ t ≠ .enumeration [] := by
  constructor
  · intro h t hpart
    have ht := h.part hpart
    refine ⟨?_, ?_⟩
    · rintro inner rfl
      cases ht with
      | nullable _ honce => cases honce
    · rintro rfl
      cases ht with
      | enumeration hne => exact hne rfl
  · intro h
    induction s with
    | primitive kind format => exact .primitive kind format
    | reference name => exact .reference name
    | untyped => exact .untyped
    | array items ih => exact .array (ih fun t ht => h t ht.items)
    | object properties required ih =>
      exact .object required fun p hp => ih p hp fun t ht => h t (.property required hp ht)
    | enumeration values =>
      refine .enumeration ?_
      rintro rfl
      exact (h _ .self).2 rfl
    | nullable inner ih =>
      refine .nullable (ih fun t ht => h t ht.inner) (Bool.eq_false_iff.2 fun hnull => ?_)
      cases inner with
      | nullable inner => exact (h _ .self).1 inner rfl
      | primitive | reference | array | object | enumeration | untyped => cases hnull

end Schema

/-! ## Documents -/

namespace Document

variable {P : Schema → Prop} {doc checked : Document} {policy : ReferencePolicy} {text : String}

/-- All schemas of a document satisfy `P` if those of its parts do. -/
theorem forall_schemas_iff : (∀ s ∈ doc.schemas, P s) ↔
    (∀ c ∈ doc.components, P c.schema) ∧
      ∀ item ∈ doc.paths, ∀ op ∈ item.operations, ∀ s ∈ op.schemas, P s := by
  simp only [schemas, operations, List.mem_append, List.mem_map, List.mem_flatMap]
  constructor
  · intro h
    exact ⟨fun c hc => h _ (.inl ⟨c, hc, rfl⟩),
      fun item hitem op hop s hs => h s (.inr ⟨op, ⟨item, hitem, hop⟩, hs⟩)⟩
  · rintro ⟨hc, hop⟩ s (⟨c, hmem, rfl⟩ | ⟨op, ⟨item, hitem, hmem⟩, hs⟩)
    · exact hc c hmem
    · exact hop item hitem op hmem s hs

theorem gives_tagsOf (node : Value) (location : String) : (tagsOf node location).Gives fun _ => True := by
  unfold tagsOf
  split
  · exact gives_pure trivial
  · exact gives_pure trivial
  · exact gives_pure trivial
  · exact gives_malformed _

section Reading

variable (h : ∀ node location, (Schema.parse node location).Gives P)

include h

theorem gives_parseComponents (entries : Entries) :
    (parseComponents entries).Gives fun components => ∀ c ∈ components, P c.schema := by
  induction entries with
  | nil => exact gives_pure fun c hc => absurd hc List.not_mem_nil
  | cons entry entries ih =>
    obtain ⟨key, node⟩ := entry
    unfold parseComponents
    split
    · exact gives_malformed _
    · refine (h node _).bind fun schema hschema => ih.bind fun components hcomponents => ?_
      exact gives_pure (List.forall_mem_cons.2 ⟨hschema, hcomponents⟩)

theorem gives_componentsOf (root : Entries) :
    (componentsOf root).Gives fun components => ∀ c ∈ components, P c.schema := by
  have hnone : (pure [] : Reported (List Component)).Gives fun components => ∀ c ∈ components, P c.schema :=
    gives_pure fun c hc => absurd hc List.not_mem_nil
  unfold componentsOf
  split
  · exact gives_malformed _
  · split
    · exact hnone
    · split
      · exact gives_malformed _
      · split
        · exact hnone
        · exact hnone
        · split
          · exact gives_malformed _
          · exact gives_parseComponents h _

theorem gives_parseOptional (node : Option Value) (location : String) :
    (parseOptional node location).Gives fun schema => ∀ s ∈ schema, P s := by
  cases node with
  | none => exact gives_pure fun s hs => absurd hs (Option.not_mem_none s)
  | some node =>
    refine (h node location).bind fun schema hschema => gives_pure fun s hs => ?_
    rwa [← Option.mem_some.1 hs]

theorem gives_parseOperation (path : String) (verb : Verb) (node : Value) :
    (parseOperation path verb node).Gives fun op => ∀ s ∈ op.schemas, P s := by
  have huntyped : P .untyped := by
    refine (h .null "").yields _ ?_
    rw [Schema.parse]
    rfl
  unfold parseOperation
  split
  · exact gives_malformed _
  · refine (gives_tagsOf node _).bind fun tags _ => ?_
    refine (gives_parseOptional h _ _).bind fun request hrequest => ?_
    refine (gives_parseOptional h _ _).bind fun response hresponse => gives_pure fun s hs => ?_
    rcases List.mem_append.1 hs with hs | hs
    · exact hrequest s (Option.mem_toList.1 hs)
    · rw [List.mem_singleton.1 hs]
      cases response with
      | none => exact huntyped
      | some response => exact hresponse response rfl

theorem gives_parseOperations (path : String) (entries : Entries) :
    (parseOperations path entries).Gives fun operations => ∀ op ∈ operations, ∀ s ∈ op.schemas, P s := by
  induction entries with
  | nil => exact gives_pure fun op hop => absurd hop List.not_mem_nil
  | cons entry entries ih =>
    obtain ⟨key, node⟩ := entry
    unfold parseOperations
    split
    · exact ih
    · refine (gives_parseOperation h path _ node).bind fun op hop => ih.bind fun operations hmore => ?_
      exact gives_pure (List.forall_mem_cons.2 ⟨hop, hmore⟩)

theorem gives_parsePaths (entries : Entries) : (parsePaths entries).Gives fun items =>
    ∀ item ∈ items, ∀ op ∈ item.operations, ∀ s ∈ op.schemas, P s := by
  induction entries with
  | nil => exact gives_pure fun item hitem => absurd hitem List.not_mem_nil
  | cons entry entries ih =>
    obtain ⟨key, node⟩ := entry
    unfold parsePaths
    split
    · exact gives_malformed _
    · split
      · exact gives_malformed _
      · refine (gives_parseOperations h _ _).bind fun operations hop => ih.bind fun items hmore => ?_
        exact gives_pure (List.forall_mem_cons.2 ⟨hop, hmore⟩)

theorem gives_pathsOf (root : Entries) : (pathsOf root).Gives fun items =>
    ∀ item ∈ items, ∀ op ∈ item.operations, ∀ s ∈ op.schemas, P s := by
  unfold pathsOf
  split
  · exact gives_malformed _
  · split
    · exact gives_pure fun item hitem => absurd hitem List.not_mem_nil
    · split
      · exact gives_malformed _
      · exact gives_parsePaths h _

/-- **What every schema satisfies that is read, all schemas of a description satisfy.** -/
theorem gives_read (text : String) : (read text).Gives fun doc => ∀ s ∈ doc.schemas, P s := by
  unfold read
  split
  · exact gives_malformed _
  · unfold parse
    split
    · exact gives_malformed _
    · refine (gives_componentsOf h _).bind fun components hcomponents => ?_
      refine (gives_pathsOf h _).bind fun paths hpaths => ?_
      exact gives_pure (forall_schemas_iff.2 ⟨hcomponents, hpaths⟩)

end Reading

/-- **Reading a description** remarks on required properties only, and fails at malformed parts only. -/
theorem descriptive_read (text : String) : (read text).Descriptive :=
  (gives_read Schema.gives_parse text).descriptive

/-- What the generic type in place of references keeps, the check of a document keeps. -/
theorem forall_schemas_check (hgeneral : ∀ known s, P s → P (s.generalize known))
    (hcheck : (check policy doc).outcome = .ok checked) (h : ∀ s ∈ doc.schemas, P s) :
    ∀ s ∈ checked.schemas, P s := by
  cases policy with
  | strict =>
    simp only [check] at hcheck
    split at hcheck
    · obtain rfl := Except.ok.inj hcheck
      exact h
    · cases hcheck
  | lenient =>
    obtain rfl := Except.ok.inj hcheck
    rw [forall_schemas_iff] at h ⊢
    refine ⟨fun c hc => ?_, fun item hitem op hop s hs => ?_⟩
    · obtain ⟨c, hmem, rfl⟩ := List.mem_map.1 hc
      exact hgeneral _ _ (h.1 c hmem)
    · obtain ⟨item, hmem, rfl⟩ := List.mem_map.1 hitem
      obtain ⟨written, hwritten, rfl⟩ := List.mem_map.1 hop
      have hall := h.2 item hmem written hwritten
      rcases List.mem_append.1 hs with hs | hs
      · obtain ⟨request, hrequest, rfl⟩ := Option.map_eq_some_iff.1 (Option.mem_toList.1 hs)
        exact hgeneral _ _ (hall request (List.mem_append_left _ (Option.mem_toList.2 hrequest)))
      · rw [List.mem_singleton.1 hs]
        exact hgeneral _ _ (hall _ (List.mem_append_right _ (List.mem_singleton.2 rfl)))

/-- **All schemas of a loaded document are in normal form**, under either policy. -/
theorem normal_load (h : (load policy text).outcome = .ok doc) : ∀ s ∈ doc.schemas, s.Normal := by
  obtain ⟨written, hread, hcheck⟩ := check_of_load h
  have hwritten := (gives_read Schema.gives_parse text).yields written hread
  exact forall_schemas_check (fun known _ hs => hs.generalize known) hcheck hwritten

end Document

end ApiCodegen
