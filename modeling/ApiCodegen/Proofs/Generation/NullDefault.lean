import ApiCodegen.Client.Types
import ApiCodegen.Proofs.Client.Literal
import ApiCodegen.Proofs.Server.Literal
import ApiCodegen.Server.Models

/-!
# Null as a default

A default is written beside a type. The server has a rule of its own for a default that is null, by which its
annotation admits `None`; the client writes the type of the schema, whatever the default is.

* `Schema.AdmitsNull`: the schemas whose own types admit null.
* `Server.TypeExpr.AdmitsNone`, `Client.TypeExpr.AdmitsNull`: the types that do.
* `Server.literal_eq_none_iff`, `Client.literal_eq_null_iff`: **a default is written as null if it is null,
  perhaps with tags.**
* `null_default_excluded_iff`: **where null is the default of a type that does not admit it**: in the client for
  every schema that does not, in the server behind a tag only.
-/

namespace ApiCodegen

open Markup (Number Value)
open Text

/-- The type of a schema admits null by itself. `anyName` is the name of the type that admits every value; the
name of a component may be the same. -/
def Schema.AdmitsNull (anyName : String) : Schema → Prop
  | .nullable _ | .untyped => True
  | .reference component => Name.declaration component = anyName
  | .primitive _ _ | .array _ | .object _ _ | .enumeration _ => False

/-- A default of a field that is null behind a tag. -/
def Presence.NullBehindTag : Presence → Prop
  | .defaulted (.tagged _ inner) => inner.isNull
  | _ => False

/-- A default of a field that is null, perhaps with tags. -/
def Presence.NullDefault : Presence → Prop
  | .defaulted v => v.isNull
  | _ => False

variable {s : Schema} {v : Value}

/-- A text of a number has no other letters. -/
theorem ne_of_forall_number {text word : String} {c : Char} (h : ∀ d ∈ text.toList, Numeric.isNumberChar d)
    (hc : c ∈ word.toList) (hnot : Numeric.isNumberChar c = false) : text ≠ word := by
  rintro rfl
  exact Bool.false_ne_true (hnot.symm.trans (h c hc))

/-! ## The server -/

namespace Server

/-- **An annotation admits `None`.** -/
def TypeExpr.AdmitsNone (t : TypeExpr) : Prop :=
  t = TypeExpr.name "Any" ∨ ∃ args, t = TypeExpr.apply "Optional" args

/-- **A value is written as `None` if it is null**, perhaps with tags. -/
theorem literal_eq_none_iff : literal v = "None" ↔ v.isNull := by
  rw [literal, ← String.toList_inj, String.toList_ofList]
  induction v with
  | null => simp [literalChars, Value.isNull, Value.untag]
  | bool b => cases b <;> simp [literalChars, Value.isNull, Value.untag]
  | number n =>
    have hne : numberLiteral n ≠ "None" := by
      unfold numberLiteral
      split
      · decide
      · decide
      · decide
      · exact ne_of_forall_number (Numeric.forall_number n) (c := 'o') (by decide) (by decide)
    have hchars : literalChars (.number n) ≠ "None".toList := by
      rwa [literalChars, ne_eq, String.toList_inj]
    simpa [Value.isNull, Value.untag] using hchars
  | string | sequence | mapping => simp [literalChars, Value.isNull, Value.untag, quoteChars]
  | tagged tag inner ih =>
    rw [literalChars]
    exact ih

/-- The annotation of a schema admits `None` if the schema admits null by itself. -/
theorem admitsNone_ofSchema_iff : (TypeExpr.ofSchema s).AdmitsNone ↔ s.AdmitsNull "Any" := by
  cases s with
  | nullable | untyped | reference | array | object =>
    simp [TypeExpr.ofSchema, TypeExpr.orNone, TypeExpr.mapping, TypeExpr.AdmitsNone, Schema.AdmitsNull]
  | enumeration values =>
    rw [TypeExpr.ofSchema]
    split <;> simp [TypeExpr.AdmitsNone, Schema.AdmitsNull]
  | primitive kind format =>
    rw [TypeExpr.ofSchema]
    unfold TypeExpr.ofKind
    split
    · split <;> simp [TypeExpr.AdmitsNone, Schema.AdmitsNull]
    all_goals simp [TypeExpr.AdmitsNone, Schema.AdmitsNull]

/-- The annotation of what may be absent admits `None`. -/
theorem admitsNone_optional (s : Schema) : (TypeExpr.optional s).AdmitsNone := by
  unfold TypeExpr.optional
  split
  · rename_i hnullable
    cases s with
    | nullable inner => exact .inr ⟨_, rfl⟩
    | _ => cases hnullable
  · exact .inr ⟨_, rfl⟩

/-- **An attribute has the default `None`.** -/
def Attribute.DefaultsToNone (a : Attribute) : Prop := a.default?.map literal = some "None"

/-- Where the annotation of such an attribute does not admit `None`. -/
theorem Attribute.none_excluded_iff (f : Field) (given : String) :
    let a := ofField f given
    a.DefaultsToNone ∧ ¬ a.annotation.AdmitsNone ↔
      f.presence.NullBehindTag ∧ ¬ f.schema.AdmitsNull "Any" := by
  intro a
  have hwritten : a.annotation = annotationOf f := rfl
  have hdefault : a.DefaultsToNone ↔ (defaultOf f).map literal = some "None" := .rfl
  rw [← admitsNone_ofSchema_iff, hwritten, hdefault]
  -- the rule for null looks at a default without a tag, and all others have the type of the schema
  cases hpresence : f.presence with
  | required => simp [defaultOf, hpresence, Presence.NullBehindTag]
  | absent =>
    have hoptional : annotationOf f = .optional f.schema := by simp [annotationOf, hpresence]
    simp [hoptional, admitsNone_optional, Presence.NullBehindTag]
  | defaulted v =>
    have hnull : (defaultOf f).map literal = some "None" ↔ v.isNull := by
      simp [← literal_eq_none_iff, defaultOf, hpresence]
    cases v with
    | null =>
      have hoptional : annotationOf f = .optional f.schema := by simp [annotationOf, hpresence]
      simp [hoptional, admitsNone_optional, Presence.NullBehindTag]
    | tagged tag inner =>
      have hschema : annotationOf f = .ofSchema f.schema := by simp [annotationOf, hpresence]
      rw [hnull, hschema]
      rfl
    | _ => simp [hnull, Presence.NullBehindTag, Value.isNull, Value.untag]

end Server

/-! ## The client -/

namespace Client

/-- **A type admits `null`.** -/
def TypeExpr.AdmitsNull (t : TypeExpr) : Prop :=
  t = TypeExpr.name "any" ∨ ∃ members, t = TypeExpr.union members ∧ TypeExpr.name "null" ∈ members

/-- **A value is written as `null` if it is null**, perhaps with tags. -/
theorem literal_eq_null_iff : literal v = "null" ↔ v.isNull := by
  rw [literal, ← String.toList_inj, String.toList_ofList]
  induction v with
  | null => simp [literalChars, Value.isNull, Value.untag]
  | bool b => cases b <;> simp [literalChars, Value.isNull, Value.untag]
  | number n =>
    have hne : numberLiteral n ≠ "null" := by
      unfold numberLiteral
      split
      · decide
      · decide
      · decide
      · exact ne_of_forall_number (Numeric.forall_number n) (c := 'u') (by decide) (by decide)
    have hchars : literalChars (.number n) ≠ "null".toList := by
      rwa [literalChars, ne_eq, String.toList_inj]
    simpa [Value.isNull, Value.untag] using hchars
  | string | sequence => simp [literalChars, Value.isNull, Value.untag, quoteChars]
  | mapping entries _ => cases entries <;> simp [literalChars, Value.isNull, Value.untag]
  | tagged tag inner ih =>
    rw [literalChars]
    exact ih

/-- The type of a schema admits `null` if the schema admits null by itself. -/
theorem admitsNull_ofSchema_iff : (TypeExpr.ofSchema s).AdmitsNull ↔ s.AdmitsNull "any" := by
  cases s with
  | nullable | untyped | reference | array | object =>
    simp [TypeExpr.ofSchema, TypeExpr.orNull, TypeExpr.AdmitsNull, Schema.AdmitsNull]
  | enumeration values =>
    rw [TypeExpr.ofSchema]
    split <;> simp [TypeExpr.AdmitsNull, Schema.AdmitsNull]
  | primitive kind format =>
    rw [TypeExpr.ofSchema]
    unfold TypeExpr.ofKind
    split
    · split <;> simp [TypeExpr.AdmitsNull, Schema.AdmitsNull, dateTimeName]
    all_goals simp [TypeExpr.AdmitsNull, Schema.AdmitsNull]

/-- **A member has the default `null`**, among those of its interface. -/
def Member.DefaultsToNull (m : Member) : Prop := m.default?.map literal = some "null"

/-- Where the type of such a member does not admit `null`. -/
theorem Member.null_excluded_iff (f : Field) :
    (ofField f).DefaultsToNull ∧ ¬ (ofField f).type.AdmitsNull ↔
      f.presence.NullDefault ∧ ¬ f.schema.AdmitsNull "any" := by
  have hdefault : (ofField f).DefaultsToNull ↔ f.presence.NullDefault := by
    cases hpresence : f.presence with
    | required | absent => simp [DefaultsToNull, ofField, hpresence, Presence.NullDefault]
    | defaulted v =>
      rw [Presence.NullDefault, ← literal_eq_null_iff, DefaultsToNull]
      simp [ofField, hpresence]
  rw [hdefault, ← admitsNull_ofSchema_iff]
  rfl

end Client

/-- **Where null is the default of a type that does not admit it**, for every field of a declared object,
whatever name its attribute has.

* An attribute has the default `None` beside an annotation that is neither `Any` nor `Optional` if the default
  is null behind a tag, and the type of the schema does not admit null by itself.
* A member has the default `null` beside a type that is neither `any` nor a union with `null` if the default is
  null, with or without tags, and the type of the schema does not admit null by itself. -/
theorem null_default_excluded_iff (f : Field) (given : String) :
    let a := Server.Attribute.ofField f given
    let m := Client.Member.ofField f
    (a.DefaultsToNone ∧ ¬ a.annotation.AdmitsNone ↔
      f.presence.NullBehindTag ∧ ¬ f.schema.AdmitsNull "Any") ∧
    (m.DefaultsToNull ∧ ¬ m.type.AdmitsNull ↔ f.presence.NullDefault ∧ ¬ f.schema.AdmitsNull "any") :=
  ⟨Server.Attribute.none_excluded_iff f given, Client.Member.null_excluded_iff f⟩

/-- A string with the default null: the client gives `null` to a type that does not admit it, while the server
writes an annotation that does. -/
theorem not_admitsNull_string :
    let f : Field := ⟨"q", .primitive .string none, .defaulted .null, none, {}⟩
    let a := Server.Attribute.ofField f "q"
    let m := Client.Member.ofField f
    m.DefaultsToNull ∧ ¬ m.type.AdmitsNull ∧ a.DefaultsToNone ∧ a.annotation.AdmitsNone := by
  intro f a m
  refine ⟨congrArg some (Client.literal_eq_null_iff.2 rfl), ?_,
    congrArg some (Server.literal_eq_none_iff.2 rfl), .inr ⟨_, rfl⟩⟩
  rintro (h | ⟨members, h, -⟩)
  · exact absurd (Client.TypeExpr.name.inj h) (by decide)
  · cases h

end ApiCodegen
