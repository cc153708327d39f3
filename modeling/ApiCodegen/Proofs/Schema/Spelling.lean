import ApiCodegen.Proofs.Schema.Reading

/-!
# All spellings of a nullable type are read alike

A type with a name can be made to admit null by a flag, by a list of names and by a list of alternatives.
Each spelling takes another way through the reading and comes back to the named type.

* `Entries.Sets`: a mapping that differs from another one under a single key.
* `Schema.NamedBy`: a mapping that says its type by a name, and nothing about null.
* `Schema.Spells`: **the spellings of such a type with null.**
* `Schema.parse_of_spells`: **they are all read as the type itself, with null around it**; if the type is
  malformed, they fail as it does.
-/

namespace ApiCodegen

open Markup

/-- What a computation results in can be put into its place at the end. -/
theorem Reported.bind_pure_eq {α β : Type} {r : Reported α} {place place' : α → β}
    (h : r.Yields fun a => place a = place' a) :
    (r >>= fun a => pure (place a)) = ⟨r.warnings, r.outcome.map place'⟩ := by
  rcases r with ⟨warnings, outcome⟩
  cases outcome with
  | error failure => rfl
  | ok a =>
    have ha : place a = place' a := h a rfl
    rw [Reported.ok_bind, ha, Reported.pure_eq, List.append_nil]
    rfl

/-- **A mapping with a value under a key**, that says under all other keys what another one says. -/
structure Markup.Entries.Sets (entries : Entries) (key : String) (value : Value) (entries' : Entries) :
    Prop where
  get?_key : entries'.get? key = some value
  get?_other : ∀ other, other ≠ key → entries'.get? other = entries.get? other

namespace Schema

variable {entries entries' : Entries} {name location : String} {node : Value}

/-- The keys for alternatives. -/
def alternativeKeys : List String := ["anyOf", "oneOf", "allOf"]

/-- **A mapping that says its type by a name**, and nothing about null. -/
structure NamedBy (name : String) (entries : Entries) : Prop where
  type : entries.get? "type" = some (.string name)
  ne_null : name ≠ "null"
  reference : entries.get? "$ref" = none
  alternatives : ∀ key ∈ alternativeKeys, ∀ members, entries.get? key ≠ some (.sequence members)
  nullable : entries.get? "nullable" = none

/-- The alternative of the type `null`. -/
def nullType : Value := typeNamed "null"

/-- **The spellings of a named type that admits null**: by a flag, by `null` among two names, or by an
alternative of the type `null`. -/
inductive Spells (name : String) (entries : Entries) : Value → Prop
  | flag {entries' : Entries} (h : entries.Sets "nullable" (.bool true) entries') :
      Spells name entries (.mapping entries')
  | names {entries' : Entries} {types : List Value} (h : entries.Sets "type" (.sequence types) entries')
      (htypes : types = [.string name, .string "null"] ∨ types = [.string "null", .string name]) :
      Spells name entries (.mapping entries')
  | alternatives {key : String} {members : List Value} (hkey : key ∈ alternativeKeys)
      (hmembers : members = [.mapping entries, nullType] ∨ members = [nullType, .mapping entries]) :
      Spells name entries (.mapping [(.string key, .sequence members)])

theorem alternatives?_eq_none_iff : alternatives? entries = none ↔
    ∀ key ∈ alternativeKeys, ∀ members, entries.get? key ≠ some (.sequence members) := by
  rw [alternatives?, List.findSome?_eq_none_iff]
  refine forall₂_congr fun key _ => ?_
  split
  · rename_i members hmembers
    simp [hmembers]
  · rename_i hnone
    simp only [true_iff]
    exact hnone

/-- Alternatives under a single key. -/
theorem alternatives?_singleton {key : String} (hkey : key ∈ alternativeKeys) (members : List Value) :
    alternatives? [(.string key, .sequence members)] = some members := by
  simp only [alternativeKeys, List.mem_cons, List.not_mem_nil, or_false] at hkey
  rcases hkey with rfl | rfl | rfl <;> rfl

/-- A change under another key does not change what is read by a name. -/
theorem parseTyped_sets {key : String} {value : Value} (hsets : entries.Sets key value entries')
    (hkey : key ∉ typedKeys) (location : String) :
    parseTyped name entries' location = parseTyped name entries location := by
  refine parseTyped_congr (fun other hother => hsets.get?_other other ?_) name location
  rintro rfl
  exact hkey hother

namespace NamedBy

variable (h : NamedBy name entries)

include h

/-- A mapping with a name is read by this name. -/
theorem parse_eq (location : String) :
    parse (.mapping entries) location = parseTyped name entries location := by
  rw [Document.parse_of_entries rfl h.nullable,
    parseEntries_named h.reference (alternatives?_eq_none_iff.2 h.alternatives) h.type]

/-- What it is read as does not admit null yet, so null is put around it. -/
theorem yields_orNull (location : String) :
    (parseTyped name entries location).Yields fun s => orNull s = .nullable s := by
  intro s hs
  have hnull := isNullable_parseTyped entries location h.ne_null s hs
  exact if_neg (by simp [hnull])

theorem isNullType_eq : isNullType (.mapping entries) = false := by
  have hget : (Value.mapping entries).get? "type" = some (.string name) := h.type
  have hne := h.ne_null
  simp [isNullType, hget, Value.string?, Value.untag, hne]

/-- A change under another key brings neither references nor alternatives. -/
theorem sets_reference {key : String} {value : Value} (hsets : entries.Sets key value entries')
    (hkey : "$ref" ≠ key) : entries'.get? "$ref" = none :=
  (hsets.get?_other _ hkey).trans h.reference

theorem sets_alternatives {key : String} {value : Value} (hsets : entries.Sets key value entries')
    (hkey : key ∉ alternativeKeys) : alternatives? entries' = none := by
  refine alternatives?_eq_none_iff.2 fun other hother members => ?_
  rw [hsets.get?_other other]
  · exact h.alternatives other hother members
  · rintro rfl
    exact hkey hother

/-! ## The spellings -/

/-- A flag. -/
theorem parse_flag (hsets : entries.Sets "nullable" (.bool true) entries') (location : String) :
    parse (.mapping entries') location = parseTyped name entries location >>= fun s => pure (orNull s) := by
  have htype : entries'.get? "type" = some (.string name) := (hsets.get?_other _ (by decide)).trans h.type
  have hinner : parseEntries entries' location = parseTyped name entries location := by
    rw [parseEntries_named (h.sets_reference hsets (by decide)) (h.sets_alternatives hsets (by decide))
      htype, parseTyped_sets hsets (by decide)]
  rw [parse_entries rfl, hinner, hsets.get?_key]
  rfl

/-- A list of two names. -/
theorem parse_names {types : List Value} (hsets : entries.Sets "type" (.sequence types) entries')
    (htypes : types = [.string name, .string "null"] ∨ types = [.string "null", .string name])
    (location : String) : parse (.mapping entries') location =
      parseTyped name entries location >>= fun s => pure (.nullable s) := by
  have hne := h.ne_null
  have hnames : (types.filterMap Value.string?).filter (· != "null") = [name] := by
    rcases htypes with rfl | rfl <;> simp [Value.string?, Value.untag, hne]
  have hnull : (types.filterMap Value.string?).contains "null" = true := by
    rcases htypes with rfl | rfl <;> simp [Value.string?, Value.untag]
  have hnullable : entries'.get? "nullable" = none := (hsets.get?_other _ (by decide)).trans h.nullable
  rw [Document.parse_of_entries rfl hnullable, parseEntries_types (h.sets_reference hsets (by decide))
    (h.sets_alternatives hsets (by decide)) hsets.get?_key hnames, parseTyped_sets hsets (by decide),
    hnull]
  rfl

/-- A list of two alternatives. -/
theorem parse_alternatives {key : String} {members : List Value} (hkey : key ∈ alternativeKeys)
    (hmembers : members = [.mapping entries, nullType] ∨ members = [nullType, .mapping entries])
    (location : String) : parse (.mapping [(.string key, .sequence members)]) location =
      parseTyped name entries location >>= fun s => pure (orNull s) := by
  have hne : ∀ other, other ∉ alternativeKeys →
      Entries.get? [(.string key, .sequence members)] other = none := by
    intro other hother
    have hkey : key ≠ other := by
      rintro rfl
      exact hother hkey
    simp [Entries.get?, hkey]
  have hnull : isNullType nullType = true := by decide +kernel
  have hmember : members.filter (fun member => !isNullType member) = [.mapping entries] := by
    rcases hmembers with rfl | rfl <;> simp [hnull, h.isNullType_eq]
  have hlength : 1 < members.length := by
    rcases hmembers with rfl | rfl <;> exact Nat.lt_succ_self 1
  rw [Document.parse_of_entries rfl (hne _ (by decide)),
    parseEntries_alternatives (hne _ (by decide)) (alternatives?_singleton hkey members) hmember,
    h.parse_eq]
  simp only [hlength, if_true]

end NamedBy

/-- **All spellings of a nullable type are read alike**: as the type itself is, with null around it. The
remarks are the same, and if the type is malformed, so is the failure. -/
theorem parse_of_spells (h : NamedBy name entries) (hspells : Spells name entries node) (location : String) :
    parse node location = ⟨(parse (.mapping entries) location).warnings,
      (parse (.mapping entries) location).outcome.map .nullable⟩ := by
  rw [h.parse_eq]
  cases hspells with
  | flag hsets =>
    rw [h.parse_flag hsets]
    exact Reported.bind_pure_eq (h.yields_orNull location)
  | names hsets htypes =>
    rw [h.parse_names hsets htypes]
    exact Reported.bind_pure_eq fun _ _ => rfl
  | alternatives hkey hmembers =>
    rw [h.parse_alternatives hkey hmembers]
    exact Reported.bind_pure_eq (h.yields_orNull location)

/-! ## A list of an unknown type -/

/-- A list, of items of a named type. -/
def listOf (type : String) : Entries := [(.string "type", .string "array"), (.string "items", typeNamed type)]

/-- The same behind a name for null. -/
def nullOrListOf (type : String) : Entries :=
  [(.string "type", .sequence [.string "null", .string "array"]), (.string "items", typeNamed type)]

theorem namedBy_listOf (type : String) : NamedBy "array" (listOf type) where
  type := rfl
  ne_null := by decide
  reference := rfl
  alternatives := by
    intro key hkey members
    simp only [alternativeKeys, List.mem_cons, List.not_mem_nil, or_false] at hkey
    rcases hkey with rfl | rfl | rfl <;> simp [listOf, Entries.get?]
  nullable := rfl

theorem spells_nullOrListOf (type : String) : Spells "array" (listOf type) (.mapping (nullOrListOf type)) := by
  refine .names ⟨rfl, fun other hother => ?_⟩ (.inr rfl)
  simp [nullOrListOf, listOf, Entries.get?, hother.symm]

theorem parse_listOf (type location : String) : parse (.mapping (listOf type)) location =
    parseTyped type [(.string "type", .string type)] (itemsLocation location) >>= fun items =>
      pure (.array items) := by
  have hget : Entries.get? (listOf type) "items" = some (typeNamed type) := rfl
  rw [(namedBy_listOf type).parse_eq, parseTyped_eq, itemsOf, hget]
  simp only [parse_typeNamed]
  rfl

/-- A list of texts admits null as it is spelled, and a list of an unknown type fails at its items. -/
theorem parse_of_spells_list :
    (NamedBy "array" (listOf "string") ∧ Spells "array" (listOf "string") (.mapping (nullOrListOf "string")) ∧
      parse (.mapping (nullOrListOf "string")) "x" =
        ⟨[], .ok (.nullable (.array (.primitive .string none)))⟩) ∧
    NamedBy "array" (listOf "tuple") ∧ Spells "array" (listOf "tuple") (.mapping (nullOrListOf "tuple")) ∧
      parse (.mapping (nullOrListOf "tuple")) "x" =
        ⟨[], .error (.malformed (.unknownType "tuple" "x.items"))⟩ := by
  have hstring : parse (.mapping (listOf "string")) "x" = ⟨[], .ok (.array (.primitive .string none))⟩ := by
    rw [parse_listOf, parseTyped_eq]
    rfl
  have htuple : parse (.mapping (listOf "tuple")) "x" =
      ⟨[], .error (.malformed (.unknownType "tuple" "x.items"))⟩ := by
    rw [parse_listOf, parseTyped_eq]
    rfl
  refine ⟨⟨namedBy_listOf _, spells_nullOrListOf _, ?_⟩, namedBy_listOf _, spells_nullOrListOf _, ?_⟩
  · rw [parse_of_spells (namedBy_listOf _) (spells_nullOrListOf _), hstring]
    rfl
  · rw [parse_of_spells (namedBy_listOf _) (spells_nullOrListOf _), htuple]
    rfl

end Schema

end ApiCodegen
