import ApiCodegen.Proofs.Schema.Load
import ApiCodegen.Proofs.Schema.Reachable

/-!
# How a schema is read

A schema is read key by key, and what a step of the reading does depends on few keys.

* `Reported.Yields`: what every result of a computation satisfies.
* `Schema.parse_entries`, `Schema.parseEntries_named`, `Schema.parseEntries_types`,
  `Schema.parseEntries_alternatives`: the steps of the reading, by what a mapping has.
* `Schema.parseTyped_eq`, `Schema.parseObject_eq`: a named type, and an object.
* `Schema.typeNamed`: a mapping with the name of a type and nothing else.
* `Schema.parseTyped_congr`: **a named type depends on five keys only.**
* `Schema.isNullable_parseTyped`: **a named type admits null only if the name is `null`.**
-/

namespace ApiCodegen

open Markup

/-- Every result of a computation satisfies `P`. -/
def Reported.Yields {α : Type} (r : Reported α) (P : α → Prop) : Prop := ∀ a, r.outcome = .ok a → P a

namespace Reported

variable {α β : Type} {P : α → Prop} {Q : β → Prop} {r : Reported α}

theorem yields_pure {a : α} (h : P a) : (pure a : Reported α).Yields P := by
  intro b hb
  obtain rfl := Except.ok.inj hb
  exact h

theorem yields_fail {f : Failure} : (fail f : Reported α).Yields P := by
  intro a ha
  cases ha

theorem Yields.bind (h : r.Yields P) {next : α → Reported β} (hn : ∀ a, P a → (next a).Yields Q) :
    (r >>= next).Yields Q := by
  intro b hb
  obtain ⟨a, ha, hb⟩ := Reported.bind_ok hb
  exact hn a (h a ha) b hb

/-- Whatever the first part results in. -/
theorem yields_bind {next : α → Reported β} (hn : ∀ a, (next a).Yields Q) : (r >>= next).Yields Q := by
  intro b hb
  obtain ⟨a, -, hb⟩ := Reported.bind_ok hb
  exact hn a b hb

end Reported

open Reported

namespace Schema

variable {name location : String} {entries entries' : Entries} {node : Value}

/-- The items that the entries of an array describe. -/
def itemsOf (entries : Entries) (location : String) : Reported Schema :=
  match entries.get? "items" with
  | some items => parse items (itemsLocation location)
  | none => pure .untyped

/-- The properties that the entries of an object describe, one for each entry. -/
def propertiesOf (entries : Entries) (location : String) : Reported (List (Property Schema)) :=
  match entries.get? "properties" with
  | some value =>
    match value.entries? with
    | some properties => parseProperties properties location
    | none => .fail (.malformed (.propertiesNotMapping location))
  | none => pure []

/-! ## Steps of the reading -/

/-- A mapping is read by its entries; then `nullable` is looked at. -/
theorem parse_entries (h : node.entries? = some entries) (location : String) :
    parse node location = parseEntries entries location >>= fun schema =>
      pure (if (entries.get? "nullable").bind Value.bool? = some true then orNull schema else schema) := by
  rw [parse]
  split
  · rename_i found hfound
    obtain rfl : entries = found := Option.some.inj (h.symm.trans hfound)
    rfl
  · rename_i hnone
    rw [h] at hnone
    cases hnone

section

variable (href : entries.get? "$ref" = none)

include href

/-- The type of a mapping may be a name. -/
theorem parseEntries_named (halternatives : alternatives? entries = none)
    (htype : entries.get? "type" = some (.string name)) (location : String) :
    parseEntries entries location = parseTyped name entries location := by
  rw [parseEntries, href]
  dsimp only
  split
  · rename_i members hmembers
    rw [halternatives] at hmembers
    cases hmembers
  · rw [htype]

/-- The type of a mapping may be some names. -/
theorem parseEntries_types (halternatives : alternatives? entries = none) {types : List Value}
    (htype : entries.get? "type" = some (.sequence types))
    (hnames : (types.filterMap Value.string?).filter (· != "null") = [name]) (location : String) :
    parseEntries entries location = parseTyped name entries location >>= fun inner =>
      pure (if (types.filterMap Value.string?).contains "null" then .nullable inner else inner) := by
  rw [parseEntries, href]
  dsimp only
  split
  · rename_i members hmembers
    rw [halternatives] at hmembers
    cases hmembers
  · rw [htype]
    dsimp only
    split
    · rename_i other hother
      obtain rfl : name = other := List.singleton_inj.1 (hnames.symm.trans hother)
      rfl
    · rename_i hother
      exact absurd hnames (hother name)

/-- A mapping may have alternatives, of which one is not `null`. -/
theorem parseEntries_alternatives {members : List Value} {member : Value}
    (halternatives : alternatives? entries = some members)
    (hmember : members.filter (fun member => !isNullType member) = [member]) (location : String) :
    parseEntries entries location = parse member location >>= fun inner =>
      pure (if 1 < members.length then orNull inner else inner) := by
  rw [parseEntries, href]
  dsimp only
  split
  · rename_i found hfound
    obtain rfl : members = found := Option.some.inj (halternatives.symm.trans hfound)
    rw [parseAlternatives]
    split
    · rename_i other hother
      obtain rfl : member = other := List.singleton_inj.1 (hmember.symm.trans hother)
      have hlength : (members.filter fun member => !isNullType member).length = 1 := by
        rw [hmember]
        rfl
      simp only [hlength]
    · rename_i hother
      exact absurd hmember (hother member)
  · rename_i hnone
    rw [halternatives] at hnone
    cases hnone

end

theorem parseObject_eq (entries : Entries) (location : String) :
    parseObject entries location = propertiesOf entries location >>= fun properties =>
      objectOf location properties (requiredOf entries) := by
  rw [parseObject, propertiesOf]
  split
  · rename_i value hvalue
    simp only [hvalue]
    split
    · rename_i properties hproperties
      simp only [hproperties]
    · rename_i hnone
      simp only [hnone]
  · rename_i hnone
    simp only [hnone]

theorem parseTyped_eq (name : String) (entries : Entries) (location : String) :
    parseTyped name entries location =
      if name = "string" then stringOf entries location
      else if name = "integer" then pure (primitiveOf .integer entries)
      else if name = "number" then pure (primitiveOf .number entries)
      else if name = "boolean" then pure (primitiveOf .boolean entries)
      else if name = "array" then itemsOf entries location >>= fun items => pure (.array items)
      else if name = "object" then parseObject entries location
      else if name = "null" then pure (.nullable .untyped)
      else .fail (.malformed (.unknownType name location)) := by
  rw [parseTyped, itemsOf]
  split_ifs
  · rfl
  · rfl
  · rfl
  · rfl
  · split <;> rename_i h <;> simp only [h]
  · rfl
  · rfl
  · rfl

/-- A mapping that says a type by its name, and nothing else. -/
def typeNamed (name : String) : Value := .mapping [(.string "type", .string name)]

theorem parse_typeNamed (name location : String) :
    parse (typeNamed name) location = parseTyped name [(.string "type", .string name)] location := by
  rw [typeNamed, Document.parse_of_entries rfl rfl, parseEntries_named rfl rfl rfl]

/-! ## What a step depends on -/

/-- The keys that a named type looks at. -/
def typedKeys : List String := ["format", "enum", "items", "properties", "required"]

/-- **A named type depends on five keys only.** -/
theorem parseTyped_congr (h : ∀ key ∈ typedKeys, entries'.get? key = entries.get? key) (name location : String) :
    parseTyped name entries' location = parseTyped name entries location := by
  have hprimitive (kind : Kind) : primitiveOf kind entries' = primitiveOf kind entries := by
    rw [primitiveOf, primitiveOf, h "format" (by decide)]
  have hstring : stringOf entries' location = stringOf entries location := by
    rw [stringOf, stringOf, h "enum" (by decide), hprimitive]
  have hitems : itemsOf entries' location = itemsOf entries location := by
    rw [itemsOf, itemsOf, h "items" (by decide)]
  have hobject : parseObject entries' location = parseObject entries location := by
    rw [parseObject_eq, parseObject_eq, propertiesOf, propertiesOf, requiredOf, requiredOf,
      h "properties" (by decide), h "required" (by decide)]
  simp only [parseTyped_eq, hprimitive, hstring, hitems, hobject]

/-! ## Types that do not admit null -/

theorem isNullable_stringOf (entries : Entries) (location : String) :
    (stringOf entries location).Yields fun s => s.isNullable = false := by
  unfold stringOf
  split
  · split
    · exact yields_pure rfl
    · split
      · exact yields_pure rfl
      · exact yields_fail
  · exact yields_pure rfl

theorem isNullable_parseObject (entries : Entries) (location : String) :
    (parseObject entries location).Yields fun s => s.isNullable = false := by
  rw [parseObject_eq]
  refine yields_bind fun properties s hs => ?_
  obtain rfl := Except.ok.inj hs
  rfl

/-- **A named type admits null only if the name is `null`.** -/
theorem isNullable_parseTyped (entries : Entries) (location : String) (hname : name ≠ "null") :
    (parseTyped name entries location).Yields fun s => s.isNullable = false := by
  rw [parseTyped_eq]
  split_ifs
  · exact isNullable_stringOf entries location
  · exact yields_pure rfl
  · exact yields_pure rfl
  · exact yields_pure rfl
  · exact yields_bind fun items => yields_pure rfl
  · exact isNullable_parseObject entries location
  · exact yields_fail

end Schema

end ApiCodegen
