import ApiCodegen.Warning
import ApiCodegen.Schema.Basic

/-!
# From values to schemas

* `Schema.parse`: the schema that a value describes, with remarks on required properties that
  are not declared.

A schema says what it is by the first of these that it has: a reference, a list of alternatives,
a type. Null is admitted by `nullable`, by `null` among several types, or by an alternative of
type `null`.
-/

namespace ApiCodegen.Schema

open Markup

/-- The text behind the last slash. -/
def lastSegment (cs : List Char) : List Char := (cs.reverse.takeWhile (· != '/')).reverse

/-- Whether an alternative is the type `null`. -/
def isNullType (member : Value) : Bool := (member.get? "type").bind Value.string? == some "null"

/-- The alternatives of a schema, under the first of the three keys that has a list. -/
def alternatives? (entries : Entries) : Option (List Value) :=
  ["anyOf", "oneOf", "allOf"].findSome? fun key =>
    match entries.get? key with
    | some (.sequence members) => some members
    | _ => none

/-- A primitive with the format that the entries give. -/
def primitiveOf (kind : Kind) (entries : Entries) : Schema :=
  .primitive kind ((entries.get? "format").bind Value.string?)

/-- A string, or an enumeration if the entries list values. -/
def stringOf (entries : Entries) (location : String) : Reported Schema :=
  match entries.get? "enum" with
  | some (.sequence values) =>
    if values.isEmpty then pure (primitiveOf .string entries)
    else match values.mapM Value.string? with
      | some values => pure (.enumeration values)
      | none => .fail (.malformed (.enumNotStrings location))
  | _ => pure (primitiveOf .string entries)

/-- The required names, each once. -/
def requiredOf (entries : Entries) : List String :=
  match entries.get? "required" with
  | some (.sequence names) => (names.filterMap Value.name?).eraseDups
  | _ => []

/-- The bounds that a property's value gives. -/
def constraintsOf (node : Value) : Constraints where
  minimum := (node.get? "minimum").bind Value.real?
  maximum := (node.get? "maximum").bind Value.real?
  minLength := (node.get? "minLength").bind Value.nat?
  maxLength := (node.get? "maxLength").bind Value.nat?

/-- The text under a key. -/
def textOf (node : Value) (key : String) : Option String := (node.get? key).bind Value.string?

/-- The property of a value, around its schema. -/
def propertyOf (name : String) (node : Value) (schema : Schema) : Property Schema where
  name := name
  schema := schema
  default? := node.get? "default"
  description := textOf node "description"
  constraints := constraintsOf node

/-- Adds a property; one of the same name is replaced in its place. -/
def addProperty (known : List (Property Schema)) (property : Property Schema) :
    List (Property Schema) :=
  match known with
  | [] => [property]
  | other :: more =>
    if other.name = property.name then property :: more else other :: addProperty more property

/-- An object with the given properties and required names. -/
def objectOf (location : String) (properties : List (Property Schema)) (required : List String) :
    Reported Schema :=
  let properties := properties.foldl addProperty []
  let undeclared := required.filter fun name => !properties.any fun p => p.name = name
  ⟨undeclared.map fun name => .undeclaredRequired name location, .ok (.object properties required)⟩

/-- Null is admitted once. -/
def orNull (schema : Schema) : Schema := if schema.isNullable then schema else .nullable schema

/-- Where the items of an array stand. -/
def itemsLocation (location : String) : String := location ++ ".items"

/-- Where a property of an object stands. -/
def propertyLocation (location name : String) : String := location ++ ".properties." ++ name

theorem sizeOf_alternatives? {entries : Entries} {members : List Value}
    (h : alternatives? entries = some members) : sizeOf members < sizeOf entries := by
  obtain ⟨key, -, hk⟩ := List.exists_of_findSome?_eq_some h
  split at hk
  · rename_i v hv
    have := Entries.sizeOf_get? hv
    rw [Value.sequence.sizeOf_spec] at this
    rw [← Option.some.inj hk]; omega
  · cases hk

theorem sizeOf_of_filter_eq_singleton {p : Value → Bool} {members : List Value} {v : Value}
    (h : members.filter p = [v]) : sizeOf v < sizeOf members := by
  have hv : v ∈ members := (List.mem_filter.1 (h ▸ List.mem_singleton.2 rfl : v ∈ members.filter p)).1
  exact List.sizeOf_lt_of_mem hv

mutual

/-- The schema that a value describes. `location` says where it stands. -/
def parse (node : Value) (location : String) : Reported Schema :=
  match h : node.entries? with
  | some entries => do
    have := Value.sizeOf_entries? h
    let schema ← parseEntries entries location
    pure (if (entries.get? "nullable").bind Value.bool? = some true then orNull schema else schema)
  | none =>
    match node with
    | .null => pure .untyped
    | _ => .fail (.malformed (.schemaNotMapping location))
termination_by (sizeOf node, 0)

/-- The schema that the entries of a mapping describe, without regard to `nullable`. -/
def parseEntries (entries : Entries) (location : String) : Reported Schema :=
  match entries.get? "$ref" with
  | some target =>
    match target.string? with
    | some target => pure (.reference (String.ofList (lastSegment target.toList)))
    | none => .fail (.malformed (.referenceNotString location))
  | none =>
    match h : alternatives? entries with
    | some members =>
      have := sizeOf_alternatives? h
      parseAlternatives members location
    | none =>
      match entries.get? "type" with
      | none =>
        if (entries.get? "properties").isSome then parseObject entries location else pure .untyped
      | some .null =>
        if (entries.get? "properties").isSome then parseObject entries location else pure .untyped
      | some (.string name) => parseTyped name entries location
      | some (.sequence types) => do
        let names := types.filterMap Value.string?
        let inner ← match names.filter (· != "null") with
          | [name] => parseTyped name entries location
          | _ => pure .untyped
        pure (if names.contains "null" then .nullable inner else inner)
      | some _ => .fail (.malformed (.typeNotString location))
termination_by (sizeOf entries, 3)

/-- The schema of a list of alternatives: the only one that is not `null`, or anything. -/
def parseAlternatives (members : List Value) (location : String) : Reported Schema :=
  let others := members.filter fun member => !isNullType member
  let admitsNull := others.length < members.length
  do
    let inner ← match h : members.filter fun member => !isNullType member with
      | [member] =>
        have := sizeOf_of_filter_eq_singleton h
        parse member location
      | _ => pure .untyped
    pure (if admitsNull then orNull inner else inner)
termination_by (sizeOf members, 0)

/-- The schema of a named type. -/
def parseTyped (name : String) (entries : Entries) (location : String) : Reported Schema :=
  if name = "string" then stringOf entries location
  else if name = "integer" then pure (primitiveOf .integer entries)
  else if name = "number" then pure (primitiveOf .number entries)
  else if name = "boolean" then pure (primitiveOf .boolean entries)
  else if name = "array" then do
    let items ← match h : entries.get? "items" with
      | some items =>
        have := Entries.sizeOf_get? h
        parse items (itemsLocation location)
      | none => pure .untyped
    pure (.array items)
  else if name = "object" then parseObject entries location
  else if name = "null" then pure (.nullable .untyped)
  else .fail (.malformed (.unknownType name location))
termination_by (sizeOf entries, 2)

/-- The object that the entries of a mapping describe. -/
def parseObject (entries : Entries) (location : String) : Reported Schema := do
  let properties ← match h : entries.get? "properties" with
    | some value =>
      match h' : value.entries? with
      | some properties =>
        have := Entries.sizeOf_get? h
        have := Value.sizeOf_entries? h'
        parseProperties properties location
      | none => .fail (.malformed (.propertiesNotMapping location))
    | none => pure []
  objectOf location properties (requiredOf entries)
termination_by (sizeOf entries, 1)

/-- The properties of an object, one for each entry. -/
def parseProperties (entries : Entries) (location : String) : Reported (List (Property Schema)) :=
  match entries with
  | [] => pure []
  | (key, node) :: more =>
    match key.name? with
    | none => .fail (.malformed (.propertyName location))
    | some name => do
      let schema ← parse node (propertyLocation location name)
      let properties ← parseProperties more location
      pure (propertyOf name node schema :: properties)
termination_by (sizeOf entries, 0)

end

end ApiCodegen.Schema
