import ApiCodegen.Markup.Read
import ApiCodegen.Schema.Merge
import ApiCodegen.Schema.Reference

/-!
# Loading a document

* `Document.parse`: the document that a value describes.
* `Document.load`: the document of a text, with its references checked. Either the whole text is
  understood or there is a failure.
* `Document.loadAll`: the combined document of several texts.
-/

namespace ApiCodegen

open Markup

/-- A fault in a description. -/
def malformed {α : Type} (cause : Malformation) : Reported α := .fail (.malformed cause)

/-- The components that the entries of a mapping describe. -/
def parseComponents : Entries → Reported (List Component)
  | [] => pure []
  | (key, node) :: more =>
    match key.name? with
    | none => malformed .componentName
    | some name => do
      let schema ← Schema.parse node (componentLocation name)
      let components ← parseComponents more
      pure (⟨name, Schema.textOf node "description", schema⟩ :: components)

/-- The components of a document. -/
def componentsOf (root : Entries) : Reported (List Component) :=
  match root.get? "components" with
  | none => malformed (.missingSection "components")
  | some section_ =>
    if section_.isNull then pure []
    else match section_.entries? with
      | none => malformed (.sectionNotMapping "components")
      | some entries =>
        match entries.get? "schemas" with
        | none => pure []
        | some .null => pure []
        | some schemas =>
          match schemas.entries? with
          | none => malformed (.sectionNotMapping "components.schemas")
          | some schemas => parseComponents schemas

/-- The schema of the JSON content of a request or a response, if it has one. -/
def jsonSchema? (node : Value) : Option Value := do
  let content ← node.get? "content"
  let media ← content.get? "application/json"
  some ((media.get? "schema").getD .null)

/-- The value of the successful response of an operation. -/
def successOf (node : Value) : Option Value := do
  let responses ← (← node.get? "responses").entries?
  let (_, response) ← responses.find? fun (code, _) => code.name? == some "200"
  some response

/-- The tags of an operation. -/
def tagsOf (node : Value) (location : String) : Reported (List String) :=
  match node.get? "tags" with
  | some (.sequence tags) => pure (tags.filterMap Value.name?)
  | some .null => pure []
  | none => pure []
  | some _ => malformed (.tagsNotList location)

/-- The schema of an optional value. -/
def parseOptional (node : Option Value) (location : String) : Reported (Option Schema) :=
  match node with
  | some node => do
    let schema ← Schema.parse node location
    pure (some schema)
  | none => pure none

/-- The operation that a value describes. -/
def parseOperation (path : String) (verb : Verb) (node : Value) : Reported Operation :=
  let location := operationLocation path verb
  if node.entries?.isNone then malformed (.operationNotMapping location)
  else do
    let tags ← tagsOf node location
    let request ← parseOptional ((node.get? "requestBody").bind jsonSchema?) (requestLocation location)
    let response ← parseOptional ((successOf node).bind jsonSchema?) (responseLocation location)
    pure {
      path
      verb
      operationId := Schema.textOf node "operationId"
      tags
      request
      response := response.getD .untyped
      summary := Schema.textOf node "summary"
      description := Schema.textOf node "description" }

/-- The verb of a key in any letter case. -/
def verbOf? (key : Value) : Option Verb :=
  key.name?.bind fun name => Verb.ofKey? (String.ofList (name.toList.map Char.toLower))

/-- The operations that the entries of a path describe. Keys that are no verbs are passed over. -/
def parseOperations (path : String) : Entries → Reported (List Operation)
  | [] => pure []
  | (key, node) :: more =>
    match verbOf? key with
    | none => parseOperations path more
    | some verb => do
      let op ← parseOperation path verb node
      let operations ← parseOperations path more
      pure (op :: operations)

/-- The path items that the entries of a mapping describe. -/
def parsePaths : Entries → Reported (List PathItem)
  | [] => pure []
  | (key, node) :: more =>
    match key.name? with
    | none => malformed .pathKey
    | some path =>
      match node.entries? with
      | none => malformed (.pathItem path)
      | some entries => do
        let operations ← parseOperations path entries
        let items ← parsePaths more
        pure (⟨path, operations⟩ :: items)

/-- The paths of a document. -/
def pathsOf (root : Entries) : Reported (List PathItem) :=
  match root.get? "paths" with
  | none => malformed (.missingSection "paths")
  | some section_ =>
    if section_.isNull then pure []
    else match section_.entries? with
      | none => malformed (.sectionNotMapping "paths")
      | some entries => parsePaths entries

namespace Document

/-- The document that a value describes, with its references as written. -/
def parse (root : Value) : Reported Document :=
  match root.entries? with
  | none => malformed .rootNotMapping
  | some root => do
    let components ← componentsOf root
    let paths ← pathsOf root
    pure ⟨components, paths⟩

/-- The document of a text, before its references are checked. -/
def read (text : String) : Reported Document :=
  match Markup.read? text with
  | none => malformed .text
  | some root => parse root

/-- The document of a text. -/
def load (policy : ReferencePolicy) (text : String) : Reported Document := do
  let doc ← read text
  check policy doc

/-- The document of a text that may be missing. -/
def loadFrom (policy : ReferencePolicy) (text : Except Failure String) : Reported Document := do
  let text ← .ofExcept text
  load policy text

/-- Loads further texts into a document, one after the other. -/
def loadMore (policy : ReferencePolicy) (doc : Document) :
    List (Except Failure String) → Reported Document
  | [] => pure doc
  | text :: more => do
    let other ← loadFrom policy text
    let doc ← .ofExcept (doc.merged other)
    loadMore policy doc more

/-- The combined document of several texts; of no text it is empty. -/
def loadAll (policy : ReferencePolicy) : List (Except Failure String) → Reported Document
  | [] => pure {}
  | text :: more => do
    let doc ← loadFrom policy text
    loadMore policy doc more

end Document

end ApiCodegen
