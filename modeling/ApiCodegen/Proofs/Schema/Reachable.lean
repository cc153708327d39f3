import ApiCodegen.Proofs.Markup.Value
import ApiCodegen.Proofs.Schema.Merge
import ApiCodegen.Proofs.Schema.Reference
import ApiCodegen.Schema.Load

/-!
# The documents that loading and merging lead to

* `Document.Reachable`: documents that are made from loaded ones by merges, of which some may have
  been refused half-way.
* `Document.closed_merge`: **a merge of closed documents is closed**, also a refused one.
* `Document.references_mem_declared`: **whatever a reachable document refers to is declared.**
-/

namespace ApiCodegen.Document

open Markup

variable {doc other : Document} {policy : ReferencePolicy} {text : String}

/-- A document made from loaded ones by merges. The result of a refused merge counts as well. -/
inductive Reachable : Document → Prop
  | empty : Reachable {}
  | load (policy : ReferencePolicy) (text : String) {doc : Document} :
      (Document.load policy text).outcome = .ok doc → Reachable doc
  | merge {doc other : Document} :
      Reachable doc → Reachable other → Reachable (doc.merge other).1

theorem closed_empty : Closed {} := fun _ hs => absurd hs List.not_mem_nil

/-- Only checked documents are loaded. -/
theorem check_of_load (h : (load policy text).outcome = .ok doc) :
    ∃ written, (read text).outcome = .ok written ∧ (check policy written).outcome = .ok doc := by
  unfold load at h
  rcases hr : read text with ⟨warnings, outcome⟩
  rw [hr] at h
  cases outcome with
  | error failure => cases h
  | ok written => exact ⟨written, rfl, h⟩

theorem read_of_value {value : Value} (h : Markup.read? text = some value) :
    read text = parse value := by
  rw [read, h]

/-- A load of what describes a document ends as the check of that document does. -/
theorem outcome_load_of_value {value : Value} {written : Document}
    (h : Markup.read? text = some value) (hparse : parse value = ⟨[], .ok written⟩) :
    (load policy text).outcome = (check policy written).outcome := by
  rw [load, read_of_value h, hparse]
  rfl

/-- **A merge of closed documents is closed**, wherever it stopped. -/
theorem closed_merge (h : doc.Closed) (ho : other.Closed) : (doc.merge other).1.Closed := by
  rw [closed_iff] at h ho ⊢
  have hdecl : (doc.merge other).1.declared = doc.declared ++ other.declared := by
    simp [declared, components_merge]
  -- what is declared grows on both sides, so what was closed stays so
  have hleft : doc.declared ⊆ (doc.merge other).1.declared :=
    hdecl ▸ List.subset_append_left _ _
  have hright : other.declared ⊆ (doc.merge other).1.declared :=
    hdecl ▸ List.subset_append_right _ _
  constructor
  · intro c hc
    rcases List.mem_append.1 (components_merge ▸ hc) with hc | hc
    · exact (h.1 c hc).mono hleft
    · exact (ho.1 c hc).mono hright
  · intro op hop s hs
    rcases mem_operations_merge hop with hop | hop
    · exact (h.2 op hop s hs).mono hleft
    · exact (ho.2 op hop s hs).mono hright

theorem Reachable.closed (h : doc.Reachable) : doc.Closed := by
  induction h with
  | empty => exact closed_empty
  | load policy text h =>
    obtain ⟨written, -, hc⟩ := check_of_load h
    exact closed_of_check hc
  | merge _ _ ih iho => exact closed_merge ih iho

/-- **Whatever a reachable document refers to is declared**, at any depth of its components,
requests and responses. -/
theorem references_mem_declared (h : doc.Reachable) {s : Schema} (hs : s ∈ doc.schemas)
    {name : String} (hname : name ∈ s.references) : ∃ c ∈ doc.components, c.name = name :=
  List.mem_map.1 (h.closed s hs name hname)

/-! ## A description that refers to itself -/

/-- A component that refers to itself, and an operation that responds with it. -/
def listText : String :=
  "components:\n schemas:\n  T:\n   type: array\n   items:\n    $ref: T\n" ++
  "paths:\n /t:\n  get:\n   responses:\n    200:\n     content:\n      application/json:\n" ++
  "       schema:\n        $ref: T\n"

/-- A reference as a value. -/
def refValue : Value := .mapping [(.string "$ref", .string "T")]

/-- The component as a value. -/
def itemsValue : Value :=
  .mapping [(.string "type", .string "array"), (.string "items", refValue)]

/-- The operation as a value. -/
def getValue : Value := .mapping [(.string "responses", .mapping [(.number (.whole 200),
  .mapping [(.string "content", .mapping [(.string "application/json",
    .mapping [(.string "schema", refValue)])])])])]

/-- What `listText` reads as. -/
def listEntries : Entries := [
  (.string "components", .mapping [(.string "schemas", .mapping [(.string "T", itemsValue)])]),
  (.string "paths", .mapping [(.string "/t", .mapping [(.string "get", getValue)])])]

/-- The operation of `listText`. -/
def listOperation : Operation := { path := "/t", verb := .get, response := .reference "T" }

/-- The document of `listText`. -/
def listDocument : Document where
  components := [⟨"T", none, .array (.reference "T")⟩]
  paths := [⟨"/t", [listOperation]⟩]

/-- A mapping without `nullable` is what its entries describe. -/
theorem parse_of_entries {node : Value} {entries : Entries} {location : String}
    (h : node.entries? = some entries) (hn : entries.get? "nullable" = none) :
    Schema.parse node location = Schema.parseEntries entries location := by
  rw [Schema.parse]
  split
  · rename_i found hf
    obtain rfl : entries = found := Option.some.inj (h.symm.trans hf)
    rcases Schema.parseEntries entries location with ⟨warnings, outcome⟩
    cases outcome <;> simp [hn]
  · simp_all

theorem parse_refValue (location : String) :
    Schema.parse refValue location = ⟨[], .ok (.reference "T")⟩ := by
  have hlast : String.ofList (Schema.lastSegment "T".toList) = "T" := by decide +kernel
  rw [parse_of_entries rfl rfl, Schema.parseEntries]
  simp only [Entries.get?, if_true, Value.string?, Value.untag]
  rw [hlast]
  rfl

theorem parse_itemsValue (location : String) :
    Schema.parse itemsValue location = ⟨[], .ok (.array (.reference "T"))⟩ := by
  rw [parse_of_entries rfl rfl, Schema.parseEntries]
  simp [Schema.parseTyped, Schema.alternatives?, List.findSome?, Entries.get?, parse_refValue]

theorem parse_getValue : parseOperation "/t" .get getValue = ⟨[], .ok listOperation⟩ := by
  have hentries : getValue.entries?.isNone = false := rfl
  have htags : getValue.get? "tags" = none := rfl
  have hrequest : (getValue.get? "requestBody").bind jsonSchema? = none := rfl
  have hresponse : (successOf getValue).bind jsonSchema? = some refValue := by decide +kernel
  have htext : ∀ key ∈ ["operationId", "summary", "description"],
      Schema.textOf getValue key = none := by decide +kernel
  simp [parseOperation, hentries, tagsOf, htags, hrequest, hresponse, htext, parseOptional,
    parse_refValue, listOperation]

/-- The component can have any name. -/
theorem parse_componentEntries (name : String) : parse (.mapping [
    (.string "components", .mapping [(.string "schemas", .mapping [(.string name, itemsValue)])]),
    (.string "paths", .mapping [(.string "/t", .mapping [(.string "get", getValue)])])]) =
      ⟨[], .ok ⟨[⟨name, none, .array (.reference "T")⟩], [⟨"/t", [listOperation]⟩]⟩⟩ := by
  have hverb : verbOf? (.string "get") = some .get := by decide +kernel
  have hd : Schema.textOf itemsValue "description" = none := rfl
  change (do
    let components ← parseComponents [(.string name, itemsValue)]
    let paths ← parsePaths [(.string "/t", .mapping [(.string "get", getValue)])]
    pure (⟨components, paths⟩ : Document)) = _
  simp [parseComponents, parsePaths, parseOperations, Value.name?, Value.entries?, Value.untag,
    hverb, hd, parse_itemsValue, parse_getValue]

theorem parse_listEntries : parse (.mapping listEntries) = ⟨[], .ok listDocument⟩ := parse_componentEntries "T"

theorem read_listText : Markup.read? listText = some (.mapping listEntries) := by
  unfold Markup.read? Markup.Tree.read? Markup.glyphs listText
  -- the characters of a text are taken from the literals, since its bytes are slow to evaluate
  rw [String.toList_append, String.toList_append, String.toList_ofList, String.toList_ofList,
    String.toList_ofList]
  decide +kernel

theorem load_listText : (load .strict listText).outcome = .ok listDocument := by
  rw [outcome_load_of_value read_listText parse_listEntries]
  rfl

theorem reachable_listDocument : listDocument.Reachable := .load .strict listText load_listText

/-- A document merged with itself, of which the second copy of the operation is refused. -/
theorem references_mem_declared_list : (listDocument.merge listDocument).1.Reachable ∧
    Schema.array (.reference "T") ∈ (listDocument.merge listDocument).1.schemas ∧
    "T" ∈ (Schema.array (.reference "T")).references ∧
    ∃ c ∈ (listDocument.merge listDocument).1.components, c.name = "T" := by
  have hm := reachable_listDocument.merge reachable_listDocument
  have hs : Schema.array (.reference "T") ∈ (listDocument.merge listDocument).1.schemas :=
    List.mem_cons_self
  have hname : "T" ∈ (Schema.array (.reference "T")).references := List.mem_cons_self
  exact ⟨hm, hs, hname, references_mem_declared hm hs hname⟩

end ApiCodegen.Document
