import ApiCodegen.Proofs.Schema.Load
import ApiCodegen.Proofs.Schema.Normal
import ApiCodegen.Proofs.Schema.Pass
import ApiCodegen.Proofs.Schema.Reachable

/-!
# Strict and lenient loading agree

Both policies read a text alike and meet the same undeclared references in the same order. What a
strict load stops at is what a lenient one remarks on first.

* `Document.Generalizes`: a document with its undeclared references replaced, and nothing else.
* `Document.generalizes_iff`: there is one such document.
* `Document.load_eq`: a load in terms of what the text reads as.
* `Document.load_policies`: **the two policies agree on every text.**
-/

namespace ApiCodegen

open Markup

/-- The undeclared reference that a remark is about. -/
def Warning.dangling? : Warning → Option Dangling
  | .unresolvedReference reference location => some ⟨reference, location⟩
  | _ => none

/-- The undeclared references that are remarked on, in order. -/
def Reported.unresolved {α : Type} (r : Reported α) : List Dangling :=
  r.warnings.filterMap Warning.dangling?

theorem filterMap_warning (met : List Dangling) :
    (met.map Dangling.warning).filterMap Warning.dangling? = met := by
  rw [List.filterMap_map]
  exact List.filterMap_some

/-- Reading a description remarks on no reference. -/
theorem Reported.Within.unresolved {α : Type} {r : Reported α} (h : r.Descriptive) :
    r.unresolved = [] := by
  refine List.filterMap_eq_nil_iff.2 fun w hw => ?_
  obtain ⟨property, location, rfl⟩ := h.warnings w hw
  rfl

namespace Document

variable {written doc : Document} {text : String}

/-- **All undeclared references of a document are replaced by the generic type**, at every depth, and
nothing else is changed. -/
structure Generalizes (written doc : Document) : Prop where
  frame : doc.frame = written.frame
  nodes : doc.nodes = written.nodes.map (Placed.generalize written.declared)

/-- There is one document with the undeclared references replaced. -/
theorem generalizes_iff : written.Generalizes doc ↔ doc = written.generalize := by
  constructor
  · intro h
    exact eq_of_nodes (h.frame.trans (frame_generalize written).symm)
      (h.nodes.trans (nodes_generalize written).symm)
  · rintro rfl
    exact ⟨frame_generalize written, nodes_generalize written⟩

/-- A load reads the text and then meets the undeclared references, whatever the policy. -/
theorem load_eq (policy : ReferencePolicy) (text : String) :
    load policy text = read text >>= fun written => answer policy written.dangling written.generalize := by
  refine congrArg (read text >>= ·) (funext fun written => ?_)
  rw [check_eq_resolve, resolve_eq]

/-- A lenient load remarks on every undeclared reference. -/
theorem load_lenient {warnings : List Warning} (h : read text = ⟨warnings, .ok written⟩) :
    load .lenient text =
      ⟨warnings ++ written.dangling.map Dangling.warning, .ok written.generalize⟩ := by
  rw [load_eq, h]
  rfl

/-- What is read without undeclared references is loaded by both policies. -/
theorem load_of_dangling_nil {warnings : List Warning} (h : read text = ⟨warnings, .ok written⟩)
    (hmet : written.dangling = []) (policy : ReferencePolicy) :
    load policy text = ⟨warnings, .ok written⟩ := by
  rw [load_eq, h, Reported.ok_bind, hmet, answer_nil, generalize_of_dangling hmet, Reported.pure_eq,
    List.append_nil]

/-- A lenient load fails where the text cannot be read. -/
theorem lenient_error_iff {failure : Failure} :
    (load .lenient text).outcome = .error failure ↔ (read text).outcome = .error failure := by
  rw [load_eq, Reported.bind_error_iff]
  constructor
  · rintro (h | ⟨written, -, h⟩)
    · exact h
    · cases h
  · exact .inl

/-- A strict load succeeds where no reference is undeclared. -/
theorem strict_ok_iff : (load .strict text).outcome = .ok doc ↔
    (read text).outcome = .ok doc ∧ doc.dangling = [] := by
  rw [load_eq, Reported.bind_ok_iff]
  constructor
  · rintro ⟨written, hread, h⟩
    obtain ⟨hmet, rfl⟩ := answer_strict_ok_iff.1 h
    rw [generalize_of_dangling hmet]
    exact ⟨hread, hmet⟩
  · rintro ⟨hread, hmet⟩
    exact ⟨doc, hread, answer_strict_ok_iff.2 ⟨hmet, generalize_of_dangling hmet⟩⟩

/-- A strict load fails where the text cannot be read, and at the first undeclared reference. -/
theorem strict_error_iff {failure : Failure} : (load .strict text).outcome = .error failure ↔
    (read text).outcome = .error failure ∨ ∃ written d more,
      (read text).outcome = .ok written ∧ written.dangling = d :: more ∧ failure = d.failure := by
  rw [load_eq, Reported.bind_error_iff]
  refine or_congr_right ?_
  constructor
  · rintro ⟨written, hread, h⟩
    obtain ⟨d, more, hmet, hfailure⟩ := answer_strict_error_iff.1 h
    exact ⟨written, d, more, hread, hmet, hfailure⟩
  · rintro ⟨written, d, more, hread, hmet, hfailure⟩
    exact ⟨written, hread, answer_strict_error_iff.2 ⟨d, more, hmet, hfailure⟩⟩

/-- A text that cannot be read has no undeclared reference yet. -/
theorem read_error_ne {failure : Failure} (h : (read text).outcome = .error failure)
    (reference location : String) : failure ≠ .unresolvedReference reference location := by
  obtain ⟨cause, rfl⟩ := (descriptive_read text).failure failure h
  exact Failure.noConfusion

/-- The references that a lenient load remarks on are the undeclared ones of what is read. -/
theorem unresolved_lenient (h : (read text).outcome = .ok written) :
    (load .lenient text).unresolved = written.dangling := by
  have hnone := (descriptive_read text).unresolved
  cases hread : read text with
  | mk warnings outcome =>
    rw [hread] at h hnone
    obtain rfl : outcome = .ok written := h
    have hwarnings : warnings.filterMap Warning.dangling? = [] := hnone
    rw [load_lenient hread, Reported.unresolved, List.filterMap_append, hwarnings, filterMap_warning,
      List.nil_append]

/-- **The two policies agree on every text.** Both check references in one pass over what is read.

* A lenient load fails where a strict one fails for another reason than an undeclared reference, with
  the same failure.
* Where a strict load succeeds, a lenient one comes to the same and remarks on no reference.
* Where a strict load stops at an undeclared reference, a lenient one remarks on it first, then on the
  others in the order of the document, and replaces them all and nothing else. -/
theorem load_policies (text : String) :
    (∀ policy, load policy text = read text >>= resolve policy) ∧
    (∀ failure, (load .lenient text).outcome = .error failure ↔
      (load .strict text).outcome = .error failure ∧
        ∀ reference location, failure ≠ .unresolvedReference reference location) ∧
    (∀ doc, (load .strict text).outcome = .ok doc →
      load .lenient text = load .strict text ∧ (load .lenient text).unresolved = []) ∧
    ∀ reference location,
      (load .strict text).outcome = .error (.unresolvedReference reference location) →
        ∃ written doc, (read text).outcome = .ok written ∧ (load .lenient text).outcome = .ok doc ∧
          (∀ other, written.Generalizes other ↔ other = doc) ∧
          (load .lenient text).unresolved =
            written.nodes.filterMap (Placed.dangling? written.declared) ∧
          (load .lenient text).unresolved.head? = some ⟨reference, location⟩ := by
  refine ⟨fun policy => ?_, fun failure => ?_, fun doc hdoc => ?_, fun reference location hstop => ?_⟩
  · exact congrArg (read text >>= ·) (funext (check_eq_resolve policy))
  · rw [lenient_error_iff, strict_error_iff]
    constructor
    · exact fun h => ⟨.inl h, read_error_ne h⟩
    · rintro ⟨h | ⟨written, d, more, -, -, rfl⟩, hother⟩
      · exact h
      · exact absurd rfl (hother d.reference d.location)
  · obtain ⟨hread, hmet⟩ := strict_ok_iff.1 hdoc
    refine ⟨?_, (unresolved_lenient hread).trans hmet⟩
    -- the remarks of the reading are the same for both
    cases hboth : read text with
    | mk warnings outcome =>
      rw [hboth] at hread
      obtain rfl : outcome = .ok doc := hread
      rw [load_of_dangling_nil hboth hmet, load_of_dangling_nil hboth hmet]
  · rcases strict_error_iff.1 hstop with h | ⟨written, d, more, hread, hmet, hfailure⟩
    · exact absurd rfl (read_error_ne h reference location)
    · obtain ⟨rfl, rfl⟩ := Failure.unresolvedReference.inj hfailure
      have hunresolved := unresolved_lenient hread
      refine ⟨written, written.generalize, hread, ?_, fun other => generalizes_iff, ?_, ?_⟩
      · rw [load_eq, Reported.bind_ok_iff]
        exact ⟨written, hread, rfl⟩
      · rw [hunresolved, dangling_eq]
      · rw [hunresolved, hmet]
        rfl

/-! ## A description with two undeclared references -/

/-- A component of items that are not declared, and an operation that responds with one. -/
def looseText : String :=
  "components:\n schemas:\n  L:\n   type: array\n   items:\n    $ref: T\n" ++
  "paths:\n /t:\n  get:\n   responses:\n    200:\n     content:\n      application/json:\n" ++
  "       schema:\n        $ref: T\n"

/-- What `looseText` reads as. -/
def looseEntries : Entries := [
  (.string "components", .mapping [(.string "schemas", .mapping [(.string "L", itemsValue)])]),
  (.string "paths", .mapping [(.string "/t", .mapping [(.string "get", getValue)])])]

/-- The document that `looseText` describes. -/
def looseDocument : Document where
  components := [⟨"L", none, .array (.reference "T")⟩]
  paths := [⟨"/t", [listOperation]⟩]

theorem parse_looseEntries : parse (.mapping looseEntries) = ⟨[], .ok looseDocument⟩ := parse_componentEntries "L"

theorem value_looseText : Markup.read? looseText = some (.mapping looseEntries) := by
  unfold Markup.read? Markup.Tree.read? Markup.glyphs looseText
  rw [String.toList_append, String.toList_append, String.toList_ofList, String.toList_ofList,
    String.toList_ofList]
  decide +kernel

theorem read_looseText : read looseText = ⟨[], .ok looseDocument⟩ :=
  (read_of_value value_looseText).trans parse_looseEntries

/-- Both references are remarked on, that of the component first. -/
theorem load_policies_loose :
    (load .strict looseText).outcome =
      .error (.unresolvedReference "T" "components.schemas.L.items") ∧
    ∃ doc, (load .lenient looseText).outcome = .ok doc ∧
      (∀ other, looseDocument.Generalizes other ↔ other = doc) ∧
      (load .lenient looseText).unresolved =
        [⟨"T", "components.schemas.L.items"⟩, ⟨"T", "paths./t.get.responses.200"⟩] := by
  have hstrict : (load .strict looseText).outcome =
      .error (.unresolvedReference "T" "components.schemas.L.items") := by
    rw [load_eq, read_looseText]
    rfl
  have hmet : looseDocument.nodes.filterMap (Placed.dangling? looseDocument.declared) =
      [⟨"T", "components.schemas.L.items"⟩, ⟨"T", "paths./t.get.responses.200"⟩] := by
    rfl
  obtain ⟨written, doc, hread, hdoc, honly, hunresolved, -⟩ :=
    (load_policies looseText).2.2.2 _ _ hstrict
  rw [read_looseText] at hread
  obtain rfl : looseDocument = written := Except.ok.inj hread
  exact ⟨hstrict, doc, hdoc, honly, hunresolved.trans hmet⟩

end Document

end ApiCodegen
