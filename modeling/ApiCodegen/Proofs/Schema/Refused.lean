import ApiCodegen.Proofs.Schema.Unique

/-!
# Where a refused merge stops

A merge that refuses an operation has added what stands in front of it: the path items before its own, and the
operations before it in its own. That is a merge with a shorter document, which is not refused.

* `addOperations_some`, `addPath_some`, `addPaths_some`: **an addition that is refused is one of less**, for
  operations, a path item and several.
* `Document.Place`: a place in a document, and the document up to it.
* `Document.foldlM_merged_eq_ok_iff`: further documents are merged into a merge.
* `Document.merged_eq_error`: **a merge stops at the first operation that both documents have**, with the document
  that a merge up to there leads to.
-/

namespace ApiCodegen

variable {op : Operation} {known more result : List Operation} {item : PathItem}
  {paths items after : List PathItem}

/-! ## Additions -/

/-- Operations are added up to the one that is refused. -/
theorem addOperations_some (h : addOperations known more = (result, some op)) : ∃ before behind,
    more = before ++ op :: behind ∧ addOperations known before = (result, none) ∧
      op.verb ∈ result.map Operation.verb := by
  induction more generalizing known with
  | nil => cases h
  | cons first more ih =>
    unfold addOperations at h
    split at h
    · rename_i hknown
      obtain ⟨rfl, hop⟩ := Prod.mk.inj h
      obtain rfl := Option.some.inj hop
      exact ⟨[], more, rfl, rfl, by simpa using hknown⟩
    · rename_i hnew
      obtain ⟨before, behind, rfl, hadd, hverb⟩ := ih h
      refine ⟨first :: before, behind, rfl, ?_, hverb⟩
      rw [addOperations, if_neg hnew, hadd]

/-- So is a path item: the operations in front go to its path. -/
theorem addPath_some (h : addPath item paths = (after, some op)) : ∃ before behind,
    item.operations = before ++ op :: behind ∧ addPath ⟨item.path, before⟩ paths = (after, none) ∧
      op.verb ∈ verbsAt item.path after := by
  induction paths generalizing after with
  | nil => cases h
  | cons first paths ih =>
    rcases addPath_cons_cases h with ⟨heq, operations, hadd, rfl⟩ | ⟨hne, others, hadd, rfl⟩
    · obtain ⟨before, behind, hitem, hbefore, hverb⟩ := addOperations_some hadd
      refine ⟨before, behind, hitem, ?_, ?_⟩
      · rw [addPath, if_pos heq, hbefore]
      · rw [verbsAt, ← heq, operationsAt_cons_self ⟨first.path, operations⟩, List.map_append]
        exact List.mem_append_left _ hverb
    · obtain ⟨before, behind, hitem, hbefore, hverb⟩ := ih hadd
      refine ⟨before, behind, hitem, ?_, ?_⟩
      · rw [addPath, if_neg hne, hbefore]
      · rwa [verbsAt, operationsAt_cons_of_ne hne]

/-- **So are several**: those in front, and the one that is refused up to the operation. -/
theorem addPaths_some (h : addPaths paths items = (after, some op)) : ∃ front path before behind back,
    items = front ++ ⟨path, before ++ op :: behind⟩ :: back ∧
      addPaths paths (front ++ [⟨path, before⟩]) = (after, none) ∧ op.verb ∈ verbsAt path after := by
  induction items generalizing paths with
  | nil => cases h
  | cons item items ih =>
    unfold addPaths at h
    split at h
    · rename_i between hadd
      obtain ⟨front, path, before, behind, back, rfl, hbefore, hverb⟩ := ih h
      refine ⟨item :: front, path, before, behind, back, rfl, ?_, hverb⟩
      rw [List.cons_append, addPaths, hadd]
      exact hbefore
    · rename_i between refused hadd
      obtain ⟨rfl, hop⟩ := Prod.mk.inj h
      obtain rfl := Option.some.inj hop
      obtain ⟨before, behind, hitem, hbefore, hverb⟩ := addPath_some hadd
      refine ⟨[], item.path, before, behind, items, ?_, ?_, hverb⟩
      · rw [← hitem]
        rfl
      · rw [List.nil_append, addPaths, hbefore]
        rfl

/-! ## Documents -/

namespace Document

variable {doc other : Document} {failure : Failure}

/-- **A place in a document**: an operation, and what stands in front of it and behind it. -/
structure Place (doc : Document) where
  front : List PathItem
  path : String
  before : List Operation
  op : Operation
  behind : List Operation
  back : List PathItem
  paths_eq : doc.paths = front ++ ⟨path, before ++ op :: behind⟩ :: back

namespace Place

variable (place : doc.Place)

/-- The verb of the operation, with its path. -/
def key : OperationKey := ⟨place.path, place.op.verb⟩

/-- **The document up to the operation**: all components, and the operations in front. -/
def cut : Document where
  components := doc.components
  paths := place.front ++ [⟨place.path, place.before⟩]

/-- The operations behind. -/
def rest : List Operation := place.behind ++ place.back.flatMap PathItem.operations

/-- The operations in order: those in front, the one in the place, and those behind. -/
theorem operations_eq : doc.operations = place.cut.operations ++ place.op :: place.rest := by
  rw [operations, place.paths_eq]
  simp [cut, rest, operations]

/-- The key is that of the operation if this stands under its own path. -/
theorem key_eq (h : doc.Filed) : place.op.key = place.key := by
  have hmem : (⟨place.path, place.before ++ place.op :: place.behind⟩ : PathItem) ∈ doc.paths := by
    rw [place.paths_eq]
    exact List.mem_append_right _ List.mem_cons_self
  rw [Operation.key, key, h _ hmem place.op (List.mem_append_right _ List.mem_cons_self)]

/-- **A document that names everything once** does so up to a place, and its verb does not come before. -/
theorem distinct_cut (h : doc.Distinct) :
    place.cut.Distinct ∧ place.op.verb ∉ verbsAt place.path place.cut.paths := by
  obtain ⟨hpaths, hverbs⟩ := h
  rw [place.paths_eq] at hpaths hverbs
  rw [List.map_append, List.map_cons] at hpaths
  have hitem := hverbs _ (List.mem_append_right _ List.mem_cons_self)
  rw [List.map_append, List.map_cons] at hitem
  obtain ⟨hfront, -, hnew⟩ := List.nodup_append.1 hpaths
  obtain ⟨hbefore, -, hverb⟩ := List.nodup_append.1 hitem
  have hpath : place.path ∉ place.front.map PathItem.path := fun hmem => hnew _ hmem _ List.mem_cons_self rfl
  refine ⟨⟨?_, fun item hmem => ?_⟩, fun hmem => ?_⟩
  · rw [cut, List.map_append]
    exact hfront.append (List.nodup_singleton _) (List.disjoint_singleton.2 hpath)
  · rcases List.mem_append.1 hmem with hmem | hmem
    · exact hverbs item (List.mem_append_left _ hmem)
    · rwa [List.mem_singleton.1 hmem]
  · -- no item in front has the path, so these are the operations before it
    have hat : operationsAt place.path place.cut.paths = place.before := by
      rw [cut, operationsAt_append, operationsAt_of_not_mem hpath, List.nil_append]
      exact (operationsAt_cons_self ⟨place.path, place.before⟩ []).trans (List.append_nil _)
    rw [verbsAt, hat] at hmem
    exact hverb _ hmem _ List.mem_cons_self rfl

end Place

/-- **A refused merge is one up to a place**, whose verb is there then. -/
theorem exists_place (h : doc.merged other = .error failure) : ∃ place : other.Place,
    failure = refusal place.op ∧ doc.merge place.cut = ((doc.merge other).1, none) ∧
      place.op.verb ∈ verbsAt place.path (doc.merge other).1.paths := by
  rcases hadd : addPaths doc.paths other.paths with ⟨after, refused⟩
  have hmerge : doc.merge other = (⟨doc.components ++ other.components, after⟩, refused) := by rw [merge, hadd]
  rw [merged, hmerge] at h
  cases refused with
  | none => cases h
  | some op =>
    obtain rfl : refusal op = failure := Except.error.inj h
    obtain ⟨front, path, before, behind, back, hpaths, hcut, hverb⟩ := addPaths_some hadd
    refine ⟨⟨front, path, before, op, behind, back, hpaths⟩, rfl, ?_, ?_⟩
    · rw [hmerge, merge, Place.cut, hcut]
    · rw [hmerge]
      exact hverb

/-- **Further documents are merged into a merge** as all of them are from left to right. -/
theorem foldlM_merged_eq_ok_iff {next merge result : Document} {more : List Document}
    (hall : ∀ d ∈ doc :: next :: more, d.Distinct) (hok : doc.merged next = .ok merge) :
    more.foldlM merged merge = .ok result ↔
      ((doc :: next :: more).Pairwise fun doc other => doc.keys.Disjoint other.keys) ∧
        result = combined (doc :: next :: more) := by
  have hdocuments : (Grouping.leftToRight (.single doc) (next :: more)).documents = doc :: next :: more :=
    Grouping.documents_leftToRight _ _
  have hmerges : (Grouping.leftToRight (.single doc) (next :: more)).merged = more.foldlM merged merge := by
    have hfirst : (Grouping.single doc).merged >>= (next :: more).foldlM merged =
        doc.merged next >>= fun d => more.foldlM merged d := rfl
    rw [Grouping.merged_leftToRight, hfirst, hok]
    rfl
  rw [← hmerges, Grouping.merged_eq_ok _ (hdocuments.symm ▸ hall), hdocuments]

/-- **A merge stops at the first operation that both documents have.** Both name every path once, and for a path
every verb once.

* The failure names an operation of the second document: its path and verb are in the first one, and those of no
  operation in front of it are.
* The document that is left is the merge with the second one up to there, with all of its components and the
  operations in front.
* It names everything once, and further documents can be merged into it, in order, exactly if no two of all
  documents have an operation in common; this leads to the combination of all. -/
theorem merged_eq_error (h : doc.Distinct) (ho : other.Distinct) (hfail : doc.merged other = .error failure) :
    ∃ place : other.Place, failure = refusal place.op ∧ (other.Filed → place.op.key = place.key) ∧
      other.operations = place.cut.operations ++ place.op :: place.rest ∧
      place.key ∈ doc.keys ∧ doc.keys.Disjoint place.cut.keys ∧
      doc.merged place.cut = .ok (doc.merge other).1 ∧
      ((doc.merge other).1.paths.map PathItem.path).Nodup ∧ (doc.merge other).1.keys.Nodup ∧
      ∀ more : List Document, (∀ later ∈ more, later.Distinct) → ∀ result,
        more.foldlM merged (doc.merge other).1 = .ok result ↔
          ((doc :: place.cut :: more).Pairwise fun doc other => doc.keys.Disjoint other.keys) ∧
            result = combined (doc :: place.cut :: more) := by
  obtain ⟨place, hfailure, hcut, hverb⟩ := exists_place hfail
  obtain ⟨hdistinct, hnew⟩ := place.distinct_cut ho
  have hok : doc.merged place.cut = .ok (doc.merge other).1 := by rw [merged, hcut]
  obtain ⟨hdisjoint, hcombined⟩ := (merged_eq_ok_iff h hdistinct).1 hok
  have hkey : place.key ∈ doc.keys := by
    -- the verb is there after the merge up to the place, and not from that part
    rw [hcombined, verbsAt, operationsAt_combined, List.flatMap_cons, List.flatMap_singleton, List.map_append,
      List.mem_append] at hverb
    exact mem_keys.2 (hverb.resolve_right hnew)
  have hresult := distinct_merge h ho
  obtain ⟨hpaths, hkeys⟩ := distinct_iff.1 hresult
  refine ⟨place, hfailure, place.key_eq, place.operations_eq, hkey, hdisjoint, hok, hpaths, hkeys,
    fun more hmore result => ?_⟩
  have hall : ∀ d ∈ doc :: place.cut :: more, d.Distinct :=
    List.forall_mem_cons.2 ⟨h, List.forall_mem_cons.2 ⟨hdistinct, hmore⟩⟩
  exact foldlM_merged_eq_ok_iff hall hok

/-- A document with a new path, and with a path that another one has, where the second of three verbs is there
already. -/
def overlappingDocument : Document where
  paths := [⟨"/b", [{ path := "/b", verb := .get }]⟩,
    ⟨"/a", [{ path := "/a", verb := .put }, { path := "/a", verb := .get }, { path := "/a", verb := .post }]⟩]

/-- The new path and the first verb are added, and the third verb is not. -/
theorem merged_eq_error_overlapping :
    (bareDocument "/a" .get).Distinct ∧ overlappingDocument.Distinct ∧
    (bareDocument "/a" .get).merged overlappingDocument = .error (refusal { path := "/a", verb := .get }) ∧
    ∃ place : overlappingDocument.Place, place.op.key = ⟨"/a", .get⟩ ∧
      (bareDocument "/a" .get).merged place.cut = .ok
        { paths := [⟨"/a", [{ path := "/a", verb := .get }, { path := "/a", verb := .put }]⟩,
          ⟨"/b", [{ path := "/b", verb := .get }]⟩] } := by
  have hdistinct : overlappingDocument.Distinct := ⟨by decide, by decide⟩
  have hfail : (bareDocument "/a" .get).merged overlappingDocument =
      .error (refusal { path := "/a", verb := .get }) := rfl
  obtain ⟨place, hfailure, -, -, -, -, hok, -⟩ :=
    merged_eq_error (distinct_bareDocument "/a" .get) hdistinct hfail
  refine ⟨distinct_bareDocument "/a" .get, hdistinct, hfail, place, ?_, hok⟩
  simp only [refusal, Failure.malformed.injEq, Malformation.duplicateOperation.injEq] at hfailure
  rw [Operation.key, ← hfailure.1, ← hfailure.2]

end Document

end ApiCodegen
