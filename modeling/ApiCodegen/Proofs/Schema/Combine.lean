import ApiCodegen.Proofs.FirstSeen
import ApiCodegen.Proofs.Schema.Merge

/-!
# The combination of several documents

A merge is described by two views of the path items: the list of paths and the operations at each
path. Both say what an addition does, and together they are all that there is.

* `addPaths_ok`: what is added stands behind what is there, path by path.
* `addPaths_none_iff`: an addition is refused if and only if a verb is given twice for a path.
* `Document.combined`: all components, the paths in first-seen order, and for every path the
  operations of all documents.
* `Document.merged_eq_ok_iff`: **two documents can be merged if and only if they have no operation
  in common, and then they are merged into their combination.**
* `Document.mergedAll_eq_ok_iff`: **the same for any number of documents**, however the merges are
  grouped.
-/

namespace ApiCodegen

variable {path : String} {op : Operation} {known more result : List Operation}
variable {item : PathItem} {paths items after : List PathItem}

/-! ## Views of path items -/

/-- The operations at a path. -/
def operationsAt (path : String) (items : List PathItem) : List Operation :=
  (items.filter fun item => item.path = path).flatMap PathItem.operations

/-- The verbs at a path. -/
def verbsAt (path : String) (items : List PathItem) : List Verb :=
  (operationsAt path items).map Operation.verb

theorem operationsAt_append (path : String) (paths items : List PathItem) :
    operationsAt path (paths ++ items) = operationsAt path paths ++ operationsAt path items := by
  rw [operationsAt, List.filter_append, List.flatMap_append]
  rfl

theorem operationsAt_cons_self (item : PathItem) (items : List PathItem) :
    operationsAt item.path (item :: items) = item.operations ++ operationsAt item.path items := by
  rw [operationsAt, List.filter_cons_of_pos (by simp), List.flatMap_cons]
  rfl

theorem operationsAt_cons_of_ne (h : item.path ≠ path) (items : List PathItem) :
    operationsAt path (item :: items) = operationsAt path items := by
  rw [operationsAt, List.filter_cons_of_neg (by simpa using h)]
  rfl

theorem operationsAt_of_not_mem (h : path ∉ items.map PathItem.path) :
    operationsAt path items = [] := by
  have hnone : items.filter (fun item => item.path = path) = [] := by
    refine List.filter_eq_nil_iff.2 fun item hitem heq => h ?_
    exact List.mem_map.2 ⟨item, hitem, of_decide_eq_true heq⟩
  rw [operationsAt, hnone, List.flatMap_nil]

theorem mem_operationsAt : op ∈ operationsAt path items ↔
    ∃ item ∈ items, item.path = path ∧ op ∈ item.operations := by
  simp only [operationsAt, List.mem_flatMap, List.mem_filter, decide_eq_true_eq, and_assoc]

/-- The operations of a path item whose path stands there once are those at its path. -/
theorem operationsAt_of_mem (h : (items.map PathItem.path).Nodup) (hi : item ∈ items) :
    operationsAt item.path items = item.operations := by
  induction items with
  | nil => exact absurd hi List.not_mem_nil
  | cons first items ih =>
    rw [List.map_cons, List.nodup_cons] at h
    rcases List.mem_cons.1 hi with rfl | hi
    · rw [operationsAt_cons_self, operationsAt_of_not_mem h.1, List.append_nil]
    · have hne : first.path ≠ item.path := by
        intro heq
        exact h.1 (heq ▸ List.mem_map_of_mem hi)
      rw [operationsAt_cons_of_ne hne, ih h.2 hi]

/-- **Path items are given by their paths and the operations at each path.** -/
theorem items_eq_map (h : (items.map PathItem.path).Nodup) :
    items = (items.map PathItem.path).map fun path => ⟨path, operationsAt path items⟩ := by
  rw [List.map_map]
  have hitem : ∀ item ∈ items,
      item = ((fun path => (⟨path, operationsAt path items⟩ : PathItem)) ∘ PathItem.path) item := by
    intro item hi
    rw [Function.comp_apply, operationsAt_of_mem h hi]
  calc items = items.map id := (List.map_id items).symm
    _ = _ := List.map_congr_left hitem

/-! ## Additions -/

theorem addOperations_ok (h : addOperations known more = (result, none)) : result = known ++ more := by
  induction more generalizing known with
  | nil => simpa [addOperations, eq_comm] using h
  | cons op more ih =>
    unfold addOperations at h
    split at h
    · cases h
    · rw [ih h, List.append_assoc, List.singleton_append]

/-- Operations are refused if and only if a verb is there already or is given twice. -/
theorem addOperations_none_iff : (addOperations known more).2 = none ↔
    (∀ op ∈ more, op.verb ∉ known.map Operation.verb) ∧ (more.map Operation.verb).Nodup := by
  induction more generalizing known with
  | nil => simp [addOperations]
  | cons op more ih =>
    have hknown : (known.any fun other => other.verb = op.verb) = true ↔
        op.verb ∈ known.map Operation.verb := by simp
    rw [addOperations, List.forall_mem_cons, List.map_cons, List.nodup_cons]
    by_cases hmem : op.verb ∈ known.map Operation.verb
    · rw [if_pos (hknown.2 hmem)]
      simp [hmem]
    · rw [if_neg (mt hknown.1 hmem), ih]
      -- the verbs that follow differ from the new one, and from those that were there
      have hsplit : (∀ other ∈ more, other.verb ∉ (known ++ [op]).map Operation.verb) ↔
          (∀ other ∈ more, other.verb ∉ known.map Operation.verb) ∧
            op.verb ∉ more.map Operation.verb := by
        simp only [List.map_append, List.mem_append, not_or, forall_and, List.map_cons,
          List.map_nil, List.mem_singleton]
        refine and_congr_right fun _ => ?_
        rw [List.mem_map, not_exists]
        exact forall_congr' fun other => by rw [not_and]
      rw [hsplit]
      tauto

/-- A path item keeps the paths as they are, or brings a new one, also when it is refused. -/
theorem paths_addPath (item : PathItem) (hp : (paths.map PathItem.path).Nodup) :
    (addPath item paths).1.map PathItem.path =
      (paths.map PathItem.path ++ [item.path]).eraseDups := by
  induction paths with
  | nil => rfl
  | cons first paths ih =>
    unfold addPath
    split
    · -- the path is there, so first-seen order has nothing to add
      rename_i heq
      have hmem : item.path ∈ (first :: paths).map PathItem.path := heq ▸ List.mem_cons_self
      rw [eraseDups_append_cons_of_mem hmem, List.append_nil, eraseDups_of_nodup hp]
      rfl
    · rename_i hne
      rw [List.map_cons, List.nodup_cons] at hp
      have hoff : (paths.map PathItem.path ++ [item.path]).filter (fun p => !p == first.path) =
          paths.map PathItem.path ++ [item.path] := by
        refine List.filter_eq_self.2 fun p hmem => ?_
        have hother : p ≠ first.path := by
          rintro rfl
          rcases List.mem_append.1 hmem with hmem | hmem
          · exact hp.1 hmem
          · exact hne (List.mem_singleton.1 hmem)
        simpa using hother
      rw [List.map_cons, List.map_cons, List.cons_append, List.eraseDups_cons, hoff, ih hp.2]

/-- A path item that is not refused brings its operations to its path. -/
theorem operationsAt_addPath (hp : (paths.map PathItem.path).Nodup)
    (h : addPath item paths = (after, none)) (path : String) :
    operationsAt path after = operationsAt path paths ++ operationsAt path [item] := by
  induction paths generalizing after with
  | nil =>
    obtain rfl : [item] = after := by simpa [addPath] using h
    rfl
  | cons first paths ih =>
    rw [List.map_cons, List.nodup_cons] at hp
    rcases addPath_cons_cases h with ⟨heq, operations, hadd, rfl⟩ | ⟨-, others, hadd, rfl⟩
    · obtain rfl := addOperations_ok hadd
      by_cases hpath : first.path = path
      · -- no later item has this path, so the new operations are the last at it
        subst hpath
        have hnone := operationsAt_of_not_mem hp.1
        have hitem : operationsAt first.path [item] = item.operations := by
          rw [heq, operationsAt_cons_self, operationsAt, List.filter_nil, List.flatMap_nil,
            List.append_nil]
        rw [operationsAt_cons_self, operationsAt_cons_self
          ⟨first.path, first.operations ++ item.operations⟩, hnone, hitem]
        simp
      · have hne : item.path ≠ path := heq ▸ hpath
        have hfirst : (⟨first.path, first.operations ++ item.operations⟩ : PathItem).path ≠ path :=
          hpath
        rw [operationsAt_cons_of_ne hpath, operationsAt_cons_of_ne hfirst,
          operationsAt_cons_of_ne hne]
        simp [operationsAt]
    · have hat := ih hp.2 hadd
      by_cases hpath : first.path = path
      · subst hpath
        rw [operationsAt_cons_self, operationsAt_cons_self, hat, List.append_assoc]
      · rw [operationsAt_cons_of_ne hpath, operationsAt_cons_of_ne hpath, hat]

/-- What the addition of a path item leads to, when it is not refused. -/
theorem addPath_ok (hp : (paths.map PathItem.path).Nodup) (h : addPath item paths = (after, none)) :
    after.map PathItem.path = (paths.map PathItem.path ++ [item.path]).eraseDups ∧
      ∀ path, operationsAt path after = operationsAt path paths ++ operationsAt path [item] := by
  have hpaths := paths_addPath item hp
  rw [h] at hpaths
  exact ⟨hpaths, operationsAt_addPath hp h⟩

/-- A path item is refused if and only if the path has one of its verbs already. -/
theorem addPath_none_iff (hp : (paths.map PathItem.path).Nodup)
    (hv : (item.operations.map Operation.verb).Nodup) : (addPath item paths).2 = none ↔
      (item.operations.map Operation.verb).Disjoint (verbsAt item.path paths) := by
  induction paths with
  | nil => simp [addPath, verbsAt, operationsAt]
  | cons first paths ih =>
    rw [List.map_cons, List.nodup_cons] at hp
    unfold addPath
    split
    · rename_i heq
      have hat : verbsAt item.path (first :: paths) = first.operations.map Operation.verb := by
        rw [← heq, verbsAt, operationsAt_cons_self, operationsAt_of_not_mem hp.1, List.append_nil]
      rw [hat]
      show (addOperations first.operations item.operations).2 = none ↔ _
      rw [addOperations_none_iff, and_iff_left hv]
      simp [List.Disjoint]
    · rename_i hne
      have hat : verbsAt item.path (first :: paths) = verbsAt item.path paths := by
        rw [verbsAt, operationsAt_cons_of_ne hne]
        rfl
      rw [hat]
      exact ih hp.2

/-- **What is added stands behind what is there**, path by path. -/
theorem addPaths_ok (hp : (paths.map PathItem.path).Nodup) (h : addPaths paths items = (after, none)) :
    after.map PathItem.path = (paths.map PathItem.path ++ items.map PathItem.path).eraseDups ∧
      ∀ path, operationsAt path after = operationsAt path paths ++ operationsAt path items := by
  induction items generalizing paths with
  | nil =>
    obtain rfl : paths = after := by simpa [addPaths] using h
    constructor
    · rw [List.map_nil, List.append_nil, eraseDups_of_nodup hp]
    · intro path
      rw [← operationsAt_append, List.append_nil]
  | cons item items ih =>
    unfold addPaths at h
    split at h
    · rename_i between hadd
      obtain ⟨hpaths, hat⟩ := addPath_ok hp hadd
      have hbetween : (between.map PathItem.path).Nodup := hpaths ▸ nodup_eraseDups _
      obtain ⟨hpaths', hat'⟩ := ih hbetween h
      constructor
      · rw [hpaths', hpaths, ← eraseDups_append_eraseDups, eraseDups_eraseDups,
          eraseDups_append_eraseDups, List.append_assoc, List.singleton_append, List.map_cons]
      · intro path
        rw [hat', hat, List.append_assoc, ← operationsAt_append, List.singleton_append]
    · cases h

/-- **An addition is refused** if and only if a verb is given twice for a path. -/
theorem addPaths_none_iff (hp : (paths.map PathItem.path).Nodup)
    (hi : (items.map PathItem.path).Nodup)
    (hv : ∀ item ∈ items, (item.operations.map Operation.verb).Nodup) :
    (addPaths paths items).2 = none ↔
      ∀ path, (verbsAt path items).Disjoint (verbsAt path paths) := by
  induction items generalizing paths with
  | nil => simp [addPaths, verbsAt, operationsAt]
  | cons item items ih =>
    rw [List.map_cons, List.nodup_cons] at hi
    rw [List.forall_mem_cons] at hv
    have hself : verbsAt item.path (item :: items) = item.operations.map Operation.verb := by
      rw [verbsAt, operationsAt_cons_self, operationsAt_of_not_mem hi.1, List.append_nil]
    have hadd := addPath_none_iff hp hv.1
    rw [← hself] at hadd
    unfold addPaths
    split
    · rename_i between hok
      obtain ⟨hpaths, hat⟩ := addPath_ok hp hok
      have hbetween : (between.map PathItem.path).Nodup := hpaths ▸ nodup_eraseDups _
      have hfirst := hadd.1 (by rw [hok])
      rw [ih hbetween hi.2 hv.2]
      -- the other items have other paths, at which the first one changed nothing
      refine forall_congr' fun path => ?_
      by_cases hpath : item.path = path
      · subst hpath
        have hnone : verbsAt item.path items = [] := by
          rw [verbsAt, operationsAt_of_not_mem hi.1, List.map_nil]
        simp [hnone, hfirst]
      · have hsame : verbsAt path between = verbsAt path paths := by
          rw [verbsAt, hat, operationsAt_cons_of_ne hpath]
          simp [verbsAt, operationsAt]
        have hrest : verbsAt path (item :: items) = verbsAt path items := by
          rw [verbsAt, operationsAt_cons_of_ne hpath]
          rfl
        rw [hsame, hrest]
    · rename_i between refused hrefused
      rw [hrefused] at hadd
      refine iff_of_false (by simp) fun hall => ?_
      cases hadd.2 (hall item.path)

namespace Document

variable {doc other result : Document} {docs : List Document}

/-! ## Two documents -/

/-- A document names every path once, and for a path every verb once. -/
structure Distinct (doc : Document) : Prop where
  paths : (doc.paths.map PathItem.path).Nodup
  verbs : ∀ item ∈ doc.paths, (item.operations.map Operation.verb).Nodup

/-- The verbs of a document with their paths. -/
def keys (doc : Document) : List OperationKey :=
  doc.paths.flatMap fun item => item.operations.map fun op => ⟨item.path, op.verb⟩

theorem mem_keys {key : OperationKey} : key ∈ doc.keys ↔ key.verb ∈ verbsAt key.path doc.paths := by
  simp only [keys, verbsAt, List.mem_flatMap, List.mem_map, mem_operationsAt]
  constructor
  · rintro ⟨item, hitem, op, hop, rfl⟩
    exact ⟨op, ⟨item, hitem, rfl, hop⟩, rfl⟩
  · rintro ⟨op, ⟨item, hitem, hpath, hop⟩, hverb⟩
    exact ⟨item, hitem, op, hop, by rw [hpath, hverb]⟩

theorem disjoint_keys_iff : doc.keys.Disjoint other.keys ↔
    ∀ path, (verbsAt path doc.paths).Disjoint (verbsAt path other.paths) := by
  constructor
  · intro h path verb hv hv'
    exact h (a := ⟨path, verb⟩) (mem_keys.2 hv) (mem_keys.2 hv')
  · intro h key hk hk'
    exact h key.path (mem_keys.1 hk) (mem_keys.1 hk')

/-- The paths of several documents, in first-seen order. -/
def pathsOfAll (docs : List Document) : List String :=
  (docs.flatMap fun doc => doc.paths.map PathItem.path).eraseDups

/-- **All of several documents**: the components in order, the paths in first-seen order, and for
every path the operations of all documents in order. -/
def combined (docs : List Document) : Document where
  components := docs.flatMap components
  paths := (pathsOfAll docs).map fun path =>
    ⟨path, docs.flatMap fun doc => operationsAt path doc.paths⟩

theorem paths_combined (docs : List Document) :
    (combined docs).paths.map PathItem.path = pathsOfAll docs := by
  rw [combined, List.map_map]
  exact List.map_id _

theorem nodup_paths_combined (docs : List Document) :
    ((combined docs).paths.map PathItem.path).Nodup := by
  rw [paths_combined]
  exact nodup_eraseDups _

theorem operationsAt_combined (path : String) (docs : List Document) :
    operationsAt path (combined docs).paths = docs.flatMap fun doc => operationsAt path doc.paths := by
  by_cases h : path ∈ pathsOfAll docs
  · have hitem : (⟨path, docs.flatMap fun doc => operationsAt path doc.paths⟩ : PathItem) ∈
        (combined docs).paths := List.mem_map_of_mem h
    exact operationsAt_of_mem (nodup_paths_combined docs) hitem
  · -- a path that no document has
    have hdocs : ∀ doc ∈ docs, operationsAt path doc.paths = [] := by
      intro doc hdoc
      refine operationsAt_of_not_mem fun hp => h ?_
      exact List.mem_eraseDups.2 (List.mem_flatMap.2 ⟨doc, hdoc, hp⟩)
    rw [operationsAt_of_not_mem (paths_combined docs ▸ h), List.flatMap_eq_nil_iff.2 hdocs]

theorem mem_keys_combined {key : OperationKey} :
    key ∈ (combined docs).keys ↔ ∃ doc ∈ docs, key ∈ doc.keys := by
  simp only [mem_keys, verbsAt, operationsAt_combined, List.map_flatMap, List.mem_flatMap]

/-- A document is its paths and the operations at each path, beside its components. -/
theorem eq_combined (hp : (doc.paths.map PathItem.path).Nodup)
    (hc : doc.components = docs.flatMap components)
    (hpaths : doc.paths.map PathItem.path = pathsOfAll docs)
    (hat : ∀ path, operationsAt path doc.paths = docs.flatMap fun d => operationsAt path d.paths) :
    doc = combined docs := by
  have hitems : doc.paths = (combined docs).paths := by
    rw [items_eq_map hp, hpaths]
    exact List.map_congr_left fun path _ => by rw [hat]
  cases doc
  rw [combined, Document.mk.injEq]
  exact ⟨hc, hitems⟩

theorem combined_singleton (h : doc.Distinct) : combined [doc] = doc := by
  refine (eq_combined h.paths ?_ ?_ fun path => ?_).symm
  · rw [List.flatMap_singleton]
  · rw [pathsOfAll, List.flatMap_singleton, eraseDups_of_nodup h.paths]
  · rw [List.flatMap_singleton]

/-- Combinations can be combined. -/
theorem combined_combined (docs others : List Document) :
    combined [combined docs, combined others] = combined (docs ++ others) := by
  refine eq_combined (nodup_paths_combined _) ?_ ?_ fun path => ?_
  · simp [combined]
  · rw [paths_combined]
    simp only [pathsOfAll, List.flatMap_cons, List.flatMap_nil, List.append_nil, paths_combined,
      List.flatMap_append, eraseDups_append_eraseDups]
  · simp only [operationsAt_combined, List.flatMap_cons, List.flatMap_nil, List.append_nil,
      List.flatMap_append]

/-- Documents without a common operation have a combination that names everything once. -/
theorem distinct_combined (h : ∀ doc ∈ docs, doc.Distinct)
    (hk : docs.Pairwise fun doc other => doc.keys.Disjoint other.keys) : (combined docs).Distinct := by
  refine ⟨nodup_paths_combined docs, fun item hitem => ?_⟩
  rw [← operationsAt_of_mem (nodup_paths_combined docs) hitem, operationsAt_combined,
    List.map_flatMap]
  refine List.nodup_flatMap.2 ⟨fun doc hdoc => ?_, hk.imp fun hdis => disjoint_keys_iff.1 hdis _⟩
  by_cases hmem : item.path ∈ doc.paths.map PathItem.path
  · obtain ⟨own, hown, hpath⟩ := List.mem_map.1 hmem
    rw [← hpath, operationsAt_of_mem (h doc hdoc).paths hown]
    exact (h doc hdoc).verbs own hown
  · rw [operationsAt_of_not_mem hmem]
    exact List.nodup_nil

/-- **Two documents can be merged** if and only if they have no operation in common, and then they
are merged into their combination. -/
theorem merged_eq_ok_iff (h : doc.Distinct) (ho : other.Distinct) :
    doc.merged other = .ok result ↔
      doc.keys.Disjoint other.keys ∧ result = combined [doc, other] := by
  have hnone := addPaths_none_iff h.paths ho.paths ho.verbs
  have hkeys : (addPaths doc.paths other.paths).2 = none ↔ doc.keys.Disjoint other.keys := by
    rw [hnone, disjoint_keys_iff]
    exact forall_congr' fun path => List.disjoint_comm
  rw [← hkeys]
  rcases hadd : addPaths doc.paths other.paths with ⟨after, refused⟩
  have hmerged : doc.merged other = match refused with
      | none => .ok ⟨doc.components ++ other.components, after⟩
      | some op => .error (refusal op) := by
    simp only [merged, merge, hadd]
    cases refused <;> rfl
  rw [hmerged]
  cases refused with
  | some op => simp
  | none =>
    obtain ⟨hpaths, hat⟩ := addPaths_ok h.paths hadd
    have heq : (⟨doc.components ++ other.components, after⟩ : Document) = combined [doc, other] := by
      refine eq_combined (hpaths ▸ nodup_eraseDups _) ?_ ?_ fun path => ?_
      · simp
      · simpa [pathsOfAll] using hpaths
      · simpa using hat path
    rw [heq]
    simp [eq_comm]

/-! ## Any number of documents -/

/-- The order of the merges of a list of documents: two neighbouring parts are merged first, and
then their results. -/
inductive Grouping where
  | single (doc : Document)
  | merge (left right : Grouping)

namespace Grouping

/-- The documents of a grouping, in order. -/
def documents : Grouping → List Document
  | .single doc => [doc]
  | .merge left right => left.documents ++ right.documents

/-- The result of the merges of a grouping. -/
def merged : Grouping → Except Failure Document
  | .single doc => .ok doc
  | .merge left right => do
    let doc ← left.merged
    let other ← right.merged
    doc.merged other

/-- A merge of two groups that succeeds is one of their results. -/
theorem merged_merge_ok {left right : Grouping} (h : (merge left right).merged = .ok result) :
    ∃ doc other, left.merged = .ok doc ∧ right.merged = .ok other ∧ doc.merged other = .ok result := by
  rw [merged] at h
  cases hl : left.merged with
  | error failure =>
    rw [hl] at h
    cases h
  | ok doc =>
    cases hr : right.merged with
    | error failure =>
      rw [hl, hr] at h
      cases h
    | ok other =>
      rw [hl, hr] at h
      exact ⟨doc, other, rfl, rfl, h⟩

/-- **Every order of the merges** succeeds if and only if no two documents have an operation in
common, and then it leads to their combination. -/
theorem merged_eq_ok (grouping : Grouping) (h : ∀ doc ∈ grouping.documents, doc.Distinct) :
    grouping.merged = .ok result ↔
      (grouping.documents.Pairwise fun doc other => doc.keys.Disjoint other.keys) ∧
        result = combined grouping.documents := by
  induction grouping generalizing result with
  | single doc =>
    have hdoc := h doc (List.mem_singleton.2 rfl)
    simp [merged, documents, combined_singleton hdoc, eq_comm]
  | merge left right ihl ihr =>
    have hl : ∀ doc ∈ left.documents, doc.Distinct := fun doc hdoc =>
      h doc (List.mem_append_left _ hdoc)
    have hr : ∀ doc ∈ right.documents, doc.Distinct := fun doc hdoc =>
      h doc (List.mem_append_right _ hdoc)
    -- the two results have all keys of their documents
    have hkeys : (combined left.documents).keys.Disjoint (combined right.documents).keys ↔
        ∀ doc ∈ left.documents, ∀ other ∈ right.documents, doc.keys.Disjoint other.keys := by
      simp only [List.Disjoint, mem_keys_combined]
      constructor
      · intro hdis doc hdoc other hother key hk hk'
        exact hdis ⟨doc, hdoc, hk⟩ ⟨other, hother, hk'⟩
      · rintro hdis key ⟨doc, hdoc, hk⟩ ⟨other, hother, hk'⟩
        exact hdis doc hdoc other hother hk hk'
    rw [documents, List.pairwise_append, ← hkeys]
    constructor
    · intro hok
      obtain ⟨doc, other, hdoc, hother, hok⟩ := merged_merge_ok hok
      obtain ⟨hpl, rfl⟩ := (ihl hl).1 hdoc
      obtain ⟨hpr, rfl⟩ := (ihr hr).1 hother
      rw [merged_eq_ok_iff (distinct_combined hl hpl) (distinct_combined hr hpr),
        combined_combined] at hok
      exact ⟨⟨hpl, hpr, hok.1⟩, hok.2⟩
    · rintro ⟨⟨hpl, hpr, hdis⟩, rfl⟩
      have hok := (merged_eq_ok_iff (distinct_combined hl hpl) (distinct_combined hr hpr)).2
        ⟨hdis, rfl⟩
      rw [combined_combined] at hok
      simp only [merged, (ihl hl).2 ⟨hpl, rfl⟩, (ihr hr).2 ⟨hpr, rfl⟩]
      exact hok

/-- The merges of further documents into a first one, from left to right. -/
def leftToRight (first : Grouping) (more : List Document) : Grouping :=
  more.foldl (fun grouping doc => .merge grouping (.single doc)) first

theorem documents_leftToRight (first : Grouping) (more : List Document) :
    (leftToRight first more).documents = first.documents ++ more := by
  induction more generalizing first with
  | nil => exact (List.append_nil _).symm
  | cons doc more ih =>
    have hmore := ih (.merge first (.single doc))
    rw [leftToRight, List.foldl_cons]
    rw [leftToRight] at hmore
    rw [hmore, documents, documents, List.append_assoc, List.singleton_append]

theorem merged_leftToRight (first : Grouping) (more : List Document) :
    (leftToRight first more).merged = first.merged >>= more.foldlM Document.merged := by
  induction more generalizing first with
  | nil => exact (bind_pure first.merged).symm
  | cons doc more ih =>
    have hmore := ih (.merge first (.single doc))
    rw [leftToRight] at hmore
    rw [leftToRight, List.foldl_cons, hmore, merged, bind_assoc]
    rfl

end Grouping

/-- The documents of a list merged into the first, from left to right. Of no document it is the
empty one. -/
def mergedAll : List Document → Except Failure Document
  | [] => .ok {}
  | doc :: more => more.foldlM merged doc

theorem combined_nil : combined [] = {} := rfl

/-- **Any number of documents** can be merged from left to right if and only if no two have an
operation in common, and then the result is their combination: nothing is lost, and nothing is
there twice. Every other grouping of the merges succeeds on the same documents, with the same
result. -/
theorem mergedAll_eq_ok_iff (docs : List Document) (h : ∀ doc ∈ docs, doc.Distinct) :
    (∀ result, mergedAll docs = .ok result ↔
      (docs.Pairwise fun doc other => doc.keys.Disjoint other.keys) ∧ result = combined docs) ∧
    ∀ grouping regrouping : Grouping,
      grouping.documents = docs → regrouping.documents = docs →
      ∀ result, grouping.merged = .ok result ↔ regrouping.merged = .ok result := by
  constructor
  · intro result
    cases docs with
    | nil => simp [mergedAll, combined_nil, eq_comm]
    | cons doc more =>
      have hdocs : (Grouping.leftToRight (.single doc) more).documents = doc :: more :=
        Grouping.documents_leftToRight _ _
      have hmerged := Grouping.merged_leftToRight (.single doc) more
      have hall : ∀ d ∈ (Grouping.leftToRight (.single doc) more).documents, d.Distinct := hdocs ▸ h
      have hrun : mergedAll (doc :: more) = (Grouping.leftToRight (.single doc) more).merged :=
        hmerged.symm
      rw [hrun, Grouping.merged_eq_ok _ hall, hdocs]
  · rintro grouping regrouping rfl hdocs result
    rw [grouping.merged_eq_ok h, regrouping.merged_eq_ok (hdocs ▸ h), hdocs]

/-- The document of a path with one operation. -/
def bareDocument (path : String) (verb : Verb) : Document where
  paths := [⟨path, [{ path, verb }]⟩]

theorem distinct_bareDocument (path : String) (verb : Verb) : (bareDocument path verb).Distinct := by
  refine ⟨List.nodup_singleton _, fun item hitem => ?_⟩
  rw [List.mem_singleton.1 hitem]
  exact List.nodup_singleton _

/-- Three documents of which the first and the last have a path in common, and two of which the
second repeats the operation of the first. -/
theorem mergedAll_eq_ok_iff_bare :
    (∀ doc ∈ [bareDocument "/a" .get, bareDocument "/b" .get, bareDocument "/a" .put],
      doc.Distinct) ∧
    mergedAll [bareDocument "/a" .get, bareDocument "/b" .get, bareDocument "/a" .put] = .ok
      { paths := [⟨"/a", [{ path := "/a", verb := .get }, { path := "/a", verb := .put }]⟩,
          ⟨"/b", [{ path := "/b", verb := .get }]⟩] } ∧
    ∀ result, mergedAll [bareDocument "/a" .get, bareDocument "/a" .get] ≠ .ok result := by
  have hthree : ∀ doc ∈ [bareDocument "/a" .get, bareDocument "/b" .get, bareDocument "/a" .put],
      doc.Distinct := by
    simp only [List.forall_mem_cons, distinct_bareDocument, List.not_mem_nil, true_and,
      false_imp_iff, implies_true]
  have htwo : ∀ doc ∈ [bareDocument "/a" .get, bareDocument "/a" .get], doc.Distinct := by
    simp only [List.forall_mem_cons, distinct_bareDocument, List.not_mem_nil, true_and,
      false_imp_iff, implies_true]
  refine ⟨hthree, ?_, fun result hok => ?_⟩
  · rw [(mergedAll_eq_ok_iff _ hthree).1]
    refine ⟨?_, rfl⟩
    simp [keys, bareDocument]
  · have hdis := ((mergedAll_eq_ok_iff _ htwo).1 result).1 hok
    simp [keys, bareDocument] at hdis

end Document

end ApiCodegen
