import ApiCodegen.Proofs.Markup.Keys
import ApiCodegen.Proofs.Schema.Load
import ApiCodegen.Proofs.Schema.Reachable

/-!
# One operation for a path and a verb

A merge refuses a verb that a path has already. A text is not asked: its keys differ as values, but
a path is the text of its key and a verb is its key in any letter case.

* `Document.Unique`: no two path items have one path, and no two operations one path and verb.
* `Document.distinct_merge`, `Document.filed_merge`: **a merge keeps this**, wherever it stops.
* `NamesOnce`: a text names every path once, and below it every verb once.
* `Document.unique_iff_namesOnce`: **only such a text is loaded as a document without repetitions.**
* `namesOnce_of_plain`: texts name everything once if paths are strings and verbs in lower case.
* `Document.unique_mergedFrom_iff`: these together, for all documents made by loading and merging.
-/

namespace ApiCodegen

open Markup

variable {item : PathItem} {known more : List Operation} {paths items : List PathItem}

/-! ## Merges -/

/-- Operations stand under their own path. -/
def PathItem.Filed (item : PathItem) : Prop := ∀ op ∈ item.operations, op.path = item.path

theorem nodup_addOperations (h : (known.map Operation.verb).Nodup) :
    ((addOperations known more).1.map Operation.verb).Nodup := by
  induction more generalizing known with
  | nil => exact h
  | cons op more ih =>
    unfold addOperations
    split
    · exact h
    · rename_i hnew
      have hverb : op.verb ∉ known.map Operation.verb := by simpa using hnew
      refine ih ?_
      rw [List.map_append]
      exact h.append (List.nodup_singleton _) (List.disjoint_singleton.2 hverb)

theorem nodup_paths_addPaths (h : (paths.map PathItem.path).Nodup) :
    ((addPaths paths items).1.map PathItem.path).Nodup := by
  induction items generalizing paths with
  | nil => exact h
  | cons item items ih =>
    have hitem : ((addPath item paths).1.map PathItem.path).Nodup := by
      rw [paths_addPath item h]
      exact nodup_eraseDups _
    unfold addPaths
    split
    · rename_i between hbetween
      rw [hbetween] at hitem
      exact ih hitem
    · rename_i between refused hbetween
      rw [hbetween] at hitem
      exact hitem

namespace Document

variable {doc other : Document} {policy : ReferencePolicy} {text : String} {root : Value}

/-- **No two path items have one path, and no two operations one path and verb.** -/
structure Unique (doc : Document) : Prop where
  paths : (doc.paths.map PathItem.path).Nodup
  keys : (doc.operations.map Operation.key).Nodup

/-- All operations stand under their own paths. -/
def Filed (doc : Document) : Prop := ∀ item ∈ doc.paths, item.Filed

theorem keys_eq (h : doc.Filed) : doc.operations.map Operation.key = doc.keys := by
  rw [operations, keys, List.map_flatMap]
  refine List.flatMap_congr fun item hitem => List.map_congr_left fun op hop => ?_
  rw [Operation.key, h item hitem op hop]

/-- To name every verb once for its path is to name every key once. -/
theorem distinct_iff : doc.Distinct ↔ (doc.paths.map PathItem.path).Nodup ∧ doc.keys.Nodup := by
  have hkey : ∀ path : String, Function.Injective (OperationKey.mk path) :=
    fun path verb verb' heq => (OperationKey.mk.inj heq).2
  have hverbs : ∀ item : PathItem, (item.operations.map fun op => (⟨item.path, op.verb⟩ : OperationKey)) =
      (item.operations.map Operation.verb).map (OperationKey.mk item.path) := fun item => by
    rw [List.map_map]
    rfl
  constructor
  · rintro ⟨hpaths, hitems⟩
    refine ⟨hpaths, ?_⟩
    rw [Document.keys, List.nodup_flatMap]
    refine ⟨fun item hitem => ?_, ?_⟩
    · rw [hverbs]
      exact (hitems item hitem).map (hkey item.path)
    · -- operations of different items differ in their paths
      refine (List.pairwise_map.1 hpaths).imp fun {item other} hne key hk hk' => ?_
      obtain ⟨op, -, rfl⟩ := List.mem_map.1 hk
      obtain ⟨op', -, heq⟩ := List.mem_map.1 hk'
      exact hne (OperationKey.mk.inj heq).1.symm
  · rintro ⟨hpaths, hkeys⟩
    rw [Document.keys, List.nodup_flatMap] at hkeys
    refine ⟨hpaths, fun item hitem => ?_⟩
    have hitem := hkeys.1 item hitem
    rw [hverbs] at hitem
    exact hitem.of_map _

theorem unique_iff_distinct (h : doc.Filed) : doc.Unique ↔ doc.Distinct := by
  rw [distinct_iff, ← keys_eq h]
  exact ⟨fun hunique => ⟨hunique.paths, hunique.keys⟩, fun hdistinct => ⟨hdistinct.1, hdistinct.2⟩⟩

/-- **A merge keeps what is named once**, wherever it stops. -/
theorem distinct_merge (h : doc.Distinct) (ho : other.Distinct) :
    (doc.merge other).1.Distinct := by
  refine ⟨nodup_paths_addPaths h.paths, ?_⟩
  exact forall_mem_addPaths h.verbs ho.verbs fun known item _ hk _ => nodup_addOperations hk

theorem filed_merge (h : doc.Filed) (ho : other.Filed) : (doc.merge other).1.Filed := by
  refine forall_mem_addPaths h ho fun known item heq hk hi op hop => ?_
  rcases mem_addOperations hop with hop | hop
  · exact hk op hop
  · exact (hi op hop).trans heq.symm

end Document

/-! ## Texts -/

/-- A text names every path once, and below it every verb once. -/
structure NamesOnce (root : Value) : Prop where
  paths : ((pathEntries root).filterMap fun entry => entry.1.name?).Nodup
  verbs : ∀ entry ∈ pathEntries root, (verbsOf entry.2).Nodup

/-- Paths are written as strings, and verbs as strings in lower case. -/
structure PlainNames (root : Value) : Prop where
  paths : ∀ entry ∈ pathEntries root, ∃ path, entry.1 = .string path
  verbs : ∀ entry ∈ pathEntries root, ∀ inner, entry.2.entries? = some inner →
    ∀ e ∈ inner, ∀ verb, verbOf? e.1 = some verb → e.1 = .string verb.lower

theorem same_string (s : String) : (Value.string s).same (.string s) = true := by
  simp [Value.same]

/-- Plain names are given once, for the reader refuses equal keys. -/
theorem namesOnce_of_plain {text : String} {root : Value} (hread : read? text = some root)
    (h : PlainNames root) : NamesOnce root := by
  have hroot : root.Keyed := keyed_of_read? hread
  -- the section is a mapping of different keys, or there is none
  have hentries : (pathEntries root).Pairwise (fun e f => e.1.same f.1 = false) ∧
      ∀ entry ∈ pathEntries root, entry.2.Keyed := by
    unfold pathEntries
    cases hsection : (root.get? "paths").bind Value.entries? with
    | none => exact ⟨List.Pairwise.nil, fun entry he => absurd he List.not_mem_nil⟩
    | some entries =>
      obtain ⟨found, hfound, hinner⟩ := Option.bind_eq_some_iff.1 hsection
      obtain ⟨outer, houter, hget⟩ := Option.bind_eq_some_iff.1 hfound
      have hkeyed := ((hroot.entries? houter).get? hget).entries? hinner
      exact ⟨hkeyed.pairwise, fun entry he => hkeyed.value he⟩
  refine ⟨?_, fun entry he => ?_⟩
  · refine List.pairwise_filterMap.2 (hentries.1.imp_of_mem ?_)
    rintro e f he hf hdiff path hpath other hother rfl
    obtain ⟨s, hs⟩ := h.paths e he
    obtain ⟨t, ht⟩ := h.paths f hf
    rw [hs] at hpath hdiff
    rw [ht] at hother hdiff
    obtain rfl : s = t := Option.some.inj (hpath.trans hother.symm)
    rw [same_string] at hdiff
    cases hdiff
  · unfold verbsOf
    cases hinner : entry.2.entries? with
    | none => exact List.nodup_nil
    | some inner =>
      have hkeyed := (hentries.2 entry he).entries? hinner
      refine List.pairwise_filterMap.2 (hkeyed.pairwise.imp_of_mem ?_)
      rintro e f hmem hmem' hdiff verb hverb other hother rfl
      rw [h.verbs entry he inner hinner e hmem verb hverb,
        h.verbs entry he inner hinner f hmem' verb hother, same_string] at hdiff
      cases hdiff

theorem paths_of_describes {entries : Entries} (h : List.Forall₂ Describes entries items) :
    entries.filterMap (fun entry => entry.1.name?) = items.map PathItem.path := by
  induction h with
  | nil => rfl
  | cons hentry _ ih => simp only [List.filterMap_cons, hentry.path, ih, List.map_cons]

theorem verbs_of_describes {entries : Entries} (h : List.Forall₂ Describes entries items) :
    (∀ entry ∈ entries, (verbsOf entry.2).Nodup) ↔
      ∀ item ∈ items, (item.operations.map Operation.verb).Nodup := by
  induction h with
  | nil => simp
  | cons hentry _ ih => rw [List.forall_mem_cons, List.forall_mem_cons, ih, hentry.verbs]

theorem filed_of_describes {entries : Entries} (h : List.Forall₂ Describes entries items) :
    ∀ item ∈ items, item.Filed := by
  induction h with
  | nil => exact fun item hitem => absurd hitem List.not_mem_nil
  | cons hentry _ ih => exact List.forall_mem_cons.2 ⟨hentry.filed, ih⟩

namespace Document

variable {doc other : Document} {policy : ReferencePolicy} {text : String} {root : Value}

theorem filed_load (hread : read? text = some root) (h : (load policy text).outcome = .ok doc) :
    doc.Filed := filed_of_describes (describes_load hread h)

/-- **Only a text that names everything once** is loaded as a document without repetitions. -/
theorem unique_iff_namesOnce (hread : read? text = some root)
    (h : (load policy text).outcome = .ok doc) : doc.Unique ↔ NamesOnce root := by
  have hd := describes_load hread h
  have hpaths := paths_of_describes hd
  have hverbs := verbs_of_describes hd
  rw [unique_iff_distinct (filed_load hread h)]
  constructor
  · rintro ⟨hp, hv⟩
    exact ⟨hpaths ▸ hp, hverbs.2 hv⟩
  · rintro ⟨hp, hv⟩
    exact ⟨hpaths ▸ hp, hverbs.1 hv⟩

/-- A document made by merges from the documents of some texts. The result of a refused merge counts
as well. -/
inductive MergedFrom (texts : List String) : Document → Prop
  | empty : MergedFrom texts {}
  | load (policy : ReferencePolicy) {text : String} {doc : Document} : text ∈ texts →
      (Document.load policy text).outcome = .ok doc → MergedFrom texts doc
  | merge {doc other : Document} : MergedFrom texts doc → MergedFrom texts other →
      MergedFrom texts (doc.merge other).1

variable {texts : List String}

theorem MergedFrom.filed (h : MergedFrom texts doc) : doc.Filed := by
  induction h with
  | empty => exact fun item hitem => absurd hitem List.not_mem_nil
  | load policy _ h =>
    obtain ⟨root, hread⟩ := exists_read_of_load h
    exact filed_load hread h
  | merge _ _ ih iho => exact filed_merge ih iho

theorem MergedFrom.distinct (h : MergedFrom texts doc)
    (honce : ∀ text ∈ texts, ∀ policy doc, (Document.load policy text).outcome = .ok doc →
      doc.Distinct) : doc.Distinct := by
  induction h with
  | empty => exact ⟨List.nodup_nil, fun item hitem => absurd hitem List.not_mem_nil⟩
  | load policy htext h => exact honce _ htext policy _ h
  | merge _ _ ih iho => exact distinct_merge ih iho

/-- **One operation for a path and a verb**: no document made from some texts has a repetition,
wherever its merges stopped, if and only if each text that can be loaded names everything once. A text
does so if it names paths by strings and verbs in lower case. -/
theorem unique_mergedFrom_iff (texts : List String) :
    ((∀ doc, MergedFrom texts doc → doc.Unique) ↔
      ∀ text ∈ texts, ∀ policy doc root, (load policy text).outcome = .ok doc →
        read? text = some root → NamesOnce root) ∧
    ∀ text ∈ texts, ∀ root, read? text = some root → PlainNames root → NamesOnce root := by
  refine ⟨⟨?_, ?_⟩, fun text _ root hread => namesOnce_of_plain hread⟩
  · intro hall text htext policy doc root h hread
    have hunique : doc.Unique := hall doc (.load policy htext h)
    exact (unique_iff_namesOnce hread h).1 hunique
  · intro honce doc hdoc
    refine (unique_iff_distinct hdoc.filed).2 (hdoc.distinct fun text htext policy doc h => ?_)
    obtain ⟨root, hread⟩ := exists_read_of_load h
    have hunique := (unique_iff_namesOnce hread h).2 (honce text htext policy doc root h hread)
    exact (unique_iff_distinct (filed_load hread h)).1 hunique

/-! ## A verb in two letter cases -/

/-- A path with one verb in two letter cases. -/
def twiceText : String := "paths:\n /a:\n  get: {}\n  GET: {}\ncomponents:\n"

/-- What `twiceText` reads as. -/
def twiceValue : Value := .mapping [
  (.string "paths", .mapping [(.string "/a",
    .mapping [(.string "get", .mapping []), (.string "GET", .mapping [])])]),
  (.string "components", .null)]

/-- The document of `twiceText`. -/
def twiceDocument : Document where
  paths := [⟨"/a", [{ path := "/a", verb := .get }, { path := "/a", verb := .get }]⟩]

theorem read_twiceText : read? twiceText = some twiceValue := by
  unfold read? Markup.Tree.read? Markup.glyphs twiceText
  rw [String.toList_ofList]
  decide +kernel

theorem load_twiceText (policy : ReferencePolicy) :
    (load policy twiceText).outcome = .ok twiceDocument := by
  have hparse : parse twiceValue = ⟨[], .ok twiceDocument⟩ := by rfl
  have hcheck : (check policy twiceDocument).outcome = .ok twiceDocument := by cases policy <;> rfl
  exact (outcome_load_of_value read_twiceText hparse).trans hcheck

theorem plainNames_listEntries : PlainNames (.mapping listEntries) := by
  have hentries : pathEntries (.mapping listEntries) =
      [(.string "/t", .mapping [(.string "get", getValue)])] := rfl
  have hverb : verbOf? (.string "get") = some .get := by decide +kernel
  refine ⟨fun entry he => ?_, fun entry he inner hinner e hmem verb hv => ?_⟩
  · rw [hentries] at he
    rw [List.mem_singleton.1 he]
    exact ⟨"/t", rfl⟩
  · rw [hentries] at he
    rw [List.mem_singleton.1 he] at hinner
    obtain rfl : [(Value.string "get", getValue)] = inner := Option.some.inj hinner
    rw [List.mem_singleton.1 hmem] at hv ⊢
    obtain rfl : Verb.get = verb := Option.some.inj (hverb.symm.trans hv)
    rfl

/-- A text with a verb in two letter cases makes a document with a repetition, and one in lower case
makes none, also by a refused merge with itself. -/
theorem unique_mergedFrom_iff_twice :
    ((load .strict twiceText).outcome = .ok twiceDocument ∧
      ¬ ∀ doc, MergedFrom [twiceText] doc → doc.Unique) ∧
    (load .strict listText).outcome = .ok listDocument ∧
      (∀ doc, MergedFrom [listText] doc → doc.Unique) ∧
      (listDocument.merge listDocument).1.Unique := by
  obtain ⟨htwice, -⟩ := unique_mergedFrom_iff [twiceText]
  obtain ⟨hlist, hplain⟩ := unique_mergedFrom_iff [listText]
  have hloaded : MergedFrom [listText] listDocument :=
    .load .strict (List.mem_singleton.2 rfl) load_listText
  have hunique : ∀ doc, MergedFrom [listText] doc → doc.Unique := by
    refine hlist.2 fun text htext policy doc root _ hread => ?_
    obtain rfl := List.mem_singleton.1 htext
    obtain rfl := Option.some.inj (read_listText.symm.trans hread)
    exact hplain _ htext _ hread plainNames_listEntries
  refine ⟨⟨load_twiceText _, ?_⟩, load_listText, hunique, hunique _ (hloaded.merge hloaded)⟩
  -- both keys name the same verb
  have hentries : pathEntries twiceValue = [(.string "/a",
    .mapping [(.string "get", .mapping []), (.string "GET", .mapping [])])] := rfl
  have hverbs : verbsOf (.mapping [(.string "get", .mapping []), (.string "GET", .mapping [])]) =
      [.get, .get] := by decide +kernel
  rw [htwice]
  intro hnames
  have honce : NamesOnce twiceValue :=
    hnames twiceText (List.mem_singleton.2 rfl) .strict _ _ (load_twiceText _) read_twiceText
  have hnodup := honce.verbs _ (hentries ▸ List.mem_cons_self)
  rw [hverbs] at hnodup
  revert hnodup
  decide

end Document

end ApiCodegen
