import ApiCodegen.Proofs.Schema.Combine
import ApiCodegen.Schema.Load

/-!
# What a loaded document has of its text

* `Reported.bind_ok_iff`, `Reported.bind_error_iff`: a computation with two parts succeeds if both do,
  and fails where one does.
* `pathEntries`: the entries under `paths`, one for every path.
* `Describes`: the path of a path item is the text of its key, and its verbs are those of the keys
  below.
* `Document.describes_load`: **a loaded document has one path item for every entry**, which the
  entry describes, under either policy.
* `Document.outcome_loadAll`: several texts are loaded as their documents are merged.
-/

namespace ApiCodegen

open Markup

theorem Reported.outcome_bind {α β : Type} (r : Reported α) (next : α → Reported β) :
    (r >>= next).outcome = r.outcome >>= fun a => (next a).outcome := by
  rcases r with ⟨warnings, outcome⟩
  cases outcome <;> rfl

/-- Both parts of a computation that succeeds have succeeded. -/
theorem Reported.bind_ok {α β : Type} {r : Reported α} {next : α → Reported β} {b : β}
    (h : (r >>= next).outcome = .ok b) : ∃ a, r.outcome = .ok a ∧ (next a).outcome = .ok b := by
  rw [Reported.outcome_bind] at h
  cases hr : r.outcome with
  | error failure =>
    rw [hr] at h
    cases h
  | ok a =>
    rw [hr] at h
    exact ⟨a, rfl, h⟩

theorem Reported.bind_ok_iff {α β : Type} {r : Reported α} {next : α → Reported β} {b : β} :
    (r >>= next).outcome = .ok b ↔ ∃ a, r.outcome = .ok a ∧ (next a).outcome = .ok b := by
  refine ⟨Reported.bind_ok, ?_⟩
  rintro ⟨a, ha, hb⟩
  rw [Reported.outcome_bind, ha]
  exact hb

/-- The same without the results. -/
theorem Reported.exists_bind_ok_iff {α β : Type} {r : Reported α} {next : α → Reported β} :
    (∃ b, (r >>= next).outcome = .ok b) ↔
      ∃ a, r.outcome = .ok a ∧ ∃ b, (next a).outcome = .ok b := by
  simp only [Reported.bind_ok_iff]
  rw [exists_comm]
  exact exists_congr fun a => exists_and_left

/-- A computation fails if its first part fails, or if that succeeds and the second fails. -/
theorem Reported.bind_error_iff {α β : Type} {r : Reported α} {next : α → Reported β}
    {failure : Failure} : (r >>= next).outcome = .error failure ↔
      r.outcome = .error failure ∨ ∃ a, r.outcome = .ok a ∧ (next a).outcome = .error failure := by
  rw [Reported.outcome_bind]
  cases r.outcome with
  | error f =>
    change Except.error f = Except.error failure ↔ _
    constructor
    · intro h
      exact .inl (Except.error.inj h ▸ rfl)
    · rintro (h | ⟨a, ha, -⟩)
      · exact Except.error.inj h ▸ rfl
      · cases ha
  | ok a =>
    constructor
    · exact fun h => .inr ⟨a, rfl, h⟩
    · rintro (h | ⟨b, hb, h⟩)
      · cases h
      · obtain rfl := Except.ok.inj hb
        exact h

/-- The entries under `paths`, one for every path. -/
def pathEntries (root : Value) : Entries := ((root.get? "paths").bind Value.entries?).getD []

/-- The verbs that the keys of a path's value name, in order. -/
def verbsOf (node : Value) : List Verb := (node.entries?.getD []).filterMap fun entry => verbOf? entry.1

/-- An entry of `paths` describes a path item. -/
structure Describes (entry : Value × Value) (item : PathItem) : Prop where
  path : entry.1.name? = some item.path
  verbs : item.operations.map Operation.verb = verbsOf entry.2
  filed : ∀ op ∈ item.operations, op.path = item.path

variable {path : String} {verb : Verb} {node root : Value} {op : Operation}
variable {entries : Entries} {operations : List Operation} {items : List PathItem}

theorem parseOperation_ok (h : (parseOperation path verb node).outcome = .ok op) :
    op.path = path ∧ op.verb = verb := by
  unfold parseOperation at h
  split at h
  · cases h
  · obtain ⟨tags, -, h⟩ := Reported.bind_ok h
    obtain ⟨request, -, h⟩ := Reported.bind_ok h
    obtain ⟨response, -, h⟩ := Reported.bind_ok h
    obtain rfl := Except.ok.inj h
    exact ⟨rfl, rfl⟩

theorem parseOperations_ok (h : (parseOperations path entries).outcome = .ok operations) :
    operations.map Operation.verb = entries.filterMap (fun entry => verbOf? entry.1) ∧
      ∀ op ∈ operations, op.path = path := by
  induction entries generalizing operations with
  | nil =>
    obtain rfl := Except.ok.inj h
    exact ⟨rfl, fun op hop => absurd hop List.not_mem_nil⟩
  | cons entry entries ih =>
    obtain ⟨key, node⟩ := entry
    unfold parseOperations at h
    split at h
    · rename_i hnone
      obtain ⟨hverbs, hpath⟩ := ih h
      refine ⟨?_, hpath⟩
      simp only [List.filterMap_cons, hnone, hverbs]
    · rename_i verb hverb
      obtain ⟨op, hop, h⟩ := Reported.bind_ok h
      obtain ⟨others, hothers, h⟩ := Reported.bind_ok h
      obtain rfl := Except.ok.inj h
      obtain ⟨hp, hv⟩ := parseOperation_ok hop
      obtain ⟨hverbs, hpath⟩ := ih hothers
      refine ⟨?_, List.forall_mem_cons.2 ⟨hp, hpath⟩⟩
      simp only [List.map_cons, List.filterMap_cons, hverb, hv, hverbs]

theorem parsePaths_ok (h : (parsePaths entries).outcome = .ok items) :
    List.Forall₂ Describes entries items := by
  induction entries generalizing items with
  | nil =>
    obtain rfl := Except.ok.inj h
    exact .nil
  | cons entry entries ih =>
    obtain ⟨key, node⟩ := entry
    unfold parsePaths at h
    split at h
    · cases h
    · rename_i path hpath
      split at h
      · cases h
      · rename_i inner hinner
        obtain ⟨operations, hoperations, h⟩ := Reported.bind_ok h
        obtain ⟨others, hothers, h⟩ := Reported.bind_ok h
        obtain rfl := Except.ok.inj h
        obtain ⟨hverbs, hfiled⟩ := parseOperations_ok hoperations
        have hdescribes : Describes (key, node) ⟨path, operations⟩ := by
          refine ⟨hpath, ?_, hfiled⟩
          rw [verbsOf, hinner]
          exact hverbs
        exact .cons hdescribes (ih hothers)

theorem pathsOf_ok (h : (pathsOf entries).outcome = .ok items) :
    List.Forall₂ Describes (((entries.get? "paths").bind Value.entries?).getD []) items := by
  unfold pathsOf at h
  split at h
  · cases h
  · rename_i found hfound
    rw [hfound, Option.bind_some]
    split at h
    · -- a section without a value has no entries
      rename_i hnull
      obtain rfl := Except.ok.inj h
      have hnone : found.entries? = none := by
        unfold Value.isNull at hnull
        unfold Value.entries?
        split at hnull
        · rename_i hu
          rw [hu]
        · cases hnull
      rw [hnone]
      exact .nil
    · split at h
      · cases h
      · rename_i inner hinner
        rw [hinner]
        exact parsePaths_ok h

namespace Document

variable {doc checked : Document} {policy : ReferencePolicy} {text : String}

theorem describes_parse (h : (parse root).outcome = .ok doc) :
    List.Forall₂ Describes (pathEntries root) doc.paths := by
  unfold parse at h
  split at h
  · cases h
  · rename_i entries hentries
    obtain ⟨components, -, h⟩ := Reported.bind_ok h
    obtain ⟨paths, hpaths, h⟩ := Reported.bind_ok h
    obtain rfl := Except.ok.inj h
    have hget : root.get? "paths" = entries.get? "paths" := by rw [Value.get?, hentries, Option.bind_some]
    rw [pathEntries, hget]
    exact pathsOf_ok hpaths

/-- The check of references changes neither paths nor verbs. -/
theorem describes_check (h : (check policy doc).outcome = .ok checked)
    (hd : List.Forall₂ Describes entries doc.paths) : List.Forall₂ Describes entries checked.paths := by
  cases policy with
  | strict =>
    simp only [check] at h
    split at h
    · obtain rfl := Except.ok.inj h
      exact hd
    · cases h
  | lenient =>
    obtain rfl := Except.ok.inj h
    rw [generalize, List.forall₂_map_right_iff]
    refine hd.imp fun entry item hitem => ⟨hitem.path, ?_, fun op hop => ?_⟩
    · rw [← hitem.verbs, List.map_map]
      rfl
    · obtain ⟨written, hwritten, rfl⟩ := List.mem_map.1 hop
      exact hitem.filed written hwritten

theorem exists_read_of_load (h : (load policy text).outcome = .ok doc) :
    ∃ root, Markup.read? text = some root := by
  obtain ⟨written, hwritten, -⟩ := Reported.bind_ok h
  unfold read at hwritten
  split at hwritten
  · cases hwritten
  · rename_i root hread
    exact ⟨root, hread⟩

/-- **A loaded document has one path item for every entry** of its text, described by the entry. -/
theorem describes_load (hread : Markup.read? text = some root)
    (h : (load policy text).outcome = .ok doc) :
    List.Forall₂ Describes (pathEntries root) doc.paths := by
  obtain ⟨written, hwritten, hcheck⟩ := Reported.bind_ok h
  unfold read at hwritten
  rw [hread] at hwritten
  exact describes_check hcheck (describes_parse hwritten)

theorem outcome_loadMore {texts : List (Except Failure String)} {docs : List Document}
    (h : List.Forall₂ (fun text doc => (loadFrom policy text).outcome = .ok doc) texts docs)
    (doc : Document) : (loadMore policy doc texts).outcome = docs.foldlM merged doc := by
  induction h generalizing doc with
  | nil => rfl
  | @cons text other texts docs hother _ ih =>
    have hcons : loadMore policy doc (text :: texts) = loadFrom policy text >>= fun other =>
      .ofExcept (doc.merged other) >>= fun doc => loadMore policy doc texts := rfl
    rw [hcons, Reported.outcome_bind, hother, List.foldlM_cons]
    show (Reported.ofExcept (doc.merged other) >>= _).outcome = _
    rw [Reported.outcome_bind]
    exact bind_congr ih

/-- **Several texts are loaded as their documents are merged**, from left to right. -/
theorem outcome_loadAll {texts : List (Except Failure String)} {docs : List Document}
    (h : List.Forall₂ (fun text doc => (loadFrom policy text).outcome = .ok doc) texts docs) :
    (loadAll policy texts).outcome = mergedAll docs := by
  cases h with
  | nil => rfl
  | @cons text doc texts docs hdoc hmore =>
    have hcons : loadAll policy (text :: texts) = loadFrom policy text >>= fun doc =>
      loadMore policy doc texts := rfl
    rw [hcons, Reported.outcome_bind, hdoc]
    exact outcome_loadMore hmore doc

end Document

end ApiCodegen
