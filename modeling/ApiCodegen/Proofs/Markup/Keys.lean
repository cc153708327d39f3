import Mathlib
import ApiCodegen.Markup.Read

/-!
# Keys of mappings

The reader refuses a mapping with two equal keys. Keys of different kinds are never equal, even if
they have one text, such as the number `1` and the string `1`.

* `Value.Keyed`: no mapping of a value has two equal keys, at any depth.
* `Returns`: what every result of a reading satisfies.
* `keyed_of_read?`: **whatever a text reads as has different keys in every mapping.**
-/

namespace ApiCodegen.Markup

/-- **No mapping of the value has two equal keys**, at any depth. -/
inductive Value.Keyed : Value → Prop
  | null : Keyed .null
  | bool (b : Bool) : Keyed (.bool b)
  | number (n : Number) : Keyed (.number n)
  | string (s : String) : Keyed (.string s)
  | sequence {items : List Value} : (∀ x ∈ items, Keyed x) → Keyed (.sequence items)
  | mapping {entries : Entries} : (∀ e ∈ entries, Keyed e.1) → (∀ e ∈ entries, Keyed e.2) →
      entries.Pairwise (fun e f => e.1.same f.1 = false) → Keyed (.mapping entries)
  | tagged (tag : String) {inner : Value} : Keyed inner → Keyed (.tagged tag inner)

namespace Value.Keyed

variable {v w : Value} {entries : Entries} {key : String}

theorem untag (h : v.Keyed) : v.untag.Keyed := by
  induction h with
  | tagged tag _ ih => exact ih
  | null => exact .null
  | bool b => exact .bool b
  | number n => exact .number n
  | string s => exact .string s
  | sequence h _ => exact .sequence h
  | mapping hk hv hp _ _ => exact .mapping hk hv hp

theorem entries? (h : v.Keyed) (he : v.entries? = some entries) : (Value.mapping entries).Keyed := by
  have hu := h.untag
  unfold Value.entries? at he
  split at he
  · rename_i found hf
    obtain rfl := Option.some.inj he
    exact hf ▸ hu
  · cases he

theorem value (h : (Value.mapping entries).Keyed) (he : (v, w) ∈ entries) : w.Keyed := by
  cases h with
  | mapping _ hv _ => exact hv _ he

theorem pairwise (h : (Value.mapping entries).Keyed) :
    entries.Pairwise fun e f => e.1.same f.1 = false := by
  cases h with
  | mapping _ _ hp => exact hp

theorem mem_of_get? (h : entries.get? key = some w) : (Value.string key, w) ∈ entries := by
  induction entries with
  | nil => cases h
  | cons entry entries ih =>
    obtain ⟨k, v⟩ := entry
    unfold Entries.get? at h
    split at h
    · split at h
      · rename_i hs
        rw [hs, Option.some.inj h]
        exact List.mem_cons_self
      · exact List.mem_cons_of_mem _ (ih h)
    · exact List.mem_cons_of_mem _ (ih h)

/-- What is under a key of the mapping has different keys as well. -/
theorem get? (h : (Value.mapping entries).Keyed) (hk : entries.get? key = some w) : w.Keyed :=
  h.value (mem_of_get? hk)

end Value.Keyed

/-! ## Results of a reading -/

/-- Every result of a reading satisfies `P`. -/
def Returns {α : Type} (reading : Following α) (P : α → Prop) : Prop :=
  ∀ followed a after, reading followed = some (a, after) → P a

section

variable {α β : Type} {P : α → Prop} {Q : β → Prop}

theorem returns_pure {a : α} (h : P a) : Returns (pure a) P := by
  intro followed b after hb
  obtain ⟨rfl, -⟩ := Prod.mk.inj (Option.some.inj hb)
  exact h

theorem returns_failure : Returns failure P := by
  intro followed a after h
  cases h

theorem returns_ite {c : Prop} [Decidable c] {reading other : Following α} (h : Returns reading P)
    (ho : Returns other P) : Returns (if c then reading else other) P := by
  split
  · exact h
  · exact ho

theorem returns_bind {reading : Following α} {next : α → Following β} (h : Returns reading P)
    (hn : ∀ a, P a → Returns (next a) Q) : Returns (reading >>= next) Q := by
  intro followed b after hb
  obtain ⟨⟨a, between⟩, ha, hb⟩ := Option.bind_eq_some_iff.1 hb
  exact hn a (h followed a between ha) between b after hb

theorem returns_any (reading : Following α) : Returns reading fun _ => True :=
  fun _ _ _ _ => trivial

theorem returns_lift {found : Option α} (h : ∀ a, found = some a → P a) :
    Returns (StateT.lift found) P := by
  intro followed b after hb
  obtain ⟨a, ha, hb⟩ := Option.bind_eq_some_iff.1 hb
  obtain ⟨rfl, -⟩ := Prod.mk.inj (Option.some.inj hb)
  exact h a ha

theorem returns_mapM {read : β → Following α} {xs : List β} (h : ∀ x ∈ xs, Returns (read x) P) :
    Returns (xs.mapM read) fun ys => ∀ y ∈ ys, P y := by
  induction xs with
  | nil => exact returns_pure fun y hy => absurd hy List.not_mem_nil
  | cons x xs ih =>
    rw [List.forall_mem_cons] at h
    rw [List.mapM_cons]
    refine returns_bind h.1 fun y hy => ?_
    refine returns_bind (ih h.2) fun ys hys => ?_
    exact returns_pure (List.forall_mem_cons.2 ⟨hy, hys⟩)

end

/-! ## Values -/

variable {tag : Option String} {style : Style} {text : String} {v : Value}

theorem keyed_of_plainValue? (h : plainValue? text = some v) : v.Keyed := by
  unfold plainValue? at h
  split at h
  · obtain rfl := Option.some.inj h
    exact .null
  split at h
  · obtain rfl := Option.some.inj h
    exact .bool _
  split at h
  · obtain rfl := Option.some.inj h
    exact .number _
  · cases h
  split at h
  · obtain rfl := Option.some.inj h
    exact .string text
  split at h
  · obtain rfl := Option.some.inj h
    exact .number _
  · obtain rfl := Option.some.inj h
    exact .string text

theorem keyed_of_taggedValue? {tag : String} (h : taggedValue? tag text = some v) : v.Keyed := by
  unfold taggedValue? at h
  repeat' split at h
  · obtain ⟨b, -, rfl⟩ := Option.map_eq_some_iff.1 h
    exact .bool b
  · obtain rfl := Option.some.inj h
    exact .number _
  · cases h
  · obtain ⟨x, -, rfl⟩ := Option.map_eq_some_iff.1 h
    exact .number _
  · obtain rfl := Option.some.inj h
    exact .null
  · cases h
  · obtain rfl := Option.some.inj h
    exact .string text

theorem keyed_of_bareScalar? (h : bareScalar? style text = some v) : v.Keyed := by
  unfold bareScalar? at h
  split at h
  · exact keyed_of_plainValue? h
  · obtain rfl := Option.some.inj h
    exact .string text

theorem keyed_of_scalarValue? (h : scalarValue? tag style text = some v) : v.Keyed := by
  cases tag with
  | some tag => exact keyed_of_taggedValue? h
  | none => exact keyed_of_bareScalar? h

theorem keyed_under (tag : Option String) (h : v.Keyed) : (Value.under tag v).Keyed := by
  cases tag with
  | some name => exact .tagged _ h
  | none => exact h

/-- **A key that is there already is refused**, so the entries have different keys. -/
theorem returns_readEntries {key value : Node Nat → Following Value}
    (hk : ∀ node, Returns (key node) Value.Keyed) (hv : ∀ node, Returns (value node) Value.Keyed)
    {known : Entries} (h : (Value.mapping known.reverse).Keyed) (nodes : List (Node Nat × Node Nat)) :
    Returns (readEntries key value known nodes) fun entries => (Value.mapping entries).Keyed := by
  induction nodes generalizing known with
  | nil => exact returns_pure h
  | cons node nodes ih =>
    obtain ⟨k, v⟩ := node
    refine returns_bind (hk k) fun k hk => ?_
    split
    · exact returns_failure
    · rename_i hnew
      refine returns_bind (hv v) fun v hv => ih ?_
      cases h with
      | mapping hks hvs hp =>
        rw [List.reverse_cons]
        refine .mapping ?_ ?_ ?_
        · intro e he
          rcases List.mem_append.1 he with he | he
          · exact hks e he
          · rwa [List.mem_singleton.1 he]
        · intro e he
          rcases List.mem_append.1 he with he | he
          · exact hvs e he
          · rwa [List.mem_singleton.1 he]
        · refine List.pairwise_append.2 ⟨hp, List.pairwise_singleton _ _, fun e he f hf => ?_⟩
          rw [List.mem_singleton.1 hf]
          -- otherwise the new key would have been found
          refine Bool.eq_false_iff.2 fun hsame => hnew ?_
          exact List.any_eq_true.2 ⟨e, List.mem_reverse.1 he, hsame⟩

theorem returns_readNode {inner : Bool → Node Nat → Following Value}
    (h : ∀ bare node, Returns (inner bare node) Value.Keyed) (bare : Bool) (node : Node Nat) :
    Returns (readNode inner bare node) Value.Keyed := by
  match node with
  | .alias target => exact returns_failure
  | .scalar anchor tag style text =>
    refine returns_ite (returns_lift fun v hv => ?_) (returns_lift fun v hv => ?_)
    · obtain ⟨w, hw, rfl⟩ := Option.map_eq_some_iff.1 hv
      exact keyed_under _ (keyed_of_bareScalar? hw)
    · exact keyed_of_scalarValue? hv
  | .sequence anchor tag items =>
    refine returns_bind (returns_mapM fun x _ => h false x) fun values hvalues => ?_
    exact returns_pure (keyed_under _ (.sequence hvalues))
  | .mapping anchor tag entries =>
    have hnone : (Value.mapping ([] : Entries).reverse).Keyed :=
      .mapping (fun e he => absurd he List.not_mem_nil) (fun e he => absurd he List.not_mem_nil)
        List.Pairwise.nil
    refine returns_bind (returns_readEntries (h _) (h false) hnone entries) fun values hvalues => ?_
    exact returns_pure (keyed_under _ hvalues)

theorem returns_readAt (tree : Tree) (depth : Nat) (bare : Bool) (node : Node Nat) :
    Returns (readAt tree depth bare node) Value.Keyed := by
  induction depth generalizing bare node with
  | zero =>
    have hnone : ∀ bare node, Returns ((fun _ _ => failure : Bool → Node Nat → Following Value)
        bare node) Value.Keyed := fun _ _ => returns_failure
    match node with
    | .alias target =>
      refine returns_bind (returns_any (follow tree target)) fun found _ => ?_
      match found with
      | .scalar anchor tag style text => exact returns_readNode hnone false _
      | .alias _ | .sequence _ _ _ | .mapping _ _ _ => exact returns_failure
    | .scalar anchor tag style text => exact returns_readNode hnone bare _
    | .sequence _ _ _ | .mapping _ _ _ => exact returns_failure
  | succ depth ih =>
    match node with
    | .alias target =>
      refine returns_bind (returns_any (follow tree target)) fun found _ => ?_
      exact returns_readNode ih false found
    | .scalar _ _ _ _ | .sequence _ _ _ | .mapping _ _ _ => exact returns_readNode ih bare _

/-- **Whatever a text reads as has different keys in every mapping.** -/
theorem keyed_of_read? (h : read? text = some v) : v.Keyed := by
  unfold read? at h
  obtain ⟨tree, -, h⟩ := Option.bind_eq_some_iff.1 h
  cases tree with
  | none =>
    obtain rfl := Option.some.inj h
    exact .null
  | some tree =>
    obtain ⟨⟨w, after⟩, hw, hv⟩ := Option.map_eq_some_iff.1 h
    obtain rfl : w = v := hv
    exact returns_readAt tree maxDepth false tree.root 0 w after hw

end ApiCodegen.Markup
