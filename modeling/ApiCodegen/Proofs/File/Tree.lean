import Mathlib
import ApiCodegen.File.Tree

/-!
# The algebra of trees

How putting an entry at a location and dropping locations act on a tree. The equations are between
trees, so they also say that the order of the entries is kept.

* `entry?_insert_of_ne`, `entry?_drop_of_not_mem`: **a change at one location leaves the others.**
* `insert_insert`, `insert_comm`, `drop_insert`, `erase_insert`: how two changes combine.
* `WellFormed`: every entry stands in a directory. Inserting into a directory and dropping files
  keep this.
-/

namespace ApiCodegen.File.Tree

variable {t : Tree} {loc loc' : Location} {e e' : Entry} {l : List (Location × Entry)}

/-! ## Lists of entries -/

theorem lookup_cons_of_eq {x : Location × Entry} (h : x.1 = loc) :
    (x :: l).lookup loc = some x.2 := by
  obtain ⟨key, d⟩ := x
  simp [show key = loc from h]

theorem lookup_cons_of_ne {x : Location × Entry} (h : x.1 ≠ loc) :
    (x :: l).lookup loc = l.lookup loc := by
  obtain ⟨key, d⟩ := x
  simp [List.lookup_cons, beq_false_of_ne (Ne.symm h)]

theorem lookup_put_self (loc : Location) (e : Entry) (l : List (Location × Entry)) :
    (put loc e l).lookup loc = some e := by
  induction l with
  | nil => exact List.lookup_cons_self
  | cons x l ih =>
    by_cases h : x.1 = loc
    · rw [put, if_pos h, List.lookup_cons_self]
    · rw [put, if_neg h, lookup_cons_of_ne h, ih]

theorem lookup_put_of_ne (h : loc' ≠ loc) : (put loc e l).lookup loc' = l.lookup loc' := by
  induction l with
  | nil => exact lookup_cons_of_ne (Ne.symm h)
  | cons x l ih =>
    by_cases hx : x.1 = loc
    · have hx' : x.1 ≠ loc' := fun hx' => h (hx'.symm.trans hx)
      rw [put, if_pos hx, lookup_cons_of_ne (Ne.symm h), lookup_cons_of_ne hx']
    · rw [put, if_neg hx]
      by_cases hx' : x.1 = loc'
      · rw [lookup_cons_of_eq hx', lookup_cons_of_eq hx']
      · rw [lookup_cons_of_ne hx', lookup_cons_of_ne hx', ih]

theorem mem_put {x : Location × Entry} (h : x ∈ put loc e l) : x = (loc, e) ∨ x ∈ l := by
  induction l with
  | nil => exact .inl (List.mem_singleton.1 h)
  | cons y l ih =>
    by_cases hy : y.1 = loc
    · simp only [put, if_pos hy, List.mem_cons] at h
      rcases h with h | h
      · exact .inl h
      · exact .inr (List.mem_cons_of_mem _ h)
    · simp only [put, if_neg hy, List.mem_cons] at h
      rcases h with h | h
      · exact .inr (h ▸ List.mem_cons_self)
      · exact (ih h).imp_right (List.mem_cons_of_mem _)

theorem put_put (loc : Location) (e e' : Entry) (l : List (Location × Entry)) :
    put loc e' (put loc e l) = put loc e' l := by
  induction l with
  | nil => simp [put]
  | cons x l ih =>
    by_cases h : x.1 = loc
    · simp [put, h]
    · simp only [put, if_neg h, ih]

theorem put_of_lookup (h : l.lookup loc = some e) : put loc e l = l := by
  induction l with
  | nil => cases h
  | cons x l ih =>
    by_cases hx : x.1 = loc
    · rw [lookup_cons_of_eq hx, Option.some.injEq] at h
      rw [put, if_pos hx, ← hx, ← h]
    · rw [lookup_cons_of_ne hx] at h
      rw [put, if_neg hx, ih h]

/-- Two entries can be put in either order if one of the locations is taken already; of two new
entries the first stands in front. -/
theorem put_comm (hne : loc ≠ loc') (h : (l.lookup loc).isSome) :
    put loc' e' (put loc e l) = put loc e (put loc' e' l) := by
  induction l with
  | nil => cases h
  | cons x l ih =>
    -- an entry at `loc` is found before anything is put at the end
    by_cases hx : x.1 = loc
    · simp [put, hx, hne]
    · have hl : (l.lookup loc).isSome := by rwa [lookup_cons_of_ne hx] at h
      by_cases hx' : x.1 = loc'
      · simp [put, hx', Ne.symm hne]
      · simp only [put, if_neg hx, if_neg hx', ih hl]

theorem filter_put (p : Location → Bool) (h : p loc) :
    (put loc e l).filter (fun x => p x.1) = put loc e (l.filter fun x => p x.1) := by
  induction l with
  | nil => simp [put, h]
  | cons x l ih =>
    by_cases hx : x.1 = loc
    · simp [put, hx, h]
    · by_cases hp : p x.1
      · simp [put, hx, hp, ih]
      · simp [put, hx, hp, ih]

theorem filter_put_of_not (p : Location → Bool) (h : p loc = false) :
    (put loc e l).filter (fun x => p x.1) = l.filter fun x => p x.1 := by
  induction l with
  | nil => simp [put, h]
  | cons x l ih =>
    by_cases hx : x.1 = loc
    · simp [put, hx, h]
    · by_cases hp : p x.1
      · simp [put, hx, hp, ih]
      · simp [put, hx, hp, ih]

theorem lookup_filter (p : Location → Bool) (h : p loc) :
    (l.filter fun x => p x.1).lookup loc = l.lookup loc := by
  induction l with
  | nil => rfl
  | cons x l ih =>
    by_cases hx : x.1 = loc
    · rw [List.filter_cons_of_pos (by rwa [hx]), lookup_cons_of_eq hx, lookup_cons_of_eq hx]
    · rw [lookup_cons_of_ne hx, List.filter_cons]
      split
      · rw [lookup_cons_of_ne hx, ih]
      · exact ih

/-! ## Entries of a tree -/

@[simp] theorem entry?_nil (t : Tree) : t.entry? [] = some .directory := rfl

theorem ne_nil_of_ne_directory (h : t.entry? loc ≠ some .directory) : loc ≠ [] := by
  rintro rfl
  exact h rfl

theorem ne_nil_of_entry?_eq_none (h : t.entry? loc = none) : loc ≠ [] := by
  rintro rfl
  cases h

theorem entry?_eq_lookup (h : loc ≠ []) : t.entry? loc = t.entries.lookup loc := by
  cases loc with
  | nil => exact absurd rfl h
  | cons name more => rfl

/-- A tree without what is at some locations. -/
def drop (t : Tree) (locs : List Location) : Tree :=
  { t with entries := t.entries.filter fun x => decide (x.1 ∉ locs) }

theorem erase_eq_drop (t : Tree) (loc : Location) : t.erase loc = t.drop [loc] := by
  simp [erase, drop]

theorem entry?_insert_self (h : loc ≠ []) : entry? (t.insert loc e) loc = some e := by
  rw [entry?_eq_lookup h]
  exact lookup_put_self loc e t.entries

theorem entry?_insert_of_ne (h : loc' ≠ loc) : entry? (t.insert loc e) loc' = t.entry? loc' := by
  by_cases hn : loc' = []
  · rw [hn, entry?_nil, entry?_nil]
  · rw [entry?_eq_lookup hn, entry?_eq_lookup hn]
    exact lookup_put_of_ne h

theorem entry?_drop_of_not_mem {locs : List Location} (h : loc ∉ locs) :
    entry? (t.drop locs) loc = t.entry? loc := by
  by_cases hn : loc = []
  · rw [hn, entry?_nil, entry?_nil]
  · rw [entry?_eq_lookup hn, entry?_eq_lookup hn]
    exact lookup_filter (fun x => decide (x ∉ locs)) (decide_eq_true h)

theorem entry?_drop_of_mem {locs : List Location} (hn : loc ≠ []) (h : loc ∈ locs) :
    entry? (t.drop locs) loc = none := by
  rw [entry?_eq_lookup hn, List.lookup_eq_none_iff]
  intro x hx
  have hx := of_decide_eq_true (List.mem_filter.1 hx).2
  exact bne_iff_ne.2 fun heq => hx (heq ▸ h)

theorem entry?_erase_of_ne (h : loc' ≠ loc) : entry? (t.erase loc) loc' = t.entry? loc' := by
  rw [erase_eq_drop]
  exact entry?_drop_of_not_mem (by simpa using h)

theorem entry?_insert_ne_none (hn : loc ≠ []) (h : loc' = loc ∨ t.entry? loc' ≠ none) :
    entry? (t.insert loc e) loc' ≠ none := by
  rcases eq_or_ne loc' loc with rfl | hne
  · simp [entry?_insert_self hn]
  · rw [entry?_insert_of_ne hne]
    exact h.resolve_left hne

/-- A file that stands at no directory leaves the directories as they are. -/
theorem directory_insert_file_iff {bytes : ByteArray} (hn : loc ≠ [])
    (h : t.entry? loc ≠ some .directory) :
    entry? (t.insert loc (.file bytes)) loc' = some .directory ↔
      t.entry? loc' = some .directory := by
  rcases eq_or_ne loc' loc with rfl | hne
  · rw [entry?_insert_self hn]
    simp [h]
  · rw [entry?_insert_of_ne hne]

theorem directory_erase_iff (h : t.entry? loc ≠ some .directory) :
    entry? (t.erase loc) loc' = some .directory ↔ t.entry? loc' = some .directory := by
  rcases eq_or_ne loc' loc with rfl | hne
  · rw [erase_eq_drop, entry?_drop_of_mem (ne_nil_of_ne_directory h) List.mem_cons_self]
    simp [h]
  · rw [entry?_erase_of_ne hne]

/-! ## Changes that combine -/

theorem insert_insert (t : Tree) (loc : Location) (e e' : Entry) :
    (t.insert loc e).insert loc e' = t.insert loc e' := by
  simp [insert, put_put]

theorem insert_of_entry? (hn : loc ≠ []) (h : t.entry? loc = some e) : t.insert loc e = t := by
  rw [entry?_eq_lookup hn] at h
  simp [insert, put_of_lookup h]

theorem insert_comm (hne : loc ≠ loc') (hn : loc ≠ []) (h : t.entry? loc ≠ none) :
    (t.insert loc e).insert loc' e' = (t.insert loc' e').insert loc e := by
  rw [entry?_eq_lookup hn, ← Option.isSome_iff_ne_none] at h
  simp [insert, put_comm hne h]

theorem drop_insert {locs : List Location} (h : loc ∉ locs) :
    (t.insert loc e).drop locs = (t.drop locs).insert loc e := by
  simp only [drop, insert]
  rw [filter_put (fun x => decide (x ∉ locs)) (decide_eq_true h)]

theorem drop_insert_of_mem {locs : List Location} (h : loc ∈ locs) :
    (t.insert loc e).drop locs = t.drop locs := by
  simp only [drop, insert]
  rw [filter_put_of_not (fun x => decide (x ∉ locs)) (decide_eq_false (not_not.2 h))]

theorem drop_drop (t : Tree) (locs more : List Location) :
    (t.drop locs).drop more = t.drop (locs ++ more) := by
  simp only [drop, List.filter_filter]
  congr 1
  refine List.filter_congr fun x _ => ?_
  by_cases h : x.1 ∈ locs <;> by_cases h' : x.1 ∈ more <;> simp [h, h']

theorem drop_congr {locs more : List Location} (h : ∀ loc, loc ∈ locs ↔ loc ∈ more) :
    t.drop locs = t.drop more := by
  simp only [drop, h]

theorem erase_insert (t : Tree) (loc : Location) (e : Entry) :
    (t.insert loc e).erase loc = t.erase loc := by
  rw [erase_eq_drop, drop_insert_of_mem List.mem_cons_self, ← erase_eq_drop]

theorem erase_insert_of_ne (h : loc ≠ loc') :
    (t.insert loc e).erase loc' = (t.erase loc').insert loc e := by
  rw [erase_eq_drop, drop_insert (by simpa using h), ← erase_eq_drop]

theorem erase_comm (t : Tree) (loc loc' : Location) :
    (t.erase loc).erase loc' = (t.erase loc').erase loc := by
  simp only [erase_eq_drop, drop_drop]
  exact drop_congr fun x => by simp [or_comm]

/-- Nothing is dropped where nothing is. -/
theorem erase_of_entry? (h : t.entry? loc = none) : t.erase loc = t := by
  have hn : loc ≠ [] := ne_nil_of_entry?_eq_none h
  rw [entry?_eq_lookup hn, List.lookup_eq_none_iff] at h
  have hl : t.entries.filter (fun x => decide (x.1 ≠ loc)) = t.entries :=
    List.filter_eq_self.2 fun x hx => decide_eq_true (Ne.symm (bne_iff_ne.1 (h x hx)))
  unfold erase
  rw [hl]

/-! ## Trees in which everything stands in a directory -/

/-- Every entry stands in a directory. -/
def WellFormed (t : Tree) : Prop := ∀ x ∈ t.entries, t.entry? x.1.dropLast = some .directory

instance : (e : Option Entry) → Decidable (e = some .directory)
  | some .directory => isTrue rfl
  | some (.file _) => isFalse nofun
  | none => isFalse nofun

instance (t : Tree) : Decidable t.WellFormed :=
  inferInstanceAs (Decidable (∀ x ∈ t.entries, t.entry? x.1.dropLast = some .directory))

namespace WellFormed

/-- **What is above something is a directory.** -/
theorem parent (ht : t.WellFormed) (h : t.entry? loc ≠ none) :
    t.entry? loc.dropLast = some .directory := by
  by_cases hn : loc = []
  · rw [hn]; rfl
  · rw [entry?_eq_lookup hn, ← Option.isSome_iff_ne_none] at h
    obtain ⟨x, hx, heq⟩ := List.lookup_isSome_iff.1 h
    rw [eq_of_beq heq]
    exact ht x hx

theorem insert (ht : t.WellFormed) (hp : t.entry? loc.dropLast = some .directory)
    (he : t.entry? loc = some .directory → e = .directory) : (t.insert loc e).WellFormed := by
  intro x hx
  have habove : t.entry? x.1.dropLast = some .directory := by
    rcases mem_put hx with rfl | hx
    · exact hp
    · exact ht x hx
  -- what stands in the new entry did so before, so the new entry is a directory as well
  by_cases hne : x.1.dropLast = loc
  · by_cases hn : loc = []
    · rw [hne, hn]; rfl
    · rw [hne, entry?_insert_self hn, he (hne ▸ habove)]
  · rwa [entry?_insert_of_ne hne]

theorem drop (ht : t.WellFormed) {locs : List Location}
    (h : ∀ loc ∈ locs, t.entry? loc ≠ some .directory) : (t.drop locs).WellFormed := by
  intro x hx
  have habove := ht x (List.mem_of_mem_filter hx)
  rwa [entry?_drop_of_not_mem fun hmem => h _ hmem habove]

theorem erase (ht : t.WellFormed) (h : t.entry? loc ≠ some .directory) : (t.erase loc).WellFormed := by
  rw [erase_eq_drop]
  exact ht.drop fun x hx => by rwa [List.mem_singleton.1 hx]

/-- There is nothing in what does not exist. -/
theorem children_eq_nil (ht : t.WellFormed) (h : t.entry? loc = none) : t.children loc = [] := by
  rw [children, List.filterMap_eq_nil_iff]
  intro x hx
  unfold childName?
  split
  · rename_i name hp
    have hloc : x.1.dropLast = loc := by
      rw [← List.append_eq_of_isPrefixOf?_eq_some hp, List.dropLast_concat]
    have := ht x hx
    rw [hloc, h] at this
    cases this
  · rfl

end WellFormed

/-- A name in a directory. -/
theorem mem_children {dir : Location} {name : String} (h : t.entry? (dir ++ [name]) ≠ none) :
    name ∈ t.children dir := by
  rw [entry?_eq_lookup (by simp), ← Option.isSome_iff_ne_none] at h
  obtain ⟨x, hx, heq⟩ := List.lookup_isSome_iff.1 h
  refine List.mem_filterMap.2 ⟨x, hx, ?_⟩
  have hp : dir.isPrefixOf? x.1 = some [name] :=
    List.isPrefixOf?_eq_some_iff_append_eq.2 (eq_of_beq heq)
  simp [childName?, hp]

/-- **A directory that was just made can be removed again**, and the tree is what it was. -/
theorem removeDirectory_insert (ht : t.WellFormed) (h : t.entry? loc = none) :
    (t.insert loc .directory).removeDirectory loc = t := by
  have hn : loc ≠ [] := ne_nil_of_entry?_eq_none h
  have hempty : (t.insert loc .directory).children loc = [] := by
    rw [children, List.filterMap_eq_nil_iff]
    intro x hx
    rcases mem_put hx with rfl | hx
    · -- the directory is not in itself
      unfold childName?
      split
      · rename_i name hp
        have := congrArg List.length (List.append_eq_of_isPrefixOf?_eq_some hp)
        simp at this
      · rfl
    · exact List.filterMap_eq_nil_iff.1 (ht.children_eq_nil h) x hx
  rw [removeDirectory, hempty, List.isEmpty_nil, if_pos rfl, erase_insert, erase_of_entry? h]

end ApiCodegen.File.Tree
