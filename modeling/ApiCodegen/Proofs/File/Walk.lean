import ApiCodegen.Proofs.File.Tree
import ApiCodegen.Proofs.Name.Fresh

/-!
# Where paths lead, and what a change can do

* `Grows`: one tree has the directories of another. Paths that lead somewhere keep leading there
  (`Grows.walk`), and what stands in an existing directory is found at the same place
  (`Grows.locate_eq`).
* `walk_place`: a path ends at a directory, or at a name of its own in a directory.
* `createDirectory_ok`, `writeTemporary_ok`, `move_ok`: **all that a change can do when it
  succeeds.**
-/

namespace ApiCodegen.File.Tree

variable {t t' : Tree} {dir loc : Location} {path more : List Component}

theorem bind_ok {ε α β : Type} {x : Except ε α} {next : α → Except ε β} {b : β}
    (h : (x >>= next) = .ok b) : ∃ a, x = .ok a ∧ next a = .ok b := by
  cases x with
  | error cause => cases h
  | ok a => exact ⟨a, rfl, h⟩

@[simp] theorem ok_bind {ε α β : Type} (a : α) (next : α → Except ε β) :
    ((.ok a : Except ε α) >>= next) = next a := rfl

@[simp] theorem error_bind {ε α β : Type} (cause : ε) (next : α → Except ε β) :
    ((.error cause : Except ε α) >>= next) = .error cause := rfl

/-! ## Walking -/

/-- A step is possible from a directory only. -/
theorem directory_of_walk {c : Component} (h : t.walk dir (c :: more) = .ok loc) :
    t.entry? dir = some .directory := by
  unfold walk at h
  split at h
  · cases h
  · cases h
  · assumption

theorem walk_cons (c : Component) (more : List Component) (h : t.entry? dir = some .directory) :
    t.walk dir (c :: more) = t.walk dir [c] >>= fun d => t.walk d more := by
  cases c with
  | name name =>
    by_cases hn : longestName < name.utf8ByteSize
    · simp [walk, h, hn]
    · simp [walk, h, hn]
  | _ => simp [walk, h]

theorem walk_append (dir : Location) (path more : List Component) :
    t.walk dir (path ++ more) = t.walk dir path >>= fun d => t.walk d more := by
  induction path generalizing dir with
  | nil => rfl
  | cons c path ih =>
    by_cases h : t.entry? dir = some .directory
    · rw [List.cons_append, walk_cons c _ h, walk_cons c path h, bind_assoc]
      simp only [ih]
    · rw [List.cons_append]
      unfold walk
      split
      · rfl
      · rfl
      · contradiction

/-- One step from a directory does not depend on the tree. -/
theorem walk_singleton_eq (c : Component) (h : t.entry? dir = some .directory)
    (h' : t'.entry? dir = some .directory) : t.walk dir [c] = t'.walk dir [c] := by
  cases c <;> simp [walk, h, h']

/-- **Where a path ends**: at a directory, or at one of its names in a directory. -/
theorem walk_place (ht : t.WellFormed) (hne : path ≠ []) (h : t.walk dir path = .ok loc) :
    t.entry? loc = some .directory ∨
      ∃ above name, loc = above ++ [name] ∧ t.entry? above = some .directory ∧
        Component.name name ∈ path := by
  induction path generalizing dir with
  | nil => exact absurd rfl hne
  | cons c path ih =>
    have hd := directory_of_walk h
    rw [walk_cons c _ hd] at h
    obtain ⟨d, hc, hmore⟩ := bind_ok h
    -- only the last step can leave the directories
    by_cases hp : path = []
    · subst hp
      obtain rfl : d = loc := by simpa [walk] using hmore
      cases c with
      | root =>
        left
        simp [walk, hd] at hc
        rw [hc]; rfl
      | here =>
        left
        simp [walk, hd] at hc
        rwa [← hc]
      | up =>
        left
        simp [walk, hd] at hc
        rw [← hc]
        exact ht.parent (by simp [hd])
      | name name =>
        right
        by_cases hn : longestName < name.utf8ByteSize
        · simp [walk, hd, hn] at hc
        · simp [walk, hd, hn] at hc
          exact ⟨dir, name, hc.symm, hd, List.mem_cons_self⟩
    · rcases ih hp hmore with h | ⟨above, name, h1, h2, h3⟩
      · exact .inl h
      · exact .inr ⟨above, name, h1, h2, List.mem_cons_of_mem _ h3⟩

/-! ## Trees with more directories -/

/-- What `findAt` finds. -/
theorem findAt_ok {e : Entry} (h : t.findAt path = .ok (loc, e)) :
    t.locate path = .ok loc ∧ t.entry? loc = some e := by
  obtain ⟨l, hl, he⟩ := bind_ok h
  cases hx : t.entry? l with
  | none => simp [hx] at he
  | some e' =>
    simp [hx] at he
    rw [← he.1, ← he.2]
    exact ⟨hl, hx⟩

theorem findAt_of {e : Entry} (hl : t.locate path = .ok loc) (he : t.entry? loc = some e) :
    t.findAt path = .ok (loc, e) := by
  simp [findAt, hl, he]

/-- Another tree has the same working directory and at least the same directories. -/
structure Grows (t t' : Tree) : Prop where
  workDir : t'.workDir = t.workDir
  directory : ∀ loc, t.entry? loc = some .directory → t'.entry? loc = some .directory

namespace Grows

/-- A path that leads somewhere still leads there. -/
theorem walk (h : Grows t t') (hw : t.walk dir path = .ok loc) : t'.walk dir path = .ok loc := by
  induction path generalizing dir with
  | nil => exact hw
  | cons c path ih =>
    have hd := directory_of_walk hw
    rw [walk_cons c _ hd] at hw
    obtain ⟨d, hc, hmore⟩ := bind_ok hw
    have hd' := h.directory _ hd
    rw [walk_cons c _ hd', ← walk_singleton_eq c hd hd', hc]
    exact ih hmore

theorem locate (h : Grows t t') (hl : t.locate path = .ok loc) : t'.locate path = .ok loc := by
  cases path with
  | nil => cases hl
  | cons c path =>
    simp only [Tree.locate] at hl ⊢
    rw [h.workDir]
    exact h.walk hl

theorem findAt (h : Grows t t') (hf : t.findAt path = .ok (loc, .directory)) :
    t'.findAt path = .ok (loc, .directory) := by
  obtain ⟨hl, hd⟩ := findAt_ok hf
  exact findAt_of (h.locate hl) (h.directory loc hd)

end Grows

/-- **What stands in an existing directory stays where it is** when directories are added. -/
theorem Grows.locate_eq (h : Grows t t') {path : String}
    (hp : t.findAt (Path.parent path) = .ok (dir, .directory)) :
    t'.locate (Path.components path) = t.locate (Path.components path) := by
  obtain ⟨hl, hd⟩ := findAt_ok hp
  have hd' := h.directory dir hd
  unfold Path.parent at hl
  rcases List.eq_nil_or_concat (Path.components path) with hc | ⟨above, c, hc⟩
  · rw [hc]; rfl
  · rw [List.concat_eq_append] at hc
    have hne : above ++ [c] ≠ [] := by simp
    have hstep (s : Tree) : s.locate (above ++ [c]) =
        s.walk s.workDir above >>= fun d => s.walk d [c] := by
      unfold Tree.locate
      split
      · contradiction
      · exact walk_append _ _ _
    rw [hc, List.dropLast_concat] at hl
    -- the directory of the last step is the one that the parent leads to
    have hw : t.walk t.workDir above = .ok dir := by
      cases above with
      | nil =>
        have hl : t.walk t.workDir [.here] = .ok dir := hl
        have hd := directory_of_walk hl
        simpa [Tree.walk, hd] using hl
      | cons a above => exact hl
    rw [hc, hstep, hstep, h.workDir, hw, h.walk hw]
    exact (walk_singleton_eq c hd hd').symm

/-! ## Changes -/

/-- A new entry beside what is there adds to the directories. -/
theorem grows_insert {e : Entry} (h : t.entry? loc = some .directory → e = .directory) :
    Grows t (t.insert loc e) where
  workDir := rfl
  directory l hl := by
    by_cases heq : l = loc
    · subst heq
      by_cases hn : l = []
      · rw [hn]; rfl
      · rw [entry?_insert_self hn, h hl]
    · rwa [entry?_insert_of_ne heq]

theorem createDirectory_ok {made : Option Location} (h : t.createDirectory path = .ok (made, t')) :
    (made = none ∧ t' = t) ∨ ∃ loc, made = some loc ∧ t.locate path = .ok loc ∧
      t.entry? loc = none ∧ t' = t.insert loc .directory := by
  obtain ⟨loc, hl, hm⟩ := bind_ok h
  cases hx : t.entry? loc with
  | some e =>
    simp [hx] at hm
    exact .inl ⟨hm.1.symm, hm.2.symm⟩
  | none =>
    simp only [hx] at hm
    obtain ⟨-, -, hm⟩ := bind_ok hm
    simp at hm
    exact .inr ⟨loc, hm.1.symm, hl, hx, hm.2.symm⟩

theorem writeTemporary_ok {reserved : List String} {bytes : ByteArray}
    (h : t.writeTemporary path reserved bytes = .ok (loc, t')) :
    ∃ dir name, t.findAt path = .ok (dir, .directory) ∧ loc = dir ++ [name] ∧
      name ∉ reserved ∧ t.entry? loc = none ∧ t' = t.insert loc (.file bytes) := by
  obtain ⟨⟨dir, e⟩, hf, hm⟩ := bind_ok h
  cases e with
  | file _ => cases hm
  | directory =>
    obtain ⟨-, -, hm⟩ := bind_ok hm
    have hfresh := Name.fresh_not_mem (reserved ++ t.children dir) ".tmp"
    generalize Name.fresh (reserved ++ t.children dir) ".tmp" = name at hm hfresh
    simp at hm
    rw [List.mem_append, not_or] at hfresh
    -- the fresh name is none of the names in the directory
    have hfree : t.entry? (dir ++ [name]) = none := by
      by_contra hx
      exact hfresh.2 (mem_children hx)
    exact ⟨dir, name, hf, hm.1.symm, hfresh.1, by rw [← hm.1, hfree], by rw [← hm.1, ← hm.2]⟩

theorem fileLocation_ok {path : String} (h : t.fileLocation path = .ok loc) :
    t.locate (Path.components path) = .ok loc ∧ t.entry? loc ≠ some .directory ∧
      Path.isDirectoryOnly path = false := by
  obtain ⟨l, hl, hm⟩ := bind_ok h
  split at hm
  · cases hm
  · rename_i hx
    split at hm
    · cases hm
    · rename_i hp
      obtain rfl : l = loc := by simpa using hm
      exact ⟨hl, fun hd => hx hd, by simpa using hp⟩

theorem fileLocation_of {path : String} (hl : t.locate (Path.components path) = .ok loc)
    (he : t.entry? loc ≠ some .directory) (hp : Path.isDirectoryOnly path = false) :
    t.fileLocation path = .ok loc := by
  simp only [fileLocation, hl, ok_bind, hp]
  split
  · contradiction
  · rfl

/-- At the location of a file path is the file that the path leads to, or nothing. -/
theorem entry?_fileLocation {path : String} (h : t.fileLocation path = .ok loc) :
    t.entry? loc = (t.bytes? path).map Entry.file := by
  obtain ⟨hl, he, hp⟩ := fileLocation_ok h
  unfold bytes? find findAt
  cases hx : t.entry? loc with
  | none => simp [hl, hx]
  | some e =>
    cases e with
    | directory => exact absurd hx he
    | file bytes => simp [hl, hx, hp]

theorem move_ok {source : Location} {bytes : ByteArray} {path : String}
    (h : t.move source bytes path = .ok (loc, t')) :
    t.fileLocation path = .ok loc ∧ t' = (t.erase source).insert loc (.file bytes) := by
  obtain ⟨l, hl, hm⟩ := bind_ok h
  obtain ⟨-, -, hm⟩ := bind_ok hm
  simp at hm
  rw [← hm.1, ← hm.2]
  exact ⟨hl, rfl⟩

/-- The place of a new directory is in a directory. -/
theorem locate_parent (ht : t.WellFormed) (hl : t.locate path = .ok loc)
    (he : t.entry? loc ≠ some .directory) :
    ∃ above name, loc = above ++ [name] ∧ t.entry? above = some .directory ∧
      Component.name name ∈ path := by
  unfold locate at hl
  split at hl
  · cases hl
  · rename_i hne
    exact (walk_place ht hne hl).resolve_left he

end ApiCodegen.File.Tree
