import ApiCodegen.Proofs.File.Walk

/-!
# What paths denote

A path denotes a location even before its directories exist. Files are put at the locations of their paths;
trees with the same directories have the same locations for files.

* `resolve`: **the location that components denote.** Where they lead somewhere, it is there
  (`Tree.resolve_of_walk`).
* `Tree.findAt_beginning`: on the way to a directory there are directories.
* `Tree.place`: a tree with some files at the locations of their paths.
* `Tree.entry?_place_of_not_mem`, `Tree.entry?_place_last`: **only these locations change, and each has the last
  of its files.**
* `Tree.Alike`: two trees have the same directories, and the system refuses the same changes.
* `Tree.writeTemporary_eq_ok_iff`, `Tree.move_eq_ok_iff`: when a change succeeds.
-/

namespace ApiCodegen.File

/-- **The location that components denote**, starting in a directory. -/
def resolve (dir : Location) : List Component → Location
  | [] => dir
  | .root :: more => resolve [] more
  | .here :: more => resolve dir more
  | .up :: more => resolve dir.dropLast more
  | .name name :: more => resolve (dir ++ [name]) more

namespace Tree

variable {t t' : Tree} {dir loc loc' : Location} {path more : List Component}

/-- **Where components lead is what they denote.** -/
theorem resolve_of_walk (h : t.walk dir path = .ok loc) : resolve dir path = loc := by
  induction path generalizing dir with
  | nil => exact Except.ok.inj h
  | cons c path ih =>
    have hd := directory_of_walk h
    rw [walk_cons c _ hd] at h
    obtain ⟨d, hc, hmore⟩ := bind_ok h
    have hdir : resolve dir [c] = d := by
      cases c with
      | name name =>
        by_cases hn : longestName < name.utf8ByteSize
        · simp [walk, hd, hn] at hc
        · simpa [walk, hd, hn, resolve] using hc
      | _ => simpa [walk, hd, resolve] using hc
    subst hdir
    cases c <;> exact ih hmore

theorem resolve_of_locate (h : t.locate path = .ok loc) : resolve t.workDir path = loc := by
  cases path with
  | nil => cases h
  | cons c path => exact resolve_of_walk h

/-- **On the way to a directory there are directories.** -/
theorem findAt_beginning (h : t.findAt path = .ok (loc, .directory)) {above : List Component}
    (habove : above ∈ Path.beginnings path) : ∃ l, t.findAt above = .ok (l, .directory) := by
  obtain ⟨hl, hd⟩ := findAt_ok h
  obtain ⟨more, rfl, hne⟩ : ∃ more, above ++ more = path ∧ above ≠ [] := by
    clear h hl hd
    induction path generalizing above with
    | nil => cases habove
    | cons c path ih =>
      rcases List.mem_cons.1 habove with rfl | habove
      · exact ⟨path, rfl, List.cons_ne_nil _ _⟩
      · obtain ⟨front, hfront, rfl⟩ := List.mem_map.1 habove
        obtain ⟨more, rfl, -⟩ := ih hfront
        exact ⟨more, rfl, List.cons_ne_nil _ _⟩
  have hlocate (path : List Component) (hpath : path ≠ []) : t.locate path = t.walk t.workDir path := by
    cases path with
    | nil => contradiction
    | cons c path => rfl
  rw [hlocate _ (List.append_ne_nil_of_left_ne_nil hne _), walk_append] at hl
  obtain ⟨l, hwalk, hmore⟩ := bind_ok hl
  refine ⟨l, findAt_of ((hlocate _ hne).trans hwalk) ?_⟩
  cases more with
  | nil =>
    obtain rfl : l = loc := by simpa [walk] using hmore
    exact hd
  | cons c more => exact directory_of_walk hmore

theorem existsAt_of_findAt {e : Entry} (h : t.findAt path = .ok (loc, e)) : t.existsAt path := by
  rw [existsAt, h]

theorem Grows.refl (t : Tree) : Grows t t := ⟨rfl, fun _ hd => hd⟩

theorem Grows.trans {t'' : Tree} (h : Grows t t') (h' : Grows t' t'') : Grows t t'' :=
  ⟨h'.workDir.trans h.workDir, fun loc hd => h'.directory loc (h.directory loc hd)⟩

/-! ## Files at the locations of their paths -/

/-- The location that a path denotes. -/
def target (t : Tree) (path : String) : Location := resolve t.workDir (Path.components path)

/-- A tree with some files at the locations of their paths. -/
def place (t : Tree) (files : List (String × ByteArray)) : Tree :=
  files.foldl (fun t f => t.insert (t.target f.1) (.file f.2)) t

/-- The locations of some files. -/
def targets (t : Tree) (files : List (String × ByteArray)) : List Location :=
  files.map fun f => t.target f.1

variable {files : List (String × ByteArray)}

@[simp] theorem workDir_place (t : Tree) (files : List (String × ByteArray)) :
    (t.place files).workDir = t.workDir := by
  induction files generalizing t with
  | nil => rfl
  | cons f files ih => exact ih _

@[simp] theorem refuses_place (t : Tree) (files : List (String × ByteArray)) :
    (t.place files).refuses = t.refuses := by
  induction files generalizing t with
  | nil => rfl
  | cons f files ih => exact ih _

/-- **Where no file is put, nothing changes.** -/
theorem entry?_place_of_not_mem (h : loc ∉ t.targets files) : entry? (t.place files) loc = t.entry? loc := by
  induction files generalizing t with
  | nil => rfl
  | cons f files ih =>
    rw [targets, List.map_cons, List.mem_cons, not_or] at h
    have hrest : loc ∉ (t.insert (t.target f.1) (.file f.2)).targets files := h.2
    rw [place, List.foldl_cons, ← place, ih hrest, entry?_insert_of_ne h.1]

/-- **The last file of a location stands there.** -/
theorem entry?_place_last {front back : List (String × ByteArray)} {f : String × ByteArray}
    (hlast : t.target f.1 ∉ t.targets back) (hne : t.target f.1 ≠ []) :
    entry? (t.place (front ++ f :: back)) (t.target f.1) = some (.file f.2) := by
  induction front generalizing t with
  | nil =>
    have hrest : t.target f.1 ∉ (t.insert (t.target f.1) (.file f.2)).targets back := hlast
    rw [List.nil_append, place, List.foldl_cons, ← place, entry?_place_of_not_mem hrest, entry?_insert_self hne]
  | cons g front ih =>
    have hlater : t.target f.1 = (t.insert (t.target g.1) (.file g.2)).target f.1 := rfl
    rw [List.cons_append, place, List.foldl_cons, ← place]
    rw [hlater] at hne ⊢
    exact ih hlast hne

/-- **Every file stands at its location**, if the locations are distinct. -/
theorem entry?_place_of_mem (hn : (t.targets files).Nodup) {f : String × ByteArray} (hf : f ∈ files)
    (hne : t.target f.1 ≠ []) : entry? (t.place files) (t.target f.1) = some (.file f.2) := by
  obtain ⟨front, back, rfl⟩ := List.append_of_mem hf
  rw [targets, List.map_append, List.map_cons] at hn
  exact entry?_place_last (List.nodup_cons.1 (List.nodup_append.1 hn).2.1).1 hne

/-- Files that are there already change nothing. -/
theorem place_eq_self (h : ∀ f ∈ files, t.entry? (t.target f.1) = some (.file f.2)) :
    t.place files = t := by
  induction files with
  | nil => rfl
  | cons f files ih =>
    have hf := h f List.mem_cons_self
    have hne : t.target f.1 ≠ [] := by
      intro hnil
      rw [hnil, entry?_nil] at hf
      cases hf
    rw [place, List.foldl_cons, insert_of_entry? hne hf]
    exact ih fun g hg => h g (List.mem_cons_of_mem _ hg)

/-! ## Trees with the same directories -/

/-- Two trees have the same directories, and the system refuses the same changes. -/
structure Alike (t t' : Tree) : Prop where
  workDir : t'.workDir = t.workDir
  refuses : t'.refuses = t.refuses
  directory : ∀ loc, t'.entry? loc = some .directory ↔ t.entry? loc = some .directory

namespace Alike

theorem symm (h : Alike t t') : Alike t' t :=
  ⟨h.workDir.symm, h.refuses.symm, fun loc => (h.directory loc).symm⟩

theorem grows (h : Alike t t') : Grows t t' := ⟨h.workDir, fun loc hd => (h.directory loc).2 hd⟩

/-- Files have the same locations. -/
theorem fileLocation (h : Alike t t') {path : String} (hl : t.fileLocation path = .ok loc) :
    t'.fileLocation path = .ok loc := by
  obtain ⟨hl, he, hp⟩ := fileLocation_ok hl
  exact fileLocation_of (h.grows.locate hl) (fun hd => he ((h.directory loc).1 hd)) hp

end Alike

/-- A path to a file leads to it. -/
theorem find_of_fileLocation {path : String} {bytes : ByteArray} (h : t.fileLocation path = .ok loc)
    (he : t.entry? loc = some (.file bytes)) : t.find path = .ok (loc, .file bytes) := by
  obtain ⟨hl, -, hp⟩ := fileLocation_ok h
  simp [find, findAt_of hl he, hp]

/-! ## Changes that succeed -/

theorem permit_eq_ok_iff {change : Change} : t.permit change = .ok () ↔ t.refuses change = none := by
  unfold permit
  cases t.refuses change <;> simp

/-- The names in a directory are those under which something is there. -/
theorem mem_children_iff {name : String} : name ∈ t.children dir ↔ t.entry? (dir ++ [name]) ≠ none := by
  refine ⟨fun h => ?_, mem_children⟩
  obtain ⟨x, hx, hname⟩ := List.mem_filterMap.1 h
  have hloc : dir ++ [name] = x.1 := by
    unfold childName? at hname
    split at hname
    · rename_i hp
      rw [← Option.some.inj hname]
      exact List.append_eq_of_isPrefixOf?_eq_some hp
    · cases hname
  rw [entry?_eq_lookup (by simp), ← Option.isSome_iff_ne_none]
  exact List.lookup_isSome_iff.2 ⟨x, hx, beq_iff_eq.2 hloc⟩

/-- **When a temporary file is written**, and what it is called. -/
theorem writeTemporary_eq_ok_iff {reserved : List String} {bytes : ByteArray} :
    t.writeTemporary path reserved bytes = .ok (loc, t') ↔
      ∃ dir, t.findAt path = .ok (dir, .directory) ∧
        loc = dir ++ [Name.fresh (reserved ++ t.children dir) ".tmp"] ∧
        t.refuses (.file loc bytes) = none ∧ t' = t.insert loc (.file bytes) := by
  constructor
  · intro h
    obtain ⟨⟨dir, e⟩, hf, hm⟩ := bind_ok h
    cases e with
    | file _ => cases hm
    | directory =>
      obtain ⟨⟨⟩, hpermit, hm⟩ := bind_ok hm
      obtain ⟨rfl, rfl⟩ := Prod.mk.inj (Except.ok.inj hm)
      exact ⟨dir, hf, rfl, permit_eq_ok_iff.1 hpermit, rfl⟩
  · rintro ⟨dir, hf, rfl, hpermit, rfl⟩
    simp [writeTemporary, hf, permit_eq_ok_iff.2 hpermit]

/-- **When a file is moved.** -/
theorem move_eq_ok_iff {source : Location} {bytes : ByteArray} {path : String} :
    t.move source bytes path = .ok (loc, t') ↔ t.fileLocation path = .ok loc ∧
      t.refuses (.move source loc) = none ∧ t' = (t.erase source).insert loc (.file bytes) := by
  constructor
  · intro h
    obtain ⟨l, hl, hm⟩ := bind_ok h
    obtain ⟨⟨⟩, hpermit, hm⟩ := bind_ok hm
    obtain ⟨rfl, rfl⟩ := Prod.mk.inj (Except.ok.inj hm)
    exact ⟨hl, permit_eq_ok_iff.1 hpermit, rfl⟩
  · rintro ⟨hl, hpermit, rfl⟩
    simp [move, hl, permit_eq_ok_iff.2 hpermit]

end Tree

end ApiCodegen.File
