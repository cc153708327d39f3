import ApiCodegen.Proofs.File.Commit
import ApiCodegen.Proofs.File.Resolve

/-!
# What a successful commit does

A successful commit first makes directories and writes temporary files, then moves these into place. The
first part leaves, beside the temporary files, the tree with the made directories (`Writing.drop_eq`); the
second part puts every file at the location of its path.

* `Grown.entry?_of_mem`, `Grown.entry?_of_not_mem`: what the made directories change.
* `Movable`, `Undoable.moveAll_eq_none_iff`: **all pending files are moved exactly if each can be.**
* `Undoable.tree_moveAll`: the tree with the files in their places.
* `Writing.created_write`: **what is made for a file are beginnings of the path to its directory.**
* `Stage.commit_ok`, `Stage.commit_of_movable`: **a commit succeeds exactly if all files are written and can
  be moved.**
-/

namespace ApiCodegen.File

open ApiCodegen.File.Tree

variable {t₀ d t t' : Tree} {created : List Location} {loc : Location} {reserved : List String}
  {p p' : Progress} {w : Pending} {more pending : List Pending}

/-! ## Made directories -/

theorem Grown.settings (h : Grown t₀ created t) : t.workDir = t₀.workDir ∧ t.refuses = t₀.refuses := by
  induction h with
  | nil => exact ⟨rfl, rfl⟩
  | cons _ _ _ ih => exact ih

/-- Where no directory was made, nothing has changed. -/
theorem Grown.entry?_of_not_mem (h : Grown t₀ created t) (hl : loc ∉ created) :
    t.entry? loc = t₀.entry? loc := by
  induction h with
  | nil => rfl
  | cons _ _ _ ih =>
    rw [List.mem_cons, not_or] at hl
    rw [entry?_insert_of_ne hl.1, ih hl.2]

/-- Where a directory was made, there was nothing. -/
theorem Grown.entry?_of_mem (h : Grown t₀ created t) (hl : loc ∈ created) :
    t₀.entry? loc = none ∧ t.entry? loc = some .directory := by
  induction h with
  | nil => cases hl
  | @cons created t latest hg hfree _ ih =>
    by_cases heq : loc = latest
    · subst heq
      -- it was not made before, as it was free
      have hnew : loc ∉ created := fun hmem => by simp [(ih hmem).2] at hfree
      rw [← hg.entry?_of_not_mem hnew]
      exact ⟨hfree, entry?_insert_self (ne_nil_of_entry?_eq_none hfree)⟩
    · rw [entry?_insert_of_ne heq]
      exact ih ((List.mem_cons.1 hl).resolve_left heq)

/-! ## Moves -/

/-- Where a pending file goes, and what it has. -/
def Pending.file (w : Pending) : String × ByteArray := (w.destination, w.bytes)

/-- What a pending file is, without what it remembers. -/
def Pending.step (w : Pending) : String × Location × ByteArray := (w.destination, w.temporary, w.bytes)

/-- A pending file can be moved into place. -/
structure Movable (t : Tree) (w : Pending) : Prop where
  location : t.fileLocation w.destination = .ok (t.target w.destination)
  permitted : t.refuses (.move w.temporary (t.target w.destination)) = none

/-- Whether a file can be moved depends on the directories only. -/
theorem Movable.alike (h : Movable t w) (ha : Alike t t') : Movable t' w := by
  have htarget : t'.target w.destination = t.target w.destination := by
    rw [target, target, ha.workDir]
  refine ⟨?_, ?_⟩
  · rw [htarget]
    exact ha.fileLocation h.location
  · rw [htarget, ha.refuses]
    exact h.permitted

/-- It does not depend on what the pending file remembers. -/
theorem Movable.of_step {w' : Pending} (h : Movable t w) (heq : w.step = w'.step) : Movable t w' := by
  obtain ⟨hdestination, htemporary, -⟩ : w.destination = w'.destination ∧ w.temporary = w'.temporary ∧
    w.bytes = w'.bytes := by simpa [Pending.step] using heq
  refine ⟨?_, ?_⟩
  · rw [← hdestination]
    exact h.location
  · rw [← hdestination, ← htemporary]
    exact h.permitted

theorem Movable.move (h : Movable t w) : t.move w.temporary w.bytes w.destination =
    .ok (t.target w.destination, (t.erase w.temporary).insert (t.target w.destination) (.file w.bytes)) :=
  move_eq_ok_iff.2 ⟨h.location, h.permitted, rfl⟩

/-- A file that is moved can be, and goes where its path says. -/
theorem movable_of_move (h : t.move w.temporary w.bytes w.destination = .ok (loc, t')) :
    Movable t w ∧ loc = t.target w.destination ∧
      t' = (t.erase w.temporary).insert (t.target w.destination) (.file w.bytes) := by
  obtain ⟨hfile, hpermit, rfl⟩ := move_eq_ok_iff.1 h
  obtain rfl := resolve_of_locate (fileLocation_ok hfile).1
  exact ⟨⟨hfile, hpermit⟩, rfl, rfl⟩

namespace Undoable

/-- A move leaves the directories as they are. -/
theorem alike_move (h : Undoable reserved t₀ d { p with pending := w :: more })
    (hm : p.tree.move w.temporary w.bytes w.destination = .ok (loc, t)) : Alike p.tree t := by
  obtain ⟨-, -, heq⟩ := movable_of_move hm
  refine ⟨by rw [heq]; rfl, by rw [heq]; rfl, fun l => ?_⟩
  exact ((h.move hm).directories l).trans (h.directories l).symm

/-- **All pending files are moved exactly if each of them can be.** -/
theorem moveAll_eq_none_iff (h : Undoable reserved t₀ d { p with pending := pending }) :
    (p.moveAll pending).2 = none ↔ ∀ w ∈ pending, Movable p.tree w := by
  induction pending generalizing p with
  | nil => exact ⟨fun _ _ hw => absurd hw List.not_mem_nil, fun _ => rfl⟩
  | cons w more ih =>
    rw [Progress.moveAll, List.forall_mem_cons]
    cases hm : p.tree.move w.temporary w.bytes w.destination with
    | error cause =>
      refine ⟨fun hf => absurd hf (by simp), fun hall => ?_⟩
      rw [hall.1.move] at hm
      cases hm
    | ok r =>
      obtain ⟨loc, t⟩ := r
      have hfirst := (movable_of_move hm).1
      have halike := h.alike_move hm
      have hmore : (Progress.moveAll
          { p with tree := t, moved := ⟨w.destination, loc, w.previous⟩ :: p.moved } more).2 = none ↔
            ∀ x ∈ more, Movable t x := ih (h.move hm)
      refine hmore.trans ?_
      exact ⟨fun hall => ⟨hfirst, fun x hx => (hall x hx).alike halike.symm⟩,
        fun hall x hx => (hall.2 x hx).alike halike⟩

/-- What is left after all moves. -/
theorem moveAll (h : Undoable reserved t₀ d { p with pending := pending })
    (hf : (p.moveAll pending).2 = none) : Undoable reserved t₀ d (p.moveAll pending).1 := by
  induction pending generalizing p with
  | nil => exact h
  | cons w more ih =>
    obtain ⟨loc, t, hm⟩ := exists_move_of_moveAll hf
    rw [moveAll_cons hm] at hf ⊢
    exact ih (h.move hm) hf

/-- **The files are in their places**, in the tree without the temporary files. -/
theorem tree_moveAll (h : Undoable reserved t₀ d { p with pending := pending })
    (hf : (p.moveAll pending).2 = none) : (p.moveAll pending).1.tree =
      (p.tree.drop (pending.map Pending.temporary)).place (pending.map Pending.file) := by
  induction pending generalizing p with
  | nil =>
    simp [Progress.moveAll, place, drop]
  | cons w more ih =>
    obtain ⟨loc, t, hm⟩ := exists_move_of_moveAll hf
    rw [moveAll_cons hm] at hf ⊢
    obtain ⟨hmovable, rfl, rfl⟩ := movable_of_move hm
    obtain ⟨hl, he, -⟩ := fileLocation_ok hmovable.location
    have hnot := h.not_temporary (h.named w List.mem_cons_self) hl he
    simp only [List.map_cons, List.mem_cons, not_or] at hnot
    rw [ih (h.move hm) hf, drop_insert hnot.2, erase_eq_drop, drop_drop, List.singleton_append]
    rfl

end Undoable

/-! ## Writing -/

namespace Progress

variable {destination contents : String} {outputs : List (String × String)}

/-- **When a file is written** beside its destination. -/
theorem write_eq_iff : p.write reserved destination contents = (p', none) ↔
    ∃ p₁ loc t, p.createParents destination = (p₁, none) ∧
      p₁.tree.writeTemporary (Path.parent destination) reserved contents.toUTF8 = .ok (loc, t) ∧
      p' = { p₁ with
        tree := t,
        pending := ⟨destination, loc, contents.toUTF8, t.bytes? destination⟩ :: p₁.pending } := by
  unfold write
  constructor
  · intro h
    split at h
    · cases h
    · rename_i p₁ hparents
      split at h
      · cases h
      · rename_i loc t hwrite
        exact ⟨p₁, loc, t, hparents, hwrite, (Prod.mk.inj h).1.symm⟩
  · rintro ⟨p₁, loc, t, hparents, hwrite, rfl⟩
    simp only [hparents, hwrite]

/-- All files are written one after the other. -/
theorem writeAll_cons_eq_iff : p.writeAll reserved ((destination, contents) :: outputs) = (p', none) ↔
    ∃ p₁, p.write reserved destination contents = (p₁, none) ∧ p₁.writeAll reserved outputs = (p', none) := by
  rw [writeAll]
  constructor
  · intro h
    split at h
    · cases h
    · rename_i p₁ hwrite
      exact ⟨p₁, hwrite, h⟩
  · rintro ⟨p₁, hwrite, hmore⟩
    rw [hwrite]
    exact hmore

theorem pending_createAll (p : Progress) (paths : List (List Component)) :
    (p.createAll paths).1.pending = p.pending := by
  induction paths generalizing p with
  | nil => rfl
  | cons path paths ih =>
    unfold createAll
    split
    · rfl
    · exact ih p
    · exact ih _

theorem pending_createParents (p : Progress) (path : String) :
    (p.createParents path).1.pending = p.pending :=
  p.pending_createAll _

/-- Nothing is made above a destination whose directory is there. -/
theorem createParents_of_findAt {dir : Location}
    (h : p.tree.findAt (Path.parent destination) = .ok (dir, .directory)) :
    p.createParents destination = (p, none) := by
  have hnone : (Path.beginnings (Path.parent destination)).filter (fun above => !p.tree.existsAt above) =
      [] := by
    refine List.filter_eq_nil_iff.2 fun above habove => ?_
    obtain ⟨l, hl⟩ := findAt_beginning h habove
    simp [existsAt_of_findAt hl]
  rw [createParents, hnone]
  rfl

/-- **What waits to be moved** are the files that were written, the latest first. -/
theorem files_writeAll (h : p.writeAll reserved outputs = (p', none)) : p'.pending.map Pending.file =
    (outputs.map fun x => (x.1, x.2.toUTF8)).reverse ++ p.pending.map Pending.file := by
  induction outputs generalizing p with
  | nil =>
    obtain rfl := (Prod.mk.inj h).1
    rfl
  | cons x outputs ih =>
    obtain ⟨p₁, hwrite, hmore⟩ := writeAll_cons_eq_iff.1 h
    obtain ⟨p₂, loc, t, hparents, -, rfl⟩ := write_eq_iff.1 hwrite
    have hpending := p.pending_createParents x.1
    rw [hparents] at hpending
    rw [ih hmore, List.map_cons, List.map_cons, List.reverse_cons, List.append_assoc, hpending]
    rfl

/-! Directories are added, and none goes away. -/

theorem grows_createAll (p : Progress) (paths : List (List Component)) :
    Grows p.tree (p.createAll paths).1.tree := by
  induction paths generalizing p with
  | nil => exact .refl _
  | cons path paths ih =>
    unfold createAll
    split
    · exact .refl _
    · exact ih p
    · rename_i loc t hcreate
      rcases createDirectory_ok hcreate with ⟨hmade, -⟩ | ⟨_, hmade, -, -, rfl⟩
      · cases hmade
      · obtain rfl := Option.some.inj hmade
        have hmore := ih { p with tree := p.tree.insert loc .directory, created := loc :: p.created }
        exact (grows_insert fun _ => rfl).trans hmore

theorem grows_write (h : p.write reserved destination contents = (p', none)) : Grows p.tree p'.tree := by
  obtain ⟨p₁, loc, t, hparents, hwrite, rfl⟩ := write_eq_iff.1 h
  obtain ⟨-, -, -, -, -, hfree, rfl⟩ := writeTemporary_ok hwrite
  have hcreate : Grows p.tree (p.createParents destination).1.tree := p.grows_createAll _
  rw [hparents] at hcreate
  exact hcreate.trans (grows_insert fun hd => by simp [hfree] at hd)

theorem grows_writeAll (h : p.writeAll reserved outputs = (p', none)) : Grows p.tree p'.tree := by
  induction outputs generalizing p with
  | nil =>
    obtain rfl := (Prod.mk.inj h).1
    exact .refl _
  | cons x outputs ih =>
    obtain ⟨p₁, hwrite, hmore⟩ := writeAll_cons_eq_iff.1 h
    exact (grows_write hwrite).trans (ih hmore)

end Progress

/-- Components denote a location by one of their names. -/
def NamedBy (t : Tree) (path : List Component) (loc : Location) : Prop :=
  resolve t.workDir path = loc ∧ ∃ above name, loc = above ++ [name] ∧ Component.name name ∈ path

namespace Writing

variable {outputs : List (String × String)}

/-- What paths start from, and what the system refuses, are those of the first tree. -/
theorem settings (h : Writing reserved t₀ d p) :
    p.tree.workDir = t₀.workDir ∧ p.tree.refuses = t₀.refuses := by
  have hgrown := h.grown.settings
  rwa [← h.drop_eq] at hgrown

theorem created_createAll (h : Writing reserved t₀ d p) {paths : List (List Component)} :
    ∀ loc ∈ (p.createAll paths).1.created, loc ∈ p.created ∨ ∃ path ∈ paths, NamedBy t₀ path loc := by
  induction paths generalizing p d with
  | nil => exact fun loc hloc => .inl hloc
  | cons path paths ih =>
    intro loc hloc
    unfold Progress.createAll at hloc
    split at hloc
    · exact .inl hloc
    · exact (ih h loc hloc).imp_right fun ⟨path, hpath, hnamed⟩ =>
        ⟨path, List.mem_cons_of_mem _ hpath, hnamed⟩
    · rename_i latest t hcreate
      rcases createDirectory_ok hcreate with ⟨hmade, -⟩ | ⟨_, hmade, hl, hfree, rfl⟩
      · cases hmade
      · obtain rfl := Option.some.inj hmade
        have hnamed : NamedBy t₀ path latest := by
          obtain ⟨above, name, hloc, -, hname⟩ := locate_parent h.wellFormed hl (by simp [hfree])
          rw [NamedBy, ← h.settings.1]
          exact ⟨resolve_of_locate hl, above, name, hloc, hname⟩
        rcases ih (h.createDirectory hl hfree) loc hloc with hmem | ⟨other, hother, hnamed⟩
        · rcases List.mem_cons.1 hmem with rfl | hmem
          · exact .inr ⟨path, List.mem_cons_self, hnamed⟩
          · exact .inl hmem
        · exact .inr ⟨other, List.mem_cons_of_mem _ hother, hnamed⟩

/-- **What is made for a file** are beginnings of the path to its directory. -/
theorem created_write (h : Writing reserved t₀ d p) {destination contents : String}
    (hw : p.write reserved destination contents = (p', none)) : ∀ loc ∈ p'.created, loc ∈ p.created ∨
      ∃ above ∈ Path.beginnings (Path.parent destination), NamedBy t₀ above loc := by
  intro loc hloc
  obtain ⟨p₁, _, _, hparents, -, rfl⟩ := Progress.write_eq_iff.1 hw
  have hcreated : ∀ loc ∈ (p.createParents destination).1.created, loc ∈ p.created ∨
      ∃ above ∈ (Path.beginnings (Path.parent destination)).filter (fun above => !p.tree.existsAt above),
        NamedBy t₀ above loc := h.created_createAll
  rw [hparents] at hcreated
  exact (hcreated loc hloc).imp_right fun ⟨above, habove, hnamed⟩ =>
    ⟨above, List.mem_of_mem_filter habove, hnamed⟩

/-- What is made for some files are beginnings of the paths to their directories. -/
theorem created_writeAll (h : Writing reserved t₀ d p) (hn : ∀ x ∈ outputs, NamesReserved reserved x.1)
    (hw : p.writeAll reserved outputs = (p', none)) : ∀ loc ∈ p'.created, loc ∈ p.created ∨
      ∃ x ∈ outputs, ∃ above ∈ Path.beginnings (Path.parent x.1), NamedBy t₀ above loc := by
  induction outputs generalizing p d with
  | nil =>
    obtain rfl := (Prod.mk.inj hw).1
    exact fun loc hloc => .inl hloc
  | cons x outputs ih =>
    intro loc hloc
    obtain ⟨p₁, hwrite, hmore⟩ := Progress.writeAll_cons_eq_iff.1 hw
    obtain ⟨d₁, hd₁⟩ := h.write (hn x List.mem_cons_self) x.2
    rw [hwrite] at hd₁
    rcases ih hd₁ (fun y hy => hn y (List.mem_cons_of_mem _ hy)) hmore loc hloc with hmem | ⟨y, hy, hmade⟩
    · exact (h.created_write hwrite loc hmem).imp_right fun hmade => ⟨x, List.mem_cons_self, hmade⟩
    · exact .inr ⟨y, List.mem_cons_of_mem _ hy, hmade⟩

end Writing

/-! ## Commits -/

namespace Stage

variable {s : Stage}

/-- The files of a stage. -/
def files (s : Stage) : List (String × ByteArray) := s.outputs.map fun x => (x.1, x.2.toUTF8)

/-- If all files are written and can be moved, the moves put them into their places. -/
theorem moves_of_movable (hd : Writing s.reserved t d p)
    (hw : Progress.writeAll s.reserved { tree := t } s.outputs = (p, none))
    (hm : ∀ w ∈ p.pending, Movable p.tree w) : (p.moveAll p.pending.reverse).2 = none ∧
      (p.moveAll p.pending.reverse).1.tree = d.place s.files := by
  have hmoves : (p.moveAll p.pending.reverse).2 = none :=
    hd.reverse.moveAll_eq_none_iff.2 fun w hmem => hm w (List.mem_reverse.1 hmem)
  have hfiles : p.pending.reverse.map Pending.file = s.files := by
    rw [List.map_reverse, Progress.files_writeAll hw, List.map_nil, List.append_nil, List.reverse_reverse]
    rfl
  have hdrop : p.tree.drop (p.pending.reverse.map Pending.temporary) = d := by
    rw [← hd.drop_eq]
    exact drop_congr fun loc => by rw [List.map_reverse, List.mem_reverse]
  have htree := hd.reverse.tree_moveAll hmoves
  rw [hdrop, hfiles] at htree
  exact ⟨hmoves, htree⟩

/-- **A commit succeeds** if all files are written beside their destinations and can be moved there. -/
theorem commit_of_movable (hd : Writing s.reserved t d p)
    (hw : Progress.writeAll s.reserved { tree := t } s.outputs = (p, none))
    (hm : ∀ w ∈ p.pending, Movable p.tree w) :
    s.commit t = (.ok (s.outputs.map Prod.fst), d.place s.files) := by
  obtain ⟨hmoves, htree⟩ := moves_of_movable hd hw hm
  unfold commit
  rw [hw]
  dsimp only
  split
  · rename_i p' fault hfault
    rw [hfault] at hmoves
    cases hmoves
  · rename_i p' hdone
    rw [hdone] at htree
    rw [← htree]

/-- The tree of such a commit is well-formed, and has the directories that were there before the moves. -/
theorem alike_of_movable (hd : Writing s.reserved t d p)
    (hw : Progress.writeAll s.reserved { tree := t } s.outputs = (p, none))
    (hm : ∀ w ∈ p.pending, Movable p.tree w) :
    (d.place s.files).WellFormed ∧ Alike p.tree (d.place s.files) := by
  obtain ⟨hmoves, htree⟩ := moves_of_movable hd hw hm
  have hdone := hd.reverse.moveAll hmoves
  have hgrown := hd.grown.settings
  rw [← htree]
  refine ⟨hdone.wellFormed, ?_, ?_, fun loc => (hdone.directories loc).trans (hd.directories loc).symm⟩
  · rw [htree, workDir_place, hgrown.1, hd.settings.1]
  · rw [htree, refuses_place, hgrown.2, hd.settings.2]

/-- **The two parts of a successful commit**: all files are written, and all can be moved. -/
theorem commit_ok {paths : List String} (ht : t.WellFormed) (h : (s.commit t).1 = .ok paths) :
    ∃ d p, Writing s.reserved t d p ∧
      Progress.writeAll s.reserved { tree := t } s.outputs = (p, none) ∧
        ∀ w ∈ p.pending, Movable p.tree w := by
  obtain ⟨d, hd⟩ := (Writing.start ht).writeAll s.namesReserved
  unfold commit at h
  split at h
  · cases h
  · rename_i p hp
    rw [hp] at hd
    refine ⟨d, p, hd, hp, fun w hw => ?_⟩
    split at h
    · cases h
    · rename_i p' hdone
      exact hd.reverse.moveAll_eq_none_iff.1 (by rw [hdone]) w (List.mem_reverse.2 hw)

end Stage

end ApiCodegen.File
