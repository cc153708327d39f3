import ApiCodegen.File.Stage
import ApiCodegen.Proofs.File.Walk

/-!
# A failed commit leaves the tree as it was

A commit makes directories, writes temporary files and moves them into place; it can fail at every
step. The invariant `Undoable` says of its progress that dropping the temporary files and restoring
the moved ones gives the tree that differs from the first one by the made directories only.

* `Grown.remove`: directories made one after the other can be removed, the latest first.
* `foldl_restore_moved`: **one more move is taken back by one more restoration**, also where several
  moves have one destination.
* `Writing.writeAll`, `Undoable.undo_moveAll`: the invariant holds at every step of a commit.
* `Stage.commit_error`: **a failed commit leaves the tree as it was.**
-/

namespace ApiCodegen.File

open ApiCodegen.File.Tree

variable {t₀ d d' t t' : Tree} {created : List Location} {loc : Location} {reserved : List String}

/-! ## Directories made one after the other -/

/-- A tree that has come from another one by making directories, each at a free place in a
directory; the latest stands first. -/
inductive Grown (t₀ : Tree) : List Location → Tree → Prop
  | nil : Grown t₀ [] t₀
  | cons {created : List Location} {t : Tree} {loc : Location} : Grown t₀ created t →
      t.entry? loc = none → t.entry? loc.dropLast = some .directory →
      Grown t₀ (loc :: created) (t.insert loc .directory)

theorem Grown.wellFormed (h₀ : t₀.WellFormed) (h : Grown t₀ created t) : t.WellFormed := by
  induction h with
  | nil => exact h₀
  | cons _ _ hp ih => exact ih.insert hp fun _ => rfl

theorem Grown.remove (h₀ : t₀.WellFormed) (h : Grown t₀ created t) :
    created.foldl removeDirectory t = t₀ := by
  induction h with
  | nil => rfl
  | cons hg hfree _ ih =>
    -- the latest directory is empty once all others are as they were when it was made
    rw [List.foldl_cons, removeDirectory_insert (hg.wellFormed h₀) hfree]
    exact ih

/-! ## Restoring moved files -/

variable {m m' : Moved} {moved : List Moved}

/-- What a moved file remembers is what a tree has in its place. -/
def Remembers (d : Tree) (m : Moved) : Prop := d.entry? m.location = m.previous.map Entry.file

theorem Remembers.ne_nil (h : Remembers d m) : m.location ≠ [] := by
  intro hn
  rw [Remembers, hn, entry?_nil] at h
  cases hp : m.previous <;> simp [hp] at h

theorem Remembers.restore (h : Remembers d m) : Progress.restore d m = d := by
  have hn := h.ne_nil
  unfold Remembers at h
  unfold Progress.restore
  cases hp : m.previous with
  | none => exact erase_of_entry? (by rw [h, hp]; rfl)
  | some bytes => exact insert_of_entry? hn (by rw [h, hp]; rfl)

/-- A restoration does not depend on what was moved in. -/
theorem restore_insert (t : Tree) (m : Moved) (bytes : ByteArray) :
    Progress.restore (t.insert m.location (.file bytes)) m = Progress.restore t m := by
  unfold Progress.restore
  cases m.previous with
  | none => exact erase_insert t m.location _
  | some old => exact insert_insert t m.location _ _

theorem restore_eq_of_location (hm : Remembers d m) (hm' : Remembers d m')
    (h : m.location = m'.location) (t : Tree) : Progress.restore t m = Progress.restore t m' := by
  have hp : m.previous = m'.previous := by
    unfold Remembers at hm hm'
    rw [h, hm'] at hm
    exact (Option.map_injective (fun _ _ h => Entry.file.inj h) hm).symm
  unfold Progress.restore
  rw [hp, h]

/-- Restorations of what one tree has can be done in any order, as long as the file that is put
back first is there. -/
theorem restore_comm (hm : Remembers d m) (hm' : Remembers d m')
    (hp : m.previous ≠ none → t.entry? m.location ≠ none) :
    Progress.restore (Progress.restore t m) m' = Progress.restore (Progress.restore t m') m := by
  by_cases h : m.location = m'.location
  · -- at one location, both put back the same
    rw [restore_eq_of_location hm hm' h, restore_eq_of_location hm hm' h]
  · have hn := hm.ne_nil
    unfold Progress.restore
    cases hq : m.previous with
    | none =>
      cases m'.previous with
      | none => exact erase_comm t _ _
      | some new => exact (erase_insert_of_ne (Ne.symm h)).symm
    | some old =>
      cases m'.previous with
      | none => exact erase_insert_of_ne h
      | some new => exact insert_comm h hn (hp (by simp [hq]))

theorem entry?_restore_ne_none (hm : Remembers d m) (hm' : Remembers d m') (hs : m.previous ≠ none)
    (hp : t.entry? m.location ≠ none) : entry? (Progress.restore t m') m.location ≠ none := by
  by_cases h : m.location = m'.location
  · rw [← restore_eq_of_location hm hm' h]
    obtain ⟨old, hq⟩ := Option.ne_none_iff_exists'.1 hs
    simp [Progress.restore, hq, entry?_insert_self hm.ne_nil]
  · unfold Progress.restore
    cases m'.previous with
    | none => simpa only [entry?_erase_of_ne h] using hp
    | some new => simpa only [entry?_insert_of_ne h] using hp

theorem foldl_restore_restore (hm : Remembers d m) (hall : ∀ m' ∈ moved, Remembers d m')
    (hp : m.previous ≠ none → t.entry? m.location ≠ none) :
    moved.foldl Progress.restore (Progress.restore t m) =
      Progress.restore (moved.foldl Progress.restore t) m := by
  induction moved generalizing t with
  | nil => rfl
  | cons m' moved ih =>
    have hm' := hall m' List.mem_cons_self
    rw [List.foldl_cons, List.foldl_cons, restore_comm hm hm' hp]
    exact ih (fun x hx => hall x (List.mem_cons_of_mem _ hx)) fun hs =>
      entry?_restore_ne_none hm hm' hs (hp hs)

/-- **One more move is taken back by one more restoration.** -/
theorem foldl_restore_moved (hm : Remembers d m) (hall : ∀ m' ∈ moved, Remembers d m')
    (hp : m.previous ≠ none → t.entry? m.location ≠ none)
    (h : moved.foldl Progress.restore t = d) (bytes : ByteArray) :
    (m :: moved).foldl Progress.restore (t.insert m.location (.file bytes)) = d := by
  rw [List.foldl_cons, restore_insert, foldl_restore_restore hm hall hp, h, hm.restore]

/-! ## The invariant of a commit -/

variable {p : Progress} {w : Pending} {more : List Pending}

/-- The directory of a destination exists, and what a tree has at the destination is what the
pending file remembers of it. -/
def Settled (d t : Tree) (w : Pending) : Prop :=
  (∃ dir, t.findAt (Path.parent w.destination) = .ok (dir, .directory)) ∧
    ∀ loc, t.fileLocation w.destination = .ok loc → d.entry? loc = w.previous.map Entry.file

/-- A pending file stays settled while directories are made and files are written elsewhere. -/
theorem Settled.grow (h : Settled d t w) (hg : Grows t t')
    (hd : ∀ loc, t'.entry? loc ≠ some .directory → d'.entry? loc = d.entry? loc) :
    Settled d' t' w := by
  obtain ⟨⟨dir, hf⟩, hprev⟩ := h
  refine ⟨⟨dir, hg.findAt hf⟩, fun loc hl => ?_⟩
  obtain ⟨hl, he, hp⟩ := fileLocation_ok hl
  rw [hg.locate_eq hf] at hl
  rw [hd loc he]
  exact hprev loc (fileLocation_of hl (fun h => he (hg.directory loc h)) hp)

/-- Every name of a path is reserved. -/
def NamesReserved (reserved : List String) (path : String) : Prop :=
  ∀ name, Component.name name ∈ Path.components path → name ∈ reserved

/-- **The progress of a commit can be undone.** `d` is the first tree with the directories that
were made since. -/
structure Undoable (reserved : List String) (t₀ d : Tree) (p : Progress) : Prop where
  grown : Grown t₀ p.created d
  restored : p.moved.foldl Progress.restore (p.tree.drop (p.pending.map Pending.temporary)) = d
  wellFormed : p.tree.WellFormed
  directories : ∀ loc, p.tree.entry? loc = some .directory ↔ d.entry? loc = some .directory
  kept : ∀ loc, d.entry? loc ≠ none → p.tree.entry? loc ≠ none
  temporary : ∀ w ∈ p.pending, d.entry? w.temporary = none ∧
    ∃ dir name, w.temporary = dir ++ [name] ∧ name ∉ reserved
  named : ∀ w ∈ p.pending, NamesReserved reserved w.destination
  remembered : ∀ m ∈ p.moved, Remembers d m
  settled : ∀ w ∈ p.pending, Settled d p.tree w

/-- A path whose names are reserved does not end at a name that is not, unless at a directory. -/
theorem NamesReserved.ne {path dir name} (hn : NamesReserved reserved path) (ht : t.WellFormed)
    (hl : t.locate (Path.components path) = .ok loc) (he : t.entry? loc ≠ some .directory)
    (hname : name ∉ reserved) : loc ≠ dir ++ [name] := by
  intro heq
  obtain ⟨above, last, hloc, -, hlast⟩ := locate_parent ht hl he
  obtain ⟨-, heq⟩ := List.append_inj' (heq.symm.trans hloc) rfl
  exact hname (List.singleton_inj.1 heq ▸ hn last hlast)

theorem foldl_erase (t : Tree) (pending : List Pending) :
    pending.foldl (fun t w => t.erase w.temporary) t = t.drop (pending.map Pending.temporary) := by
  induction pending generalizing t with
  | nil => simp [drop]
  | cons w pending ih =>
    rw [List.foldl_cons, ih, erase_eq_drop, drop_drop, List.map_cons, List.singleton_append]

/-- The moves behind one that succeeds. -/
theorem moveAll_cons (h : p.tree.move w.temporary w.bytes w.destination = .ok (loc, t)) :
    p.moveAll (w :: more) =
      Progress.moveAll { p with tree := t, moved := ⟨w.destination, loc, w.previous⟩ :: p.moved } more := by
  rw [Progress.moveAll, h]

/-- The first of some moves that all succeed. -/
theorem exists_move_of_moveAll (h : (p.moveAll (w :: more)).2 = none) :
    ∃ loc t, p.tree.move w.temporary w.bytes w.destination = .ok (loc, t) := by
  rw [Progress.moveAll] at h
  cases hm : p.tree.move w.temporary w.bytes w.destination with
  | error cause => simp [hm] at h
  | ok r => exact ⟨r.1, r.2, rfl⟩

namespace Undoable

/-- **What can be undone is undone.** -/
theorem undo (h₀ : t₀.WellFormed) (h : Undoable reserved t₀ d p) : p.undo = t₀ := by
  unfold Progress.undo
  simp only [foldl_erase]
  rw [h.restored, h.grown.remove h₀]

/-- A destination is at no temporary file: its last name is reserved. -/
theorem not_temporary (h : Undoable reserved t₀ d p) {path : String}
    (hn : NamesReserved reserved path) (hl : p.tree.locate (Path.components path) = .ok loc)
    (he : p.tree.entry? loc ≠ some .directory) : loc ∉ p.pending.map Pending.temporary := by
  intro hmem
  obtain ⟨w, hw, rfl⟩ := List.mem_map.1 hmem
  obtain ⟨-, dir, name, htmp, hname⟩ := h.temporary w hw
  exact hn.ne h.wellFormed hl he hname htmp

/-- **A move keeps the invariant.** -/
theorem move (h : Undoable reserved t₀ d { p with pending := w :: more })
    (hm : p.tree.move w.temporary w.bytes w.destination = .ok (loc, t)) :
    Undoable reserved t₀ d { p with
      tree := t, pending := more, moved := ⟨w.destination, loc, w.previous⟩ :: p.moved } := by
  obtain ⟨hfile, rfl⟩ := move_ok hm
  obtain ⟨hl, he, -⟩ := fileLocation_ok hfile
  have hw : w ∈ w :: more := List.mem_cons_self
  have hnot := h.not_temporary (h.named w hw) hl he
  simp only [List.map_cons, List.mem_cons, not_or] at hnot
  have hrem : Remembers d ⟨w.destination, loc, w.previous⟩ := (h.settled w hw).2 loc hfile
  have hne := hrem.ne_nil
  have htmp := (h.temporary w hw).1
  -- both trees have the same directories, and nothing is at the temporary file in `d`
  have hdtmp : p.tree.entry? w.temporary ≠ some .directory := by
    rw [Ne, h.directories, htmp]
    simp
  -- the directories are those of before
  have herased (l : Location) : entry? (p.tree.erase w.temporary) l = some .directory ↔
      p.tree.entry? l = some .directory := directory_erase_iff hdtmp
  have hdirs (l : Location) : entry? ((p.tree.erase w.temporary).insert loc (.file w.bytes)) l =
      some .directory ↔ p.tree.entry? l = some .directory :=
    (directory_insert_file_iff hne (mt (herased loc).1 he)).trans (herased l)
  have hgrows : Grows p.tree ((p.tree.erase w.temporary).insert loc (.file w.bytes)) :=
    ⟨rfl, fun l hd => (hdirs l).2 hd⟩
  refine {
    grown := h.grown
    restored := ?restored
    wellFormed := ?wellFormed
    directories := fun l => (hdirs l).trans (h.directories l)
    kept := ?kept
    temporary := fun x hx => h.temporary x (List.mem_cons_of_mem _ hx)
    named := fun x hx => h.named x (List.mem_cons_of_mem _ hx)
    remembered := List.forall_mem_cons.2 ⟨hrem, h.remembered⟩
    settled := fun x hx => (h.settled x (List.mem_cons_of_mem _ hx)).grow hgrows fun _ _ => rfl }
  case restored =>
    -- dropping what is left pending commutes with the move, and the restoration takes it back
    have hdrop : ((p.tree.erase w.temporary).insert loc (.file w.bytes)).drop
        (more.map Pending.temporary) =
        (p.tree.drop ((w :: more).map Pending.temporary)).insert loc (.file w.bytes) := by
      rw [drop_insert hnot.2, erase_eq_drop, drop_drop, List.map_cons, List.singleton_append]
    simp only [hdrop]
    refine foldl_restore_moved hrem h.remembered (fun hs => ?_) h.restored w.bytes
    rw [entry?_drop_of_not_mem (by simpa using hnot)]
    refine h.kept loc ?_
    rw [show d.entry? loc = _ from hrem]
    simpa using hs
  case wellFormed =>
    obtain ⟨above, name, hloc, habove, -⟩ := locate_parent h.wellFormed hl he
    have hparent : p.tree.entry? loc.dropLast = some .directory := by
      rw [hloc, List.dropLast_concat, habove]
    exact (h.wellFormed.erase hdtmp).insert ((herased _).2 hparent)
      fun hd => absurd ((herased loc).1 hd) he
  case kept =>
    -- only the temporary file goes away, and `d` has nothing there
    intro l hs
    refine entry?_insert_ne_none hne (.inr ?_)
    have hlt : l ≠ w.temporary := by
      rintro rfl
      exact hs htmp
    rw [entry?_erase_of_ne hlt]
    exact h.kept l hs

/-- **A failed sequence of moves is undone.** -/
theorem undo_moveAll (h₀ : t₀.WellFormed) {pending : List Pending}
    (h : Undoable reserved t₀ d { p with pending := pending })
    (hf : (p.moveAll pending).2 ≠ none) : (p.moveAll pending).1.undo = t₀ := by
  induction pending generalizing p with
  | nil => exact absurd rfl hf
  | cons w more ih =>
    cases hm : p.tree.move w.temporary w.bytes w.destination with
    | error cause =>
      -- the move that fails has not changed anything
      rw [Progress.moveAll, hm]
      exact h.undo h₀
    | ok r =>
      rw [moveAll_cons hm] at hf ⊢
      exact ih (h.move hm) hf

end Undoable

/-! ## Writing the temporary files -/

/-- The progress of a commit before the first move. -/
structure Writing (reserved : List String) (t₀ d : Tree) (p : Progress) : Prop
    extends Undoable reserved t₀ d p where
  unmoved : p.moved = []
  present : ∀ w ∈ p.pending, p.tree.entry? w.temporary ≠ none

namespace Writing

theorem start (h₀ : t₀.WellFormed) : Writing reserved t₀ t₀ { tree := t₀ } where
  grown := .nil
  restored := by simp [drop]
  wellFormed := h₀
  directories _ := Iff.rfl
  kept _ hs := hs
  temporary _ hw := absurd hw List.not_mem_nil
  named _ hw := absurd hw List.not_mem_nil
  remembered _ hm := absurd hm List.not_mem_nil
  settled _ hw := absurd hw List.not_mem_nil
  unmoved := rfl
  present _ hw := absurd hw List.not_mem_nil

/-- Before the first move, the tree without the temporary files has made directories only. -/
theorem drop_eq (h : Writing reserved t₀ d p) :
    p.tree.drop (p.pending.map Pending.temporary) = d := by
  have hr := h.restored
  rwa [h.unmoved, List.foldl_nil] at hr

/-- **Making a directory keeps the invariant.** -/
theorem createDirectory (h : Writing reserved t₀ d p) {path : List Component}
    (hl : p.tree.locate path = .ok loc) (he : p.tree.entry? loc = none) :
    Writing reserved t₀ (d.insert loc .directory)
      { p with tree := p.tree.insert loc .directory, created := loc :: p.created } := by
  have hne := ne_nil_of_entry?_eq_none he
  have hnd : p.tree.entry? loc ≠ some .directory := by simp [he]
  obtain ⟨above, name, rfl, habove, -⟩ := locate_parent h.wellFormed hl hnd
  have hdfree : d.entry? (above ++ [name]) = none := by
    by_contra hx
    exact h.kept _ hx he
  -- every temporary file is there, and nothing is where the directory is made
  have hapart : ∀ w ∈ p.pending, w.temporary ≠ above ++ [name] := by
    intro w hw heq
    exact h.present w hw (heq ▸ he)
  have hgrows : Grows p.tree (p.tree.insert (above ++ [name]) .directory) :=
    grows_insert fun hd => absurd hd hnd
  refine {
    grown := ?grown
    restored := ?restored
    wellFormed := ?wellFormed
    directories := ?directories
    kept := ?kept
    temporary := ?temporary
    named := h.named
    remembered := ?remembered
    settled := ?settled
    unmoved := h.unmoved
    present := fun w hw => entry?_insert_ne_none hne (.inr (h.present w hw)) }
  case grown =>
    refine .cons h.grown hdfree ?_
    rw [List.dropLast_concat, ← h.directories, habove]
  case restored =>
    simp only [h.unmoved, List.foldl_nil]
    rw [drop_insert fun hmem => ?_, h.drop_eq]
    obtain ⟨w, hw, heq⟩ := List.mem_map.1 hmem
    exact hapart w hw heq
  case wellFormed =>
    refine h.wellFormed.insert ?_ fun hd => absurd hd hnd
    rw [List.dropLast_concat, habove]
  case directories =>
    intro l
    by_cases heq : l = above ++ [name]
    · rw [heq, entry?_insert_self hne, entry?_insert_self hne]
    · rw [entry?_insert_of_ne heq, entry?_insert_of_ne heq]
      exact h.directories l
  case kept =>
    intro l hs
    by_cases heq : l = above ++ [name]
    · exact entry?_insert_ne_none hne (.inl heq)
    · rw [entry?_insert_of_ne heq] at hs
      exact entry?_insert_ne_none hne (.inr (h.kept l hs))
  case temporary =>
    intro w hw
    obtain ⟨hfree, hname⟩ := h.temporary w hw
    rw [entry?_insert_of_ne (hapart w hw)]
    exact ⟨hfree, hname⟩
  case remembered =>
    simp only [h.unmoved]
    exact fun m hm => absurd hm List.not_mem_nil
  case settled =>
    -- the two trees differ at the new directory only, where no file can be
    refine fun w hw => (h.settled w hw).grow hgrows fun l hld => ?_
    refine entry?_insert_of_ne fun heq => hld ?_
    rw [heq, entry?_insert_self hne]

theorem createAll (h : Writing reserved t₀ d p) (paths : List (List Component)) :
    ∃ d', Writing reserved t₀ d' (p.createAll paths).1 := by
  induction paths generalizing p d with
  | nil => exact ⟨d, h⟩
  | cons path paths ih =>
    unfold Progress.createAll
    cases hc : p.tree.createDirectory path with
    | error cause => exact ⟨d, h⟩
    | ok r =>
      obtain ⟨made, t⟩ := r
      rcases createDirectory_ok hc with ⟨rfl, rfl⟩ | ⟨loc, rfl, hl, he, rfl⟩
      · exact ih h
      · exact ih (h.createDirectory hl he)

/-- What a file leads to before the first move, unless it is a temporary file, is what the tree with
the made directories has there. -/
theorem entry?_eq (h : Writing reserved t₀ d p) (hn : loc ∉ p.pending.map Pending.temporary) :
    d.entry? loc = p.tree.entry? loc := by
  rw [← h.drop_eq, entry?_drop_of_not_mem hn]

/-- **Writing a temporary file keeps the invariant.** -/
theorem writeTemporary (h : Writing reserved t₀ d p) {destination : String} {bytes : ByteArray}
    (hn : NamesReserved reserved destination)
    (hw : p.tree.writeTemporary (Path.parent destination) reserved bytes = .ok (loc, t)) :
    Writing reserved t₀ d { p with
      tree := t, pending := ⟨destination, loc, bytes, t.bytes? destination⟩ :: p.pending } := by
  obtain ⟨dir, name, hf, hloc, hname, he, rfl⟩ := writeTemporary_ok hw
  have hne := ne_nil_of_entry?_eq_none he
  have hnd : p.tree.entry? loc ≠ some .directory := by simp [he]
  have hparent : p.tree.entry? loc.dropLast = some .directory := by
    rw [hloc, List.dropLast_concat]
    exact (findAt_ok hf).2
  have hdfree : d.entry? loc = none := by
    by_contra hx
    exact h.kept _ hx he
  have hgrows : Grows p.tree (p.tree.insert loc (.file bytes)) :=
    grows_insert fun hd => absurd hd hnd
  refine {
    grown := h.grown
    restored := ?restored
    wellFormed := h.wellFormed.insert hparent fun hd => absurd hd hnd
    directories := fun l => (directory_insert_file_iff hne hnd).trans (h.directories l)
    kept := fun l hs => entry?_insert_ne_none hne (.inr (h.kept l hs))
    temporary := List.forall_mem_cons.2 ⟨⟨hdfree, dir, name, hloc, hname⟩, h.temporary⟩
    named := List.forall_mem_cons.2 ⟨hn, h.named⟩
    remembered := h.remembered
    settled := List.forall_mem_cons.2 ⟨?settled, fun w hw => (h.settled w hw).grow hgrows fun _ _ => rfl⟩
    unmoved := h.unmoved
    present := List.forall_mem_cons.2 ⟨entry?_insert_ne_none hne (.inl rfl),
      fun w hw => entry?_insert_ne_none hne (.inr (h.present w hw))⟩ }
  case restored =>
    simp only [h.unmoved, List.foldl_nil, List.map_cons]
    -- the new temporary file is dropped again, and nothing was in its place
    rw [drop_insert_of_mem List.mem_cons_self, ← List.singleton_append, ← drop_drop,
      ← erase_eq_drop, erase_of_entry? he, h.drop_eq]
  case settled =>
    -- the temporary file is not what the destination leads to, and nor is any other
    refine ⟨⟨dir, hgrows.findAt hf⟩, fun l hfile => ?_⟩
    obtain ⟨hl, hld, -⟩ := fileLocation_ok hfile
    rw [hgrows.locate_eq hf] at hl
    have hld : p.tree.entry? l ≠ some .directory := fun hd => hld (hgrows.directory l hd)
    have hll : l ≠ loc := hloc ▸ hn.ne h.wellFormed hl hld hname
    rw [h.entry?_eq (h.not_temporary hn hl hld), ← entry?_fileLocation hfile,
      entry?_insert_of_ne hll]

theorem write (h : Writing reserved t₀ d p) {destination : String}
    (hn : NamesReserved reserved destination) (contents : String) :
    ∃ d', Writing reserved t₀ d' (p.write reserved destination contents).1 := by
  unfold Progress.write
  obtain ⟨d', hd⟩ := h.createAll
    ((Path.beginnings (Path.parent destination)).filter fun above => !p.tree.existsAt above)
  unfold Progress.createParents
  split
  · rename_i p' cause hp
    rw [hp] at hd
    exact ⟨d', hd⟩
  · rename_i p' hp
    rw [hp] at hd
    split
    · exact ⟨d', hd⟩
    · rename_i loc t hw
      exact ⟨d', hd.writeTemporary hn hw⟩

/-- **The invariant holds however far the writing gets.** -/
theorem writeAll (h : Writing reserved t₀ d p) {outputs : List (String × String)}
    (hn : ∀ x ∈ outputs, NamesReserved reserved x.1) :
    ∃ d', Writing reserved t₀ d' (p.writeAll reserved outputs).1 := by
  induction outputs generalizing p d with
  | nil => exact ⟨d, h⟩
  | cons x outputs ih =>
    obtain ⟨destination, contents⟩ := x
    obtain ⟨d', hd⟩ := h.write (hn _ List.mem_cons_self) contents
    unfold Progress.writeAll
    split
    · rename_i p' fault hp
      rw [hp] at hd
      exact ⟨d', hd⟩
    · rename_i p' hp
      rw [hp] at hd
      exact ih hd fun x hx => hn x (List.mem_cons_of_mem _ hx)

end Writing

/-- The order of the pending files does not matter to what can be undone. -/
theorem Undoable.reverse (h : Undoable reserved t₀ d p) :
    Undoable reserved t₀ d { p with pending := p.pending.reverse } where
  grown := h.grown
  restored := by
    rw [drop_congr fun loc => ?_]
    · exact h.restored
    · rw [List.map_reverse, List.mem_reverse]
  wellFormed := h.wellFormed
  directories := h.directories
  kept := h.kept
  temporary w hw := h.temporary w (List.mem_reverse.1 hw)
  named w hw := h.named w (List.mem_reverse.1 hw)
  remembered := h.remembered
  settled w hw := h.settled w (List.mem_reverse.1 hw)

/-- The destinations of a stage use reserved names only. -/
theorem Stage.namesReserved (s : Stage) :
    ∀ x ∈ s.outputs, NamesReserved s.reserved x.1 := by
  intro x hx name hname
  obtain ⟨a, ha, rfl⟩ := List.mem_map.1 hx
  exact List.mem_flatMap.2 ⟨a, ha, List.mem_filterMap.2 ⟨_, hname, rfl⟩⟩

/-- **A failed commit leaves the tree as it was.** -/
theorem Stage.commit_error {s : Stage} {f : Failure} (ht : t.WellFormed)
    (h : (s.commit t).1 = .error f) : (s.commit t).2 = t := by
  obtain ⟨d, hd⟩ := (Writing.start ht).writeAll s.namesReserved
  unfold Stage.commit at h ⊢
  split
  · -- a file could not be written
    rename_i p fault hp
    rw [hp] at hd
    exact hd.undo ht
  · rename_i p hp
    rw [hp] at hd h
    -- all files are written, and are moved in the order of writing
    have hmoves := hd.reverse.undo_moveAll ht
    split
    · rename_i p' fault hm
      rw [hm] at hmoves
      exact hmoves (by simp)
    · rename_i p' hm
      simp [hm] at h

end ApiCodegen.File
