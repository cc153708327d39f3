import ApiCodegen.Proofs.File.Success

/-!
# A successful commit, and the same commit again

A commit that succeeds can be done again in the tree that it leaves: the directories are there, the temporary
files get the names that they had the first time, and the moves are the same. So the second commit succeeds,
and as every file is there already, it changes nothing.

* `Writing.entry?_eq_none_iff`: what is free under a name that is not reserved while files are written.
* `Repeats.write`, `Repeats.writeAll`: **what was written once can be written again**, by a simulation of the
  first commit in the tree that it leaves.
* `Stage.Committed`: all that a successful commit guarantees.
* `Stage.committed_of_ok`: **a successful commit guarantees it.**
-/

namespace ApiCodegen.File

open ApiCodegen.File.Tree

variable {t₀ d t t' : Tree} {loc : Location} {reserved : List String} {p p' q : Progress}
  {destination contents name : String} {dir : Location}

/-! ## Reserved names -/

/-- A location with a reserved name. -/
def EndsReserved (reserved : List String) (loc : Location) : Prop :=
  ∃ dir name, loc = dir ++ [name] ∧ name ∈ reserved

theorem not_endsReserved (h : name ∉ reserved) : ¬ EndsReserved reserved (dir ++ [name]) := by
  rintro ⟨above, last, heq, hlast⟩
  obtain ⟨-, heq⟩ := List.append_inj' heq rfl
  exact h (List.singleton_inj.1 heq ▸ hlast)

theorem mem_of_mem_beginning {α : Type} {l above : List α} (h : above ∈ Path.beginnings l) :
    ∀ a ∈ above, a ∈ l := by
  induction l generalizing above with
  | nil => cases h
  | cons b l ih =>
    rcases List.mem_cons.1 h with rfl | h
    · exact fun a ha => List.mem_singleton.1 ha ▸ List.mem_cons_self
    · obtain ⟨front, hfront, rfl⟩ := List.mem_map.1 h
      intro a ha
      rcases List.mem_cons.1 ha with rfl | ha
      · exact List.mem_cons_self
      · exact List.mem_cons_of_mem _ (ih hfront a ha)

/-- The names of a directory are those of the paths into it. -/
theorem name_mem_of_parent (h : Component.name name ∈ Path.parent destination) :
    Component.name name ∈ Path.components destination := by
  unfold Path.parent at h
  split at h
  · simp at h
  · exact List.mem_of_mem_dropLast h

/-- What is made for a destination has a reserved name. -/
theorem NamesReserved.endsReserved (hn : NamesReserved reserved destination) {above : List Component}
    (habove : above ∈ Path.beginnings (Path.parent destination)) (h : NamedBy t above loc) :
    EndsReserved reserved loc := by
  obtain ⟨-, dir, name, hloc, hname⟩ := h
  exact ⟨dir, name, hloc, hn name (name_mem_of_parent (mem_of_mem_beginning habove _ hname))⟩

/-- **What is free while files are written**: under a name that is not reserved, what was free at first and
is no temporary file. -/
theorem Writing.entry?_eq_none_iff (h : Writing reserved t₀ d p)
    (hc : ∀ loc ∈ p.created, EndsReserved reserved loc) (hname : name ∉ reserved) :
    p.tree.entry? (dir ++ [name]) = none ↔ t₀.entry? (dir ++ [name]) = none ∧
      dir ++ [name] ∉ p.pending.map Pending.temporary := by
  have hmade : dir ++ [name] ∉ p.created := fun hmem => not_endsReserved hname (hc _ hmem)
  rw [← h.grown.entry?_of_not_mem hmade]
  constructor
  · intro hfree
    have htemporary : dir ++ [name] ∉ p.pending.map Pending.temporary := by
      intro hmem
      obtain ⟨w, hw, heq⟩ := List.mem_map.1 hmem
      exact h.present w hw (heq ▸ hfree)
    exact ⟨(h.entry?_eq htemporary).trans hfree, htemporary⟩
  · rintro ⟨hfree, htemporary⟩
    exact (h.entry?_eq htemporary).symm.trans hfree

/-! ## Writing again -/

/-- A tree has come from another one by changes under reserved names. -/
structure Extends (reserved : List String) (t₀ t' : Tree) : Prop where
  workDir : t'.workDir = t₀.workDir
  refuses : t'.refuses = t₀.refuses
  free : ∀ dir, ∀ name ∉ reserved,
    t'.entry? (dir ++ [name]) = none ↔ t₀.entry? (dir ++ [name]) = none

/-- A commit in one tree, and another one that **does the same** in a tree that has come from it. -/
structure Repeats (reserved : List String) (t₀ t' : Tree) (p q : Progress) : Prop where
  first : ∃ d, Writing reserved t₀ d p
  second : Writing reserved t' t' q
  made : ∀ loc ∈ p.created, EndsReserved reserved loc
  steps : q.pending.map Pending.step = p.pending.map Pending.step

namespace Repeats

/-- The second commit makes no directory. -/
theorem created_eq_nil (h : Repeats reserved t₀ t' p q) : q.created = [] := by
  refine List.eq_nil_iff_forall_not_mem.2 fun loc hloc => ?_
  obtain ⟨hfree, hthere⟩ := h.second.grown.entry?_of_mem hloc
  simp [hfree] at hthere

theorem temporaries (h : Repeats reserved t₀ t' p q) :
    q.pending.map Pending.temporary = p.pending.map Pending.temporary := by
  have hmap := congrArg (List.map fun s => s.2.1) h.steps
  rwa [List.map_map, List.map_map] at hmap

/-- **What was written once can be written again**, if all directories are still there. -/
theorem write (he : Extends reserved t₀ t') (h : Repeats reserved t₀ t' p q)
    (hn : NamesReserved reserved destination) (hw : p.write reserved destination contents = (p', none))
    (hgrows : Grows p'.tree t') :
    ∃ q', q.write reserved destination contents = (q', none) ∧ Repeats reserved t₀ t' p' q' := by
  obtain ⟨d, hd⟩ := h.first
  have hmade : ∀ loc ∈ p'.created, EndsReserved reserved loc := by
    intro loc hloc
    rcases hd.created_write hw loc hloc with hmem | ⟨above, habove, hnamed⟩
    · exact h.made loc hmem
    · exact hn.endsReserved habove hnamed
  obtain ⟨p₁, loc, t, hparents, hwrite, rfl⟩ := Progress.write_eq_iff.1 hw
  obtain ⟨dir, hfind, hloc, hpermit, rfl⟩ := writeTemporary_eq_ok_iff.1 hwrite
  obtain ⟨-, -, -, -, -, hfree, -⟩ := writeTemporary_ok hwrite
  -- the first commit with the directories, before the temporary file
  obtain ⟨d₁, hd₁⟩ : ∃ d₁, Writing reserved t₀ d₁ (p.createParents destination).1 := hd.createAll _
  have hpending := p.pending_createParents destination
  rw [hparents] at hd₁ hpending
  -- the second commit finds the directory
  have hthere : Grows p₁.tree q.tree :=
    (grows_insert fun hdir => by simp [hfree] at hdir).trans
      (hgrows.trans ⟨h.second.settings.1, fun l => (h.second.directories l).2⟩)
  have hfind' : q.tree.findAt (Path.parent destination) = .ok (dir, .directory) := hthere.findAt hfind
  have hparents' := Progress.createParents_of_findAt hfind'
  -- and gives the file the same name
  have hname : Name.fresh (reserved ++ q.tree.children dir) ".tmp" =
      Name.fresh (reserved ++ p₁.tree.children dir) ".tmp" := by
    refine Name.fresh_congr fun name => ?_
    rw [List.mem_append, List.mem_append]
    by_cases hmem : name ∈ reserved
    · simp [hmem]
    · have hnone : ∀ loc ∈ q.created, EndsReserved reserved loc := by
        rw [h.created_eq_nil]
        exact fun loc hloc => absurd hloc List.not_mem_nil
      rw [mem_children_iff, mem_children_iff, Ne, Ne, h.second.entry?_eq_none_iff hnone hmem,
        hd₁.entry?_eq_none_iff hmade hmem, he.free dir name hmem, h.temporaries, hpending]
  have hwrite' : q.tree.writeTemporary (Path.parent destination) reserved contents.toUTF8 =
      .ok (loc, q.tree.insert loc (.file contents.toUTF8)) := by
    refine writeTemporary_eq_ok_iff.2 ⟨dir, hfind', by rw [hname, hloc], ?_, rfl⟩
    rw [h.second.settings.2, he.refuses, ← hd₁.settings.2]
    exact hpermit
  refine ⟨_, Progress.write_eq_iff.2 ⟨q, loc, _, hparents', hwrite', rfl⟩, ?_⟩
  exact {
    first := ⟨d₁, hd₁.writeTemporary hn hwrite⟩
    second := h.second.writeTemporary hn hwrite'
    made := hmade
    steps := by rw [List.map_cons, List.map_cons, h.steps, hpending]; rfl }

/-- So it is for all files of a stage. -/
theorem writeAll (he : Extends reserved t₀ t') (h : Repeats reserved t₀ t' p q)
    {outputs : List (String × String)} (hn : ∀ x ∈ outputs, NamesReserved reserved x.1)
    (hw : p.writeAll reserved outputs = (p', none)) (hgrows : Grows p'.tree t') :
    ∃ q', q.writeAll reserved outputs = (q', none) ∧ Repeats reserved t₀ t' p' q' := by
  induction outputs generalizing p q with
  | nil =>
    obtain rfl := (Prod.mk.inj hw).1
    exact ⟨q, rfl, h⟩
  | cons x outputs ih =>
    obtain ⟨p₁, hwrite, hmore⟩ := Progress.writeAll_cons_eq_iff.1 hw
    obtain ⟨q₁, hwrite', h₁⟩ := h.write he (hn x List.mem_cons_self) hwrite
      ((Progress.grows_writeAll hmore).trans hgrows)
    obtain ⟨q', hmore', h'⟩ := ih h₁ (fun y hy => hn y (List.mem_cons_of_mem _ hy)) hmore
    exact ⟨q', Progress.writeAll_cons_eq_iff.2 ⟨q₁, hwrite', hmore'⟩, h'⟩

end Repeats

/-! ## What a successful commit guarantees -/

namespace Stage

variable {s : Stage} {paths : List String}

/-- The locations that the destinations of a stage denote. -/
def locations (s : Stage) (t : Tree) : List Location :=
  s.artifacts.map fun a => t.target (s.destination a.path)

theorem files_eq (s : Stage) :
    s.files = s.artifacts.map fun a => (s.destination a.path, a.contents.toUTF8) := by
  simp only [files, outputs, List.map_map, Function.comp_def]

theorem targets_files (s : Stage) (t : Tree) : t.targets s.files = s.locations t := by
  simp only [targets, files_eq, List.map_map, Function.comp_def, locations]

/-- **What a successful commit guarantees**: `t` is the tree before it, and `t'` the tree after it. -/
structure Committed (s : Stage) (t t' : Tree) (paths : List String) : Prop where
  /-- The result are the destinations, in the order of the artifacts. -/
  destinations : paths = s.artifacts.map fun a => s.destination a.path
  /-- Every destination leads to its location, where there is a file with the contents of the artifact. -/
  contents : ∀ a ∈ s.artifacts, t'.find (s.destination a.path) =
    .ok (t.target (s.destination a.path), .file a.contents.toUTF8)
  /-- What was there is still there, apart from the destinations. -/
  kept : ∀ loc ∉ s.locations t, t.entry? loc ≠ none → t'.entry? loc = t.entry? loc
  /-- Anything else that is new is a directory, at the beginning of the path to a destination. -/
  made : ∀ loc ∉ s.locations t, t.entry? loc = none → t'.entry? loc ≠ none →
    t'.entry? loc = some .directory ∧ ∃ a ∈ s.artifacts,
      ∃ above ∈ Path.beginnings (Path.parent (s.destination a.path)), resolve t.workDir above = loc
  wellFormed : t'.WellFormed
  workDir : t'.workDir = t.workDir
  /-- The same commit succeeds again, and changes nothing. -/
  again : s.commit t' = (.ok paths, t')

section

variable (hd : Writing s.reserved t d p)
  (hw : Progress.writeAll s.reserved { tree := t } s.outputs = (p, none))
  (hm : ∀ w ∈ p.pending, Movable p.tree w)

include hd in
/-- The directories that are made do not change what paths denote. -/
theorem targets_of_writing : d.targets s.files = s.locations t := by
  rw [← targets_files, targets, targets]
  simp only [target, hd.grown.settings.1]

include hd hw hm

/-- The files are at the locations of their destinations. -/
theorem fileLocation_of_movable : ∀ f ∈ s.files, p.tree.fileLocation f.1 = .ok (t.target f.1) := by
  intro f hf
  have hfiles : p.pending.map Pending.file = s.files.reverse := by
    rw [Progress.files_writeAll hw, List.map_nil, List.append_nil]
    rfl
  rw [← List.mem_reverse, ← hfiles] at hf
  obtain ⟨w, hmem, rfl⟩ := List.mem_map.1 hf
  have hlocation := (hm w hmem).location
  rwa [target, hd.settings.1] at hlocation

/-- **Every file stands at the location of its destination.** -/
theorem entry?_of_movable (hn : (s.locations t).Nodup) :
    ∀ f ∈ s.files, entry? (d.place s.files) (t.target f.1) = some (.file f.2) := by
  intro f hf
  have htarget : d.target f.1 = t.target f.1 := by rw [target, target, hd.grown.settings.1]
  have hne := (fileLocation_ok (fileLocation_of_movable hd hw hm f hf)).2.1
  rw [← targets_of_writing hd] at hn
  rw [← htarget]
  refine entry?_place_of_mem hn hf ?_
  rw [htarget]
  exact ne_nil_of_ne_directory hne

/-- The commit has changed the tree under reserved names only. -/
theorem extends_of_movable (hc : ∀ loc ∈ p.created, EndsReserved s.reserved loc) :
    Extends s.reserved t (d.place s.files) := by
  have hsettings := hd.grown.settings
  refine ⟨by rw [workDir_place, hsettings.1], by rw [refuses_place, hsettings.2], fun dir name hname => ?_⟩
  have hfree : dir ++ [name] ∉ d.targets s.files := by
    rw [targets_of_writing hd, ← targets_files]
    intro hmem
    obtain ⟨f, hf, heq⟩ := List.mem_map.1 hmem
    obtain ⟨hl, he, -⟩ := fileLocation_ok (fileLocation_of_movable hd hw hm f hf)
    obtain ⟨x, hx, rfl⟩ := List.mem_map.1 hf
    exact (s.namesReserved x hx).ne hd.wellFormed hl he hname heq
  have hmade : dir ++ [name] ∉ p.created := fun hmem => not_endsReserved hname (hc _ hmem)
  rw [entry?_place_of_not_mem hfree, hd.grown.entry?_of_not_mem hmade]

/-- **The same commit succeeds again**, and changes nothing. -/
theorem commit_again (ht : t.WellFormed) (hc : ∀ loc ∈ p.created, EndsReserved s.reserved loc)
    (hn : (s.locations t).Nodup) :
    s.commit (d.place s.files) = (.ok (s.outputs.map Prod.fst), d.place s.files) := by
  obtain ⟨hwf, halike⟩ := alike_of_movable hd hw hm
  have hextends := extends_of_movable hd hw hm hc
  have hstart : Repeats s.reserved t (d.place s.files) { tree := t } { tree := d.place s.files } :=
    ⟨⟨t, .start ht⟩, .start hwf, fun _ hloc => absurd hloc List.not_mem_nil, rfl⟩
  obtain ⟨q, hw', hq⟩ := hstart.writeAll hextends s.namesReserved hw halike.grows
  -- the moves are the same, in a tree with the same directories
  have halike' : Alike p.tree q.tree := by
    refine ⟨?_, ?_, fun loc => (hq.second.directories loc).trans (halike.directory loc)⟩
    · rw [hq.second.settings.1, halike.workDir]
    · rw [hq.second.settings.2, halike.refuses]
  have hm' : ∀ w ∈ q.pending, Movable q.tree w := by
    intro w hmem
    have hstep := List.mem_map_of_mem (f := Pending.step) hmem
    rw [hq.steps] at hstep
    obtain ⟨first, hfirst, heq⟩ := List.mem_map.1 hstep
    exact ((hm first hfirst).of_step heq).alike halike'
  rw [commit_of_movable hq.second hw' hm']
  refine congrArg _ (place_eq_self fun f hf => ?_)
  have htarget : (d.place s.files).target f.1 = t.target f.1 := by
    rw [target, target, workDir_place, hd.grown.settings.1]
  rw [htarget]
  exact entry?_of_movable hd hw hm hn f hf

end

/-- **What a successful commit guarantees**, if the destinations denote distinct locations. -/
theorem committed_of_ok (ht : t.WellFormed) (hn : (s.locations t).Nodup) (h : (s.commit t).1 = .ok paths) :
    s.Committed t (s.commit t).2 paths := by
  obtain ⟨d, p, hd, hw, hm⟩ := commit_ok ht h
  have hmade : ∀ loc ∈ p.created, ∃ x ∈ s.outputs, ∃ above ∈ Path.beginnings (Path.parent x.1),
      NamedBy t above loc := fun loc hloc =>
    ((Writing.start ht).created_writeAll s.namesReserved hw loc hloc).resolve_left List.not_mem_nil
  have hc : ∀ loc ∈ p.created, EndsReserved s.reserved loc := by
    intro loc hloc
    obtain ⟨x, hx, above, habove, hnamed⟩ := hmade loc hloc
    exact (s.namesReserved x hx).endsReserved habove hnamed
  have hcommit := commit_of_movable hd hw hm
  obtain ⟨hwf, halike⟩ := alike_of_movable hd hw hm
  -- beside the destinations, the tree is that with the made directories
  have hbeside : ∀ loc ∉ s.locations t, entry? (d.place s.files) loc = d.entry? loc := by
    intro loc hloc
    rw [← targets_of_writing hd] at hloc
    exact entry?_place_of_not_mem hloc
  rw [hcommit] at h ⊢
  obtain rfl := Except.ok.inj h
  refine {
    destinations := ?destinations
    contents := ?contents
    kept := ?kept
    made := ?made
    wellFormed := hwf
    workDir := by rw [workDir_place, hd.grown.settings.1]
    again := commit_again hd hw hm ht hc hn }
  case destinations =>
    rw [outputs, List.map_map]
    rfl
  case contents =>
    intro a ha
    have hf : (s.destination a.path, a.contents.toUTF8) ∈ s.files := by
      rw [files_eq]
      exact List.mem_map.2 ⟨a, ha, rfl⟩
    have hlocation := fileLocation_of_movable hd hw hm _ hf
    have hentry := entry?_of_movable hd hw hm hn _ hf
    exact find_of_fileLocation (halike.fileLocation hlocation) hentry
  case kept =>
    intro loc hloc hthere
    rw [hbeside loc hloc]
    exact hd.grown.entry?_of_not_mem fun hmem => hthere (hd.grown.entry?_of_mem hmem).1
  case made =>
    intro loc hloc hfree hthere
    rw [hbeside loc hloc] at hthere ⊢
    have hmem : loc ∈ p.created := by
      by_contra hnot
      exact hthere (by rw [hd.grown.entry?_of_not_mem hnot, hfree])
    obtain ⟨x, hx, above, habove, hnamed⟩ := hmade loc hmem
    obtain ⟨a, ha, rfl⟩ := List.mem_map.1 hx
    exact ⟨(hd.grown.entry?_of_mem hmem).2, a, ha, above, habove, hnamed.1⟩

/-- A tree with a directory, a file in it, and a file beside it. -/
def packageTree : Tree where
  entries := [(["out"], .directory), (["out", "a.py"], .file "old".toUTF8), (["notes"], .file "kept".toUTF8)]

/-- Artifacts for two new files in a new directory, and between them, by way of that directory, for the file
that is there. -/
def packageStage : Stage where
  root := "out"
  artifacts := [⟨"new/b.py", "b"⟩, ⟨"new/../a.py", "a"⟩, ⟨"new/c.py", "c"⟩]

/-- The commit makes the directory once, and replaces the file. -/
theorem committed_of_ok_package :
    packageTree.WellFormed ∧ (packageStage.locations packageTree).Nodup ∧
    (packageStage.commit packageTree).1 = .ok ["out/new/b.py", "out/new/../a.py", "out/new/c.py"] ∧
    packageStage.Committed packageTree (packageStage.commit packageTree).2
      ["out/new/b.py", "out/new/../a.py", "out/new/c.py"] := by
  have ht : packageTree.WellFormed := by decide +kernel
  have hn : (packageStage.locations packageTree).Nodup := by decide +kernel
  have hok : (packageStage.commit packageTree).1 =
      .ok ["out/new/b.py", "out/new/../a.py", "out/new/c.py"] := by decide +kernel
  exact ⟨ht, hn, hok, committed_of_ok ht hn hok⟩

end Stage

end ApiCodegen.File
