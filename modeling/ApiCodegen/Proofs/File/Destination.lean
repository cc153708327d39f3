import ApiCodegen.Proofs.File.Repeat

/-!
# Where staged artifacts are written

A stage compares artifacts by their paths, and a commit writes them at the destinations of these. A path with
a dot in front is another path, but has the same destination below a root; and an absolute path is its own
destination, which a relative path can have as well.

* `Path.components_join`: the components of a destination.
* `Path.Collides`, `Path.components_join_eq_iff`: **which paths have one destination.**
* `Stage.nodup_foldl_stage`: however artifacts are staged, their paths are different.
* `Stage.commit_contents`: after a commit, each destination has the contents of the last artifact at its location.
* `Stage.forall_bytes?_commit_iff`: when each artifact is what its destination contains.
* `Stage.overwrites_iff`: **when artifacts overwrite each other.**
-/

namespace ApiCodegen.File

open ApiCodegen.File.Tree

/-! ## Paths -/

namespace Path

variable {base path other : String} {cs ds : List Char}

/-- The components of a path behind what it starts from. -/
def steps (path : String) : List Component := (segments path.toList).filterMap component?

theorem components_eq (path : String) : components path = start path.toList ++ steps path := rfl

theorem segments_ne_nil (cs : List Char) : segments cs ≠ [] := by
  unfold segments
  split
  · exact List.cons_ne_nil _ _
  · exact List.cons_ne_nil _ _
  · split <;> exact List.cons_ne_nil _ _

/-- A slash separates segments. -/
theorem segments_append (cs ds : List Char) : segments (cs ++ '/' :: ds) = segments cs ++ segments ds := by
  induction cs with
  | nil => rfl
  | cons c cs ih =>
    by_cases hc : c = '/'
    · subst hc
      rw [List.cons_append, segments, ih, segments]
      rfl
    · rw [List.cons_append, segments, segments, ih]
      · cases hcs : segments cs with
        | nil => exact absurd hcs (segments_ne_nil cs)
        | cons segment more => rfl
      · exact hc
      · exact hc

/-- A path starts from nothing, from where it is, or from the root. -/
theorem start_cases (cs : List Char) : start cs = [] ∨ start cs = [.here] ∨ start cs = [.root] := by
  unfold start
  split <;> simp

theorem start_eq_root_iff : start cs = [.root] ↔ cs.head? = some '/' := by
  unfold start
  split
  · simp
  · simp
  · simp
  · rename_i hroot _ _
    refine iff_of_false (by simp) fun h => ?_
    obtain ⟨rest, rfl⟩ := List.head?_eq_some_iff.1 h
    exact hroot rest rfl

/-- What follows a slash does not change what a path starts from. -/
theorem start_append (h : cs ≠ []) : start (cs ++ '/' :: ds) = start cs := by
  match cs, h with
  | [c], _ =>
    by_cases hroot : c = '/'
    · rw [hroot]
      rfl
    by_cases hdot : c = '.'
    · rw [hdot]
      rfl
    · simp [start, hroot, hdot]
  | c :: d :: rest, _ =>
    by_cases hroot : c = '/'
    · rw [hroot]
      rfl
    by_cases hdot : c = '.'
    · by_cases hslash : d = '/'
      · rw [hdot, hslash]
        rfl
      · simp [start, hdot, hslash]
    · simp [start, hroot, hdot]

/-- The steps of a path are names, or lead up. -/
theorem not_mem_steps {c : Component} (hc : c = .root ∨ c = .here) : c ∉ steps path := by
  intro hmem
  obtain ⟨segment, -, hsegment⟩ := List.mem_filterMap.1 hmem
  unfold component? at hsegment
  split at hsegment <;> rcases hc with rfl | rfl <;> simp at hsegment

/-- **The components of a path are given by its start and its steps.** -/
theorem components_eq_iff : components path = components other ↔
    start path.toList = start other.toList ∧ steps path = steps other := by
  have hparts (path : String) :
      (components path).filter (· ∈ [Component.root, .here]) = start path.toList ∧
        (components path).filter (· ∉ [Component.root, .here]) = steps path := by
    have hsteps : ∀ c ∈ steps path, c ∉ [Component.root, .here] := by
      intro c hc hmem
      exact not_mem_steps (by simpa using hmem) hc
    have hstart : ∀ c ∈ start path.toList, c ∈ [Component.root, .here] := by
      rcases start_cases path.toList with h | h | h <;> simp [h]
    rw [components_eq, List.filter_append, List.filter_append]
    constructor
    · rw [List.filter_eq_self.2 fun c hc => decide_eq_true (hstart c hc),
        List.filter_eq_nil_iff.2 fun c hc => by simpa using hsteps c hc, List.append_nil]
    · rw [List.filter_eq_nil_iff.2 fun c hc => by simpa [imp_iff_not_or] using hstart c hc,
        List.filter_eq_self.2 fun c hc => decide_eq_true (hsteps c hc), List.nil_append]
  constructor
  · intro h
    exact ⟨by rw [← (hparts path).1, h, (hparts other).1], by rw [← (hparts path).2, h, (hparts other).2]⟩
  · rintro ⟨hstart, hsteps⟩
    rw [components_eq, components_eq, hstart, hsteps]

/-- An absolute path is its own destination; so is every path below nothing. -/
theorem join_eq_self (h : start path.toList = [.root] ∨ base = "") : join base path = path := by
  rw [start_eq_root_iff] at h
  refine if_pos (h.imp_right fun hbase => ?_)
  rw [hbase]
  rfl

/-- **The components of a destination**: those of the root, and the steps of the path. -/
theorem components_join (hpath : start path.toList ≠ [.root]) (hbase : base ≠ "") :
    components (join base path) = components base ++ steps path := by
  have hrelative : ¬ (path.toList.head? = some '/' ∨ base.isEmpty) := by
    rw [← start_eq_root_iff]
    simpa [hpath] using hbase
  have hne : base.toList ≠ [] := by simpa using hbase
  rw [join, if_neg hrelative]
  split
  · rename_i hlast
    -- the root ends with the slash
    obtain ⟨front, hfront⟩ := List.getLast?_eq_some_iff.1 hlast
    have hstart : start (front ++ '/' :: path.toList) = start (front ++ ['/']) := by
      cases front with
      | nil => rfl
      | cons c front => rw [start_append (List.cons_ne_nil _ _), start_append (List.cons_ne_nil _ _)]
    have hempty : (segments []).filterMap component? = [] := rfl
    have hchars : (base ++ path).toList = front ++ '/' :: path.toList := by
      rw [String.toList_append, hfront, List.append_assoc]
      rfl
    rw [components, hchars, hstart, segments_append, components, hfront, segments_append, List.filterMap_append,
      List.filterMap_append, hempty, List.append_nil, List.append_assoc]
    rfl
  · have hchars : (base ++ "/" ++ path).toList = base.toList ++ '/' :: path.toList := by simp
    rw [components, hchars, start_append hne, segments_append, List.filterMap_append, ← List.append_assoc]
    rfl

/-- **A path has the destination of another one**, though they differ: it is the other with a dot in front, or
it is absolute. -/
def Collides (base path other : String) : Prop := base ≠ "" ∧
  (start path.toList = [.here] ∧ start other.toList = [] ∧ steps path = steps other ∨
    start path.toList = [.root] ∧ start other.toList ≠ [.root] ∧ components path = components base ++ steps other)

instance (base path other : String) : Decidable (Collides base path other) :=
  inferInstanceAs (Decidable (_ ∧ _))

/-- **Which paths have one destination**: those that are one path, and those that collide. -/
theorem components_join_eq_iff : components (join base path) = components (join base other) ↔
    components path = components other ∨ Collides base path other ∨ Collides base other path := by
  by_cases hbase : base = ""
  · rw [join_eq_self (.inr hbase), join_eq_self (.inr hbase)]
    simp [Collides, hbase]
  by_cases hpath : start path.toList = [.root]
  · by_cases hother : start other.toList = [.root]
    · rw [join_eq_self (.inl hpath), join_eq_self (.inl hother)]
      simp [Collides, hpath, hother]
    · have hne : components path ≠ components other := fun h =>
        hother ((components_eq_iff.1 h).1.symm.trans hpath)
      rw [join_eq_self (.inl hpath), components_join hother hbase]
      simp [Collides, hpath, hother, hbase, hne]
  · by_cases hother : start other.toList = [.root]
    · have hne : components path ≠ components other := fun h =>
        hpath ((components_eq_iff.1 h).1.trans hother)
      rw [join_eq_self (.inl hother), components_join hpath hbase, eq_comm]
      simp [Collides, hpath, hother, hbase, hne]
    · rw [components_join hpath hbase, components_join hother hbase, List.append_cancel_left_eq,
        components_eq_iff]
      -- relative paths with the same steps are the same, or one of them has a dot in front
      have hstarts := (start_cases path.toList).imp_right fun h => h.resolve_right hpath
      have hstarts' := (start_cases other.toList).imp_right fun h => h.resolve_right hother
      rcases hstarts with h | h <;> rcases hstarts' with h' | h' <;>
        simp [Collides, h, h', hbase, eq_comm]

end Path

/-! ## Staging -/

namespace Stage

variable {s : Stage} {t d : Tree} {p : Progress} {paths : List String}

/-- The paths of the artifacts, as paths are compared. -/
def given (s : Stage) : List (List Component) := s.artifacts.map fun a => Path.components a.path

/-- The destinations of the artifacts, as paths are compared. -/
def destinations (s : Stage) : List (List Component) :=
  s.artifacts.map fun a => Path.components (s.destination a.path)

/-- An artifact gets a path that no other one has, or takes over the path of another one. -/
theorem components_replace (new : Artifact) (artifacts : List Artifact) :
    (replace new artifacts).map (fun a => Path.components a.path) =
      if Path.components new.path ∈ artifacts.map (fun a => Path.components a.path) then
        artifacts.map fun a => Path.components a.path
      else artifacts.map (fun a => Path.components a.path) ++ [Path.components new.path] := by
  induction artifacts with
  | nil => rfl
  | cons a artifacts ih =>
    rw [replace]
    by_cases hsame : Path.components a.path = Path.components new.path
    · simp [Path.same, hsame]
    · have hother : Path.components new.path ≠ Path.components a.path := fun h => hsame h.symm
      simp only [Path.same, hsame, decide_false, Bool.false_eq_true, if_false, List.map_cons, ih,
        List.mem_cons, hother, false_or]
      split <;> rfl

/-- One more artifact keeps the paths different. -/
theorem nodup_stage (h : s.given.Nodup) (a : Artifact) : (s.stage a).given.Nodup := by
  have hgiven := components_replace a s.artifacts
  rw [given, stage, hgiven]
  split
  · exact h
  · rename_i hnew
    exact h.append (List.nodup_singleton _) (List.disjoint_singleton.2 hnew)

/-- **However artifacts are staged, their paths are different.** -/
theorem nodup_foldl_stage (h : s.given.Nodup) (calls : List Artifact) : (calls.foldl stage s).given.Nodup := by
  induction calls generalizing s with
  | nil => exact h
  | cons a calls ih => exact ih (nodup_stage h a)

theorem root_foldl_stage (s : Stage) (calls : List Artifact) : (calls.foldl stage s).root = s.root := by
  induction calls generalizing s with
  | nil => rfl
  | cons a calls ih => exact ih (s.stage a)

/-- **The destinations are different** exactly if no path collides with another one. -/
theorem nodup_destinations_iff (h : s.given.Nodup) : s.destinations.Nodup ↔
    ∀ a ∈ s.artifacts, ∀ b ∈ s.artifacts, ¬ Path.Collides s.root a.path b.path := by
  constructor
  · intro hn a ha b hb hcollides
    obtain rfl := List.inj_on_of_nodup_map hn ha hb (Path.components_join_eq_iff.2 (.inr (.inl hcollides)))
    -- no path collides with itself
    rcases hcollides.2 with ⟨hhere, hnone, -⟩ | ⟨hroot, hrelative, -⟩
    · rw [hhere] at hnone
      cases hnone
    · exact hrelative hroot
  · intro hnone
    refine List.Nodup.map_on (fun a ha b hb heq => ?_) h.of_map
    refine List.inj_on_of_nodup_map h ha hb ?_
    exact (Path.components_join_eq_iff.1 heq).resolve_right fun hcollides =>
      hcollides.elim (hnone a ha b hb) (hnone b hb a ha)

/-! ## Commits -/

/-- Of the things with one value there is a last one. -/
theorem exists_last {α β : Type} (f : α → β) {l : List α} {a : α} (h : a ∈ l) : ∃ front b back,
    l = front ++ b :: back ∧ f b = f a ∧ f a ∉ back.map f := by
  induction l generalizing a with
  | nil => cases h
  | cons c l ih =>
    by_cases hlater : f a ∈ l.map f
    · obtain ⟨later, hmem, heq⟩ := List.mem_map.1 hlater
      obtain ⟨front, b, back, rfl, hb, hnone⟩ := ih hmem
      rw [heq] at hb hnone
      exact ⟨c :: front, b, back, rfl, hb, hnone⟩
    · obtain rfl : a = c := (List.mem_cons.1 h).resolve_right fun hmem => hlater (List.mem_map_of_mem hmem)
      exact ⟨[], a, l, rfl, rfl, hlater⟩

/-- What a path leads to is there. -/
theorem entry?_of_find {path : String} {loc : Location} {e : Entry} (h : t.find path = .ok (loc, e)) :
    t.entry? loc = some e := by
  obtain ⟨⟨l, found⟩, hfound, hmore⟩ := bind_ok h
  have hentry := (findAt_ok hfound).2
  dsimp only at hmore
  split at hmore
  · obtain ⟨rfl, rfl⟩ := Prod.mk.inj (Except.ok.inj hmore)
    exact hentry
  · split at hmore
    · cases hmore
    · obtain ⟨rfl, rfl⟩ := Prod.mk.inj (Except.ok.inj hmore)
      exact hentry

/-- **What a destination contains** after a commit: the contents of the last artifact at its location. -/
theorem commit_contents (ht : t.WellFormed) (h : (s.commit t).1 = .ok paths) {a : Artifact}
    (ha : a ∈ s.artifacts) :
    ∃ front b back, s.artifacts = front ++ b :: back ∧
      t.target (s.destination b.path) = t.target (s.destination a.path) ∧
      (∀ c ∈ back, t.target (s.destination c.path) ≠ t.target (s.destination a.path)) ∧
      (s.commit t).2.find (s.destination a.path) =
        .ok (t.target (s.destination a.path), .file b.contents.toUTF8) := by
  obtain ⟨d, p, hd, hw, hm⟩ := commit_ok ht h
  obtain ⟨front, b, back, hsplit, hb, hlast⟩ := exists_last (fun a => t.target (s.destination a.path)) ha
  refine ⟨front, b, back, hsplit, hb, fun c hc heq => hlast (List.mem_map.2 ⟨c, hc, heq⟩), ?_⟩
  rw [commit_of_movable hd hw hm]
  have hmem (a : Artifact) (ha : a ∈ s.artifacts) : (s.destination a.path, a.contents.toUTF8) ∈ s.files := by
    rw [files_eq]
    exact List.mem_map.2 ⟨a, ha, rfl⟩
  have hlocation := fileLocation_of_movable hd hw hm _ (hmem a ha)
  have hne : t.target (s.destination a.path) ≠ [] :=
    ne_nil_of_ne_directory (fileLocation_ok hlocation).2.1
  have htarget (path : String) : d.target path = t.target path := by rw [target, target, hd.grown.settings.1]
  -- what is written behind the last one there goes to other locations
  have hentry : entry? (d.place s.files) (t.target (s.destination a.path)) = some (.file b.contents.toUTF8) := by
    rw [files_eq, hsplit, List.map_append, List.map_cons, ← hb, ← htarget]
    refine entry?_place_last ?_ (by rw [htarget, hb]; exact hne)
    rw [targets, List.map_map]
    simp only [htarget, hb, Function.comp_def]
    exact hlast
  exact find_of_fileLocation ((alike_of_movable hd hw hm).2.fileLocation hlocation) hentry

/-- The result of a commit lists the destinations. -/
theorem components_of_commit (ht : t.WellFormed) (h : (s.commit t).1 = .ok paths) :
    paths.map Path.components = s.destinations := by
  obtain ⟨d, p, hd, hw, hm⟩ := commit_ok ht h
  rw [commit_of_movable hd hw hm] at h
  obtain rfl := Except.ok.inj h
  rw [outputs, destinations, List.map_map, List.map_map]
  rfl

theorem bytes?_of_find {path : String} {loc : Location} {content : ByteArray}
    (h : t.find path = .ok (loc, .file content)) : t.bytes? path = some content := by rw [bytes?, h]

/-- **Each artifact is what its destination contains** after a commit exactly if those at one location have
the same contents. -/
theorem forall_bytes?_commit_iff (ht : t.WellFormed) (h : (s.commit t).1 = .ok paths) :
    (∀ a ∈ s.artifacts, (s.commit t).2.bytes? (s.destination a.path) = some a.contents.toUTF8) ↔
      ∀ a ∈ s.artifacts, ∀ b ∈ s.artifacts,
        t.target (s.destination a.path) = t.target (s.destination b.path) → a.contents = b.contents := by
  constructor
  · intro hall a ha b hb heq
    -- there is one file at the location of both
    obtain ⟨-, x, -, -, -, -, hx⟩ := commit_contents ht h ha
    obtain ⟨-, y, -, -, -, -, hy⟩ := commit_contents ht h hb
    have hentry := (entry?_of_find hx).symm.trans (heq ▸ entry?_of_find hy)
    have hxa := (bytes?_of_find hx).symm.trans (hall a ha)
    have hyb := (bytes?_of_find hy).symm.trans (hall b hb)
    have hxy : x.contents.toUTF8 = y.contents.toUTF8 := Entry.file.inj (Option.some.inj hentry)
    refine String.toByteArray_inj.1 ?_
    exact (Option.some.inj hxa).symm.trans (hxy.trans (Option.some.inj hyb))
  · intro hsame a ha
    obtain ⟨front, b, back, hsplit, htarget, -, hfind⟩ := commit_contents ht h ha
    have hb : b ∈ s.artifacts := hsplit ▸ List.mem_append_right _ List.mem_cons_self
    rw [bytes?_of_find hfind, hsame b hb a ha htarget]

/-- **When artifacts overwrite each other**, for every root and however artifacts are staged. Their paths are
different, and their destinations are exactly if no path collides with another one. After a commit that succeeds:

* The paths in the result are different exactly if no path collides with another one.
* Each destination contains what the last artifact at its location has.
* So each artifact is what its destination contains exactly if those at one location have the same contents. -/
theorem overwrites_iff (root : String) (calls : List Artifact) :
    let s := calls.foldl stage { root := root }
    let apart := ∀ a ∈ s.artifacts, ∀ b ∈ s.artifacts, ¬ Path.Collides root a.path b.path
    s.given.Nodup ∧ (s.destinations.Nodup ↔ apart) ∧
    ∀ (t : Tree) (paths : List String), t.WellFormed → (s.commit t).1 = .ok paths →
      ((paths.map Path.components).Nodup ↔ apart) ∧
      (∀ a ∈ s.artifacts, ∃ front b back, s.artifacts = front ++ b :: back ∧
        t.target (s.destination b.path) = t.target (s.destination a.path) ∧
        (∀ c ∈ back, t.target (s.destination c.path) ≠ t.target (s.destination a.path)) ∧
        (s.commit t).2.bytes? (s.destination a.path) = some b.contents.toUTF8) ∧
      ((∀ a ∈ s.artifacts, (s.commit t).2.bytes? (s.destination a.path) = some a.contents.toUTF8) ↔
        ∀ a ∈ s.artifacts, ∀ b ∈ s.artifacts,
          t.target (s.destination a.path) = t.target (s.destination b.path) → a.contents = b.contents) := by
  intro s apart
  have hgiven : s.given.Nodup := nodup_foldl_stage (s := { root := root }) List.nodup_nil calls
  have hroot : s.root = root := root_foldl_stage _ calls
  have hdestinations : s.destinations.Nodup ↔ apart := by
    rw [nodup_destinations_iff hgiven, hroot]
  refine ⟨hgiven, hdestinations, fun t paths ht h => ⟨?_, fun a ha => ?_, forall_bytes?_commit_iff ht h⟩⟩
  · rw [components_of_commit ht h]
    exact hdestinations
  · obtain ⟨front, b, back, hsplit, htarget, hlast, hfind⟩ := commit_contents ht h ha
    exact ⟨front, b, back, hsplit, htarget, hlast, bytes?_of_find hfind⟩

/-- Artifacts for a file in a new directory, and three for another file: the last has the path of the first,
and the one between them leads through the new directory. -/
def detourCalls : List Artifact :=
  [⟨"new/b.py", "b"⟩, ⟨"a.py", "first"⟩, ⟨"new/../a.py", "second"⟩, ⟨"a.py", "third"⟩]

/-- The paths in the result are different, and two of them are the same file. -/
theorem overwrites_iff_detour :
    let s := detourCalls.foldl stage { root := "out" }
    let paths := ["out/new/b.py", "out/a.py", "out/new/../a.py"]
    packageTree.WellFormed ∧ (s.commit packageTree).1 = .ok paths ∧ (paths.map Path.components).Nodup ∧
      ¬ ∀ a ∈ s.artifacts, (s.commit packageTree).2.bytes? (s.destination a.path) = some a.contents.toUTF8 := by
  intro s paths
  have ht : packageTree.WellFormed := by decide +kernel
  have hok : (s.commit packageTree).1 = .ok paths := by decide +kernel
  obtain ⟨-, -, hcommit⟩ := overwrites_iff "out" detourCalls
  obtain ⟨hpaths, -, hcontents⟩ := hcommit packageTree paths ht hok
  exact ⟨ht, hok, hpaths.2 (by decide +kernel), mt hcontents.1 (by decide +kernel)⟩

/-- A path and the same path with a dot in front: both are staged, and the second overwrites the first. -/
theorem not_apart_dot :
    let s := [⟨"a.py", "first"⟩, ⟨"./a.py", "second"⟩].foldl stage { root := "out" }
    s.artifacts = [⟨"a.py", "first"⟩, ⟨"./a.py", "second"⟩] ∧
      Path.components (s.destination "a.py") = Path.components (s.destination "./a.py") ∧
      (s.commit {}).1 = .ok ["out/a.py", "out/./a.py"] ∧
      (s.commit {}).2.bytes? (s.destination "a.py") = some "second".toUTF8 := by
  decide +kernel

end Stage

end ApiCodegen.File
