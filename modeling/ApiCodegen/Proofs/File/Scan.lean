import ApiCodegen.File.Scan
import ApiCodegen.Proofs.File.Below

/-!
# What a scan finds

A walk goes down from directory to directory and turns away where a name is passed over. What it meets is
given by the names on the way: none of them is passed over, and something is there.

* `extension?_eq_some_iff`: what an extension is.
* `Tree.mem_visits_iff`: **what a walk meets**, by induction on the levels.
* `Tree.nodup_visits`: it meets nothing twice.
* `mem_scan_iff`, `sorted_scan`: which files a scan finds, and their order.
* `scan_documents`: **a scan finds exactly the description files, in the order of their paths.**
-/

namespace ApiCodegen.File

/-! ## Descriptions by their names -/

/-- The last dot of a text, with what stands before and behind it. -/
theorem Path.dropWhile_reverse_eq {cs front back : List Char} (h : '.' ∉ back) (hcs : cs = front ++ '.' :: back) :
    cs.reverse.dropWhile (· != '.') = '.' :: front.reverse ∧
      cs.reverse.takeWhile (· != '.') = back.reverse := by
  have hall : ∀ c ∈ back.reverse, (c != '.') = true := fun c hc =>
    bne_iff_ne.2 fun hdot => h (hdot ▸ List.mem_reverse.1 hc)
  have hsplit : cs.reverse = back.reverse ++ '.' :: front.reverse := by simp [hcs]
  rw [hsplit, List.dropWhile_append_of_pos hall, List.takeWhile_append_of_pos hall]
  simp

/-- **What an extension is**: what stands behind the last dot, if something stands before it. -/
theorem Path.extension?_eq_some_iff {name extension : String} : extension? name = some extension ↔
    ∃ stem, stem ≠ "" ∧ name = stem ++ "." ++ extension ∧ '.' ∉ extension.toList := by
  constructor
  · intro h
    unfold extension? at h
    dsimp only at h
    split at h
    · cases h
    · cases h
    · rename_i hnone hone
      have hparts := List.takeWhile_append_dropWhile (p := (· != '.')) (l := name.toList.reverse)
      cases hdrop : name.toList.reverse.dropWhile (· != '.') with
      | nil => exact absurd hdrop hnone
      | cons dot front =>
        have hdot : dot = '.' := by
          have hhead := List.head?_dropWhile_not (· != '.') name.toList.reverse
          rw [hdrop] at hhead
          simpa using hhead
        have hfront : front ≠ [] := by
          rintro rfl
          exact hone dot hdrop
        rw [hdrop, hdot] at hparts
        have hback : ∀ c ∈ name.toList.reverse.takeWhile (· != '.'), c != '.' := fun c hc =>
          List.mem_takeWhile_imp (p := (· != '.')) hc
        generalize name.toList.reverse.takeWhile (· != '.') = back at h hparts hback
        obtain rfl := Option.some.inj h
        refine ⟨String.ofList front.reverse, by simpa using hfront, String.toList_inj.1 ?_, fun hmem => ?_⟩
        · simpa using congrArg List.reverse hparts.symm
        · simpa using hback '.' (by simpa using hmem)
  · rintro ⟨stem, hstem, rfl, hdot⟩
    have hchars : (stem ++ "." ++ extension).toList = stem.toList ++ '.' :: extension.toList := by simp
    obtain ⟨hdrop, htake⟩ := dropWhile_reverse_eq hdot hchars
    have hne : stem.toList.reverse ≠ [] := by simpa using hstem
    unfold extension?
    dsimp only
    rw [hdrop, htake]
    cases hrev : stem.toList.reverse with
    | nil => exact absurd hrev hne
    | cons c more => simp

/-- **When a path is that of a description**: its file name has one of the extensions. -/
theorem isDescription_iff {path : String} : isDescription path ↔ ∃ stem extension, stem ≠ "" ∧
    Path.fileName? path = some (stem ++ "." ++ extension) ∧ extension ∈ ["yaml", "yml", "json"] := by
  have hplain : ∀ extension ∈ descriptionExtensions, '.' ∉ extension.toList := by decide
  unfold isDescription
  constructor
  · intro h
    split at h
    · rename_i extension hextension
      obtain ⟨name, hname, hbehind⟩ := Option.bind_eq_some_iff.1 hextension
      obtain ⟨stem, hstem, rfl, -⟩ := Path.extension?_eq_some_iff.1 hbehind
      exact ⟨stem, extension, hstem, hname, List.contains_iff_mem.1 h⟩
    · cases h
  · rintro ⟨stem, extension, hstem, hname, hmem⟩
    have hextension : (Path.fileName? path).bind Path.extension? = some extension := by
      rw [hname, Option.bind_some, Path.extension?_eq_some_iff]
      exact ⟨stem, hstem, rfl, hplain extension hmem⟩
    rw [hextension]
    exact List.contains_iff_mem.2 hmem

/-- The file name of a path below another one is the last of the names. -/
theorem Path.fileName?_below {path : String} {names : List String} (hpath : path ≠ "") (hne : names ≠ [])
    (hnames : ∀ name ∈ names, IsName name) : fileName? (below path names) = names.getLast? := by
  obtain ⟨front, last, rfl⟩ := (List.eq_nil_or_concat' names).resolve_left hne
  have hlast : (components (below path (front ++ [last]))).getLast? = some (.name last) := by
    rw [components_below hpath hnames, List.map_append, ← List.append_assoc]
    exact List.getLast?_concat
  rw [fileName?, hlast, List.getLast?_concat]

/-- What a walk turns away from, in words. -/
theorem isSkipped_iff {name : String} :
    isSkipped name ↔ name.toList.head? = some '.' ∨ name = "target" ∨ name = "node_modules" := by
  simp [isSkipped, or_assoc]

/-! ## Walks -/

namespace Tree

variable {t : Tree} {dir : Location} {path root name : String} {levels : ℕ}

/-- Nothing is deeper than a tree is deep. -/
theorem length_le_depth {loc : Location} (h : t.entry? loc ≠ none) : loc.length ≤ t.depth := by
  rcases eq_or_ne loc [] with rfl | hne
  · exact Nat.zero_le _
  obtain ⟨x, hx, rfl⟩ := exists_mem_entries hne h
  unfold depth
  generalize t.entries = entries at hx
  induction entries with
  | nil => cases hx
  | cons y entries ih =>
    rcases List.mem_cons.1 hx with rfl | hx
    · exact le_max_left _ _
    · exact (ih hx).trans (le_max_right _ _)

/-- A walk meets nothing where there is no directory. -/
theorem visits_eq_nil (h : t.directory? root = none) : t.visits levels root = [] := by
  cases levels with
  | zero => rfl
  | succ levels => rw [visits, h]

/-- **One level of a walk.** -/
theorem mem_visits_succ (hdir : t.directory? root = some dir) : path ∈ t.visits (levels + 1) root ↔
    ∃ name, t.entry? (dir ++ [name]) ≠ none ∧ ¬ isSkipped name ∧
      (path = Path.join root name ∨ path ∈ t.visits levels (Path.join root name)) := by
  rw [visits, hdir]
  simp [mem_children_iff, and_assoc]

/-- A walk goes on below a name if there is a directory, and only then. -/
theorem directory?_join (ht : t.Regular) (hdir : t.directory? root = some dir)
    (h : t.entry? (dir ++ [name]) = some .directory) :
    t.directory? (Path.join root name) = some (dir ++ [name]) :=
  directory?_eq_some_iff.2 <|
    find_join (directory?_eq_some_iff.1 hdir) (ht.isName_below h name (List.mem_singleton_self name)) h

theorem directory?_join_of_mem_visits (ht : t.Regular) (hdir : t.directory? root = some dir)
    (hthere : t.entry? (dir ++ [name]) ≠ none) (h : path ∈ t.visits levels (Path.join root name)) :
    t.directory? (Path.join root name) = some (dir ++ [name]) := by
  obtain ⟨e, he⟩ := Option.ne_none_iff_exists'.1 hthere
  cases e with
  | directory => exact directory?_join ht hdir he
  | file bytes =>
    have hfile : t.find (Path.join root name) = .ok (dir ++ [name], .file bytes) :=
      find_join (directory?_eq_some_iff.1 hdir) (ht.isName_below he name (List.mem_singleton_self name)) he
    rw [visits_eq_nil (by rw [directory?, hfile])] at h
    cases h

/-- **What a walk meets**: what is there, if none of the names on the way is passed over. -/
theorem mem_visits_iff (ht : t.Regular) (hdir : t.directory? root = some dir) : path ∈ t.visits levels root ↔
    ∃ names, names ≠ [] ∧ names.length ≤ levels ∧ path = Path.below root names ∧ t.entry? (dir ++ names) ≠ none ∧
      ∀ name ∈ names, ¬ isSkipped name := by
  induction levels generalizing root dir with
  | zero =>
    refine iff_of_false List.not_mem_nil ?_
    rintro ⟨names, hne, hlevels, -⟩
    exact hne (List.length_eq_zero_iff.1 (Nat.le_zero.1 hlevels))
  | succ levels ih =>
    rw [mem_visits_succ hdir]
    constructor
    · rintro ⟨name, hthere, hname, rfl | hmore⟩
      · exact ⟨[name], by simp, by simp, rfl, hthere, by simpa using hname⟩
      · obtain ⟨names, -, hlevels, rfl, hentry, hnames⟩ :=
          (ih (directory?_join_of_mem_visits ht hdir hthere hmore)).1 hmore
        refine ⟨name :: names, by simp, by simpa using hlevels, rfl, ?_, List.forall_mem_cons.2 ⟨hname, hnames⟩⟩
        rwa [List.append_cons]
    · rintro ⟨names, hne, hlevels, rfl, hentry, hnames⟩
      cases names with
      | nil => exact absurd rfl hne
      | cons name names =>
        rw [List.forall_mem_cons] at hnames
        rw [List.append_cons] at hentry
        rcases eq_or_ne names [] with rfl | hmore
        · rw [List.append_nil] at hentry
          exact ⟨name, hentry, hnames.1, .inl rfl⟩
        · have hthere := ht.wellFormed.above hmore hentry
          refine ⟨name, by simp [hthere], hnames.1, .inr ((ih (directory?_join ht hdir hthere)).2 ?_)⟩
          exact ⟨names, hmore, by simpa using hlevels, rfl, hentry, hnames.2⟩

/-- The names in a directory are different. -/
theorem Regular.nodup_children (ht : t.Regular) (dir : Location) : (t.children dir).Nodup := by
  have hchildren : t.children dir = (t.entries.map Prod.fst).filterMap (childName? dir) := by
    rw [children, List.filterMap_map]
    rfl
  rw [hchildren]
  refine ht.distinct.filterMap fun a b name ha hb => ?_
  -- a name is in the directory at one location
  have hplace {loc : Location} (h : childName? dir loc = some name) : dir ++ [name] = loc := by
    unfold childName? at h
    split at h
    · rename_i hbehind
      rw [← Option.some.inj h]
      exact List.append_eq_of_isPrefixOf?_eq_some hbehind
    · cases h
  exact (hplace ha).symm.trans (hplace hb)

/-- What a walk meets below a name has this name behind the components of the root, and further ones behind it. -/
theorem exists_components (ht : t.Regular) (hdir : t.directory? root = some dir)
    (hthere : t.entry? (dir ++ [name]) ≠ none) (h : path ∈ t.visits levels (Path.join root name)) :
    ∃ names ≠ [], Path.components path = Path.components (Path.join root name) ++ names.map Component.name := by
  have hinner := directory?_join_of_mem_visits ht hdir hthere h
  obtain ⟨names, hne, -, rfl, hentry, -⟩ := (mem_visits_iff ht hinner).1 h
  have hnames : ∀ name ∈ names, IsName name :=
    fun name hname => ht.isName hentry name (List.mem_append_right _ hname)
  exact ⟨names, hne, Path.components_below (ne_empty_of_find (directory?_eq_some_iff.1 hinner)) hnames⟩

/-- **A walk meets nothing twice.** -/
theorem nodup_visits (ht : t.Regular) (hdir : t.directory? root = some dir) :
    (t.visits levels root).Pairwise fun a b => Path.components a ≠ Path.components b := by
  induction levels generalizing root dir with
  | zero => exact List.Pairwise.nil
  | succ levels ih =>
    have hroot : root ≠ "" := ne_empty_of_find (directory?_eq_some_iff.1 hdir)
    have hchild {name : String} (hname : name ∈ (t.children dir).filter fun name => !isSkipped name) :
        t.entry? (dir ++ [name]) ≠ none := mem_children_iff.1 (List.mem_of_mem_filter hname)
    rw [visits, hdir]
    refine List.pairwise_flatMap.2 ⟨fun name hname => List.pairwise_cons.2 ⟨fun path hpath heq => ?_, ?_⟩, ?_⟩
    · -- what is below a path has more components
      obtain ⟨names, hne, hcomponents⟩ := exists_components ht hdir (hchild hname) hpath
      rw [hcomponents] at heq
      exact hne (by simpa using heq)
    · cases hlevels : t.visits levels (Path.join root name) with
      | nil => exact List.Pairwise.nil
      | cons path more =>
        have hpath : path ∈ t.visits levels (Path.join root name) := hlevels ▸ List.mem_cons_self
        rw [← hlevels]
        exact ih (directory?_join_of_mem_visits ht hdir (hchild hname) hpath)
    · -- below different names the components differ where the names stand
      have hbehind {name path : String} (hname : name ∈ (t.children dir).filter fun name => !isSkipped name)
          (hpath : path ∈ Path.join root name :: t.visits levels (Path.join root name)) :
          ∃ more, Path.components path = Path.components root ++ .name name :: more := by
        have hjoin :=
          (ht.isName (hchild hname) name (List.mem_append_right _ List.mem_cons_self)).components_join hroot
        rcases List.mem_cons.1 hpath with rfl | hpath
        · exact ⟨[], hjoin⟩
        · obtain ⟨names, -, hcomponents⟩ := exists_components ht hdir (hchild hname) hpath
          exact ⟨names.map Component.name, by rw [hcomponents, hjoin, List.append_assoc]; rfl⟩
      refine ((ht.nodup_children dir).filter _).imp_of_mem fun ha hb hne x hx y hy heq => ?_
      obtain ⟨more, hmore⟩ := hbehind ha hx
      obtain ⟨more', hmore'⟩ := hbehind hb hy
      rw [hmore, hmore', List.append_cancel_left_eq, List.cons.injEq] at heq
      exact hne (Component.name.inj heq.1)

end Tree

/-! ## Scans -/

open ApiCodegen.File.Tree

/-- The files below a directory, among what is there. -/
theorem Tree.isFile_below_iff {t : Tree} {root : String} {dir : Location} {names : List String} {e : Entry}
    (ht : t.Regular) (hdir : t.directory? root = some dir) (he : t.entry? (dir ++ names) = some e) :
    t.isFile (Path.below root names) ↔ ∃ bytes, e = .file bytes := by
  rw [isFile, bytes?, find_below ht (directory?_eq_some_iff.1 hdir) he]
  cases e <;> simp

/-- What is sorted and different is strictly increasing. -/
theorem Path.sorted_mergeSort {paths : List String} (h : paths.Pairwise fun a b => components a ≠ components b) :
    ((paths.mergeSort le).map components).Pairwise (· < ·) := by
  have hsorted : (paths.mergeSort le).Pairwise fun a b => le a b :=
    List.pairwise_mergeSort le_of_le_of_le le_or_le paths
  have hdistinct : (paths.mergeSort le).Pairwise fun a b => components a ≠ components b :=
    ((List.mergeSort_perm paths le).pairwise_iff fun hne => Ne.symm hne).2 h
  refine List.pairwise_map.2 ((hsorted.and hdistinct).imp fun {a b} h => ?_)
  exact lt_of_le h.1 h.2

section

variable {t : Tree} {root : String} {dir : Location} {files : List String}

/-- What a scan gives for a directory. -/
theorem scan_eq (hdir : t.directory? root = some dir) : scan t root = .ok
    (((t.visits t.depth root).filter fun path => t.isFile path && isDescription path).mergeSort Path.le) := by
  rw [scan, isDirectory, hdir]
  rfl

/-- A file is not the directory that it is in. -/
theorem ne_nil_of_file (hdir : t.directory? root = some dir) {names : List String} {bytes : ByteArray}
    (he : t.entry? (dir ++ names) = some (.file bytes)) : names ≠ [] := by
  rintro rfl
  have hentry := (findAt_ok (findAt_of_find (directory?_eq_some_iff.1 hdir))).2
  simp [hentry] at he

/-- The files that are found stand in the order of their paths, each once. -/
theorem sorted_scan (ht : t.Regular) (hdir : t.directory? root = some dir) (h : scan t root = .ok files) :
    (files.map Path.components).Pairwise (· < ·) := by
  obtain rfl := Except.ok.inj ((scan_eq hdir).symm.trans h)
  exact Path.sorted_mergeSort ((nodup_visits ht hdir).filter _)

/-- **Which files are found**, by the names on the way to them. -/
theorem mem_scan_iff (ht : t.Regular) (hdir : t.directory? root = some dir) (h : scan t root = .ok files)
    {path : String} : path ∈ files ↔ ∃ names bytes, path = Path.below root names ∧
      t.entry? (dir ++ names) = some (.file bytes) ∧ (∀ name ∈ names, ¬ isSkipped name) ∧ isDescription path := by
  obtain rfl := Except.ok.inj ((scan_eq hdir).symm.trans h)
  rw [List.mem_mergeSort, List.mem_filter, Bool.and_eq_true, mem_visits_iff ht hdir]
  constructor
  · rintro ⟨⟨names, -, -, rfl, hthere, hnames⟩, hfile, hdescription⟩
    obtain ⟨e, he⟩ := Option.ne_none_iff_exists'.1 hthere
    obtain ⟨bytes, rfl⟩ := (isFile_below_iff ht hdir he).1 hfile
    exact ⟨names, bytes, rfl, he, hnames, hdescription⟩
  · rintro ⟨names, bytes, rfl, he, hnames, hdescription⟩
    have hthere : t.entry? (dir ++ names) ≠ none := he ▸ Option.some_ne_none _
    have hdepth : names.length ≤ t.depth :=
      (List.length_append ▸ Nat.le_add_left _ _).trans (length_le_depth hthere)
    exact ⟨⟨names, ne_nil_of_file hdir he, hdepth, rfl, hthere, hnames⟩,
      (isFile_below_iff ht hdir he).2 ⟨bytes, rfl⟩, hdescription⟩

/-- A description below a directory, by the names on the way. -/
theorem isDescription_below_iff (ht : t.Regular) (hdir : t.directory? root = some dir) {names : List String}
    {bytes : ByteArray} (he : t.entry? (dir ++ names) = some (.file bytes)) :
    isDescription (Path.below root names) ↔
      ∃ stem extension, stem ≠ "" ∧ names.getLast? = some (stem ++ "." ++ extension) ∧
        extension ∈ ["yaml", "yml", "json"] := by
  have hfind := directory?_eq_some_iff.1 hdir
  rw [isDescription_iff, Path.fileName?_below (ne_empty_of_find hfind) (ne_nil_of_file hdir he)
    (ht.isName_below he)]

/-- **A scan finds exactly the description files** below a directory, whatever its name and the spelling of
its path:

* The files are sorted by the components of their paths, so none is there twice.
* They are, by the names on the way to them, the files with one of the extensions such that no name is hidden
  or that of a build directory.
* Each path leads to its file. -/
theorem scan_documents (ht : t.Regular) (hdir : t.directory? root = some dir) :
    ∃ files, scan t root = .ok files ∧ (files.map Path.components).Pairwise (· < ·) ∧
      (∀ path, path ∈ files ↔ ∃ names bytes, path = Path.below root names ∧
        t.entry? (dir ++ names) = some (.file bytes) ∧
        (∀ name ∈ names, name.toList.head? ≠ some '.' ∧ name ≠ "target" ∧ name ≠ "node_modules") ∧
        ∃ stem extension, stem ≠ "" ∧ names.getLast? = some (stem ++ "." ++ extension) ∧
          extension ∈ ["yaml", "yml", "json"]) ∧
      ∀ path ∈ files, t.isFile path := by
  have hscan := scan_eq hdir
  refine ⟨_, hscan, sorted_scan ht hdir hscan, fun path => ?_, fun path hpath => ?_⟩
  · rw [mem_scan_iff ht hdir hscan]
    refine exists_congr fun names => exists_congr fun bytes => and_congr_right fun hpath =>
      and_congr_right fun he => ?_
    refine and_congr (forall₂_congr fun name _ => ?_) ?_
    · simp [isSkipped_iff]
    · rw [hpath]
      exact isDescription_below_iff ht hdir he
  · obtain ⟨names, bytes, rfl, he, -, -⟩ := (mem_scan_iff ht hdir hscan).1 hpath
    exact (isFile_below_iff ht hdir he).2 ⟨bytes, rfl⟩

end

/-- A directory with a name that is passed over, and in it descriptions whose order is not that of their
texts, beside what is no description and what is passed over. -/
def builtTree : Tree where
  workDir := ["w"]
  entries := [(["w"], .directory), (["w", "target"], .directory),
    (["w", "target", "a!.yaml"], .file "".toUTF8), (["w", "target", "a"], .directory),
    (["w", "target", "a", "b.json"], .file "".toUTF8), (["w", "target", "a", "target"], .directory),
    (["w", "target", "a", "target", "c.yml"], .file "".toUTF8), (["w", "target", ".d.yaml"], .file "".toUTF8),
    (["w", "target", "e.yaml"], .directory), (["w", "target", "f.txt"], .file "".toUTF8)]

/-- The files in the directory are found, for the directory itself can have any name. -/
theorem scan_documents_built : builtTree.Regular ∧ builtTree.directory? "target/." = some ["w", "target"] ∧
    scan builtTree "target/." = .ok ["target/./a/b.json", "target/./a!.yaml"] ∧
    ([Path.components "target/./a/b.json", Path.components "target/./a!.yaml"]).Pairwise (· < ·) := by
  have ht : builtTree.Regular := by decide +kernel
  have hdir : builtTree.directory? "target/." = some ["w", "target"] := by decide +kernel
  have hscan : scan builtTree "target/." = .ok ["target/./a/b.json", "target/./a!.yaml"] := by
    have hfound : ((builtTree.visits builtTree.depth "target/.").filter fun path =>
        builtTree.isFile path && isDescription path) =
          ["target/./a!.yaml", "target/./a/b.json"] := by decide +kernel
    have horder : Path.le "target/./a!.yaml" "target/./a/b.json" = false := by decide +kernel
    rw [scan, isDirectory, hdir, hfound]
    simp [List.mergeSort, horder]
  obtain ⟨files, hfiles, hsorted, -, -⟩ := scan_documents ht hdir
  obtain rfl := Except.ok.inj (hscan.symm.trans hfiles)
  exact ⟨ht, hdir, hscan, hsorted⟩

end ApiCodegen.File
