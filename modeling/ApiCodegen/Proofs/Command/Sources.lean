import ApiCodegen.Command.Run
import ApiCodegen.Proofs.File.Scan

/-!
# Which descriptions are read

The descriptions of a command are those that are named, and behind them those that are found in a directory. A
found file is left out if a named path has its components. Paths with other components can be those of the
same file: what is found has the path of the directory in front as it was given, and a named file can be
spelled without it.

* `Options.addNew_eq`: what is added to some paths.
* `Options.exists_names_of_mem_scan`: where a found file is, and how it is spelled.
* `Options.sources_eq`: the descriptions of a command.
* `Options.reads_once_iff`: **when no description is read twice.**
-/

namespace ApiCodegen.Command.Options

open File File.Tree

variable {o : Options} {t : Tree} {root path : String} {dir : Location} {found : List String}

/-- Whether a path is one of some others, as paths are compared. -/
theorem any_same_iff {paths : List String} :
    paths.any (Path.same path) ↔ Path.components path ∈ paths.map Path.components := by
  rw [List.any_eq_true, List.mem_map]
  refine exists_congr fun other => and_congr_right fun _ => ?_
  rw [Path.same, decide_eq_true_iff]
  exact eq_comm

/-- **What is added to some paths**: the further ones that are none of them, in order. -/
theorem addNew_eq {more : List String} (paths : List String)
    (h : more.Pairwise fun a b => Path.components a ≠ Path.components b) :
    addNew paths more = paths ++ more.filter fun path => Path.components path ∉ paths.map Path.components := by
  induction more generalizing paths with
  | nil => simp [addNew]
  | cons path more ih =>
    obtain ⟨hpath, hmore⟩ := List.pairwise_cons.1 h
    rw [addNew, ih _ hmore, List.filter_cons]
    by_cases hold : Path.components path ∈ paths.map Path.components
    · rw [if_pos (any_same_iff.2 hold), if_neg (by simpa using hold)]
    · -- the path that is added now is none of those behind it
      have hothers : more.filter (fun other => Path.components other ∉ (paths ++ [path]).map Path.components) =
          more.filter fun other => Path.components other ∉ paths.map Path.components := by
        refine List.filter_congr fun other hother => decide_eq_decide.2 (not_congr ?_)
        rw [List.map_append, List.mem_append, List.map_singleton, List.mem_singleton]
        exact or_iff_left (hpath other hother).symm
      rw [if_neg (mt any_same_iff.1 hold), if_pos (by simpa using hold), hothers, List.append_assoc]
      rfl

/-! ## Where found files are -/

/-- A file that is found is where the names behind the path of the directory say. -/
theorem exists_names_of_mem_scan (ht : t.Regular) (hdir : t.directory? root = some dir)
    (h : scan t root = .ok found)
    (hpath : path ∈ found) : ∃ names : List String, t.target path = dir ++ names ∧
      Path.components path = Path.components root ++ names.map File.Component.name := by
  obtain ⟨names, bytes, rfl, he, -, -⟩ := (mem_scan_iff ht hdir h).1 hpath
  have hfind := directory?_eq_some_iff.1 hdir
  exact ⟨names, target_of_find (find_below ht hfind he),
    Path.components_below (ne_empty_of_find hfind) (ht.isName_below he)⟩

/-- Files that are found are the same if their paths are. -/
theorem components_eq_of_target_eq (ht : t.Regular) (hdir : t.directory? root = some dir)
    (h : scan t root = .ok found)
    {other : String} (hpath : path ∈ found) (hother : other ∈ found) (heq : t.target path = t.target other) :
    Path.components path = Path.components other := by
  obtain ⟨names, htarget, hcomponents⟩ := exists_names_of_mem_scan ht hdir h hpath
  obtain ⟨names', htarget', hcomponents'⟩ := exists_names_of_mem_scan ht hdir h hother
  rw [htarget, htarget', List.append_cancel_left_eq] at heq
  rw [hcomponents, hcomponents', heq]

theorem pairwise_components (ht : t.Regular) (hdir : t.directory? root = some dir) (h : scan t root = .ok found) :
    found.Pairwise fun a b => Path.components a ≠ Path.components b := by
  refine (List.pairwise_map.1 (sorted_scan ht hdir h)).imp fun hlt heq => ?_
  rw [heq] at hlt
  exact List.lt_irrefl _ hlt

/-- No two files that are found are at one location. -/
theorem nodup_targets (ht : t.Regular) (hdir : t.directory? root = some dir) (h : scan t root = .ok found) :
    (found.map t.target).Nodup := by
  refine List.pairwise_map.2 ((pairwise_components ht hdir h).imp_of_mem fun ha hb hne heq => ?_)
  exact hne (components_eq_of_target_eq ht hdir h ha hb heq)

/-! ## The descriptions of a command -/

/-- The named paths, and the found ones that have the components of none of them. -/
def collected (o : Options) (found : List String) : List String :=
  o.schemas ++ found.filter fun file => Path.components file ∉ o.schemas.map Path.components

/-- Every found file that is one of the named files has the components of a named path. -/
def Recognized (o : Options) (t : Tree) (found : List String) : Prop :=
  ∀ file ∈ found, t.target file ∈ o.schemas.map t.target → Path.components file ∈ o.schemas.map Path.components

theorem sources_of_scan (ho : o.schemaDir = some root) (h : scan t root = .ok found) : o.sources t =
    match addNew o.schemas found with
    | [] => .error .noDocuments
    | sources => .ok sources := by
  simp only [sources, ho, h]
  rfl

/-- **The descriptions of a command**; there must be one. -/
theorem sources_eq (ht : t.Regular) (ho : o.schemaDir = some root) (hdir : t.directory? root = some dir)
    (h : scan t root = .ok found) :
    o.sources t = if o.collected found = [] then .error .noDocuments else .ok (o.collected found) := by
  rw [sources_of_scan ho h, collected, ← addNew_eq o.schemas (pairwise_components ht hdir h)]
  cases addNew o.schemas found <;> rfl

/-- Paths with the same components are those of one file. -/
theorem target_mem_of_components_mem {paths : List String}
    (h : Path.components path ∈ paths.map Path.components) : t.target path ∈ paths.map t.target := by
  obtain ⟨other, hother, heq⟩ := List.mem_map.1 h
  exact List.mem_map.2 ⟨other, hother, by rw [target, target, heq]⟩

/-- The found files that are read are those that are none of the named files if these are recognized. -/
theorem collected_eq_iff : o.collected found =
    o.schemas ++ found.filter (fun file => t.target file ∉ o.schemas.map t.target) ↔ o.Recognized t found := by
  rw [collected, List.append_cancel_left_eq]
  constructor
  · intro heq file hfile htarget
    by_contra hnew
    have hmem : file ∈ found.filter fun file => Path.components file ∉ o.schemas.map Path.components :=
      List.mem_filter.2 ⟨hfile, decide_eq_true hnew⟩
    rw [heq] at hmem
    exact of_decide_eq_true (List.mem_filter.1 hmem).2 htarget
  · intro hrecognized
    refine List.filter_congr fun file hfile => decide_eq_decide.2 (not_congr ?_)
    exact ⟨target_mem_of_components_mem, hrecognized file hfile⟩

/-- No file is read twice if none is named twice, and the found ones among them are recognized. -/
theorem nodup_collected_iff (hn : (found.map t.target).Nodup) : ((o.collected found).map t.target).Nodup ↔
    (o.schemas.map t.target).Nodup ∧ o.Recognized t found := by
  have hkept :
      ((found.filter fun file => Path.components file ∉ o.schemas.map Path.components).map t.target).Nodup :=
    hn.sublist (List.filter_sublist.map _)
  rw [collected, List.map_append, List.nodup_append]
  refine and_congr_right fun _ => ⟨fun ⟨_, hapart⟩ file hfile htarget => ?_, fun hrecognized => ⟨hkept, ?_⟩⟩
  · by_contra hnew
    have hmem : file ∈ found.filter fun file => Path.components file ∉ o.schemas.map Path.components :=
      List.mem_filter.2 ⟨hfile, decide_eq_true hnew⟩
    exact hapart _ htarget _ (List.mem_map_of_mem hmem) rfl
  · rintro loc hnamed _ hfound rfl
    obtain ⟨file, hfile, rfl⟩ := List.mem_map.1 hfound
    obtain ⟨hmem, hnew⟩ := List.mem_filter.1 hfile
    exact of_decide_eq_true hnew (hrecognized file hmem hnamed)

/-- **When no description is read twice**, for every directory that is searched. What is read are the named
files, in their order, and behind them, in the order of their paths, the found ones whose components no named
path has; it is a fault if there are none. Two paths are those of one file if they denote the same location,
seen from the working directory.

* The found files that are read are those that are none of the named files exactly if every found file that is
  one of them has the components of a named path.
* No file is read twice exactly if this is so and no file is named twice. -/
theorem reads_once_iff (ht : t.Regular) (ho : o.schemaDir = some root) (hroot : t.isDirectory root) :
    ∃ found, scan t root = .ok found ∧
      o.sources t = (if o.collected found = [] then .error .noDocuments else .ok (o.collected found)) ∧
      (o.collected found = o.schemas ++ found.filter (fun file => t.target file ∉ o.schemas.map t.target) ↔
        o.Recognized t found) ∧
      (((o.collected found).map t.target).Nodup ↔ (o.schemas.map t.target).Nodup ∧ o.Recognized t found) := by
  obtain ⟨dir, hdir⟩ := Option.isSome_iff_exists.1 hroot
  have hscan := scan_eq hdir
  exact ⟨_, hscan, sources_eq ht ho hdir hscan, collected_eq_iff,
    nodup_collected_iff (nodup_targets ht hdir hscan)⟩

/-- Two descriptions in the working directory. -/
def twoTree : Tree where
  workDir := ["w"]
  entries := [(["w"], .directory), (["w", "a.yaml"], .file "".toUTF8), (["w", "b.yaml"], .file "".toUTF8)]

theorem scan_twoTree : scan twoTree "." = .ok ["./a.yaml", "./b.yaml"] := by
  have hdir : twoTree.directory? "." = some ["w"] := by decide +kernel
  have hfound :
      ((twoTree.visits twoTree.depth ".").filter fun path => twoTree.isFile path && isDescription path) =
      ["./a.yaml", "./b.yaml"] := by decide +kernel
  have horder : Path.le "./a.yaml" "./b.yaml" = true := by decide +kernel
  rw [scan_eq hdir, hfound]
  simp [List.mergeSort, horder]

/-- A named file that is spelled as it is found is read once, before the other one. -/
theorem reads_once_iff_spelled :
    let o : Options := { schemas := ["./b.yaml"], schemaDir := some "." }
    twoTree.Regular ∧ twoTree.isDirectory "." ∧ o.sources twoTree = .ok ["./b.yaml", "./a.yaml"] ∧
      (["./b.yaml", "./a.yaml"].map twoTree.target).Nodup := by
  intro o
  have ht : twoTree.Regular := by decide +kernel
  have hroot : twoTree.isDirectory "." := by decide +kernel
  obtain ⟨found, hfound, hsources, -, honce⟩ := reads_once_iff (o := o) ht rfl hroot
  obtain rfl := Except.ok.inj (scan_twoTree.symm.trans hfound)
  have hcollected : o.collected ["./a.yaml", "./b.yaml"] = ["./b.yaml", "./a.yaml"] := by decide +kernel
  rw [hcollected] at hsources honce
  refine ⟨ht, hroot, hsources, honce.2 ⟨by decide +kernel, ?_⟩⟩
  unfold Recognized
  decide +kernel

/-- A named file that is spelled without the directory is read twice. -/
theorem not_reads_once_dot :
    let o : Options := { schemas := ["a.yaml"], schemaDir := some "." }
    o.sources twoTree = .ok ["a.yaml", "./a.yaml", "./b.yaml"] ∧
      twoTree.target "a.yaml" = twoTree.target "./a.yaml" := by
  intro o
  refine ⟨?_, by decide +kernel⟩
  rw [sources_of_scan (o := o) rfl scan_twoTree]
  decide +kernel

end ApiCodegen.Command.Options
