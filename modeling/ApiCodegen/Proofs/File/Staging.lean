import ApiCodegen.Proofs.FirstSeen
import ApiCodegen.Proofs.File.Destination

/-!
# What a stage holds

A stage is a map from paths to artifacts, in the order in which the paths were first staged. Paths are
compared by their components, and an artifact that takes the place of another one brings its own spelling of
the path.

* `Stage.given_foldl_stage`: the paths of the artifacts are those that were staged, each once, in this order.
* `Stage.get?_stage`: an artifact is found by its path, and by every other path what was found before.
* `Stage.get?_foldl_stage`: **by each path the artifact is found that was staged last for it.**
* `Stage.holds_last`: what is staged, and what is found, however artifacts are staged.
-/

namespace ApiCodegen.File.Stage

variable {s : Stage} {a : Artifact} {path : String}

/-- The paths that artifacts are staged for, as paths are compared. -/
def staged (calls : List Artifact) : List (List Component) := calls.map fun a => Path.components a.path

/-- The artifact that is staged last for a path. -/
def last? (calls : List Artifact) (path : String) : Option Artifact :=
  calls.reverse.find? fun a => Path.same a.path path

theorem same_iff {other : String} : Path.same path other ↔ Path.components path = Path.components other :=
  decide_eq_true_iff

theorem last?_concat (calls : List Artifact) (a : Artifact) (path : String) :
    last? (calls ++ [a]) path = if Path.same a.path path then some a else last? calls path := by
  rw [last?, List.reverse_append, List.reverse_singleton, List.singleton_append, List.find?_cons]
  cases Path.same a.path path <;> rfl

/-- What is staged last for a path has this path, and nothing behind it has. -/
theorem last?_eq_some (calls : List Artifact) (h : last? calls path = some a) :
    Path.components a.path = Path.components path ∧ ∃ front back, calls = front ++ a :: back ∧
      ∀ c ∈ back, Path.components c.path ≠ Path.components path := by
  obtain ⟨hsame, behind, before, hcalls, hother⟩ := List.find?_eq_some_iff_append.1 h
  refine ⟨same_iff.1 hsame, before.reverse, behind.reverse, ?_, fun c hc hpath => ?_⟩
  · rw [← List.reverse_reverse calls, hcalls]
    simp
  · have hnot := hother c (List.mem_reverse.1 hc)
    rw [same_iff.2 hpath] at hnot
    cases hnot

theorem last?_eq_none_iff {calls : List Artifact} :
    last? calls path = none ↔ Path.components path ∉ staged calls := by
  simp [last?, staged, same_iff]

/-! ## One more artifact -/

/-- What is found among artifacts of which one gives way to another of the same path. -/
theorem find?_replace (new : Artifact) (artifacts : List Artifact) (path : String) :
    (replace new artifacts).find? (fun a => Path.same a.path path) =
      if Path.same new.path path then some new else artifacts.find? fun a => Path.same a.path path := by
  induction artifacts with
  | nil =>
    rw [replace, List.find?_cons]
    cases Path.same new.path path <;> rfl
  | cons a artifacts ih =>
    rw [replace]
    split
    · rename_i hsame
      -- the artifact that gives way is found by the same paths
      have hpaths : Path.same a.path path = Path.same new.path path := by
        rw [Path.same, Path.same, same_iff.1 hsame]
      rw [List.find?_cons, List.find?_cons, hpaths]
      cases Path.same new.path path <;> rfl
    · rename_i hother
      rw [List.find?_cons, List.find?_cons, ih]
      split
      · rename_i hfound
        have hnew : ¬ Path.same new.path path := fun hnew =>
          hother (same_iff.2 ((same_iff.1 hfound).trans (same_iff.1 hnew).symm))
        rw [if_neg hnew]
      · rfl

/-- **One more artifact is found by its path**, and by every other path what was found before. -/
theorem get?_stage (s : Stage) (a : Artifact) (path : String) :
    (s.stage a).get? path = if Path.same a.path path then some a else s.get? path :=
  find?_replace a s.artifacts path

/-- The paths of a stage keep their order, and a new one stands behind them. -/
theorem given_stage (s : Stage) (a : Artifact) : (s.stage a).given =
    if Path.components a.path ∈ s.given then s.given else s.given ++ [Path.components a.path] :=
  components_replace a s.artifacts

/-! ## Many artifacts -/

/-- **The paths of a stage** are those that were staged, each once, in the order in which they were staged
first. -/
theorem given_foldl_stage (root : String) (calls : List Artifact) :
    (calls.foldl stage { root := root }).given = (staged calls).eraseDups := by
  induction calls using List.reverseRecOn with
  | nil => rfl
  | append_singleton calls a ih =>
    have hstaged : staged (calls ++ [a]) = staged calls ++ [Path.components a.path] := List.map_append
    rw [List.foldl_append, List.foldl_cons, List.foldl_nil, given_stage, ih, hstaged]
    split
    · rename_i hold
      rw [eraseDups_append_cons_of_mem (List.mem_eraseDups.1 hold), List.append_nil]
    · rename_i hnew
      have hoff : [Path.components a.path].removeAll (staged calls) = [Path.components a.path] := by
        simpa [List.removeAll] using mt List.mem_eraseDups.2 hnew
      rw [List.eraseDups_append, hoff, eraseDups_of_nodup (List.nodup_singleton _)]

/-- **By each path the artifact is found that was staged last for it.** -/
theorem get?_foldl_stage (root : String) (calls : List Artifact) (path : String) :
    (calls.foldl stage { root := root }).get? path = last? calls path := by
  induction calls using List.reverseRecOn with
  | nil => rfl
  | append_singleton calls a ih =>
    rw [List.foldl_append, List.foldl_cons, List.foldl_nil, get?_stage, ih, last?_concat]

/-- If the paths are different, an artifact is found by its path, however that is spelled. -/
theorem get?_of_mem (hn : s.given.Nodup) (ha : a ∈ s.artifacts)
    (h : Path.components path = Path.components a.path) :
    s.get? path = some a := by
  have hfound : (s.artifacts.find? fun a => Path.same a.path path).isSome :=
    List.find?_isSome.2 ⟨a, ha, same_iff.2 h.symm⟩
  obtain ⟨b, hb⟩ := Option.isSome_iff_exists.1 hfound
  have hsame := List.find?_some hb
  obtain rfl := List.inj_on_of_nodup_map hn (List.mem_of_find?_eq_some hb) ha ((same_iff.1 hsame).trans h)
  exact hb

/-- **What a stage holds**, for every root and however artifacts are staged:

* The paths of the artifacts are different. They are those that were staged, in the order in which they were
  staged first.
* Each artifact is, spelling and contents, what was staged last for its path.
* It is found by every path that is equal to its own, and nothing is found by a path that was not staged. -/
theorem holds_last (root : String) (calls : List Artifact) :
    let s := calls.foldl stage { root := root }
    s.given.Nodup ∧ s.given = (staged calls).eraseDups ∧
    (∀ a ∈ s.artifacts, ∃ front back, calls = front ++ a :: back ∧
      ∀ c ∈ back, Path.components c.path ≠ Path.components a.path) ∧
    (∀ a ∈ s.artifacts, ∀ path, Path.components path = Path.components a.path → s.get? path = some a) ∧
    ∀ path, Path.components path ∉ staged calls → s.get? path = none := by
  intro s
  have hgiven : s.given = (staged calls).eraseDups := given_foldl_stage root calls
  have hnodup : s.given.Nodup := hgiven ▸ nodup_eraseDups _
  refine ⟨hnodup, hgiven, fun a ha => ?_, fun a ha path => get?_of_mem hnodup ha, fun path hnot => ?_⟩
  · have hlast : last? calls a.path = some a :=
      (get?_foldl_stage root calls a.path).symm.trans (get?_of_mem hnodup ha rfl)
    exact (last?_eq_some calls hlast).2
  · exact (get?_foldl_stage root calls path).trans (last?_eq_none_iff.2 hnot)

/-- A path that is spelled in another way when it is staged again, between artifacts of other paths. -/
def respelledCalls : List Artifact := [⟨"a//b.py", "1"⟩, ⟨"./a/b.py", "2"⟩, ⟨"c.py", "3"⟩, ⟨"a/./b.py", "4"⟩]

/-- The artifact stays in front, with the spelling and the contents of the later call. -/
theorem holds_last_respelled :
    let s := respelledCalls.foldl stage { root := "out" }
    s.artifacts = [⟨"a/./b.py", "4"⟩, ⟨"./a/b.py", "2"⟩, ⟨"c.py", "3"⟩] ∧
      s.get? "a/b.py/" = some ⟨"a/./b.py", "4"⟩ ∧ s.get? "b.py" = none := by
  intro s
  have hartifacts : s.artifacts = [⟨"a/./b.py", "4"⟩, ⟨"./a/b.py", "2"⟩, ⟨"c.py", "3"⟩] := by decide +kernel
  obtain ⟨-, -, -, hfound, hmissing⟩ := holds_last "out" respelledCalls
  refine ⟨hartifacts, hfound ⟨"a/./b.py", "4"⟩ ?_ "a/b.py/" (by decide +kernel),
    hmissing "b.py" (by decide +kernel)⟩
  exact hartifacts ▸ List.mem_cons_self

end ApiCodegen.File.Stage
