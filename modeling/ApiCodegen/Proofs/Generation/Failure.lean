import ApiCodegen.Generation.Generator
import ApiCodegen.Proofs.File.Commit

/-!
# A failed run leaves the tree as it was

A run reads the tree until all files are rendered, then commits them, and only formats what was
committed. So what a commit guarantees is what the run guarantees.

* `Generator.generate_error`: **a document that cannot be generated leaves no trace.**
* `tree_eq_of_failure`: **neither a failed commit nor a failed run changes the tree.**
-/

namespace ApiCodegen.Generation

open File Tool

variable {g : Generator} {programs : Programs} {t : File.Tree} {failure : Failure}

namespace Generator

/-- Only the commit of a finished generation can fail. -/
theorem finish_error {r : Rendered} (ht : t.WellFormed)
    (h : (g.finish programs r t).1 = .error failure) : (g.finish programs r t).2 = t := by
  have hc (f : Failure) := Stage.commit_error (s := r.stage) ht (f := f)
  unfold finish at h ⊢
  split
  · rename_i f t' hs
    rw [hs] at hc
    exact hc f rfl
  · rename_i written t' hs
    simp [hs] at h

/-- **A document that cannot be generated leaves no trace.** -/
theorem generate_error {doc : Document} (ht : t.WellFormed)
    (h : (g.generate programs doc t).1.outcome = .error failure) :
    (g.generate programs doc t).2 = t := by
  unfold generate at h ⊢
  simp only at h ⊢
  split
  · -- nothing is staged in the tree before the commit
    rfl
  · rename_i r hr
    simp only [hr] at h ⊢
    exact finish_error ht h

/-- **A failed run leaves the tree as it was**, whatever the stage of the failure. -/
theorem run_error {sources : List String} (ht : t.WellFormed)
    (h : (g.run programs sources t).1.outcome = .error failure) :
    (g.run programs sources t).2 = t := by
  unfold run at h ⊢
  simp only at h ⊢
  split
  · -- the descriptions were only read
    rfl
  · rename_i doc hd
    simp only [hd] at h ⊢
    cases hg : (g.generate programs doc t).1.outcome with
    | error f => exact generate_error ht hg
    | ok report => simp [hg, Except.map] at h

end Generator

/-- **Neither a failed commit nor a failed run changes the tree.** -/
theorem tree_eq_of_failure (ht : t.WellFormed) :
    (∀ (s : Stage) failure, (s.commit t).1 = .error failure → (s.commit t).2 = t) ∧
      ∀ (g : Generator) programs sources failure,
        (g.run programs sources t).1.outcome = .error failure →
          (g.run programs sources t).2 = t :=
  ⟨fun _ _ h => Stage.commit_error ht h, fun _ _ _ _ h => Generator.run_error ht h⟩

/-- A tree with a description, a file and a directory. -/
def blockedTree : File.Tree where
  entries := [(["api.yaml"], .file "paths: \x7b\x7d\ncomponents: \x7b\x7d\n".toUTF8),
    (["old.py"], .file "old".toUTF8), (["blocked"], .directory)]

/-- Artifacts for a new directory, for the file and for the directory. -/
def blockedArtifacts : List Artifact :=
  [⟨"made/new.py", "new"⟩, ⟨"old.py", "new"⟩, ⟨"blocked", "new"⟩]

/-- A generator of artifacts of which the last cannot be moved into place. -/
def blockedGenerator : Generator where
  settings := {}
  bindings := ⟨[], List.nodup_nil⟩
  emitters := [⟨.python, fun _ => .ok blockedArtifacts, []⟩]

/-- The last move of a commit fails, after a directory was made and a file replaced. -/
theorem tree_eq_of_failure_last_move :
    ((Stage.mk "" blockedArtifacts).commit blockedTree).1 =
        .error (.commit "blocked" .isADirectory) ∧
      ((Stage.mk "" blockedArtifacts).commit blockedTree).2 = blockedTree ∧
      (blockedGenerator.run noPrograms ["api.yaml"] blockedTree).1.outcome =
        .error (.commit "./blocked" .isADirectory) ∧
      (blockedGenerator.run noPrograms ["api.yaml"] blockedTree).2 = blockedTree := by
  have ht : blockedTree.WellFormed := by decide +kernel
  have hc : ((Stage.mk "" blockedArtifacts).commit blockedTree).1 =
      .error (.commit "blocked" .isADirectory) := by decide +kernel
  have hr : (blockedGenerator.run noPrograms ["api.yaml"] blockedTree).1.outcome =
      .error (.commit "./blocked" .isADirectory) := by decide +kernel
  exact ⟨hc, (tree_eq_of_failure ht).1 _ _ hc, hr, (tree_eq_of_failure ht).2 _ _ _ _ hr⟩

end ApiCodegen.Generation
