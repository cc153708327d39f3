import ApiCodegen.Tool.Format

/-!
# Which formatter does the work

Formatters are tried one after the other, each on the tree that the one before it left. A formatter can fail
in two ways: it cannot be started, and leaves the tree as it is, or it is started and exits without success,
and leaves what it has done so far.

* `launch`: what an invocation does in a directory.
* `Misses`, `MissesAll`: attempts that fail, with the remarks on them.
* `Formats`: what can become of files.
* `format_eq_iff`: **what becomes of files.**
-/

namespace ApiCodegen.Tool

open File

variable {programs : Programs} {directory : String} {files : List String} {i : Invocation}
  {commands : List Invocation}
  {target : Target} {remark : String} {remarks tried : List String} {t mid t' : Tree}

/-- How an invocation ends that is started in a directory, and the tree that it leaves. It is none if the
invocation cannot be started: there is no such directory, or no such program. -/
def launch (programs : Programs) (directory : String) (files : List String) (i : Invocation) (t : Tree) :
    Option (Exit × Tree) :=
  (t.directory? directory).bind fun dir =>
    (programs i files { t with workDir := dir }).map fun (ending, after) =>
      (ending, { after with workDir := t.workDir })

/-- An invocation exits successfully. -/
def Works (programs : Programs) (directory : String) (files : List String) (i : Invocation)
    (t t' : Tree) : Prop :=
  ∃ ending, launch programs directory files i t = some (ending, t') ∧ ending.isSuccess

/-- An invocation fails, with the remark on it and the tree that it leaves. -/
inductive Misses (programs : Programs) (directory : String) (files : List String) (i : Invocation) (t : Tree) :
    String → Tree → Prop
  | unavailable : launch programs directory files i t = none →
      Misses programs directory files i t ("`" ++ i.text ++ "` is not available") t
  | exited {ending : Exit} {t' : Tree} :
      launch programs directory files i t = some (ending, t') → ¬ ending.isSuccess →
      Misses programs directory files i t ("`" ++ i.text ++ "` exited with " ++ ending.text) t'

/-- Invocations fail one after the other, each on the tree that the one before it left. -/
inductive MissesAll (programs : Programs) (directory : String) (files : List String) :
    Tree → List Invocation → List String → Tree → Prop
  | nil {t : Tree} : MissesAll programs directory files t [] [] t
  | cons {t mid t' : Tree} {i : Invocation} {more : List Invocation} {remark : String} {remarks : List String} :
      Misses programs directory files i t remark mid → MissesAll programs directory files mid more remarks t' →
      MissesAll programs directory files t (i :: more) (remark :: remarks) t'

/-- What can become of files.

* Nothing is tried if there are none.
* They are formatted by the first invocation that exits successfully, and no later one is started: the tree is
  as that one left it.
* They stay unformatted if all invocations fail. -/
inductive Formats (programs : Programs) (target : Target) (commands : List Invocation) (files : List String)
    (directory : String) (t : Tree) : FormatOutcome → Tree → Prop
  | noFiles : files = [] → Formats programs target commands files directory t .noFiles t
  | formatted {before behind : List Invocation} {i : Invocation} {remarks : List String} {mid t' : Tree} :
      files ≠ [] →
      commands = before ++ i :: behind → MissesAll programs directory files t before remarks mid →
      Works programs directory files i mid t' →
      Formats programs target commands files directory t (.formatted i.text) t'
  | skipped {remarks : List String} {t' : Tree} : files ≠ [] →
      MissesAll programs directory files t commands remarks t' →
      Formats programs target commands files directory t (.skipped ⟨target, unformatted remarks⟩) t'

/-! ## One attempt -/

theorem attempt_eq (programs : Programs) (directory : String) (files : List String) (i : Invocation) (t : Tree) :
    attempt programs directory files i t =
      match launch programs directory files i t with
      | none => (some ("`" ++ i.text ++ "` is not available"), t)
      | some (ending, t') =>
        (if ending.isSuccess then none else some ("`" ++ i.text ++ "` exited with " ++ ending.text), t') := by
  unfold attempt launch
  cases t.directory? directory with
  | none => rfl
  | some dir =>
    simp only [Option.bind_some]
    cases programs i files { t with workDir := dir } with
    | none => rfl
    | some result =>
      simp only [Option.map_some]
      split <;> rfl

theorem attempt_none_iff : attempt programs directory files i t = (none, t') ↔
    Works programs directory files i t t' := by
  rw [attempt_eq]
  constructor
  · intro h
    cases hl : launch programs directory files i t with
    | none =>
      rw [hl] at h
      cases (Prod.mk.inj h).1
    | some result =>
      obtain ⟨ending, after⟩ := result
      rw [hl] at h
      obtain ⟨hremark, rfl⟩ := Prod.mk.inj h
      split at hremark
      · exact ⟨ending, hl, ‹_›⟩
      · cases hremark
  · rintro ⟨ending, hl, hsuccess⟩
    rw [hl]
    simp only [if_pos hsuccess]

theorem attempt_some_iff : attempt programs directory files i t = (some remark, t') ↔
    Misses programs directory files i t remark t' := by
  rw [attempt_eq]
  constructor
  · intro h
    cases hl : launch programs directory files i t with
    | none =>
      rw [hl] at h
      obtain ⟨hremark, rfl⟩ := Prod.mk.inj h
      exact Option.some.inj hremark ▸ .unavailable hl
    | some result =>
      obtain ⟨ending, after⟩ := result
      rw [hl] at h
      obtain ⟨hremark, rfl⟩ := Prod.mk.inj h
      split at hremark
      · cases hremark
      · exact Option.some.inj hremark ▸ .exited hl ‹_›
  · intro h
    cases h with
    | unavailable hl => rw [hl]
    | exited hl hfail =>
      rw [hl]
      simp only [if_neg hfail]

/-! ## All attempts -/

theorem firstWorking_ok_iff : firstWorking programs directory files tried t commands = (.ok i, t') ↔
    ∃ before behind remarks mid, commands = before ++ i :: behind ∧
      MissesAll programs directory files t before remarks mid ∧ Works programs directory files i mid t' := by
  induction commands generalizing tried t with
  | nil => simp [firstWorking]
  | cons j more ih =>
    rw [firstWorking]
    constructor
    · intro h
      split at h
      · rename_i after hj
        obtain ⟨hij, rfl⟩ := Prod.mk.inj h
        obtain rfl := Except.ok.inj hij
        exact ⟨[], more, [], t, rfl, .nil, attempt_none_iff.1 hj⟩
      · rename_i remark after hj
        obtain ⟨before, behind, remarks, mid, rfl, hbefore, hi⟩ := ih.1 h
        exact ⟨j :: before, behind, remark :: remarks, mid, rfl, .cons (attempt_some_iff.1 hj) hbefore, hi⟩
    · rintro ⟨before, behind, remarks, mid, heq, hbefore, hi⟩
      cases hbefore with
      | nil =>
        obtain ⟨rfl, -⟩ := List.cons.inj heq
        rw [attempt_none_iff.2 hi]
      | cons hj hbefore =>
        obtain ⟨rfl, rfl⟩ := List.cons.inj heq
        rw [attempt_some_iff.2 hj]
        exact ih.2 ⟨_, behind, _, mid, rfl, hbefore, hi⟩

theorem firstWorking_error_iff : firstWorking programs directory files tried t commands = (.error remarks, t') ↔
    ∃ further, remarks = tried ++ further ∧ MissesAll programs directory files t commands further t' := by
  induction commands generalizing tried t with
  | nil =>
    rw [firstWorking, Prod.mk.injEq, Except.error.injEq]
    constructor
    · rintro ⟨rfl, rfl⟩
      exact ⟨[], (List.append_nil _).symm, .nil⟩
    · rintro ⟨further, rfl, hnil⟩
      cases hnil
      exact ⟨(List.append_nil _).symm, rfl⟩
  | cons j more ih =>
    rw [firstWorking]
    constructor
    · intro h
      split at h
      · cases (Prod.mk.inj h).1
      · rename_i remark after hj
        obtain ⟨further, rfl, hmore⟩ := ih.1 h
        exact ⟨remark :: further, List.append_assoc .., .cons (attempt_some_iff.1 hj) hmore⟩
    · rintro ⟨further, rfl, h⟩
      cases h with
      | cons hj hmore =>
        rw [attempt_some_iff.2 hj]
        exact ih.2 ⟨_, List.append_cons .., hmore⟩

/-- **What becomes of files**: the outcome is the one that `Formats` describes, and no other is. -/
theorem format_eq_iff {outcome : FormatOutcome} :
    format programs target commands files directory t = (outcome, t') ↔
      Formats programs target commands files directory t outcome t' := by
  unfold format
  constructor
  · intro h
    split at h
    · obtain ⟨rfl, rfl⟩ := Prod.mk.inj h
      exact .noFiles (List.isEmpty_iff.1 ‹_›)
    · have hne : files ≠ [] := mt List.isEmpty_iff.2 ‹_›
      split at h
      · rename_i hfirst
        obtain ⟨rfl, rfl⟩ := Prod.mk.inj h
        obtain ⟨before, behind, remarks, mid, hcommands, hbefore, hi⟩ := firstWorking_ok_iff.1 hfirst
        exact .formatted hne hcommands hbefore hi
      · rename_i hfirst
        obtain ⟨rfl, rfl⟩ := Prod.mk.inj h
        obtain ⟨further, rfl, hall⟩ := firstWorking_error_iff.1 hfirst
        exact .skipped hne hall
  · intro h
    cases h with
    | noFiles hnil => rw [if_pos (List.isEmpty_iff.2 hnil)]
    | formatted hne hcommands hbefore hi =>
      rw [if_neg (mt List.isEmpty_iff.1 hne), firstWorking_ok_iff.2 ⟨_, _, _, _, hcommands, hbefore, hi⟩]
    | skipped hne hall =>
      rw [if_neg (mt List.isEmpty_iff.1 hne), firstWorking_error_iff.2 ⟨_, rfl, hall⟩]
      rfl

end ApiCodegen.Tool
