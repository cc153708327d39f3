import ApiCodegen.Proofs.File.Below
import ApiCodegen.Proofs.Tool.Format

/-!
# Formatters that are told apart

The same files become the same with the same formatters, whatever the programs of a system do. Formatters that
differ can be told apart by programs: each of them leaves a mark in the tree when it is started, so that it
sees how many were started before it, and only one is to succeed, at its turn.

* `mark`, `marks`: a tree with marks. All paths lead where they led before.
* `probe`: programs of which one invocation succeeds at its turn.
* `format_probe_of_hit`, `format_probe_of_miss`: what becomes of files then.
* `exists_probe`: **formatters that differ are told apart.**
-/

namespace ApiCodegen.Tool

open File

variable {directory : String} {files : List String} {i j : Invocation} {commands commands' : List Invocation}
  {t : Tree} {dir : Location} {n k : ℕ}

/-! ## Marks -/

/-- A tree with a mark: a further entry for the root, which nothing looks up. -/
def mark (t : Tree) : Tree := { t with entries := t.entries ++ [([], .directory)] }

/-- A tree with a number of marks. -/
def marks (t : Tree) : ℕ → Tree
  | 0 => t
  | k + 1 => marks (mark t) k

theorem entry?_mark (t : Tree) (loc : Location) : Tree.entry? (mark t) loc = t.entry? loc := by
  cases loc with
  | nil => rfl
  | cons name loc =>
    have hnone : List.lookup (name :: loc) [(([] : Location), Entry.directory)] = none := rfl
    unfold Tree.entry? mark
    simp only [List.lookup_append, hnone, Option.or_none]

theorem directory?_mark (h : t.directory? directory = some dir) : (mark t).directory? directory = some dir := by
  have hgrows : Tree.Grows t (mark t) := ⟨rfl, fun loc hloc => (entry?_mark t loc).trans hloc⟩
  rw [Tree.directory?_eq_some_iff] at h ⊢
  rw [Tree.find, hgrows.findAt (Tree.findAt_of_find h)]
  rfl

theorem directory?_marks (h : t.directory? directory = some dir) (k : ℕ) :
    (marks t k).directory? directory = some dir := by
  induction k generalizing t with
  | zero => exact h
  | succ k ih => exact ih (directory?_mark h)

theorem length_mark (t : Tree) : (mark t).entries.length = t.entries.length + 1 := by
  simp [mark]

theorem length_marks (t : Tree) (k : ℕ) : (marks t k).entries.length = t.entries.length + k := by
  induction k generalizing t with
  | zero => rfl
  | succ k ih =>
    rw [marks, ih, length_mark]
    omega

/-! ## Programs that are probed -/

/-- Programs that leave a mark and fail. Only one invocation succeeds, on a tree with a given number of
entries. -/
def probe (n : ℕ) (i : Invocation) : Programs := fun j _ t =>
  some (if t.entries.length = n ∧ j = i then .status 0 else .status 1, mark t)

theorem launch_probe (hdir : t.directory? directory = some dir) : launch (probe n i) directory files j t =
    some (if t.entries.length = n ∧ j = i then .status 0 else .status 1, mark t) := by
  unfold launch
  rw [hdir]
  rfl

theorem works_probe (hdir : t.directory? directory = some dir) (hn : t.entries.length = n) :
    Works (probe n i) directory files i t (mark t) := by
  refine ⟨.status 0, ?_, by decide⟩
  rw [launch_probe hdir, if_pos ⟨hn, rfl⟩]

theorem misses_probe (files : List String) (hdir : t.directory? directory = some dir)
    (h : ¬ (t.entries.length = n ∧ j = i)) :
    ∃ remark, Misses (probe n i) directory files j t remark (mark t) := by
  have hlaunch : launch (probe n i) directory files j t = some (.status 1, mark t) := by
    rw [launch_probe hdir, if_neg h]
  exact ⟨_, .exited hlaunch (by decide)⟩

/-- All invocations fail unless the one that is to succeed has its turn among them. -/
theorem missesAll_probe (files : List String) (hdir : t.directory? directory = some dir)
    (h : ∀ k, t.entries.length + k = n → commands[k]? ≠ some i) :
    ∃ remarks, MissesAll (probe n i) directory files t commands remarks (marks t commands.length) := by
  induction commands generalizing t with
  | nil => exact ⟨[], .nil⟩
  | cons j commands ih =>
    have hj : ¬ (t.entries.length = n ∧ j = i) := by
      rintro ⟨hn, rfl⟩
      exact h 0 (by omega) rfl
    have hmore : ∀ k, (mark t).entries.length + k = n → commands[k]? ≠ some i := by
      intro k hk
      rw [length_mark] at hk
      exact h (k + 1) (by omega)
    obtain ⟨remark, hmisses⟩ := misses_probe files hdir hj
    obtain ⟨remarks, hall⟩ := ih (directory?_mark hdir) hmore
    exact ⟨remark :: remarks, .cons hmisses hall⟩

/-- Files stay unformatted if the invocation that is to succeed does not have its turn. -/
theorem format_probe_of_miss (target : Target) (hdir : t.directory? directory = some dir) (hfiles : files ≠ [])
    (h : ∀ k, t.entries.length + k = n → commands[k]? ≠ some i) :
    ∃ w, format (probe n i) target commands files directory t = (.skipped w, marks t commands.length) := by
  obtain ⟨remarks, hall⟩ := missesAll_probe files hdir h
  exact ⟨_, format_eq_iff.2 (.skipped hfiles hall)⟩

/-- Files are formatted if it has its turn. -/
theorem format_probe_of_hit (target : Target) (hdir : t.directory? directory = some dir) (hfiles : files ≠ [])
    (hk : commands[k]? = some i) :
    ∃ t', format (probe (t.entries.length + k) i) target commands files directory t =
      (.formatted i.text, t') := by
  obtain ⟨hlt, rfl⟩ := List.getElem?_eq_some_iff.1 hk
  have hsplit : commands = commands.take k ++ commands[k] :: commands.drop (k + 1) := by
    rw [List.getElem_cons_drop, List.take_append_drop]
  have hlength : (commands.take k).length = k := by
    rw [List.length_take]
    omega
  -- the invocations before it have another turn
  have hbefore : ∀ m, t.entries.length + m = t.entries.length + k → (commands.take k)[m]? ≠ some commands[k] := by
    intro m hm
    obtain rfl : m = k := by omega
    rw [List.getElem?_eq_none (by omega)]
    exact (Option.some_ne_none _).symm
  obtain ⟨remarks, hall⟩ := missesAll_probe files hdir hbefore
  have hturn : (marks t (commands.take k).length).entries.length = t.entries.length + k := by
    rw [length_marks, hlength]
  exact ⟨_, format_eq_iff.2 (.formatted hfiles hsplit hall (works_probe (directory?_marks hdir _) hturn))⟩

/-- Whether files were formatted. -/
def FormatOutcome.isFormatted : FormatOutcome → Bool
  | .formatted _ => true
  | _ => false

/-- Formatters are told apart by one that only the first of them have at its turn. -/
theorem isFormatted_probe (target : Target) (hdir : t.directory? directory = some dir) (hfiles : files ≠ [])
    (hk : commands[k]? = some i) (hk' : commands'[k]? ≠ some i) :
    (format (probe (t.entries.length + k) i) target commands files directory t).1.isFormatted = true ∧
      (format (probe (t.entries.length + k) i) target commands' files directory t).1.isFormatted = false := by
  have hmiss : ∀ m, t.entries.length + m = t.entries.length + k → commands'[m]? ≠ some i := by
    intro m hm
    obtain rfl : m = k := by omega
    exact hk'
  obtain ⟨t', hhit⟩ := format_probe_of_hit target hdir hfiles hk
  obtain ⟨w, hskipped⟩ := format_probe_of_miss target hdir hfiles hmiss
  rw [hhit, hskipped]
  exact ⟨rfl, rfl⟩

/-- **Formatters that differ are told apart**, by programs that start to count at the tree or later. -/
theorem exists_probe (target : Target) (hdir : t.directory? directory = some dir) (hfiles : files ≠ [])
    (hne : commands ≠ commands') : ∃ n i, t.entries.length ≤ n ∧
      (format (probe n i) target commands files directory t).1.isFormatted ≠
        (format (probe n i) target commands' files directory t).1.isFormatted := by
  obtain ⟨k, hk⟩ : ∃ k, commands[k]? ≠ commands'[k]? := by
    by_contra hall
    push Not at hall
    exact hne (List.ext_getElem? hall)
  cases hi : commands[k]? with
  | some i =>
    have hi' : commands'[k]? ≠ some i := fun h => hk (hi.trans h.symm)
    obtain ⟨h, h'⟩ := isFormatted_probe target hdir hfiles hi hi'
    exact ⟨_, i, Nat.le_add_right _ k, by rw [h, h']; decide⟩
  | none =>
    -- the others have an invocation where these have none
    obtain ⟨i, hi'⟩ := Option.ne_none_iff_exists'.1 fun h => hk (hi.trans h.symm)
    have hnone : commands[k]? ≠ some i := hi ▸ (Option.some_ne_none i).symm
    obtain ⟨h', h⟩ := isFormatted_probe target hdir hfiles hi' hnone
    exact ⟨_, i, Nat.le_add_right _ k, by rw [h, h']; decide⟩

end ApiCodegen.Tool
