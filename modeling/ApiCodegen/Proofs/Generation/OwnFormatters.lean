import ApiCodegen.Proofs.FirstSeen
import ApiCodegen.Proofs.Generation.Report
import ApiCodegen.Proofs.Tool.Probe

/-!
# Whose formatters format the files

The files of an emitter are remembered with its target, and the formatters are looked up by the target again:
they are those of the first emitter that has it. The emitters of the configured targets have different
targets. Emitters that are given can share one, and then the files of a later one are handed to the formatters
of the first.

* `formatWith`: formatting, with the formatters that are chosen for each emitter's files.
* `formatWith_eq_iff`: **choices differ for some programs exactly if they differ for some files.**
* `Generator.formatAll_eq`, `Generator.generate_eq`: what a run does, in these terms.
* `Generator.FormatsOwn`: the files of each emitter are formatted by its own formatters, whatever the programs do.
* `Generator.nodup_targets_ofSettings`: the emitters of the configured targets have different targets.
* `Generator.formatsOwn_iff`: **when each emitter's files are formatted by its own formatters.**
-/

namespace ApiCodegen.Generation

open File Tool

/-! ## Formatters that are chosen -/

/-- Formats the files of outputs one after the other, those of each with the formatters that are chosen for it. -/
def formatWith (programs : Programs) (directory : String) (choose : Output → List Invocation) (t : File.Tree) :
    List Output → List StepReport × List FormatWarning × File.Tree
  | [] => ([], [], t)
  | o :: more =>
    let (outcome, t) := format programs o.emitter.target (choose o) o.paths directory t
    let (steps, warnings, t) := formatWith programs directory choose t more
    (formatStep o.emitter.target outcome :: steps, formatWarning outcome ++ warnings, t)

variable {programs : Programs} {directory : String} {choose choose' : Output → List Invocation} {t : File.Tree}
  {dir : Location} {outputs : List Output} {o : Output}

/-- Where there are no files, it does not matter which formatters are chosen. -/
theorem formatWith_congr (h : ∀ o ∈ outputs, o.paths ≠ [] → choose o = choose' o) :
    formatWith programs directory choose t outputs = formatWith programs directory choose' t outputs := by
  induction outputs generalizing t with
  | nil => rfl
  | cons o outputs ih =>
    obtain ⟨ho, hmore⟩ := List.forall_mem_cons.1 h
    have hformat : format programs o.emitter.target (choose o) o.paths directory t =
        format programs o.emitter.target (choose' o) o.paths directory t := by
      by_cases hpaths : o.paths = []
      · simp only [format, hpaths, List.isEmpty_nil, if_true]
      · rw [ho hpaths]
    simp only [formatWith, hformat, ih hmore]

/-- The step says whether files were formatted. -/
theorem isFormatted_of_formatStep {target : Target} {outcome outcome' : FormatOutcome}
    (h : formatStep target outcome = formatStep target outcome') :
    outcome.isFormatted = outcome'.isFormatted := by
  cases outcome <;> cases outcome' <;> first | rfl | cases h

/-- The first steps and the first trees of two choices that agree on what comes first. -/
theorem steps_formatWith_ne {outcome : FormatOutcome} {mid : File.Tree}
    (h : format programs o.emitter.target (choose o) o.paths directory t = (outcome, mid))
    (h' : format programs o.emitter.target (choose' o) o.paths directory t = (outcome, mid))
    (hmore : (formatWith programs directory choose mid outputs).1 ≠
      (formatWith programs directory choose' mid outputs).1) :
    (formatWith programs directory choose t (o :: outputs)).1 ≠
      (formatWith programs directory choose' t (o :: outputs)).1 := by
  simp only [formatWith, h, h']
  exact fun heq => hmore (List.cons.inj heq).2

/-- **Choices that differ for some files are told apart**: the programs wait until these files have their turn. -/
theorem exists_probe_formatWith (hdir : t.directory? directory = some dir)
    (h : ∃ o ∈ outputs, o.paths ≠ [] ∧ choose o ≠ choose' o) : ∃ n i, t.entries.length ≤ n ∧
      (formatWith (probe n i) directory choose t outputs).1 ≠
        (formatWith (probe n i) directory choose' t outputs).1 := by
  induction outputs generalizing t with
  | nil =>
    obtain ⟨o, ho, -⟩ := h
    exact absurd ho List.not_mem_nil
  | cons o outputs ih =>
    by_cases hhead : o.paths ≠ [] ∧ choose o ≠ choose' o
    · obtain ⟨n, i, hle, hne⟩ := exists_probe o.emitter.target hdir hhead.1 hhead.2
      refine ⟨n, i, hle, fun heq => hne ?_⟩
      simp only [formatWith] at heq
      exact isFormatted_of_formatStep (List.cons.inj heq).1
    · have hmore : ∃ o ∈ outputs, o.paths ≠ [] ∧ choose o ≠ choose' o := by
        obtain ⟨o', ho', hdiffer⟩ := h
        rcases List.mem_cons.1 ho' with rfl | ho'
        · exact absurd hdiffer hhead
        · exact ⟨o', ho', hdiffer⟩
      by_cases hpaths : o.paths = []
      · obtain ⟨n, i, hle, hne⟩ := ih hdir hmore
        have hnone (commands : List Invocation) :
            format (probe n i) o.emitter.target commands o.paths directory t = (.noFiles, t) :=
          format_eq_iff.2 (.noFiles hpaths)
        exact ⟨n, i, hle, steps_formatWith_ne (hnone _) (hnone _) hne⟩
      · -- the same formatters are chosen, and all of them fail before the turn
        have hsame : choose o = choose' o := by
          by_contra hne
          exact hhead ⟨hpaths, hne⟩
        obtain ⟨n, i, hle, hne⟩ := ih (directory?_marks hdir (choose o).length) hmore
        rw [length_marks] at hle
        have hbefore : ∀ k, t.entries.length + k = n → (choose o)[k]? ≠ some i := by
          intro k hk
          rw [List.getElem?_eq_none (by omega)]
          exact (Option.some_ne_none i).symm
        obtain ⟨w, hskipped⟩ := format_probe_of_miss o.emitter.target hdir hpaths hbefore
        exact ⟨n, i, by omega, steps_formatWith_ne hskipped (hsame ▸ hskipped) hne⟩

/-- **Two choices make the same of the files for all programs exactly if they agree on all that have files.** -/
theorem formatWith_eq_iff (hdir : t.isDirectory directory) :
    (∀ programs,
      formatWith programs directory choose t outputs = formatWith programs directory choose' t outputs) ↔
      ∀ o ∈ outputs, o.paths ≠ [] → choose o = choose' o := by
  constructor
  · intro h o ho hpaths
    by_contra hne
    obtain ⟨dir, hdir⟩ := Option.isSome_iff_exists.1 hdir
    obtain ⟨n, i, -, hsteps⟩ := exists_probe_formatWith hdir ⟨o, ho, hpaths, hne⟩
    exact hsteps (congrArg Prod.fst (h (probe n i)))
  · intro h programs
    exact formatWith_congr h

namespace Generator

variable {g : Generator} {settings : Settings} {emitters : List Emitter} {doc : Document} {r : Rendered}
  {written : List String} {committed : File.Tree}

/-! ## What a run does -/

/-- The formatters that a run chooses. -/
def firstCommands (g : Generator) (o : Output) : List Invocation := g.commandsOf o.emitter.target

/-- The formatters of the emitter itself. -/
def ownCommands (o : Output) : List Invocation := o.emitter.commands

theorem formatAll_eq (hformat : g.settings.format) (programs : Programs) (t : File.Tree) (outputs : List Output) :
    g.formatAll programs t (outputs.map fun o => (o.emitter.target, o.paths)) =
      formatWith programs g.formatDirectory g.firstCommands t outputs := by
  induction outputs generalizing t with
  | nil => rfl
  | cons o outputs ih => simp only [List.map_cons, formatAll, if_pos hformat, formatWith, firstCommands, ih]

/-- What a run ends with whose files are committed, by what became of them behind the commit. -/
def ending (g : Generator) (doc : Document) (r : Rendered) (written : List String)
    (behind : List StepReport × List FormatWarning × File.Tree) : Reported Report × File.Tree :=
  (⟨(g.render doc).warnings, .ok {
      steps := r.steps ++ stepDone .commit (counted written.length "file") :: behind.1
      written := written
      warnings := behind.2.1 }⟩, behind.2.2)

theorem ending_inj {behind behind' : List StepReport × List FormatWarning × File.Tree} :
    g.ending doc r written behind = g.ending doc r written behind' ↔ behind = behind' := by
  obtain ⟨steps, warnings, t⟩ := behind
  obtain ⟨steps', warnings', t'⟩ := behind'
  constructor
  · intro h
    simp only [ending, Prod.mk.injEq, Reported.mk.injEq, Except.ok.injEq, Report.mk.injEq,
      List.append_cancel_left_eq, List.cons.injEq, true_and] at h
    obtain ⟨⟨rfl, rfl⟩, rfl⟩ := h
    rfl
  · rintro h
    rw [h]

/-- **A run formats the files of each emitter with the formatters of the first one that has its target.** -/
theorem generate_eq (hformat : g.settings.format) (hrender : (g.render doc).outcome = .ok r)
    (hcommit : r.stage.commit t = (.ok written, committed))
    (hfiles : r.files = outputs.map fun o => (o.emitter.target, o.paths)) (programs : Programs) :
    g.generate programs doc t =
      g.ending doc r written (formatWith programs g.formatDirectory g.firstCommands committed outputs) := by
  rw [← formatAll_eq hformat, ← hfiles]
  simp only [generate, hrender, finish, hcommit]
  rfl

/-- **The files of each emitter are formatted by its own formatters**: whatever the programs do, a run ends as
if it chose these. -/
def FormatsOwn (g : Generator) (doc : Document) (t : File.Tree) (r : Rendered) (written : List String)
    (committed : File.Tree) (outputs : List Output) : Prop :=
  ∀ programs, g.generate programs doc t =
    g.ending doc r written (formatWith programs g.formatDirectory ownCommands committed outputs)

/-! ## The first emitter with a target -/

theorem of_withEmitters (h : withEmitters settings emitters = .ok g) :
    g.settings = settings ∧ g.emitters = emitters := by
  unfold withEmitters at h
  obtain ⟨_, -, h⟩ := Tree.bind_ok h
  split at h
  · cases h
  · obtain ⟨bindings, -, h⟩ := Tree.bind_ok h
    obtain rfl := Except.ok.inj h
    exact ⟨rfl, rfl⟩

/-- The formatters of a target are those of the first emitter that has it. -/
theorem commandsOf_eq {e : Emitter} (he : e ∈ g.emitters) :
    ∃ first, g.emitters.find? (fun e' => e'.target = e.target) = some first ∧
      g.commandsOf e.target = first.commands := by
  have hsome : (g.emitters.find? fun e' => e'.target = e.target).isSome :=
    List.find?_isSome.2 ⟨e, he, decide_eq_true rfl⟩
  obtain ⟨first, hfirst⟩ := Option.isSome_iff_exists.1 hsome
  refine ⟨first, hfirst, ?_⟩
  unfold commandsOf
  rw [hfirst]

/-- With different targets every emitter is the first one that has its target. -/
theorem commandsOf_of_nodup (hn : (g.emitters.map Emitter.target).Nodup) {e : Emitter} (he : e ∈ g.emitters) :
    g.commandsOf e.target = e.commands := by
  obtain ⟨first, hfirst, hcommands⟩ := commandsOf_eq he
  have htarget : first.target = e.target := by simpa using List.find?_some hfirst
  obtain rfl : first = e := List.inj_on_of_nodup_map hn (List.mem_of_find?_eq_some hfirst) he htarget
  exact hcommands

/-- **The emitters of the configured targets have different targets.** -/
theorem nodup_targets_ofSettings (h : ofSettings settings = .ok g) : (g.emitters.map Emitter.target).Nodup := by
  have htarget : Emitter.target ∘ Emitter.builtin = id := by
    funext target
    cases target <;> rfl
  rw [(of_withEmitters h).2, List.map_map, htarget, List.map_id]
  exact nodup_eraseDups _

/-! ## When the formatters are the emitter's own -/

/-- **When each emitter's files are formatted by its own formatters**, for all emitters that are given and
every document whose files are committed.

* A run hands the files of each emitter to the formatters of the first one that has its target.
* Each emitter's files are formatted by its own formatters if every emitter that rendered files has the
  formatters of the first one with its target; and only then, where the directory of the formatters is there.
* They are if all targets are different. -/
theorem formatsOwn_iff (hg : withEmitters settings emitters = .ok g) (hformat : settings.format)
    (hrender : (g.render doc).outcome = .ok r) (hcommit : r.stage.commit t = (.ok written, committed)) :
    ∃ plan planned outputs, (g.plan doc).outcome = .ok (plan, planned) ∧ outputs.map Output.emitter = emitters ∧
      (∀ o ∈ outputs, o.emitter.render plan = .ok o.artifacts) ∧
      (∀ programs, g.generate programs doc t =
        g.ending doc r written (formatWith programs g.formatDirectory g.firstCommands committed outputs)) ∧
      (∀ o ∈ outputs, ∃ first, emitters.find? (fun e => e.target = o.emitter.target) = some first ∧
        g.firstCommands o = first.commands) ∧
      ((∀ o ∈ outputs, o.paths ≠ [] → g.firstCommands o = ownCommands o) →
        g.FormatsOwn doc t r written committed outputs) ∧
      (committed.isDirectory g.formatDirectory → g.FormatsOwn doc t r written committed outputs →
        ∀ o ∈ outputs, o.paths ≠ [] → g.firstCommands o = ownCommands o) ∧
      ((emitters.map Emitter.target).Nodup → g.FormatsOwn doc t r written committed outputs) := by
  obtain ⟨rfl, rfl⟩ := of_withEmitters hg
  obtain ⟨⟨plan, planned⟩, hplan, hrendered⟩ := Reported.bind_ok hrender
  obtain ⟨outputs, hemitters, houtputs, -, hfiles, -⟩ := renderAll_outputs hrendered
  have hrun : ∀ programs, g.generate programs doc t =
      g.ending doc r written (formatWith programs g.formatDirectory g.firstCommands committed outputs) :=
    generate_eq hformat hrender hcommit hfiles
  have hmem : ∀ o ∈ outputs, o.emitter ∈ g.emitters := fun o ho => hemitters ▸ List.mem_map_of_mem ho
  have hown : (∀ o ∈ outputs, o.paths ≠ [] → g.firstCommands o = ownCommands o) →
      g.FormatsOwn doc t r written committed outputs := by
    intro h programs
    rw [hrun, formatWith_congr h]
  refine ⟨plan, planned, outputs, hplan, hemitters, houtputs, hrun, fun o ho => commandsOf_eq (hmem o ho), hown,
    fun hdir h => ?_, fun hn => hown fun o ho _ => commandsOf_of_nodup hn (hmem o ho)⟩
  refine (formatWith_eq_iff hdir).1 fun programs => ?_
  exact ending_inj.1 ((hrun programs).symm.trans (h programs))

/-- Two emitters that share a target, each with a formatter of its own. -/
def sharedEmitters : List Emitter := [
  ⟨.python, fun _ => .ok [⟨"a.py", "a"⟩], [⟨"first", []⟩]⟩,
  ⟨.python, fun _ => .ok [⟨"b.py", "b"⟩], [⟨"second", []⟩]⟩]

/-- A generator with these emitters. -/
def sharedGenerator : Generator := ⟨{}, BindingTable.builtin, sharedEmitters⟩

/-- What these emitters render of an empty document. -/
def sharedRendered : Rendered where
  stage := { root := ".", artifacts := [⟨"a.py", "a"⟩, ⟨"b.py", "b"⟩] }
  files := [(.python, ["a.py"]), (.python, ["b.py"])]
  steps := [
    ⟨.bindings, .done "0 of 0 operation(s) bound"⟩,
    ⟨.models, .done "0 declaration(s)"⟩,
    ⟨.topology, .done "0 router group(s)"⟩,
    ⟨.routes, .done "0 route(s)"⟩,
    ⟨.render .python, .done "1 file(s)"⟩,
    ⟨.render .python, .done "1 file(s)"⟩]

/-- The files of the second emitter are handed to the formatter of the first, and some programs show it. -/
theorem formatsOwn_iff_shared :
    withEmitters {} sharedEmitters = .ok sharedGenerator ∧
      (sharedGenerator.render {}).outcome = .ok sharedRendered ∧
      ∃ committed outputs, sharedRendered.stage.commit {} = (.ok ["./a.py", "./b.py"], committed) ∧
        outputs.map Output.emitter = sharedEmitters ∧
        ¬ sharedGenerator.FormatsOwn {} {} sharedRendered ["./a.py", "./b.py"] committed outputs := by
  have hg : withEmitters {} sharedEmitters = .ok sharedGenerator := rfl
  have hrender : (sharedGenerator.render {}).outcome = .ok sharedRendered := rfl
  have hcommit :
      sharedRendered.stage.commit {} = (.ok ["./a.py", "./b.py"], (sharedRendered.stage.commit {}).2) :=
    Prod.ext (by decide +kernel) rfl
  have hdir : (sharedRendered.stage.commit {}).2.isDirectory sharedGenerator.formatDirectory := by decide +kernel
  obtain ⟨plan, -, outputs, -, hemitters, houtputs, -, -, -, honly, -⟩ :=
    formatsOwn_iff hg rfl hrender hcommit
  refine ⟨hg, hrender, _, outputs, hcommit, hemitters, fun hown => ?_⟩
  have hsecond :
      (⟨.python, fun _ => .ok [⟨"b.py", "b"⟩], [⟨"second", []⟩]⟩ : Emitter) ∈ outputs.map Output.emitter := by
    rw [hemitters]
    exact List.mem_cons_of_mem _ List.mem_cons_self
  obtain ⟨o, ho, hemitter⟩ := List.mem_map.1 hsecond
  have hrendered := houtputs o ho
  rw [hemitter] at hrendered
  have hpaths : o.paths ≠ [] := by
    rw [Output.paths, ← Except.ok.inj hrendered]
    exact List.cons_ne_nil _ _
  have hcommands := honly hdir hown o ho hpaths
  rw [firstCommands, ownCommands, hemitter] at hcommands
  revert hcommands
  decide

end Generator

end ApiCodegen.Generation
