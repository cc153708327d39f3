import ApiCodegen.Generation.Generator
import ApiCodegen.Proofs.Generation.Refusal
import ApiCodegen.Proofs.Tool.Format

/-!
# What a report says of a run

A report lists the steps of a run in the order in which they were taken. The steps up to the commit are there
because they were done: a run that fails in one of them has no report. Behind them the report lists what
became of the files of each emitter, which never fails the run.

* `Generator.renderAll_outputs`, `Generator.plan_steps`: the steps up to the commit.
* `Generator.Reports`, `Generator.ReportsAll`: what is said of the files of the emitters.
* `Generator.formatAll_reports`: the steps behind the commit.
* `Generator.run_ok_iff`: when a run ends with a report.
* `Generator.run_reports`: **what a report says of a run whose files are committed.**
-/

namespace ApiCodegen.Generation

open File Tool

/-- The step that ended with a warning, and the message. -/
def StepReport.warning? : StepReport → Option (Step × String)
  | ⟨step, .warning message⟩ => some (step, message)
  | _ => none

/-- A step that was done. -/
def StepReport.Done (s : StepReport) : Prop := ∃ summary, s.outcome = .done summary

theorem stepDone_done (step : Step) (summary : String) : (stepDone step summary).Done := ⟨summary, rfl⟩

theorem StepReport.Done.warning?_eq {s : StepReport} (h : s.Done) : s.warning? = none := by
  obtain ⟨step, outcome⟩ := s
  obtain ⟨summary, rfl⟩ := h
  rfl

/-- What an emitter rendered. -/
structure Output where
  emitter : Emitter
  artifacts : List Artifact

namespace Output

variable (o : Output)

/-- The paths of what was rendered. -/
def paths : List String := o.artifacts.map Artifact.path

/-- The step in which it was rendered. -/
def step : StepReport := stepDone (.render o.emitter.target) (counted o.artifacts.length "file")

end Output

namespace Generator

variable {g : Generator} {programs : Programs} {sources : List String} {t : File.Tree} {doc : Document}
  {plan : Plan}
  {outputs : List Output}

/-! ## The steps up to the commit -/

/-- **What is rendered**: the emitters render one after the other, each staging its artifacts behind those of the
emitters before it. -/
theorem renderAll_outputs {emitters : List Emitter} {r r' : Rendered}
    (h : (renderAll plan r emitters).outcome = .ok r') :
    ∃ outputs : List Output, outputs.map Output.emitter = emitters ∧
      (∀ o ∈ outputs, o.emitter.render plan = .ok o.artifacts) ∧
      r'.stage = (outputs.flatMap Output.artifacts).foldl Stage.stage r.stage ∧
      r'.files = r.files ++ outputs.map (fun o => (o.emitter.target, o.paths)) ∧
      r'.steps = r.steps ++ outputs.map Output.step := by
  induction emitters generalizing r with
  | nil =>
    obtain rfl := Except.ok.inj h
    exact ⟨[], rfl, by simp, rfl, (List.append_nil _).symm, (List.append_nil _).symm⟩
  | cons e emitters ih =>
    obtain ⟨artifacts, hartifacts, h⟩ := Reported.bind_ok h
    obtain ⟨stage, hstage, h⟩ := Reported.bind_ok h
    obtain rfl := Except.ok.inj ((outcome_stageAll ..).symm.trans hstage)
    obtain ⟨outputs, hemitters, hrender, hstaged, hfiles, hsteps⟩ := ih h
    refine ⟨⟨e, artifacts⟩ :: outputs, by rw [List.map_cons, hemitters], ?_, ?_, ?_, ?_⟩
    · exact List.forall_mem_cons.2 ⟨hartifacts, hrender⟩
    · rw [hstaged, List.flatMap_cons, List.foldl_append]
    · rw [hfiles, List.map_cons, List.append_assoc]
      rfl
    · rw [hsteps, List.map_cons, List.append_assoc]
      rfl

/-- The steps of planning. -/
theorem plan_steps {steps : List StepReport} (h : (g.plan doc).outcome = .ok (plan, steps)) :
    steps.map StepReport.step = [.bindings, .models, .topology, .routes] ∧ ∀ s ∈ steps, s.Done := by
  obtain ⟨-, -, h⟩ := Reported.bind_ok h
  obtain ⟨-, -, h⟩ := Reported.bind_ok h
  obtain ⟨declarations, -, h⟩ := Reported.bind_ok h
  obtain ⟨topology, -, h⟩ := Reported.bind_ok h
  obtain ⟨routes, -, h⟩ := Reported.bind_ok h
  obtain ⟨rfl, rfl⟩ := Prod.mk.inj (Except.ok.inj h)
  refine ⟨rfl, ?_⟩
  simp only [List.forall_mem_cons, stepDone_done, true_and]
  exact List.forall_mem_nil _

/-- The steps up to the commit: loading, planning, rendering for each emitter, and the commit. -/
def upToCommit (sources : List String) (doc : Document) (planned : List StepReport) (outputs : List Output)
    (written : List String) : List StepReport :=
  loadStep sources doc :: planned ++ outputs.map Output.step ++ [stepDone .commit (counted written.length "file")]

theorem map_step_upToCommit {planned : List StepReport}
    (h : planned.map StepReport.step = [.bindings, .models, .topology, .routes]) (written : List String) :
    (upToCommit sources doc planned outputs written).map StepReport.step =
      [Step.load, .bindings, .models, .topology, .routes] ++
        (outputs.map Output.emitter).map (fun e => Step.render e.target) ++ [Step.commit] := by
  rw [upToCommit, List.map_append, List.map_append, List.map_cons, h, List.map_map, List.map_map]
  rfl

theorem done_of_mem_upToCommit {planned : List StepReport} {written : List String} (h : ∀ s ∈ planned, s.Done) :
    ∀ s ∈ upToCommit sources doc planned outputs written, s.Done := by
  intro s hs
  rw [upToCommit, List.mem_append, List.mem_append, List.mem_cons, List.mem_singleton] at hs
  rcases hs with ((rfl | hs) | hs) | rfl
  · exact stepDone_done _ _
  · exact h s hs
  · obtain ⟨o, -, rfl⟩ := List.mem_map.1 hs
    exact stepDone_done _ _
  · exact stepDone_done _ _

/-! ## The steps behind the commit -/

/-- What is said of the files of an emitter, and the tree that their formatters leave. The formatters are
those of the first emitter with the target. -/
inductive Reports (g : Generator) (programs : Programs) (target : Target) (files : List String) (t : File.Tree) :
    StepOutcome → File.Tree → Prop
  | disabled : g.settings.format = false → Reports g programs target files t (.skipped "formatting disabled") t
  | noFiles {t' : File.Tree} : g.settings.format →
      Formats programs target (g.commandsOf target) files g.formatDirectory t .noFiles t' →
      Reports g programs target files t (.skipped "no files") t'
  | done {command : String} {t' : File.Tree} : g.settings.format →
      Formats programs target (g.commandsOf target) files g.formatDirectory t (.formatted command) t' →
      Reports g programs target files t (.done command) t'
  | warning {w : FormatWarning} {t' : File.Tree} : g.settings.format →
      Formats programs target (g.commandsOf target) files g.formatDirectory t (.skipped w) t' →
      Reports g programs target files t (.warning w.message) t'

/-- What is said of the files of emitters, each formatted in the tree that the one before it left. -/
inductive ReportsAll (g : Generator) (programs : Programs) :
    File.Tree → List Output → List StepReport → File.Tree → Prop
  | nil {t : File.Tree} : ReportsAll g programs t [] [] t
  | cons {t mid t' : File.Tree} {o : Output} {more : List Output} {outcome : StepOutcome}
      {steps : List StepReport} :
      Reports g programs o.emitter.target o.paths t outcome mid → ReportsAll g programs mid more steps t' →
      ReportsAll g programs t (o :: more) (⟨.format o.emitter.target, outcome⟩ :: steps) t'

theorem ReportsAll.map_step {steps : List StepReport} {t' : File.Tree}
    (h : g.ReportsAll programs t outputs steps t') :
    steps.map StepReport.step = (outputs.map Output.emitter).map fun e => Step.format e.target := by
  induction h with
  | nil => rfl
  | cons _ _ ih => rw [List.map_cons, List.map_cons, List.map_cons, ih]

/-- The warnings are those of the steps. -/
def Warns (steps : List StepReport) (warnings : List FormatWarning) : Prop :=
  warnings.map (fun w => (Step.format w.target, w.message)) = steps.filterMap StepReport.warning?

theorem reports_format {target : Target} {files : List String} (hformat : g.settings.format)
    {outcome : FormatOutcome}
    {t' : File.Tree} (h : Formats programs target (g.commandsOf target) files g.formatDirectory t outcome t') :
    ∃ o, formatStep target outcome = ⟨.format target, o⟩ ∧ g.Reports programs target files t o t' ∧
      Warns [formatStep target outcome] (formatWarning outcome) := by
  cases h with
  | noFiles hnil => exact ⟨_, rfl, .noFiles hformat (.noFiles hnil), rfl⟩
  | formatted hne hcommands hbefore hi => exact ⟨_, rfl, .done hformat (.formatted hne hcommands hbefore hi), rfl⟩
  | skipped hne hall => exact ⟨_, rfl, .warning hformat (.skipped hne hall), rfl⟩

theorem formatAll_reports (g : Generator) (programs : Programs) (t : File.Tree) (outputs : List Output) :
    ∃ steps warnings t',
      g.formatAll programs t (outputs.map fun o => (o.emitter.target, o.paths)) = (steps, warnings, t') ∧
        g.ReportsAll programs t outputs steps t' ∧ Warns steps warnings := by
  induction outputs generalizing t with
  | nil => exact ⟨[], [], t, rfl, .nil, rfl⟩
  | cons o outputs ih =>
    rw [List.map_cons, formatAll]
    by_cases hformat : g.settings.format
    · cases h : format programs o.emitter.target (g.commandsOf o.emitter.target) o.paths g.formatDirectory t with
      | mk outcome mid =>
        obtain ⟨steps, warnings, t', hmore, hsteps, hwarnings⟩ := ih mid
        obtain ⟨said, hsaid, hreports, hwarns⟩ := reports_format hformat (format_eq_iff.1 h)
        refine ⟨formatStep o.emitter.target outcome :: steps, formatWarning outcome ++ warnings, t', ?_, ?_, ?_⟩
        · simp only [if_pos hformat, hmore]
        · exact hsaid ▸ .cons hreports hsteps
        · rw [Warns, List.map_append, hwarnings, hwarns, ← List.filterMap_append, List.singleton_append]
    · obtain ⟨steps, warnings, t', hmore, hsteps, hwarnings⟩ := ih t
      refine ⟨⟨.format o.emitter.target, .skipped "formatting disabled"⟩ :: steps, warnings, t', ?_, ?_,
        hwarnings⟩
      · simp only [if_neg hformat, hmore]
      · exact .cons (.disabled (Bool.eq_false_iff.2 hformat)) hsteps

/-! ## The whole run -/

/-- A commit that succeeds lists the destinations, in the order of the artifacts. -/
theorem written_of_commit {s : Stage} {written : List String} (h : (s.commit t).1 = .ok written) :
    written = s.artifacts.map fun a => s.destination a.path := by
  unfold Stage.commit at h
  split at h
  · cases h
  · split at h
    · cases h
    · rw [← Except.ok.inj h, Stage.outputs, List.map_map]
      rfl

/-- A run goes on with what was loaded, rendered and committed, and ends with a report. -/
theorem run_eq {r : Rendered} {written : List String} {committed t' : File.Tree} {steps : List StepReport}
    {warnings : List FormatWarning} (hload : (g.load t sources).outcome = .ok doc)
    (hrender : (g.render doc).outcome = .ok r) (hcommit : r.stage.commit t = (.ok written, committed))
    (hformat : g.formatAll programs committed r.files = (steps, warnings, t')) :
    (g.run programs sources t).1.outcome = .ok {
      steps := loadStep sources doc :: (r.steps ++ stepDone .commit (counted written.length "file") :: steps)
      written := written
      warnings := warnings } ∧ (g.run programs sources t).2 = t' := by
  have hfinish : g.finish programs r t =
      (.ok ⟨r.steps ++ stepDone .commit (counted written.length "file") :: steps, written, warnings⟩, t') := by
    simp only [finish, hcommit, hformat]
  have hgenerate : g.generate programs doc t = (⟨(g.render doc).warnings,
      .ok ⟨r.steps ++ stepDone .commit (counted written.length "file") :: steps, written, warnings⟩⟩, t') := by
    simp only [generate, hrender, hfinish]
  simp only [run, hload, hgenerate]
  exact ⟨rfl, trivial⟩

/-- **A run ends with a report exactly if its files are committed.** -/
theorem run_ok_iff : (∃ report, (g.run programs sources t).1.outcome = .ok report) ↔
    ∃ doc r written, (g.load t sources).outcome = .ok doc ∧ (g.render doc).outcome = .ok r ∧
      (r.stage.commit t).1 = .ok written := by
  constructor
  · rintro ⟨report, h⟩
    cases hload : (g.load t sources).outcome with
    | error failure => simp [run, hload] at h
    | ok doc =>
      cases hrender : (g.render doc).outcome with
      | error failure => simp [run, hload, generate, hrender, Except.map] at h
      | ok r =>
        cases hcommit : r.stage.commit t with
        | mk result committed =>
          cases result with
          | error failure => simp [run, hload, generate, hrender, finish, hcommit, Except.map] at h
          | ok written => exact ⟨doc, r, written, rfl, hrender, by rw [hcommit]⟩
  · rintro ⟨doc, r, written, hload, hrender, hcommit⟩
    exact ⟨_, (run_eq hload hrender (Prod.ext hcommit rfl) rfl).1⟩

/-- **What a report says of a run whose files are committed**, for all emitters and whatever the formatters
do. Such a run ends with a report.

* The steps up to the commit are those of loading, of planning, of rendering for each emitter, and the commit.
  They were done.
* Behind them, for each emitter, in the same order, stands what became of its files.
* The warnings are those of the steps, in their order.
* The files that were written are the destinations of the artifacts, in the order of the stage. The stage
  holds what the emitters rendered. -/
theorem run_reports (programs : Programs) {r : Rendered} {written : List String}
    (hload : (g.load t sources).outcome = .ok doc) (hrender : (g.render doc).outcome = .ok r)
    (hcommit : (r.stage.commit t).1 = .ok written) : ∃ report plan planned outputs behind,
      (g.run programs sources t).1.outcome = .ok report ∧
      (g.plan doc).outcome = .ok (plan, planned) ∧ outputs.map Output.emitter = g.emitters ∧
      (∀ o ∈ outputs, o.emitter.render plan = .ok o.artifacts) ∧
      r.stage = (outputs.flatMap Output.artifacts).foldl Stage.stage { root := g.settings.outDir } ∧
      report.steps = upToCommit sources doc planned outputs written ++ behind ∧
      report.steps.map StepReport.step = [Step.load, .bindings, .models, .topology, .routes] ++
        g.emitters.map (fun e => Step.render e.target) ++ [Step.commit] ++
        g.emitters.map (fun e => Step.format e.target) ∧
      (∀ s ∈ upToCommit sources doc planned outputs written, s.Done) ∧
      g.ReportsAll programs (r.stage.commit t).2 outputs behind (g.run programs sources t).2 ∧
      Warns report.steps report.warnings ∧
      report.written = r.stage.artifacts.map fun a => r.stage.destination a.path := by
  obtain ⟨⟨plan, planned⟩, hplan, hrendered⟩ := Reported.bind_ok hrender
  obtain ⟨hplanned, hplandone⟩ := plan_steps hplan
  obtain ⟨outputs, hemitters, houtputs, hstage, hfiles, hsteps⟩ := renderAll_outputs hrendered
  obtain ⟨behind, warnings, t', hformat, hbehind, hwarnings⟩ :=
    formatAll_reports g programs (r.stage.commit t).2 outputs
  rw [List.nil_append] at hfiles
  rw [← hfiles] at hformat
  obtain ⟨hreport, htree⟩ := run_eq hload hrender (Prod.ext hcommit rfl) hformat
  have hdone : ∀ s ∈ upToCommit sources doc planned outputs written, s.Done := done_of_mem_upToCommit hplandone
  have hall : loadStep sources doc :: (r.steps ++ stepDone .commit (counted written.length "file") :: behind) =
      upToCommit sources doc planned outputs written ++ behind := by
    rw [hsteps, upToCommit]
    simp
  rw [hall] at hreport
  refine ⟨_, plan, planned, outputs, behind, hreport, hplan, hemitters, houtputs, hstage, rfl, ?_, hdone,
    htree ▸ hbehind, ?_, written_of_commit hcommit⟩
  · rw [List.map_append, map_step_upToCommit hplanned, hbehind.map_step, hemitters]
  · -- the steps up to the commit warn of nothing
    have hsilent : (upToCommit sources doc planned outputs written).filterMap StepReport.warning? = [] :=
      List.filterMap_eq_nil_iff.2 fun s hs => (hdone s hs).warning?_eq
    rw [Warns, hwarnings, List.filterMap_append, hsilent, List.nil_append]

/-- A tree with a description. -/
def describedTree : File.Tree where
  entries := [(["api.yaml"], .file "paths: \x7b\x7d\ncomponents: \x7b\x7d\n".toUTF8)]

/-- Two programs, of which one fails. -/
def mixedPrograms : Programs := fun i _ t =>
  if i.program = "works" then some (.status 0, t)
  else if i.program = "broken" then some (.signal 11, t)
  else none

/-- Three emitters, of which one renders nothing. -/
def mixedGenerator : Generator where
  settings := {}
  bindings := ⟨[], List.nodup_nil⟩
  emitters := [
    ⟨.python, fun _ => .ok [⟨"a.py", "a"⟩], [⟨"missing", []⟩, ⟨"broken", []⟩, ⟨"works", ["-q"]⟩, ⟨"works", []⟩]⟩,
    ⟨.typeScript, fun _ => .ok [], [⟨"missing", []⟩, ⟨"broken", ["-q"]⟩]⟩,
    ⟨.typeScript, fun _ => .ok [⟨"b.ts", "b"⟩], []⟩]

/-- The report of a run in which one emitter has its files formatted by the third of its formatters, one has
none and one has no formatter that works. -/
def mixedReport : Report where
  steps := [
    ⟨.load, .done "1 document(s), 0 component(s), 0 operation(s)"⟩,
    ⟨.bindings, .done "0 of 0 operation(s) bound"⟩,
    ⟨.models, .done "0 declaration(s)"⟩,
    ⟨.topology, .done "0 router group(s)"⟩,
    ⟨.routes, .done "0 route(s)"⟩,
    ⟨.render .python, .done "1 file(s)"⟩,
    ⟨.render .typeScript, .done "0 file(s)"⟩,
    ⟨.render .typeScript, .done "1 file(s)"⟩,
    ⟨.commit, .done "2 file(s)"⟩,
    ⟨.format .python, .done "works -q"⟩,
    ⟨.format .typeScript, .skipped "no files"⟩,
    ⟨.format .typeScript,
      .warning ("`missing` is not available, `broken -q` exited with signal: 11 (SIGSEGV); " ++
      "output left unformatted")⟩]
  written := ["./a.py", "./b.ts"]
  warnings := [⟨.typeScript, "`missing` is not available, `broken -q` exited with signal: 11 (SIGSEGV); " ++
    "output left unformatted"⟩]

/-- The run ends with this report, whose last steps are what became of the files of the three emitters. -/
theorem run_reports_mixed :
    (mixedGenerator.run mixedPrograms ["api.yaml"] describedTree).1.outcome = .ok mixedReport ∧
      ∃ outputs upTo behind committed t', outputs.map Output.emitter = mixedGenerator.emitters ∧
        mixedReport.steps = upTo ++ behind ∧ behind.length = 3 ∧
        mixedGenerator.ReportsAll mixedPrograms committed outputs behind t' ∧
        Warns mixedReport.steps mixedReport.warnings := by
  have hrun : (mixedGenerator.run mixedPrograms ["api.yaml"] describedTree).1.outcome = .ok mixedReport := by
    decide +kernel
  obtain ⟨doc, r, written, hload, hrender, hcommit⟩ := run_ok_iff.1 ⟨_, hrun⟩
  obtain ⟨report, plan, planned, outputs, behind, hreport, -, hemitters, -, -, hsteps, -, -, hall, hwarns, -⟩ :=
    run_reports mixedPrograms hload hrender hcommit
  obtain rfl := Except.ok.inj (hrun.symm.trans hreport)
  have hlength : behind.length = 3 := by
    have h := congrArg List.length hall.map_step
    rwa [hemitters, List.length_map, List.length_map] at h
  exact ⟨hrun, outputs, _, behind, _, _, hemitters, hsteps, hlength, hall, hwarns⟩

end Generator

end ApiCodegen.Generation
