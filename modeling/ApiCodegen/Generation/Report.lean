import ApiCodegen.Tool.Format

/-!
# Reports

* `Step`: the steps of a run.
* `StepOutcome`: what became of a step, in words.
* `Report`: what a run did.
-/

namespace ApiCodegen.Generation

open Tool

/-- A step of a run. -/
inductive Step where
  | load
  | bindings
  | models
  | topology
  | routes
  | render (target : Target)
  | commit
  | format (target : Target)
  deriving DecidableEq

/-- The name of a step. -/
def Step.text : Step → String
  | .load => "load"
  | .bindings => "bindings"
  | .models => "models"
  | .topology => "topology"
  | .routes => "routes"
  | .render target => "render " ++ target.label
  | .commit => "commit"
  | .format target => "format " ++ target.label

/-- What became of a step. -/
inductive StepOutcome where
  | done (summary : String)
  | skipped (reason : String)
  /-- Done, but not all went well. -/
  | warning (message : String)
  deriving DecidableEq

/-- A step and what became of it. -/
structure StepReport where
  step : Step
  outcome : StepOutcome
  deriving DecidableEq

/-- What a run did. -/
structure Report where
  steps : List StepReport
  /-- The files that were written. -/
  written : List String
  warnings : List FormatWarning
  deriving DecidableEq

/-- What became of a step, by its first report. -/
def Report.outcome? (r : Report) (step : Step) : Option StepOutcome :=
  (r.steps.find? fun s => s.step = step).map StepReport.outcome

/-- A number of things. -/
def counted (n : Nat) (thing : String) : String := toString n ++ " " ++ thing ++ "(s)"

/-- The report of a step that was done. -/
def stepDone (step : Step) (summary : String) : StepReport := ⟨step, .done summary⟩

/-- What became of formatting, as a step. -/
def formatStep (target : Target) : FormatOutcome → StepReport
  | .formatted command => ⟨.format target, .done command⟩
  | .noFiles => ⟨.format target, .skipped "no files"⟩
  | .skipped w => ⟨.format target, .warning w.message⟩

/-- The remark of formatting, if there is one. -/
def formatWarning : FormatOutcome → List FormatWarning
  | .skipped w => [w]
  | _ => []

end ApiCodegen.Generation
