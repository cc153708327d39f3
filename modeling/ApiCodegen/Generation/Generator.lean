import ApiCodegen.Generation.Emitter
import ApiCodegen.Generation.Report
import ApiCodegen.Schema.Load
import ApiCodegen.Settings.Read

/-!
# Generation

A run loads descriptions, plans what is generated, renders the files of all targets, commits them
together and has them formatted. Nothing is written before all files are rendered.

* `Generator.ofSettings`: a generator with the emitters of the configured targets.
* `Generator.render`: all but committing and formatting.
* `Generator.run`: the whole run on a file tree.
-/

namespace ApiCodegen.Generation

open File Tool

/-- A configured generator. -/
structure Generator where
  settings : Settings
  bindings : BindingTable
  emitters : List Emitter

/-- Rendered files that are not written yet. -/
structure Rendered where
  stage : Stage
  /-- The paths that each emitter rendered. -/
  files : List (Target × List String)
  steps : List StepReport

namespace Generator

/-- A generator with given emitters. -/
def withEmitters (settings : Settings) (emitters : List Emitter) : Except Failure Generator := do
  settings.validate
  if emitters.isEmpty then .error (.settings .noTarget)
  else
    let bindings ← BindingTable.ofSettings settings.bindings
    .ok ⟨settings, bindings, emitters⟩

/-- A generator with the emitters of the configured targets, each once. -/
def ofSettings (settings : Settings) : Except Failure Generator :=
  withEmitters settings (settings.targets.eraseDups.map Emitter.builtin)

/-- The document of the files that some paths lead to. -/
def load (g : Generator) (tree : Tree) (sources : List String) : Reported Document :=
  match sources with
  | [] => .fail (.settings .noSources)
  | sources => Document.loadAll g.settings.references
      (sources.map fun path => (tree.readText path).mapError Failure.file)

/-- A stage with further artifacts, and remarks on those that replace others. -/
def stageAll (target : Target) (stage : Stage) : List Artifact → Reported Stage
  | [] => pure stage
  | a :: more => do
    if (stage.get? a.path).isSome then .warn [.replacedArtifact target a.path]
    stageAll target (stage.stage a) more

/-- Renders the files of emitters, one after the other. -/
def renderAll (plan : Plan) (r : Rendered) : List Emitter → Reported Rendered
  | [] => pure r
  | e :: more => do
    let artifacts ← .ofExcept (e.render plan)
    let stage ← stageAll e.target r.stage artifacts
    renderAll plan {
      stage := stage
      files := r.files ++ [(e.target, artifacts.map Artifact.path)]
      steps := r.steps ++ [stepDone (.render e.target) (counted artifacts.length "file")] } more

/-- Plans a document: what is rendered from, and the steps so far. -/
def plan (g : Generator) (doc : Document) : Reported (Plan × List StepReport) := do
  let ids := doc.operationIds
  .warn doc.idWarnings
  g.bindings.validate g.settings.bindingPolicy ids
  let declarations ← .ofExcept doc.declarations
  let topology ← Topology.resolve g.settings.tieBreak g.settings.apiPrefix doc
  let routes ← RoutePlan.build doc topology g.bindings
  let bound := (ids.filter fun id => (g.bindings.get? id).isSome).length
  pure (⟨g.settings, declarations, routes⟩, [
    stepDone .bindings (toString bound ++ " of " ++ counted ids.length "operation" ++ " bound"),
    stepDone .models (counted declarations.length "declaration"),
    stepDone .topology (counted topology.groups.length "router group"),
    stepDone .routes (counted routes.routes.length "route")])

/-- Renders all files of a document. -/
def render (g : Generator) (doc : Document) : Reported Rendered := do
  let (plan, steps) ← g.plan doc
  renderAll plan { stage := { root := g.settings.outDir }, files := [], steps := steps } g.emitters

/-- Where formatters run. -/
def formatDirectory (g : Generator) : String :=
  if g.settings.outDir.isEmpty then "." else g.settings.outDir

/-- The formatters of a target: those of its first emitter. -/
def commandsOf (g : Generator) (target : Target) : List Invocation :=
  match g.emitters.find? fun e => e.target = target with
  | some e => e.commands
  | none => []

/-- Formats the files of each emitter, or says that formatting is off. -/
def formatAll (g : Generator) (programs : Programs) (tree : Tree) :
    List (Target × List String) → List StepReport × List FormatWarning × Tree
  | [] => ([], [], tree)
  | (target, files) :: more =>
    if g.settings.format then
      let (outcome, tree) :=
        format programs target (g.commandsOf target) files g.formatDirectory tree
      let (steps, warnings, tree) := g.formatAll programs tree more
      (formatStep target outcome :: steps, formatWarning outcome ++ warnings, tree)
    else
      let (steps, warnings, tree) := g.formatAll programs tree more
      (⟨.format target, .skipped "formatting disabled"⟩ :: steps, warnings, tree)

/-- Commits rendered files and has them formatted. -/
def finish (g : Generator) (programs : Programs) (r : Rendered) (tree : Tree) :
    Except Failure Report × Tree :=
  match r.stage.commit tree with
  | (.error failure, tree) => (.error failure, tree)
  | (.ok written, tree) =>
    let (steps, warnings, tree) := g.formatAll programs tree r.files
    let commit := stepDone .commit (counted written.length "file")
    (.ok ⟨r.steps ++ commit :: steps, written, warnings⟩, tree)

/-- Generates, commits and formats the files of a document. -/
def generate (g : Generator) (programs : Programs) (doc : Document) (tree : Tree) :
    Reported Report × Tree :=
  let rendered := g.render doc
  match rendered.outcome with
  | .error failure => (⟨rendered.warnings, .error failure⟩, tree)
  | .ok r =>
    let (outcome, tree) := g.finish programs r tree
    (⟨rendered.warnings, outcome⟩, tree)

/-- The report of loading. -/
def loadStep (sources : List String) (doc : Document) : StepReport :=
  stepDone .load (String.intercalate ", " [
    counted sources.length "document",
    counted doc.components.length "component",
    counted doc.operations.length "operation"])

/-- Loads the files that some paths lead to, and generates what they describe. -/
def run (g : Generator) (programs : Programs) (sources : List String) (tree : Tree) :
    Reported Report × Tree :=
  let loaded := g.load tree sources
  match loaded.outcome with
  | .error failure => (⟨loaded.warnings, .error failure⟩, tree)
  | .ok doc =>
    let (generated, tree) := g.generate programs doc tree
    (⟨loaded.warnings ++ generated.warnings, generated.outcome.map fun report =>
      { report with steps := loadStep sources doc :: report.steps }⟩, tree)

end Generator

end ApiCodegen.Generation
