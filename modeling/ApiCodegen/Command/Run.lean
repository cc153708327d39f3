import ApiCodegen.Command.Options
import ApiCodegen.File.Scan
import ApiCodegen.Generation.Generator

/-!
# Running a command line

* `Fault`: why a command fails: what was done, and the failure met.
* `Options.checked`, `Options.settings`, `Options.sources`: what options stand for on a file tree.
* `Options.run`: the run that options ask for.
* `execute`: what a list of arguments does.
-/

namespace ApiCodegen.Command

open File Tool Generation

/-- Why a command fails. -/
inductive Fault where
  | noSchemaFile (path : String)
  | noSchemaDirectory (path : String)
  | noConfigFile (path : String)
  | configFile (path : String) (cause : Failure)
  | settings (cause : Failure)
  | scan (path : String) (cause : Failure)
  | noDocuments
  | generator (cause : Failure)
  | loading (cause : Failure)
  | generation (cause : Failure)
  deriving DecidableEq

namespace Fault

/-- What was done when a command failed. -/
def message : Fault → String
  | .noSchemaFile path => "Schema file does not exist: " ++ path
  | .noSchemaDirectory path => "Schema directory is not a directory: " ++ path
  | .noConfigFile path => "Config file does not exist: " ++ path
  | .configFile path _ => "Failed to load config file " ++ path
  | .settings _ => "Invalid configuration"
  | .scan path _ => "Failed to scan " ++ path
  | .noDocuments => "No schema documents found"
  | .generator _ => "Failed to set up the generator"
  | .loading _ => "Failed to load the schema"
  | .generation _ => "Generation failed"

/-- The failure that a command met. -/
def cause? : Fault → Option Failure
  | .configFile _ cause => some cause
  | .settings cause => some cause
  | .scan _ cause => some cause
  | .generator cause => some cause
  | .loading cause => some cause
  | .generation cause => some cause
  | _ => none

end Fault

/-- The description that is read when no other is asked for. -/
def defaultSchema : String := "source/openapi.yaml"

/-- What a command does: it ends well or fails, it writes lines, and it leaves a tree. -/
structure Ending where
  outcome : Except Fault Unit
  lines : List String
  tree : Tree

namespace Options

/-- The schemas that options ask for, with the default one if they ask for none. -/
def withDefault (o : Options) : Options :=
  if o.schemas.isEmpty && o.schemaDir.isNone then { o with schemas := [defaultSchema] } else o

/-- A condition, or a fault. -/
def demand (holds : Bool) (fault : Fault) : Except Fault Unit :=
  if holds then .ok () else .error fault

/-- Options with their defaults, if the files and directories that they name are there. -/
def checked (o : Options) (tree : Tree) : Except Fault Options := do
  let o := o.withDefault
  match o.schemas.find? fun path => !tree.isFile path with
  | some path => .error (.noSchemaFile path)
  | none => .ok ()
  match o.schemaDir with
  | some path => demand (tree.isDirectory path) (.noSchemaDirectory path)
  | none => .ok ()
  match o.config with
  | some path => demand (tree.isFile path) (.noConfigFile path)
  | none => .ok ()
  .ok o

/-- The settings of a file. -/
def fileSettings (tree : Tree) (path : String) : Except Failure Settings := do
  let text ← (tree.readText path).mapError Failure.file
  Settings.read text

/-- Settings in which options take precedence. -/
def override (o : Options) (s : Settings) : Settings where
  apiPrefix := o.apiPrefix.getD s.apiPrefix
  references :=
    if o.lenientReferences then .lenient else if o.strictReferences then .strict else s.references
  tieBreak := if o.rejectConflicts then .reject else s.tieBreak
  bindingPolicy := if o.strictBindings then .strict else s.bindingPolicy
  targets := if o.targets.isEmpty then s.targets else o.targets
  outDir := o.outDir.getD s.outDir
  server := s.server
  client := s.client
  bindings := s.bindings
  format := if o.noFormat then false else s.format

/-- The settings of the configuration file, if there is one, in which options take precedence. -/
def settings (o : Options) (tree : Tree) : Except Fault Settings := do
  let base ← match o.config with
    | some path => (fileSettings tree path).mapError (Fault.configFile path)
    | none => .ok {}
  let settings := o.override base
  settings.validate.mapError Fault.settings
  .ok settings

/-- Paths with those of further ones that are none of them. -/
def addNew (paths : List String) : List String → List String
  | [] => paths
  | path :: more => addNew (if paths.any (Path.same path) then paths else paths ++ [path]) more

/-- The description files: those that are named, and then those that are found. -/
def sources (o : Options) (tree : Tree) : Except Fault (List String) := do
  let found ← match o.schemaDir with
    | some path => (File.scan tree path).mapError (Fault.scan path)
    | none => .ok []
  match addNew o.schemas found with
  | [] => .error .noDocuments
  | sources => .ok sources

/-- The line of an artifact that is not written. -/
def listed (stage : Stage) (a : Artifact) : String :=
  stage.destination a.path ++ " (" ++ toString a.contents.utf8ByteSize ++ " bytes)"

/-- What is generated, and the document to generate it from. -/
def prepare (o : Options) (tree : Tree) : Except Fault (Generator × Document) := do
  let settings ← o.settings tree
  let sources ← o.sources tree
  let generator ← (Generator.ofSettings settings).mapError Fault.generator
  let doc ← (generator.load tree sources).outcome.mapError Fault.loading
  .ok (generator, doc)

/-- The run that options ask for. A dry run lists the files and writes none. -/
def run (o : Options) (programs : Programs) (tree : Tree) : Ending :=
  match o.prepare tree with
  | .error fault => ⟨.error fault, [], tree⟩
  | .ok (generator, doc) =>
    if o.dryRun then
      match (generator.render doc).outcome with
      | .error failure => ⟨.error (.generation failure), [], tree⟩
      | .ok rendered => ⟨.ok (), rendered.stage.artifacts.map (listed rendered.stage), tree⟩
    else
      let (report, tree) := generator.generate programs doc tree
      ⟨(report.outcome.map fun _ => ()).mapError Fault.generation, [], tree⟩

end Options

/-- The name and version of the program. -/
def versionLine : String := "openapi-scaffold 0.1.0"

/-- What the program says about its options. -/
def helpLines : List String := [
  "OpenAPI scaffold generator - pydantic/FastAPI backend code and TypeScript client types from one schema",
  "",
  "Usage: openapi-scaffold [OPTIONS]",
  "",
  "Options:",
  "  -s, --schema <FILE>            Schema document to read; repeat to merge several in order",
  "      --schema-dir <DIR>         Directory scanned for more schema documents (*.yaml, *.yml, *.json)",
  "  -c, --config <FILE>            Generator configuration file (YAML)",
  "  -o, --out-dir <DIR>            Root directory for generated files",
  "  -t, --target <TARGETS>         Target to generate; repeat for several (default: all) " ++
    "[possible values: python, typescript]",
  "      --api-prefix <PREFIX>      Path prefix of versioned operations (default: /api/v1)",
  "      --strict-refs              Fail on references to undeclared components",
  "      --lenient-refs             Replace references to undeclared components with the generic type",
  "      --strict-bindings          Fail when an operation has no service binding",
  "      --reject-prefix-conflicts  Fail when operations sharing a tag derive different router prefixes",
  "      --no-format                Do not run code formatters on the generated files",
  "      --dry-run                  Render everything and list the files without writing them",
  "  -v, --verbose                  Enable verbose output",
  "  -h, --help                     Print help",
  "  -V, --version                  Print version"]

/-- What a program does: its exit code, what it writes and reports, and the tree that it leaves. -/
structure Execution where
  code : Nat
  lines : List String
  errors : List String
  tree : Tree

/-- What a fault says. -/
def Fault.lines (f : Fault) : List String :=
  ("Error: " ++ f.message) :: (f.cause?.map fun cause => "  " ++ cause.message).toList

/-- What a list of arguments does. The exit code is one for a failed run, and two for arguments
that cannot be read. -/
def execute (programs : Programs) (args : List String) (tree : Tree) : Execution :=
  match Options.read args with
  | .error .help => ⟨0, helpLines, [], tree⟩
  | .error .version => ⟨0, [versionLine], [], tree⟩
  | .error (.fault f) => ⟨2, [], ["error: " ++ f.message], tree⟩
  | .ok options =>
    match options.checked tree with
    | .error fault => ⟨1, [], fault.lines, tree⟩
    | .ok options =>
      let ending := options.run programs tree
      match ending.outcome with
      | .error fault => ⟨1, ending.lines, fault.lines, ending.tree⟩
      | .ok () => ⟨0, ending.lines, [], ending.tree⟩

end ApiCodegen.Command
