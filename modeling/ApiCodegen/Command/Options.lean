import ApiCodegen.Settings.Basic

/-!
# Command line options

* `Options`: what a command line asks for.
* `Switch`: the options by their names.
* `Options.read`: the options of a list of arguments.

An option's value that stands as an argument of its own is taken up when the next option is met
or when the arguments end, and faults of it are found only then.
-/

namespace ApiCodegen.Command

/-- What a command line asks for. -/
structure Options where
  schemas : List String := []
  schemaDir : Option String := none
  config : Option String := none
  outDir : Option String := none
  targets : List Target := []
  apiPrefix : Option String := none
  strictReferences : Bool := false
  lenientReferences : Bool := false
  strictBindings : Bool := false
  rejectConflicts : Bool := false
  noFormat : Bool := false
  dryRun : Bool := false
  verbose : Bool := false
  deriving DecidableEq

/-- An option that takes a value. -/
inductive Setting where
  | schema
  | schemaDir
  | config
  | outDir
  | target
  | apiPrefix
  deriving DecidableEq

/-- An option without a value. -/
inductive Flag where
  | strictReferences
  | lenientReferences
  | strictBindings
  | rejectConflicts
  | noFormat
  | dryRun
  | verbose
  deriving DecidableEq

/-- An option by its name. -/
inductive Switch where
  | setting (s : Setting)
  | flag (f : Flag)
  | help
  | version
  deriving DecidableEq

/-- The long names of the options. -/
def longNames : List (String × Switch) := [
  ("schema", .setting .schema),
  ("schema-dir", .setting .schemaDir),
  ("config", .setting .config),
  ("out-dir", .setting .outDir),
  ("target", .setting .target),
  ("api-prefix", .setting .apiPrefix),
  ("strict-refs", .flag .strictReferences),
  ("lenient-refs", .flag .lenientReferences),
  ("strict-bindings", .flag .strictBindings),
  ("reject-prefix-conflicts", .flag .rejectConflicts),
  ("no-format", .flag .noFormat),
  ("dry-run", .flag .dryRun),
  ("verbose", .flag .verbose),
  ("help", .help),
  ("version", .version)]

/-- The short names of the options. -/
def shortNames : List (Char × Switch) := [
  ('s', .setting .schema),
  ('c', .setting .config),
  ('o', .setting .outDir),
  ('t', .setting .target),
  ('v', .flag .verbose),
  ('h', .help),
  ('V', .version)]

/-- The names of the targets. -/
def targetNames : List (String × Target) := [("python", .python), ("typescript", .typeScript)]

/-- What is wrong with a command line. -/
inductive UsageFault where
  | argumentConflict
  | unknownArgument
  | invalidValue
  | tooManyValues
  deriving DecidableEq

/-- The wording of a usage fault. -/
def UsageFault.message : UsageFault → String
  | .argumentConflict => "an option is used twice, or with one that excludes it"
  | .unknownArgument => "unexpected argument"
  | .invalidValue => "a value is missing or not valid"
  | .tooManyValues => "an option takes no value"

/-- Why the arguments give no options. -/
inductive Stop where
  | help
  | version
  | fault (f : UsageFault)
  deriving DecidableEq

namespace Options

/-- A value for an option that can be given once. -/
def once (before : Option String) (value : String) : Except Stop (Option String) :=
  if before.isSome then .error (.fault .argumentConflict) else .ok (some value)

/-- A path, which must not be empty. -/
def path (value : String) : Except Stop String :=
  if value.isEmpty then .error (.fault .invalidValue) else .ok value

/-- A path for an option that can be given once. -/
def pathOnce (before : Option String) (value : String) : Except Stop (Option String) := do
  let after ← once before value
  let _ ← path value
  .ok after

/-- Options with a further value. -/
def set (o : Options) (s : Setting) (value : String) : Except Stop Options :=
  match s with
  | .schema => do
    let p ← path value
    .ok { o with schemas := o.schemas ++ [p] }
  | .schemaDir => do
    let p ← pathOnce o.schemaDir value
    .ok { o with schemaDir := p }
  | .config => do
    let p ← pathOnce o.config value
    .ok { o with config := p }
  | .outDir => do
    let p ← pathOnce o.outDir value
    .ok { o with outDir := p }
  | .target =>
    match targetNames.lookup value with
    | some t => .ok { o with targets := o.targets ++ [t] }
    | none => .error (.fault .invalidValue)
  | .apiPrefix => do
    let p ← once o.apiPrefix value
    .ok { o with apiPrefix := p }

/-- Whether a flag is given. -/
def has (o : Options) : Flag → Bool
  | .strictReferences => o.strictReferences
  | .lenientReferences => o.lenientReferences
  | .strictBindings => o.strictBindings
  | .rejectConflicts => o.rejectConflicts
  | .noFormat => o.noFormat
  | .dryRun => o.dryRun
  | .verbose => o.verbose

/-- Options with a further flag, which can be given once. -/
def raise (o : Options) (f : Flag) : Except Stop Options :=
  if o.has f then .error (.fault .argumentConflict)
  else .ok (match f with
    | .strictReferences => { o with strictReferences := true }
    | .lenientReferences => { o with lenientReferences := true }
    | .strictBindings => { o with strictBindings := true }
    | .rejectConflicts => { o with rejectConflicts := true }
    | .noFormat => { o with noFormat := true }
    | .dryRun => { o with dryRun := true }
    | .verbose => { o with verbose := true })

end Options

/-- Options that are being read. -/
structure Reading where
  options : Options := {}
  /-- A setting that still waits to be taken up, with its value if that was met. -/
  waiting : Option (Setting × Option String) := none

namespace Reading

/-- The options when a waiting setting is taken up. -/
def settled (r : Reading) : Except Stop Options :=
  match r.waiting with
  | none => .ok r.options
  | some (_, none) => .error (.fault .invalidValue)
  | some (s, some value) => r.options.set s value

/-- Reads a setting whose value is attached to its name, or follows. -/
def setting (r : Reading) (s : Setting) (attached : Option String) : Except Stop Reading := do
  let options ← r.settled
  match attached with
  | some value => do
    let options ← options.set s value
    .ok { options := options }
  | none => .ok { options := options, waiting := some (s, none) }

/-- Reads an option without a value. -/
def plain (r : Reading) (switch : Switch) : Except Stop Reading := do
  let options ← r.settled
  match switch with
  | .flag f => do
    let options ← options.raise f
    .ok { options := options }
  | .help => .error .help
  | .version => .error .version
  | .setting s => .ok { options := options, waiting := some (s, none) }

/-- Reads an argument with a long name. -/
def long (r : Reading) (text : List Char) : Except Stop Reading :=
  let name := String.ofList (text.takeWhile (· != '='))
  let attached := match text.dropWhile (· != '=') with
    | _ :: value => some (String.ofList value)
    | [] => none
  match longNames.lookup name, attached with
  | none, _ => .error (.fault .unknownArgument)
  | some (.setting s), attached => r.setting s attached
  | some _, some _ => .error (.fault .tooManyValues)
  | some switch, none => r.plain switch

/-- The value that is attached to a short name. -/
def attachedValue : List Char → Option String
  | [] => none
  | '=' :: value => some (String.ofList value)
  | value => some (String.ofList value)

/-- Reads short names that stand together. -/
def short (r : Reading) : List Char → Except Stop Reading
  | [] => .ok r
  | c :: more =>
    match shortNames.lookup c with
    | none => .error (.fault .unknownArgument)
    | some (.setting s) => r.setting s (attachedValue more)
    | some switch => do
      let r ← r.plain switch
      r.short more

/-- Reads an argument that is no option. -/
def value (r : Reading) (text : String) : Except Stop Reading :=
  match r.waiting with
  | some (s, none) => .ok { r with waiting := some (s, some text) }
  | _ => .error (.fault .unknownArgument)

/-- Reads an argument. -/
def argument (r : Reading) (text : String) : Except Stop Reading :=
  match text.toList with
  | '-' :: '-' :: name => r.long name
  | '-' :: c :: more => r.short (c :: more)
  | _ => r.value text

/-- The options when the arguments have ended. -/
def finish (r : Reading) : Except Stop Options := do
  let options ← r.settled
  if options.strictReferences && options.lenientReferences then .error (.fault .argumentConflict)
  else .ok options

/-- Reads arguments. Nothing may follow two dashes. -/
def arguments (r : Reading) : List String → Except Stop Options
  | [] => r.finish
  | text :: more =>
    if text = "--" then if more.isEmpty then r.finish else .error (.fault .unknownArgument)
    else do
      let r ← r.argument text
      r.arguments more

end Reading

/-- The options of a list of arguments. -/
def Options.read (args : List String) : Except Stop Options := Reading.arguments {} args

end ApiCodegen.Command
