import ApiCodegen.Failure
import ApiCodegen.Markup.Read
import ApiCodegen.Settings.Basic
import ApiCodegen.Text.Blank

/-!
# Reading settings

* `Settings.read`: the settings of a text. What the text leaves out has its default, and unknown
  names are passed over.
* `Settings.validate`: what settings must satisfy to be used.

Settings are read from the tree of the text and not from its value: a string takes the text of a
scalar as it stands, so `api_prefix: 3` is the text `3`.
-/

namespace ApiCodegen

open Markup

namespace Settings

/-- A reader of one setting. -/
abbrev Reader (α : Type) := Node Nat → Following α

/-- A node, or the node that an alias stands for. -/
def resolved (tree : Tree) : Reader (Node Nat)
  | .alias n => follow tree n
  | node => pure node

/-- The text of a scalar. -/
def textReader (tree : Tree) : Reader String := fun node => do
  match ← resolved tree node with
  | .scalar _ _ _ text => pure text
  | _ => failure

/-- The truth value of an unquoted scalar, or of a literal block tagged as one. -/
def boolReader (tree : Tree) : Reader Bool := fun node => do
  match ← resolved tree node with
  | .scalar _ tag style text =>
    if style = .plain ∨ (style = .literal ∧ tag = some "tag:yaml.org,2002:bool") then
      StateT.lift (boolOf? text)
    else failure
  | _ => failure

/-- Whether a scalar stands for nothing: unquoted, and null or empty. -/
def isNothing (tag : Option String) (style : Style) (text : String) : Bool :=
  style = .plain &&
    (if tag.isSome then tag = some "tag:yaml.org,2002:null" && isNullWord text
    else text = "" || isNullWord text)

/-- One of several words, as a scalar or as a tag on nothing. -/
def wordReader {α : Type} (tree : Tree) (words : List (String × α)) : Reader α := fun node => do
  let own (tag : Option String) : Option String := tag.bind ownTag?
  match ← resolved tree node with
  | .scalar _ tag style text =>
    match own tag with
    | some word =>
      if style = .plain ∧ (text = "" ∨ isNullWord text) then StateT.lift (words.lookup word)
      else failure
    | none => StateT.lift (words.lookup text)
  | _ => failure

/-- The items of a sequence; an empty unquoted scalar has none. -/
def listReader {α : Type} (tree : Tree) (item : Reader α) : Reader (List α) := fun node => do
  match ← resolved tree node with
  | .sequence _ _ items => items.mapM item
  | .scalar _ _ style text => if style = .plain ∧ text = "" then pure [] else failure
  | _ => failure

/-- Nothing, or what a reader reads. -/
def optionReader {α : Type} (tree : Tree) (reader : Reader α) : Reader (Option α) := fun node => do
  match ← resolved tree node with
  | .scalar anchor tag style text =>
    if isNothing tag style text then pure none
    else if style = .plain ∧ tag = some "tag:yaml.org,2002:null" then failure
    else do
      let a ← reader (.scalar anchor tag style text)
      pure (some a)
  | node => do
    let a ← reader node
    pure (some a)

/-- The named parts of a mapping; an empty unquoted scalar has none. -/
def partsReader (tree : Tree) : Reader (List (String × Node Nat)) := fun node => do
  match ← resolved tree node with
  | .mapping _ _ entries => entries.mapM fun (key, value) => do
    let name ← textReader tree key
    pure (name, value)
  | .scalar _ _ style text => if style = .plain ∧ text = "" then pure [] else failure
  | _ => failure

/-- The part of a name, or a default. A name that is given twice is refused. -/
def part {α : Type} (parts : List (String × Node Nat)) (name : String) (reader : Reader α)
    (default : α) : Following α :=
  match parts.filter fun p => p.1 = name with
  | [] => pure default
  | [p] => reader p.2
  | _ => failure

/-- The part of a name, which must be there. -/
def requiredPart {α : Type} (parts : List (String × Node Nat)) (name : String) (reader : Reader α) :
    Following α :=
  match parts.filter fun p => p.1 = name with
  | [p] => reader p.2
  | _ => failure

/-- A service binding. -/
def bindingReader (tree : Tree) : Reader Binding := fun node => do
  let parts ← partsReader tree node
  let operationId ← requiredPart parts "operation_id" (textReader tree)
  let modulePath ← requiredPart parts "module" (textReader tree)
  let function ← requiredPart parts "function" (textReader tree)
  pure { operationId, modulePath, function }

/-- The options of the server files. -/
def serverReader (tree : Tree) : Reader ServerOptions := fun node => do
  let parts ← partsReader tree node
  let base : ServerOptions := {}
  let modelsPath ← part parts "models_path" (textReader tree) base.modelsPath
  let routesPath ← part parts "routes_path" (textReader tree) base.routesPath
  let modelsModule ← part parts "models_module" (textReader tree) base.modelsModule
  pure { modelsPath, routesPath, modelsModule }

/-- The options of the client files. -/
def clientReader (tree : Tree) : Reader ClientOptions := fun node => do
  let parts ← partsReader tree node
  let base : ClientOptions := {}
  let typesPath ← part parts "types_path" (textReader tree) base.typesPath
  let clientPath ← part parts "client_path" (textReader tree) base.clientPath
  let typesImport ← part parts "types_import" (textReader tree) base.typesImport
  let baseUrlEnv ← part parts "base_url_env" (textReader tree) base.baseUrlEnv
  let defaultBaseUrl ← part parts "default_base_url" (textReader tree) base.defaultBaseUrl
  pure { typesPath, clientPath, typesImport, baseUrlEnv, defaultBaseUrl }

/-- The words for the policies and targets. -/
def referenceWords : List (String × ReferencePolicy) := [("strict", .strict), ("lenient", .lenient)]

/-- The words for the treatment of conflicting prefixes. -/
def tieBreakWords : List (String × TieBreak) := [("first-seen", .firstSeen), ("reject", .reject)]

/-- The words for the treatment of unbound operations. -/
def bindingWords : List (String × BindingPolicy) := [("lenient", .lenient), ("strict", .strict)]

/-- The words for the targets. -/
def targetWords : List (String × Target) := [("python", .python), ("type-script", .typeScript)]

/-- The settings of a tree. -/
def reader (tree : Tree) : Reader Settings := fun node => do
  let parts ← partsReader tree node
  let base : Settings := {}
  let apiPrefix ← part parts "api_prefix" (textReader tree) base.apiPrefix
  let references ← part parts "reference_policy" (wordReader tree referenceWords) base.references
  let tieBreak ← part parts "prefix_tie_break" (wordReader tree tieBreakWords) base.tieBreak
  let bindingPolicy ← part parts "binding_policy" (wordReader tree bindingWords) base.bindingPolicy
  let targets ← part parts "targets" (listReader tree (wordReader tree targetWords)) base.targets
  let outDir ← part parts "out_dir" (textReader tree) base.outDir
  let server ← part parts "python" (serverReader tree) base.server
  let client ← part parts "typescript" (clientReader tree) base.client
  let bindings ← part parts "bindings"
    (optionReader tree (listReader tree (bindingReader tree))) base.bindings
  let format ← part parts "format" (boolReader tree) base.format
  pure {
    apiPrefix, references, tieBreak, bindingPolicy, targets, outDir, server, client, bindings, format }

/-- The settings that a text gives, before they are validated. -/
def parse? (text : String) : Option Settings :=
  if (Text.trim text.toList).isEmpty then some {}
  else
    match Tree.read? text with
    | none => none
    | some none => some {}
    | some (some tree) => (reader tree tree.root).run' 0

/-- Whether a text is a path prefix: it starts with a slash and does not end with one. -/
def isPathPrefix (text : String) : Bool :=
  text.toList.head? == some '/' && text.toList.getLast? != some '/'

/-- What settings must satisfy to be used. -/
def validate (settings : Settings) : Except Failure Unit :=
  if !isPathPrefix settings.apiPrefix then .error (.settings (.apiPrefix settings.apiPrefix))
  else if settings.targets.isEmpty then .error (.settings .noTarget)
  else .ok ()

/-- The settings of a text. -/
def read (text : String) : Except Failure Settings :=
  match parse? text with
  | none => .error (.settings .text)
  | some settings => do
    settings.validate
    pure settings

end Settings

end ApiCodegen
