import ApiCodegen.Schema.Verb

/-!
# Failures

Why a run can fail. Every failure is a cause with its data; `Failure.message` gives the wording.

* `Malformation`: what is wrong with a description.
* `SettingsFault`: what is wrong with settings.
* `FileFault`: why a file could not be read or written.
* `Failure`: all of them, and the conflicts found while planning.
-/

namespace ApiCodegen

/-- What is wrong with a description. Locations are written as dotted paths. -/
inductive Malformation where
  | text
  | rootNotMapping
  | missingSection (name : String)
  | sectionNotMapping (name : String)
  | componentName
  | pathKey
  | pathItem (path : String)
  | operationNotMapping (location : String)
  | tagsNotList (location : String)
  | schemaNotMapping (location : String)
  | referenceNotString (location : String)
  | typeNotString (location : String)
  | unknownType (name location : String)
  | enumNotStrings (location : String)
  | propertiesNotMapping (location : String)
  | propertyName (location : String)
  | duplicateOperation (verb : Verb) (path : String)
  | other (message : String)
  deriving DecidableEq

/-- The wording of a malformation. -/
def Malformation.message : Malformation → String
  | .text => "the text is not well formed"
  | .rootNotMapping => "document root is not a mapping"
  | .missingSection name => s!"missing `{name}` section"
  | .sectionNotMapping name => s!"`{name}` is not a mapping"
  | .componentName => "component name is not a string"
  | .pathKey => "path key is not a string"
  | .pathItem path => s!"path item `{path}` is not a mapping"
  | .operationNotMapping location => s!"{location} is not a mapping"
  | .tagsNotList location => s!"{location}.tags is not a list"
  | .schemaNotMapping location => s!"schema at {location} is not a mapping"
  | .referenceNotString location => s!"$ref at {location} is not a string"
  | .typeNotString location => s!"`type` at {location} is not a string"
  | .unknownType name location => s!"unknown type `{name}` at {location}"
  | .enumNotStrings location => s!"enum at {location} has non-string values"
  | .propertiesNotMapping location => s!"properties at {location} is not a mapping"
  | .propertyName location => s!"property name at {location} is not a string"
  | .duplicateOperation verb path => s!"duplicate operation {verb.upper} {path} in merged documents"
  | .other message => message

/-- What is wrong with settings. -/
inductive SettingsFault where
  | text
  | apiPrefix (value : String)
  | noTarget
  | boundTwice (operationId : String)
  | noSources
  | noDirectory (path : String)
  deriving DecidableEq

/-- The wording of a fault in the settings. -/
def SettingsFault.message : SettingsFault → String
  | .text => "the text does not hold settings"
  | .apiPrefix value => s!"api_prefix must start with '/' and must not end with '/': `{value}`"
  | .noTarget => "at least one target is required"
  | .boundTwice id => s!"operation `{id}` is bound more than once"
  | .noSources => "no schema documents given"
  | .noDirectory path => s!"schema directory does not exist: {path}"

/-- Why a file could not be read or written. -/
inductive FileFault where
  | notFound
  | notADirectory
  | isADirectory
  | notText
  | badName
  deriving DecidableEq

/-- The wording of a file fault. -/
def FileFault.message : FileFault → String
  | .notFound => "no such file or directory"
  | .notADirectory => "not a directory"
  | .isADirectory => "is a directory"
  | .notText => "the file is not UTF-8 text"
  | .badName => "the name cannot be used"

/-- Why a run failed. -/
inductive Failure where
  | malformed (cause : Malformation)
  | unresolvedReference (reference location : String)
  | nameCollision (name first second : String)
  | prefixConflict (tag kept rejected path : String)
  | unboundOperations (ids : List String)
  | settings (cause : SettingsFault)
  | file (cause : FileFault)
  | commit (path : String) (cause : FileFault)
  deriving DecidableEq

/-- The wording of a failure. -/
def Failure.message : Failure → String
  | .malformed cause => "parse error: " ++ cause.message
  | .unresolvedReference reference location => s!"unresolved reference `{reference}` at {location}"
  | .nameCollision name first second =>
    s!"name collision: `{name}` is declared by both `{first}` and `{second}`"
  | .prefixConflict tag kept rejected path =>
    s!"prefix conflict for tag `{tag}`: `{path}` derives `{rejected}` but the group already uses `{kept}`"
  | .unboundOperations ids => "operations without a service binding: " ++ ", ".intercalate ids
  | .settings cause => "invalid configuration: " ++ cause.message
  | .file cause => "IO error: " ++ cause.message
  | .commit path cause => s!"failed to commit {path}: " ++ cause.message

end ApiCodegen
