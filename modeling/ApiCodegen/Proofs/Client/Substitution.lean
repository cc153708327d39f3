import ApiCodegen.Client.Methods
import ApiCodegen.Proofs.Client.Literal
import ApiCodegen.Proofs.Plan.Template

/-!
# Path expressions of the client

A method gives its request a path, as an expression over its parameters and the names of the module. The
expression is read from its tokens and evaluated: it is a member of the endpoints, or a call of
`buildPath` with such a member and an object.

* `PathExpr`, `pathExpr?`: **the expression that some tokens are.**
* `Meaning`, `Scope`: what a name stands for.
* `ObjectEntry.ownKey?`: the key that an entry gives its object. A key `__proto__` with a value gives none,
  as it asks for a prototype.
* `encodeURIComponent`, `builtPath`: what the client does with a template and an object.
* `PathExpr.eval`: **the text that an expression evaluates to**, if it does.
* `Method.Evaluates`, `Method.Fills`: what is wanted of the path of a method.
-/

namespace ApiCodegen.Client

open Text

/-! ## Reading -/

/-- An entry of an object: a variable that is its own key, or a key with a variable. -/
inductive ObjectEntry where
  | shorthand (name : String)
  | keyed (key variableName : String)
  deriving DecidableEq

/-- The expression of a path. -/
inductive PathExpr where
  | member (object name : String)
  | call (function object name : String) (entries : List ObjectEntry)
  deriving DecidableEq

/-- The entry that some tokens are. -/
def propertyOf? : List Token → Option ObjectEntry
  | [.word name] => some (.shorthand name)
  | [key, .mark ':', .word name] => (keyOf? key).map fun k => .keyed k name
  | _ => none

/-- **The expression that some tokens are.** -/
def pathExpr? : List Token → Option PathExpr
  | [.word object, .mark '.', .word name] => some (.member object name)
  | .word function :: .mark '(' :: .word object :: .mark '.' :: .word name :: .mark ',' ::
      .mark '\x7b' :: more =>
    some (.call function object name ((parts (separatedBy ',') 0 more.dropLast.dropLast).filterMap propertyOf?))
  | _ => none

/-! ## Evaluating -/

/-- What a name stands for. -/
inductive Meaning where
  | text (value : String)
  | object (members : List (String × String))
  /-- The function that fills in a path template. -/
  | buildPath
  | other

/-- Names with what they stand for. The first of a name counts. -/
abbrev Scope := List (String × Meaning)

/-- The value of a member. The last of a name counts. -/
def valueOf? (members : List (String × String)) (name : String) : Option String :=
  members.reverse.lookup name

namespace ObjectEntry

/-- The variable of an entry. -/
def variableName : ObjectEntry → String
  | .shorthand name => name
  | .keyed _ name => name

/-- The key that an entry gives its object. -/
def ownKey? : ObjectEntry → Option String
  | .shorthand name => some name
  | .keyed key _ => if key = "__proto__" then none else some key

end ObjectEntry

/-- The members of an object. Every variable must stand for a text. -/
def members? (scope : Scope) : List ObjectEntry → Option (List (String × String))
  | [] => some []
  | e :: more =>
    match scope.lookup e.variableName, members? scope more with
    | some (.text value), some members => some ((e.ownKey?.map fun key => (key, value)).toList ++ members)
    | _, _ => none

/-- The characters that stay as they are in a component of a location. -/
def isUnreserved (c : Char) : Bool :=
  c.isAlphanum || c ∈ ['-', '_', '.', '!', '~', '*', '\x27', '(', ')']

/-- A text as a component of a location: every other character is given by its bytes. -/
def encodeURIComponent (s : String) : String :=
  String.ofList (s.toList.flatMap fun c =>
    if isUnreserved c then [c]
    else (String.utf8EncodeChar c).flatMap fun byte =>
      ['%', (hexDigit (byte.toNat / 16)).toUpper, (hexDigit (byte.toNat % 16)).toUpper])

/-- **A template with an object in place of its tokens.** A member that the object lacks is one that every
object has, or empty. -/
def builtPath (inherited : String → Option String) (template : String) (members : List (String × String)) :
    String :=
  String.ofList (replaced (fun name =>
    encodeURIComponent (((valueOf? members name).or (inherited name)).getD "")) (pieces template.toList))

namespace PathExpr

/-- The text of a member of an object. -/
def memberText? (scope : Scope) (object name : String) : Option String :=
  match scope.lookup object with
  | some (.object members) => valueOf? members name
  | _ => none

/-- **The text that an expression evaluates to**, by the members that every object has. -/
def eval (inherited : String → Option String) (scope : Scope) : PathExpr → Option String
  | .member object name => memberText? scope object name
  | .call function object name entries =>
    match scope.lookup function, memberText? scope object name, members? scope entries with
    | some .buildPath, some template, some members => some (builtPath inherited template members)
    | _, _, _ => none

/-- The keys of the object of an expression. -/
def ownKeys : PathExpr → List String
  | .member _ _ => []
  | .call _ _ _ entries => entries.filterMap ObjectEntry.ownKey?

end PathExpr

/-! ## Methods -/

/-- The names of the module that the expression of a path uses. -/
def pathNames : List String := ["buildPath", "API_ENDPOINTS"]

/-- The names of the module that a method uses. -/
def usedNames : List String := pathNames ++ ["createApiClient", "defaultBaseUrl"]

/-- The names that a module admits for no parameter, beside the words that are reserved anyway. -/
def unbindable : List String := [
  "arguments", "await", "eval", "implements", "interface", "let", "package", "private", "protected",
  "public", "static", "yield"]

/-- What the names of a module stand for. -/
def ClientFile.moduleScope (file : ClientFile) : Scope := [
  ("API_ENDPOINTS", .object (file.endpoints.map fun e => (e.name, e.path))),
  ("buildPath", .buildPath), ("ApiClient", .other), ("createApiClient", .other),
  ("defaultBaseUrl", .other), ("apiMethods", .other)]

namespace Method

/-- The names of the parameters of a method. -/
def parameterNames (m : Method) : List String :=
  m.params.map TokenParam.name ++ (m.request.map Prod.fst).toList

/-- What the names in a method stand for, by the arguments for the tokens of its path: its parameters hide
the names of the module. -/
def scope (file : ClientFile) (m : Method) (args : List String) : Scope :=
  (m.params.map TokenParam.name).zip (args.map .text) ++
    ((m.request.map fun request => (request.1, .other)).toList ++ file.moduleScope)

/-- The expression of the path of a method. -/
def pathExpr? (m : Method) : Option PathExpr := Client.pathExpr? (tokens .client m.pathText)

/-- **The path that a method asks for**, by the arguments for the tokens of its path. -/
def evaluate (inherited : String → Option String) (file : ClientFile) (m : Method) (args : List String) :
    Option String :=
  if ∀ name ∈ m.parameterNames, name ∉ unbindable then
    m.pathExpr?.bind (PathExpr.eval inherited (m.scope file args))
  else none

/-- For all arguments a method asks for the path with these in place of the tokens, in order. -/
def Evaluates (inherited : String → Option String) (file : ClientFile) (m : Method) (path : String) : Prop :=
  ∀ args : List String, args.length = (pathTokens path).length → m.evaluate inherited file args =
    some (String.ofList (filled (pieces path.toList) (args.map encodeURIComponent)))

/-- **A method fills in a path**: it asks for the path with its arguments in place of the tokens; it sees the
names of the module that it uses; and its object has one key for every token. -/
structure Fills (inherited : String → Option String) (file : ClientFile) (m : Method) (path : String) :
    Prop where
  evaluates : m.Evaluates inherited file path
  visible : ∀ name ∈ m.parameterNames, name ∉ usedNames
  entries : ((m.pathExpr?.map PathExpr.ownKeys).getD []).dedup.length = (pathTokens path).length

end Method

end ApiCodegen.Client
