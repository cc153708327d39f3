/-!
# Paths

A path is a text; what it means is its list of components. Empty segments and dots count for
nothing, except for a dot in front of a relative path.

* `Path.components`: the components of a path.
* `Path.same`, `Path.le`: how paths are compared, by their components.
* `Path.join`: a path below another one.
* `Path.parent`: the directory that a path is in.
* `Path.fileName?`, `Path.extension?`: the last name of a path, and the extension of a name.
-/

namespace ApiCodegen.File

/-- A component of a path. -/
inductive Component where
  | root
  | here
  | up
  | name (name : String)
  deriving DecidableEq

namespace Component

/-- The place of a kind of component among the others. -/
def rank : Component → Nat
  | .root => 0
  | .here => 1
  | .up => 2
  | .name _ => 3

/-- The name that a component is, if it is one. -/
def text : Component → String
  | .name letters => letters
  | _ => ""

/-- Components are in order by their kinds, and names among each other by their characters. -/
instance : LT Component := ⟨fun a b => a.rank < b.rank ∨ a.rank = b.rank ∧ a.text < b.text⟩

instance : DecidableLT Component := fun a b =>
  inferInstanceAs (Decidable (a.rank < b.rank ∨ a.rank = b.rank ∧ a.text < b.text))

end Component

namespace Path

/-- The segments of a text between slashes. -/
def segments : List Char → List (List Char)
  | [] => [[]]
  | '/' :: rest => [] :: segments rest
  | c :: rest =>
    match segments rest with
    | [] => [[c]]
    | segment :: more => (c :: segment) :: more

/-- The component of a segment; an empty one and a dot have none. -/
def component? : List Char → Option Component
  | [] => none
  | ['.'] => none
  | ['.', '.'] => some .up
  | segment => some (.name (String.ofList segment))

/-- What a path starts from. -/
def start : List Char → List Component
  | '/' :: _ => [.root]
  | ['.'] => [.here]
  | '.' :: '/' :: _ => [.here]
  | _ => []

/-- The components of a path. -/
def components (path : String) : List Component :=
  start path.toList ++ (segments path.toList).filterMap component?

/-- Whether two paths have the same components. -/
def same (a b : String) : Bool := decide (components a = components b)

/-- The order of paths: by the first component that differs. -/
def le (a b : String) : Bool := decide (components a ≤ components b)

/-- Whether a path can only be a directory: its last segment is empty or a dot. -/
def isDirectoryOnly (path : String) : Bool :=
  match (segments path.toList).getLast? with
  | some [] => true
  | some ['.'] => true
  | _ => false

/-- A path below another one; an absolute path stands for itself. -/
def join (base path : String) : String :=
  if path.toList.head? = some '/' ∨ base.isEmpty then path
  else if base.toList.getLast? = some '/' then base ++ path
  else base ++ "/" ++ path

/-- The beginnings of a list that are not empty, shortest first. -/
def beginnings {α : Type} : List α → List (List α)
  | [] => []
  | a :: rest => [a] :: (beginnings rest).map (a :: ·)

/-- The components of the directory that a path is in. -/
def parent (path : String) : List Component :=
  match (components path).dropLast with
  | [] => [.here]
  | above => above

/-- The file name of a path: its last component, if that is a name. -/
def fileName? (path : String) : Option String :=
  match (components path).getLast? with
  | some (.name name) => some name
  | _ => none

/-- The extension of a file name: what stands behind its last dot, unless that is the first
character. -/
def extension? (name : String) : Option String :=
  let back := name.toList.reverse
  match back.dropWhile (· != '.') with
  | [] => none
  | [_] => none
  | _ => some (String.ofList (back.takeWhile (· != '.')).reverse)

end Path

end ApiCodegen.File
