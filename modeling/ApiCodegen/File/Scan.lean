import ApiCodegen.File.Tree

/-!
# Scanning for descriptions

A scan walks through a directory and what is below it. What is hidden and what is built is passed
over, with all that is in it; only the directory that is scanned can have any name.

* `Tree.visits`: the paths that a walk meets.
* `scan`: the description files below a directory, sorted.
-/

namespace ApiCodegen.File

/-- The extensions of description files. -/
def descriptionExtensions : List String := ["yaml", "yml", "json"]

/-- Whether a path is that of a description, by its extension. -/
def isDescription (path : String) : Bool :=
  match (Path.fileName? path).bind Path.extension? with
  | some extension => descriptionExtensions.contains extension
  | none => false

/-- Whether a name is passed over, with all that is below it: it is hidden or a build directory. -/
def isSkipped (name : String) : Bool :=
  name.toList.head? = some '.' || name = "target" || name = "node_modules"

namespace Tree

/-- How deep a tree is: the length of the longest location in it. -/
def depth (t : Tree) : Nat := (t.entries.map fun entry => entry.1.length).foldr max 0

/-- The paths that a walk meets below a path, so many levels deep: in every directory all that is
not passed over. -/
def visits (t : Tree) : Nat → String → List String
  | 0, _ => []
  | levels + 1, path =>
    match t.directory? path with
    | none => []
    | some dir => ((t.children dir).filter fun name => !isSkipped name).flatMap fun name =>
        Path.join path name :: t.visits levels (Path.join path name)

end Tree

/-- The description files below a directory, sorted. -/
def scan (tree : Tree) (root : String) : Except Failure (List String) :=
  if tree.isDirectory root then
    let found := (tree.visits tree.depth root).filter fun path => tree.isFile path && isDescription path
    .ok (found.mergeSort Path.le)
  else .error (.settings (.noDirectory root))

end ApiCodegen.File
