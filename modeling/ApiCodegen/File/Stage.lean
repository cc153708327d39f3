import ApiCodegen.File.Tree

/-!
# Staged output

Generated files are collected in a stage and written all together, or not at all: every file is
first written beside its destination, and then all are moved into place. If a step fails, what
was done before is undone.

* `Stage.stage`: adds an artifact; one with the same path gives way.
* `Stage.commit`: writes all artifacts below the root of the stage.
-/

namespace ApiCodegen.File

/-- A generated file. -/
structure Artifact where
  /-- The path below the root of the stage. -/
  path : String
  contents : String
  deriving DecidableEq

/-- Artifacts that wait to be written below a root. -/
structure Stage where
  root : String
  artifacts : List Artifact := []

/-- An artifact in place of the first one with the same path, else at the end. -/
def replace (new : Artifact) : List Artifact → List Artifact
  | [] => [new]
  | a :: more => if Path.same a.path new.path then new :: more else a :: replace new more

/-- A written file that waits to be moved. -/
structure Pending where
  destination : String
  temporary : Location
  bytes : ByteArray
  /-- The file that is there before the move. -/
  previous : Option ByteArray

/-- A file that was moved into place. -/
structure Moved where
  destination : String
  location : Location
  previous : Option ByteArray

/-- A failed step: the destination that it was done for, and the cause. -/
structure Fault where
  destination : String
  cause : FileFault

/-- The failure of a commit. -/
def Fault.failure (fault : Fault) : Failure := .commit fault.destination fault.cause

/-- What a commit has done so far; the lists have the latest first. -/
structure Progress where
  tree : Tree
  created : List Location := []
  pending : List Pending := []
  moved : List Moved := []

namespace Progress

/-- Creates directories, one after the other. -/
def createAll (p : Progress) : List (List Component) → Progress × Option FileFault
  | [] => (p, none)
  | path :: more =>
    match p.tree.createDirectory path with
    | .error cause => (p, some cause)
    | .ok (none, _) => p.createAll more
    | .ok (some loc, tree) =>
      createAll { p with tree := tree, created := loc :: p.created } more

/-- Creates the directories that are missing above a path. -/
def createParents (p : Progress) (path : String) : Progress × Option FileFault :=
  p.createAll ((Path.beginnings (Path.parent path)).filter fun above => !p.tree.existsAt above)

/-- Writes a file beside its destination. -/
def write (reserved : List String) (destination contents : String) (p : Progress) :
    Progress × Option Fault :=
  match p.createParents destination with
  | (p, some cause) => (p, some ⟨destination, cause⟩)
  | (p, none) =>
    match p.tree.writeTemporary (Path.parent destination) reserved contents.toUTF8 with
    | .error cause => (p, some ⟨destination, cause⟩)
    | .ok (loc, tree) =>
      let pending : Pending := ⟨destination, loc, contents.toUTF8, tree.bytes? destination⟩
      ({ p with tree := tree, pending := pending :: p.pending }, none)

/-- Writes files beside their destinations, until one fails. -/
def writeAll (reserved : List String) (p : Progress) :
    List (String × String) → Progress × Option Fault
  | [] => (p, none)
  | (destination, contents) :: more =>
    match p.write reserved destination contents with
    | (p, some fault) => (p, some fault)
    | (p, none) => p.writeAll reserved more

/-- Moves the written files into place, the first written first, until one fails. What is left
stays pending. -/
def moveAll (p : Progress) : List Pending → Progress × Option Fault
  | [] => ({ p with pending := [] }, none)
  | w :: more =>
    match p.tree.move w.temporary w.bytes w.destination with
    | .error cause => ({ p with pending := w :: more }, some ⟨w.destination, cause⟩)
    | .ok (loc, tree) =>
      moveAll { p with tree := tree, moved := ⟨w.destination, loc, w.previous⟩ :: p.moved } more

/-- A tree in which a moved file has given way to what was there before. -/
def restore (tree : Tree) (m : Moved) : Tree :=
  match m.previous with
  | some bytes => tree.insert m.location (.file bytes)
  | none => tree.erase m.location

/-- The tree in which all that was done is undone: pending files are dropped, moved files give way
to their predecessors, and created directories are removed, each time the latest first. -/
def undo (p : Progress) : Tree :=
  let tree := p.pending.foldl (fun t w => t.erase w.temporary) p.tree
  let tree := p.moved.foldl restore tree
  p.created.foldl Tree.removeDirectory tree

end Progress

namespace Stage

/-- Adds an artifact. One with the same path gives way and leaves its position. -/
def stage (s : Stage) (a : Artifact) : Stage := { s with artifacts := replace a s.artifacts }

/-- The artifact of a path. -/
def get? (s : Stage) (path : String) : Option Artifact :=
  s.artifacts.find? fun a => Path.same a.path path

/-- Where the artifact of a path is written. -/
def destination (s : Stage) (path : String) : String := Path.join s.root path

/-- The names in the destinations, which no temporary file may have. -/
def reserved (s : Stage) : List String :=
  s.artifacts.flatMap fun a => (Path.components (s.destination a.path)).filterMap fun
    | .name name => some name
    | _ => none

/-- The destinations and contents of the artifacts, in order. -/
def outputs (s : Stage) : List (String × String) :=
  s.artifacts.map fun a => (s.destination a.path, a.contents)

/-- Writes all artifacts; the result are their destinations, in order, and the tree. -/
def commit (s : Stage) (tree : Tree) : Except Failure (List String) × Tree :=
  match Progress.writeAll s.reserved { tree := tree } s.outputs with
  | (p, some fault) => (.error fault.failure, p.undo)
  | (p, none) =>
    match p.moveAll p.pending.reverse with
    | (p, some fault) => (.error fault.failure, p.undo)
    | (p, none) => (.ok (s.outputs.map Prod.fst), p.tree)

end Stage

end ApiCodegen.File
