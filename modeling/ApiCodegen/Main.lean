import ApiCodegen.Command.Run

/-!
# The program

The command line runs on a picture of the files that it reads and of those that it replaces. What
it changed is then written to disk. Formatters are not run from here.
-/

namespace ApiCodegen.Program

open File Command

/-- The location of a path, seen from a directory. -/
def locationOf (dir : Location) (path : String) : Location :=
  (Path.components path).foldl (fun loc c =>
    match c with
    | .root => []
    | .here => loc
    | .up => loc.dropLast
    | .name name => loc ++ [name]) dir

/-- The absolute path of a location. -/
def pathOf (loc : Location) : String := "/" ++ String.intercalate "/" loc

/-- A tree with what is on disk at a location. -/
def look (tree : Tree) (loc : Location) : IO Tree := do
  try
    let real ← IO.FS.realPath (pathOf loc)
    if ← real.isDir then return tree.insert loc .directory
    else
      let bytes ← IO.FS.readBinFile real
      return tree.insert loc (.file bytes)
  catch _ => return tree

/-- A tree with what is on disk at a path and at the directories above it. -/
def follow (tree : Tree) (path : String) : IO Tree :=
  (Path.beginnings (locationOf tree.workDir path)).foldlM look tree

/-- A tree with what is on disk below a location. Links are not followed. -/
partial def capture (tree : Tree) (loc : Location) : IO Tree := do
  try
    let real ← IO.FS.realPath (pathOf loc)
    let mut tree := tree
    for entry in ← real.readDir do
      let inner := loc ++ [entry.fileName]
      match (← entry.path.symlinkMetadata).type with
      | .dir => tree ← capture (tree.insert inner .directory) inner
      | .file => tree ← look tree inner
      | _ => pure ()
    return tree
  catch _ => return tree

/-- The files that settings ask for. -/
def outputs (s : Settings) : List String :=
  [s.server.modelsPath, s.server.routesPath, s.client.typesPath, s.client.clientPath].map
    (Path.join s.outDir)

/-- The picture for a command line. -/
def picture (options : Options) : IO Tree := do
  let workDir := locationOf [] (← IO.currentDir).toString
  let tree ← follow { workDir := workDir } "."
  let tree ← (options.schemas ++ options.config.toList).foldlM follow tree
  let tree ← match options.schemaDir with
    | some path => do
      let tree ← follow tree path
      capture tree (locationOf workDir path)
    | none => pure tree
  match options.settings tree with
  | .ok settings => (outputs settings).foldlM follow tree
  | .error _ => return tree

/-- Writes what is in a tree and was not there before. -/
def store (before after : Tree) : IO Unit := do
  for (loc, e) in after.entries do
    match before.entry? loc, e with
    | some .directory, .directory => pure ()
    | _, .directory => IO.FS.createDirAll (pathOf loc)
    | some (.file old), .file new =>
      if old.toList != new.toList then IO.FS.writeBinFile (pathOf loc) new
    | _, .file new => IO.FS.writeBinFile (pathOf loc) new

end ApiCodegen.Program

/-- Runs the command line. -/
def main (args : List String) : IO UInt32 := do
  let tree ← match ApiCodegen.Command.Options.read args with
    | .ok options => ApiCodegen.Program.picture options.withDefault
    | .error _ => pure {}
  let result := ApiCodegen.Command.execute ApiCodegen.Tool.noPrograms args tree
  ApiCodegen.Program.store tree result.tree
  for line in result.lines do IO.println line
  for line in result.errors do IO.eprintln line
  return result.code.toUInt32
