import ApiCodegen.Failure
import ApiCodegen.File.Path
import ApiCodegen.Name.Fresh

/-!
# File trees

* `Tree`: the files and directories below the root, and the working directory.
* `Tree.find`: what a path leads to.
* `Tree.readText`: the text of a file.
* `Tree.createDirectory`, `Tree.writeFile`, `Tree.move`, `Tree.remove`: the changes of a tree.
-/

namespace ApiCodegen.File

/-- Where something is: the names on the way from the root. -/
abbrev Location := List String

/-- What can be at a location. -/
inductive Entry where
  | directory
  | file (bytes : ByteArray)

/-- A change of a tree that the system can refuse. -/
inductive Change where
  | directory (loc : Location)
  | file (loc : Location) (bytes : ByteArray)
  | move (source target : Location)

/-- The files and directories below the root. The root itself is a directory. -/
structure Tree where
  entries : List (Location × Entry) := []
  /-- What relative paths start from. -/
  workDir : Location := []
  /-- What the system refuses beyond what the entries forbid, for want of rights or of space. -/
  refuses : Change → Option FileFault := fun _ => none

namespace Tree

/-- What is at a location. -/
def entry? (t : Tree) (loc : Location) : Option Entry :=
  match loc with
  | [] => some .directory
  | loc => t.entries.lookup loc

/-- Entries with one put at its location, in place of what is there. -/
def put (loc : Location) (e : Entry) : List (Location × Entry) → List (Location × Entry)
  | [] => [(loc, e)]
  | (l, d) :: more => if l = loc then (loc, e) :: more else (l, d) :: put loc e more

/-- A tree with an entry at a location. -/
def insert (t : Tree) (loc : Location) (e : Entry) : Tree := { t with entries := put loc e t.entries }

/-- A tree without what is at a location. -/
def erase (t : Tree) (loc : Location) : Tree :=
  { t with entries := t.entries.filter fun entry => entry.1 ≠ loc }

/-- The name of a location inside a directory. -/
def childName? (dir : Location) (loc : Location) : Option String :=
  match dir.isPrefixOf? loc with
  | some [name] => some name
  | _ => none

/-- The names in a directory. -/
def children (t : Tree) (dir : Location) : List String :=
  t.entries.filterMap fun entry => childName? dir entry.1

/-- The longest name, in bytes, that a file can have. -/
def longestName : Nat := 255

/-- Where a path leads, starting in a directory. All but the last component must be there. -/
def walk (t : Tree) (dir : Location) : List Component → Except FileFault Location
  | [] => .ok dir
  | c :: more =>
    match t.entry? dir with
    | none => .error .notFound
    | some (.file _) => .error .notADirectory
    | some .directory =>
      match c with
      | .root => t.walk [] more
      | .here => t.walk dir more
      | .up => t.walk dir.dropLast more
      | .name name =>
        if longestName < name.utf8ByteSize then .error .badName else t.walk (dir ++ [name]) more

/-- Where a list of components leads from the working directory. An empty one leads nowhere. -/
def locate (t : Tree) (path : List Component) : Except FileFault Location :=
  match path with
  | [] => .error .notFound
  | path => t.walk t.workDir path

/-- What a list of components leads to. -/
def findAt (t : Tree) (path : List Component) : Except FileFault (Location × Entry) := do
  let loc ← t.locate path
  match t.entry? loc with
  | none => .error .notFound
  | some e => .ok (loc, e)

/-- What a path leads to. -/
def find (t : Tree) (path : String) : Except FileFault (Location × Entry) := do
  let (loc, e) ← t.findAt (Path.components path)
  match e with
  | .directory => .ok (loc, .directory)
  | .file bytes =>
    if Path.isDirectoryOnly path then .error .notADirectory else .ok (loc, .file bytes)

/-- Whether components lead to something. -/
def existsAt (t : Tree) (path : List Component) : Bool :=
  match t.findAt path with
  | .ok _ => true
  | .error _ => false

/-- The bytes of the file that a path leads to, if it leads to one. -/
def bytes? (t : Tree) (path : String) : Option ByteArray :=
  match t.find path with
  | .ok (_, .file bytes) => some bytes
  | _ => none

/-- Whether a path leads to a file. -/
def isFile (t : Tree) (path : String) : Bool := (t.bytes? path).isSome

/-- The directory that a path leads to, if it leads to one. -/
def directory? (t : Tree) (path : String) : Option Location :=
  match t.find path with
  | .ok (loc, .directory) => some loc
  | _ => none

/-- Whether a path leads to a directory. -/
def isDirectory (t : Tree) (path : String) : Bool := (t.directory? path).isSome

/-- The text of the file that a path leads to. -/
def readText (t : Tree) (path : String) : Except FileFault String := do
  match ← t.find path with
  | (_, .directory) => .error .isADirectory
  | (_, .file bytes) =>
    match String.fromUTF8? bytes with
    | some text => .ok text
    | none => .error .notText

/-- Fails if the system refuses a change. -/
def permit (t : Tree) (change : Change) : Except FileFault Unit :=
  match t.refuses change with
  | some cause => .error cause
  | none => .ok ()

/-- Creates a directory. There is no location in the result if something is there already. -/
def createDirectory (t : Tree) (path : List Component) :
    Except FileFault (Option Location × Tree) := do
  let loc ← t.locate path
  match t.entry? loc with
  | some _ => .ok (none, t)
  | none => do
    t.permit (.directory loc)
    .ok (some loc, t.insert loc .directory)

/-- Writes a new file into a directory, under a name that is not taken there and not among some
reserved ones. -/
def writeTemporary (t : Tree) (dir : List Component) (reserved : List String) (bytes : ByteArray) :
    Except FileFault (Location × Tree) := do
  let (loc, e) ← t.findAt dir
  match e with
  | .file _ => .error .notADirectory
  | .directory => do
    let name := Name.fresh (reserved ++ t.children loc) ".tmp"
    t.permit (.file (loc ++ [name]) bytes)
    .ok (loc ++ [name], t.insert (loc ++ [name]) (.file bytes))

/-- The location that a file of a path would have. A directory is no such location. -/
def fileLocation (t : Tree) (path : String) : Except FileFault Location := do
  let loc ← t.locate (Path.components path)
  match t.entry? loc with
  | some .directory => .error .isADirectory
  | _ => if Path.isDirectoryOnly path then .error .notADirectory else .ok loc

/-- Moves a file from its location to a path, in place of a file that is there. -/
def move (t : Tree) (source : Location) (bytes : ByteArray) (path : String) :
    Except FileFault (Location × Tree) := do
  let loc ← t.fileLocation path
  t.permit (.move source loc)
  .ok (loc, (t.erase source).insert loc (.file bytes))

/-- Removes a directory, unless something is in it. -/
def removeDirectory (t : Tree) (loc : Location) : Tree :=
  if (t.children loc).isEmpty then t.erase loc else t

end Tree

end ApiCodegen.File
