import ApiCodegen.Warning
import ApiCodegen.Schema.Basic

/-!
# Router topology

Operations under the API prefix are grouped by their first tag; each group has the prefix of the
first operation that carries the tag. Operations under the API prefix without a tag stand on the
aggregate router, and all others in the legacy group.

* `derivedBase?`: the group prefix that a path asks for; none outside the API prefix.
* `Topology.ofDocument`: the layout of all operations.
* `Topology.conflicts`: the operations that ask for another prefix than their group has.
* `Topology.resolve`: the layout, unless a tie-break refuses a conflict.
* `Topology.relativePath`: the path of an operation on its router.
-/

namespace ApiCodegen

/-- What is left of a text behind its start. -/
def behind? (start : List Char) (cs : List Char) : Option (List Char) :=
  match start, cs with
  | [], cs => some cs
  | _, [] => none
  | a :: start, c :: cs => if a = c then behind? start cs else none

/-- Whether a text ends here or goes on with a new path segment. -/
def atSegment (cs : List Char) : Bool :=
  match cs with
  | [] => true
  | c :: _ => c == '/'

/-- The first segment of a path that is not empty, with a slash in front; else nothing. -/
def firstSegment (cs : List Char) : List Char :=
  match (cs.dropWhile (· == '/')).takeWhile (· != '/') with
  | [] => []
  | segment => '/' :: segment

/-- The part of a path behind a prefix that ends at a segment; else the whole path. -/
def stripSegments (start cs : List Char) : List Char :=
  match behind? start cs with
  | some rest => if atSegment rest then rest else cs
  | none => cs

/-- The group prefix that a path under the API prefix asks for: its next segment. It is none for
other paths. -/
def derivedBase? (apiPrefix path : String) : Option String :=
  match behind? apiPrefix.toList path.toList with
  | some rest => if atSegment rest then some (String.ofList (firstSegment rest)) else none
  | none => none

/-- A router group. -/
structure Group where
  name : String
  tags : List String
  /-- The prefix of the group behind the API prefix. -/
  base : String
  members : List OperationKey
  deriving DecidableEq

/-- Where an operation is registered. A group is named by its tag. -/
inductive Slot where
  | group (tag : String)
  | aggregate
  | legacy
  deriving DecidableEq

/-- A tag and the prefix of its group. -/
structure TagBase where
  tag : String
  base : String
  deriving DecidableEq

/-- Adds the tags of an operation that have no group yet. -/
def addTags (base : String) (known : List TagBase) : List String → List TagBase
  | [] => known
  | tag :: more =>
    addTags base (if known.any fun t => t.tag = tag then known else known ++ [⟨tag, base⟩]) more

/-- The tags of the operations under the API prefix, in first-seen order, each with the prefix
that its first operation asks for. -/
def tagBases (apiPrefix : String) (known : List TagBase) : List Operation → List TagBase
  | [] => known
  | op :: more =>
    match derivedBase? apiPrefix op.path with
    | some base => tagBases apiPrefix (addTags base known op.tags) more
    | none => tagBases apiPrefix known more

/-- Where an operation belongs by its path and its first tag. -/
def slotOf (apiPrefix : String) (op : Operation) : Slot :=
  match derivedBase? apiPrefix op.path with
  | none => .legacy
  | some _ =>
    match op.tags.head? with
    | some tag => .group tag
    | none => .aggregate

/-- The name of the group of a tag. -/
def groupName (tag : String) : String := tag ++ "-router"

/-- The layout of a document. -/
structure Topology where
  apiPrefix : String
  /-- The groups in first-seen order, also those without members. -/
  groups : List Group
  legacy : Group
  /-- The place of every operation, in order. -/
  slots : List (OperationKey × Slot)

/-- An operation that asks for another prefix than its group has. -/
structure Conflict where
  op : Operation
  tag : String
  derived : String
  kept : String

/-- The remark on a conflict that is let pass. -/
def Conflict.warning (c : Conflict) : Warning :=
  .prefixKept c.op.verb c.op.path c.derived (groupName c.tag) c.kept

/-- The failure for a conflict that is refused. -/
def Conflict.failure (c : Conflict) : Failure :=
  .prefixConflict c.tag c.kept c.derived c.op.path

namespace Topology

/-- The keys of the operations in a slot, in order. -/
def membersOf (apiPrefix : String) (slot : Slot) (ops : List Operation) : List OperationKey :=
  (ops.filter fun op => slotOf apiPrefix op = slot).map Operation.key

/-- The first tags of the legacy operations, each once. -/
def legacyTags (apiPrefix : String) (ops : List Operation) : List String :=
  ((ops.filter fun op => slotOf apiPrefix op = .legacy).filterMap fun op => op.tags.head?).eraseDups

/-- The layout of a document. -/
def ofDocument (apiPrefix : String) (doc : Document) : Topology :=
  let ops := doc.operations
  { apiPrefix
    groups := (tagBases apiPrefix [] ops).map fun t =>
      ⟨groupName t.tag, [t.tag], t.base, membersOf apiPrefix (.group t.tag) ops⟩
    legacy := ⟨"legacy-router", legacyTags apiPrefix ops, "", membersOf apiPrefix .legacy ops⟩
    slots := ops.map fun op => (op.key, slotOf apiPrefix op) }

/-- The group of a tag. -/
def groupOfTag? (topology : Topology) (tag : String) : Option Group :=
  topology.groups.find? fun g => g.tags = [tag]

/-- The conflict of an operation with its group, if there is one. -/
def conflict? (topology : Topology) (op : Operation) : Option Conflict := do
  let derived ← derivedBase? topology.apiPrefix op.path
  let tag ← op.tags.head?
  let group ← topology.groupOfTag? tag
  if group.base = derived then none else some ⟨op, tag, derived, group.base⟩

/-- The operations that ask for another prefix than their group has, in order. -/
def conflicts (topology : Topology) (doc : Document) : List Conflict :=
  doc.operations.filterMap topology.conflict?

/-- The layout of a document. Conflicts are remarked on, or the first is refused. -/
def resolve (tieBreak : TieBreak) (apiPrefix : String) (doc : Document) : Reported Topology :=
  let topology := ofDocument apiPrefix doc
  match tieBreak with
  | .firstSeen => ⟨(topology.conflicts doc).map Conflict.warning, .ok topology⟩
  | .reject =>
    match topology.conflicts doc with
    | [] => pure topology
    | c :: _ => .fail c.failure

/-- The group of a name. -/
def group? (topology : Topology) (name : String) : Option Group :=
  topology.groups.find? fun g => g.name = name

/-- Where an operation is registered. Of several operations with one key the last decides. -/
def placement (topology : Topology) (key : OperationKey) : Slot :=
  (topology.slots.reverse.lookup key).getD .legacy

/-- The path of an operation on its router. Nothing left is a slash. -/
def relativeChars (topology : Topology) (op : Operation) : List Char :=
  let path := op.path.toList
  let versioned := stripSegments topology.apiPrefix.toList path
  let rest := match topology.placement op.key with
    | .legacy => path
    | .aggregate => versioned
    | .group tag =>
      match topology.groupOfTag? tag with
      | some g => stripSegments g.base.toList versioned
      | none => path
  match rest with
  | [] => ['/']
  | rest => rest

/-- The path of an operation on its router. -/
def relativePath (topology : Topology) (op : Operation) : String :=
  String.ofList (topology.relativeChars op)

end Topology

end ApiCodegen
