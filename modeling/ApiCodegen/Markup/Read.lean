import ApiCodegen.Markup.Node
import ApiCodegen.Markup.Scalar

/-!
# From a text to its value

* `read?`: the value of a text, if the text is well formed. An empty text is null.

A mapping with two equal keys, collections nested deeper than 128 and too many followed
aliases are refused.
-/

namespace ApiCodegen.Markup

/-- A computation that counts the aliases it follows, and may fail. -/
abbrev Following (α : Type) := StateT Nat Option α

/-- The deepest nesting of collections. -/
def maxDepth : Nat := 128

/-- Follows an alias. -/
def follow (tree : Tree) (n : Nat) : Following (Node Nat) := do
  let followed ← get
  if tree.aliasLimit ≤ followed then failure
  else
    set (followed + 1)
    match tree.target? n with
    | some node => pure node
    | none => failure

/-- The value of a scalar, with or without regard to its tag. -/
def scalarValue? (tag : Option String) (style : Style) (text : String) : Option Value :=
  match tag with
  | some tag => taggedValue? tag text
  | none => if style = .plain then plainValue? text else some (.string text)

/-- The value of a scalar whose own tag is already taken off. -/
def bareScalar? (style : Style) (text : String) : Option Value :=
  if style = .plain then plainValue? text else some (.string text)

/-- A value under an application's own tag. -/
def Value.under (tag : Option String) (v : Value) : Value :=
  match tag with
  | some name => .tagged (String.ofList (unmarked name.toList)) v
  | none => v

/-- The entries of a mapping in order; a key that is there already is refused. `key` and `value`
read the two parts of an entry. -/
def readEntries (key value : Node Nat → Following Value) (known : Entries) :
    List (Node Nat × Node Nat) → Following Entries
  | [] => pure known.reverse
  | (k, v) :: more => do
    let k ← key k
    if known.any fun entry => entry.1.same k then failure
    else
      let v ← value v
      readEntries key value ((k, v) :: known) more

/-- Reads a node that is no alias. `inner` reads the parts of a collection, with or without
regard to their own tags. A value under a tag of its own does not regard the tags of itself and
of its keys. -/
def readNode (inner : Bool → Node Nat → Following Value) (bare : Bool) (node : Node Nat) :
    Following Value :=
  let own (tag : Option String) : Option String := if bare then none else tag.bind ownTag?
  match node with
  | .alias _ => failure
  | .scalar _ tag style text =>
    if bare || (own tag).isSome then StateT.lift ((bareScalar? style text).map (Value.under (own tag)))
    else StateT.lift (scalarValue? tag style text)
  | .sequence _ tag items => do
    let items ← items.mapM (inner false)
    pure (Value.under (own tag) (.sequence items))
  | .mapping _ tag entries => do
    let entries ← readEntries (inner (bare || (own tag).isSome)) (inner false) [] entries
    pure (Value.under (own tag) (.mapping entries))

/-- Reads a node inside at most `depth` further collections. -/
def readAt (tree : Tree) : Nat → Bool → Node Nat → Following Value
  | 0, _, .sequence .. => failure
  | 0, _, .mapping .. => failure
  | 0, _, .alias n => do
    match ← follow tree n with
    | .scalar anchor tag style text =>
      readNode (fun _ _ => failure) false (.scalar anchor tag style text)
    | _ => failure
  | 0, bare, node => readNode (fun _ _ => failure) bare node
  | depth + 1, _, .alias n => do
    let node ← follow tree n
    readNode (readAt tree depth) false node
  | depth + 1, bare, node => readNode (readAt tree depth) bare node

/-- The value of a text, if the text is well formed. -/
def read? (text : String) : Option Value := do
  match ← Tree.read? text with
  | none => some .null
  | some tree => (readAt tree maxDepth false tree.root).run' 0

end ApiCodegen.Markup
