import ApiCodegen.Markup.Token.Lexer

/-!
# Nodes

The tree of a text before its scalars are given a meaning: scalars with their text, sequences,
mappings, and aliases that stand for an anchored node.

* `Node.ofTokens?`: the tree of a stream of tokens. A stream holds at most one document.
* `Node.bind?`: anchors and aliases by number instead of by name.
-/

namespace ApiCodegen.Markup

/-- A node of a text. Anchors are named by elements of `ρ`. -/
inductive Node (ρ : Type) where
  | alias (target : ρ)
  | scalar (anchor : Option ρ) (tag : Option String) (style : Style) (text : String)
  | sequence (anchor : Option ρ) (tag : Option String) (items : List (Node ρ))
  | mapping (anchor : Option ρ) (tag : Option String) (entries : List (Node ρ × Node ρ))

namespace Node

/-- The node of a place where nothing is written. -/
def empty : Node String := .scalar none none .plain ""

/-- Handles of tags and what they stand for. -/
abbrev Handles := List (String × String)

/-- The handles that need no directive. -/
def standardHandles : Handles := [("!", "!"), ("!!", "tag:yaml.org,2002:")]

/-- The tag that a handle and a suffix stand for. -/
def resolveTag (handles : Handles) (handle suffix : String) : Option String :=
  if handle = "" then some suffix else (handles.lookup handle).map (· ++ suffix)

/-- The anchor and the tag in front of a node, in either order. -/
def properties (handles : Handles) : List Token →
    Option (Option String × Option String × List Token)
  | .anchor name :: .tag handle suffix :: rest =>
    (resolveTag handles handle suffix).map fun tag => (some name, some tag, rest)
  | .tag handle suffix :: .anchor name :: rest =>
    (resolveTag handles handle suffix).map fun tag => (some name, some tag, rest)
  | .anchor name :: rest => some (some name, none, rest)
  | .tag handle suffix :: rest =>
    (resolveTag handles handle suffix).map fun tag => (none, some tag, rest)
  | rest => some (none, none, rest)

/-- Whether no value follows a key or a colon. -/
def endsEntry : List Token → Bool
  | .key :: _ => true
  | .value :: _ => true
  | .blockEnd :: _ => true
  | _ => false

mutual

/-- Reads a node. `block` admits block collections, `indentless` a sequence that is not
indented deeper than the mapping around it. -/
def read (handles : Handles) : Nat → Bool → Bool → List Token → Option (Node String × List Token)
  | 0, _, _, _ => none
  | _ + 1, _, _, .alias name :: rest => some (.alias name, rest)
  | fuel + 1, block, indentless, ts => do
    let (anchor, tag, ts) ← properties handles ts
    match ts with
    | .scalar style text :: rest =>
      some (.scalar anchor (if tag = some "!" then none else tag) style text, rest)
    | .flowSequenceStart :: rest => do
      let (items, rest) ← readFlowItems handles fuel true rest
      some (.sequence anchor tag items, rest)
    | .flowMappingStart :: rest => do
      let (entries, rest) ← readFlowEntries handles fuel true rest
      some (.mapping anchor tag entries, rest)
    | .blockEntry :: rest =>
      if indentless then do
        let (items, rest) ← readIndentless handles fuel (.blockEntry :: rest)
        some (.sequence anchor tag items, rest)
      else if anchor.isSome || tag.isSome then some (.scalar anchor tag .plain "", .blockEntry :: rest)
      else none
    | .blockSequenceStart :: rest =>
      if block then do
        let (items, rest) ← readItems handles fuel rest
        some (.sequence anchor tag items, rest)
      else if anchor.isSome || tag.isSome then
        some (.scalar anchor tag .plain "", .blockSequenceStart :: rest)
      else none
    | .blockMappingStart :: rest =>
      if block then do
        let (entries, rest) ← readEntries handles fuel rest
        some (.mapping anchor tag entries, rest)
      else if anchor.isSome || tag.isSome then
        some (.scalar anchor tag .plain "", .blockMappingStart :: rest)
      else none
    | ts => if anchor.isSome || tag.isSome then some (.scalar anchor tag .plain "", ts) else none

/-- Reads the items of a block sequence and its end. -/
def readItems (handles : Handles) : Nat → List Token → Option (List (Node String) × List Token)
  | fuel + 1, .blockEntry :: rest => do
    let bare := match rest with
      | .blockEntry :: _ => true
      | .blockEnd :: _ => true
      | _ => false
    let (item, rest) ← if bare then some (empty, rest) else read handles fuel true false rest
    let (items, rest) ← readItems handles fuel rest
    some (item :: items, rest)
  | _, .blockEnd :: rest => some ([], rest)
  | _, _ => none

/-- Reads the items of a sequence that is not indented; it ends where no item follows. -/
def readIndentless (handles : Handles) : Nat → List Token →
    Option (List (Node String) × List Token)
  | fuel + 1, .blockEntry :: rest => do
    let bare := endsEntry rest || (match rest with
      | .blockEntry :: _ => true
      | _ => false)
    let (item, rest) ← if bare then some (empty, rest) else read handles fuel true false rest
    let (items, rest) ← readIndentless handles fuel rest
    some (item :: items, rest)
  | 0, _ => none
  | _, ts => some ([], ts)

/-- Reads the entries of a block mapping and its end. -/
def readEntries (handles : Handles) : Nat → List Token →
    Option (List (Node String × Node String) × List Token)
  | fuel + 1, .key :: rest => do
    let (key, rest) ← if endsEntry rest then some (empty, rest) else read handles fuel true true rest
    let (value, rest) ← match rest with
      | .value :: rest =>
        if endsEntry rest then some (empty, rest) else read handles fuel true true rest
      | rest => some (empty, rest)
    let (entries, rest) ← readEntries handles fuel rest
    some ((key, value) :: entries, rest)
  | _, .blockEnd :: rest => some ([], rest)
  | _, _ => none

/-- Reads the items of a bracketed sequence and its end. An item with a colon is a mapping of
one entry. -/
def readFlowItems (handles : Handles) : Nat → Bool → List Token →
    Option (List (Node String) × List Token)
  | 0, _, _ => none
  | _ + 1, _, .flowSequenceEnd :: rest => some ([], rest)
  | fuel + 1, first, ts => do
    let ts ← if first then some ts else
      match ts with
      | .flowEntry :: rest => some rest
      | _ => none
    match ts with
    | .flowSequenceEnd :: rest => some ([], rest)
    | .key :: rest => do
      let (key, rest) ← match rest with
        | .value :: rest => some (empty, rest)
        | .flowEntry :: rest => some (empty, rest)
        | .flowSequenceEnd :: rest => some (empty, rest)
        | rest => read handles fuel false false rest
      let (value, rest) ← match rest with
        | .value :: rest =>
          (match rest with
          | .flowEntry :: _ => some (empty, rest)
          | .flowSequenceEnd :: _ => some (empty, rest)
          | rest => read handles fuel false false rest)
        | rest => some (empty, rest)
      let (items, rest) ← readFlowItems handles fuel false rest
      some (.mapping none none [(key, value)] :: items, rest)
    | ts => do
      let (item, rest) ← read handles fuel false false ts
      let (items, rest) ← readFlowItems handles fuel false rest
      some (item :: items, rest)

/-- Reads the entries of a bracketed mapping and its end. An entry without a colon has an empty
value. -/
def readFlowEntries (handles : Handles) : Nat → Bool → List Token →
    Option (List (Node String × Node String) × List Token)
  | 0, _, _ => none
  | _ + 1, _, .flowMappingEnd :: rest => some ([], rest)
  | fuel + 1, first, ts => do
    let ts ← if first then some ts else
      match ts with
      | .flowEntry :: rest => some rest
      | _ => none
    match ts with
    | .flowMappingEnd :: rest => some ([], rest)
    | .key :: rest => do
      let (key, rest) ← match rest with
        | .value :: _ => some (empty, rest)
        | .flowEntry :: _ => some (empty, rest)
        | .flowMappingEnd :: _ => some (empty, rest)
        | rest => read handles fuel false false rest
      let (value, rest) ← match rest with
        | .value :: rest =>
          (match rest with
          | .flowEntry :: _ => some (empty, rest)
          | .flowMappingEnd :: _ => some (empty, rest)
          | rest => read handles fuel false false rest)
        | rest => some (empty, rest)
      let (entries, rest) ← readFlowEntries handles fuel false rest
      some ((key, value) :: entries, rest)
    | ts => do
      let (key, rest) ← read handles fuel false false ts
      let (entries, rest) ← readFlowEntries handles fuel false rest
      some ((key, empty) :: entries, rest)

end

/-- Reads the directives in front of a document: a version at most once, and handles, each at
most once. -/
def directives (version : Bool) (handles : Handles) : List Token → Option (Bool × Handles × List Token)
  | .version major minor :: rest =>
    if version || major ≠ 1 || (minor ≠ 1 && minor ≠ 2) then none
    else directives true handles rest
  | .shorthand handle leading :: rest =>
    if (handles.lookup handle).isSome then none
    else directives version (handles ++ [(handle, leading)]) rest
  | ts => some (version || !handles.isEmpty, handles, ts)

/-- Whether only document ends are left. -/
def onlyEnds (ts : List Token) : Bool := ts.all (· == .documentEnd)

/-- The tree of a stream of tokens: `none` inside if the stream holds no document. -/
def ofTokens? (ts : List Token) : Option (Option (Node String)) := do
  let (declared, handles, rest) ← directives false [] ts
  let handles := handles ++ standardHandles
  let fuel := 2 * ts.length + 4
  let content (ts : List Token) : Option (Option (Node String)) := do
    let (node, rest) ← read handles fuel true false ts
    if onlyEnds rest then some (some node) else none
  match rest with
  | [] => if declared then none else some none
  | .documentStart :: rest =>
    match rest with
    | [] => some (some empty)
    | .documentEnd :: rest => if onlyEnds rest then some (some empty) else none
    | .documentStart :: _ => none
    | .version _ _ :: _ => none
    | .shorthand _ _ :: _ => none
    | rest => content rest
  | rest => if declared then none else content rest

/-- A name for a new number, in place of its old one. -/
def name (names : List (String × Nat)) (anchor : Option String) : List (String × Nat) :=
  match anchor with
  | none => names
  | some a =>
    let number := names.length
    if (names.lookup a).isSome then names.map fun (b, n) => if b == a then (b, number) else (b, n)
    else names ++ [(a, number)]

/-- The number of an anchor that has just been named. -/
def numberOf (names : List (String × Nat)) (anchor : Option String) : Option Nat :=
  anchor.bind fun a => names.lookup a

mutual

/-- Anchors and aliases by number. An anchor takes the number of the names known before it, and
an alias must name an anchor in front of it. -/
def bindFrom (names : List (String × Nat)) : Node String → Option (Node Nat × List (String × Nat))
  | .alias target => (names.lookup target).map fun n => (.alias n, names)
  | .scalar anchor tag style text =>
    let after := name names anchor
    some (.scalar (numberOf after anchor) tag style text, after)
  | .sequence anchor tag items => do
    let after := name names anchor
    let (items, last) ← bindItems after items
    some (.sequence (numberOf after anchor) tag items, last)
  | .mapping anchor tag entries => do
    let after := name names anchor
    let (entries, last) ← bindEntries after entries
    some (.mapping (numberOf after anchor) tag entries, last)

/-- `bindFrom` for the items of a sequence. -/
def bindItems (names : List (String × Nat)) :
    List (Node String) → Option (List (Node Nat) × List (String × Nat))
  | [] => some ([], names)
  | item :: more => do
    let (item, names) ← bindFrom names item
    let (more, names) ← bindItems names more
    some (item :: more, names)

/-- `bindFrom` for the entries of a mapping. -/
def bindEntries (names : List (String × Nat)) :
    List (Node String × Node String) → Option (List (Node Nat × Node Nat) × List (String × Nat))
  | [] => some ([], names)
  | (key, value) :: more => do
    let (key, names) ← bindFrom names key
    let (value, names) ← bindFrom names value
    let (more, names) ← bindEntries names more
    some ((key, value) :: more, names)

end

/-- The tree with anchors and aliases by number. -/
def bind? (node : Node String) : Option (Node Nat) := (bindFrom [] node).map (·.1)

mutual

/-- The anchored nodes of a tree, each in front of those inside it. -/
def anchored : Node Nat → List (Nat × Node Nat)
  | .alias _ => []
  | .scalar anchor tag style text =>
    (anchor.map fun n => (n, Node.scalar anchor tag style text)).toList
  | .sequence anchor tag items =>
    (anchor.map fun n => (n, Node.sequence anchor tag items)).toList ++ anchoredItems items
  | .mapping anchor tag entries =>
    (anchor.map fun n => (n, Node.mapping anchor tag entries)).toList ++ anchoredEntries entries

/-- `anchored` for the items of a sequence. -/
def anchoredItems : List (Node Nat) → List (Nat × Node Nat)
  | [] => []
  | item :: more => anchored item ++ anchoredItems more

/-- `anchored` for the entries of a mapping. -/
def anchoredEntries : List (Node Nat × Node Nat) → List (Nat × Node Nat)
  | [] => []
  | (key, value) :: more => anchored key ++ anchored value ++ anchoredEntries more

end

mutual

/-- The number of events of a tree: one for a leaf, two for a collection beside its parts. -/
def events {ρ : Type} : Node ρ → Nat
  | .alias _ => 1
  | .scalar _ _ _ _ => 1
  | .sequence _ _ items => eventsItems items + 2
  | .mapping _ _ entries => eventsEntries entries + 2

/-- `events` for the items of a sequence. -/
def eventsItems {ρ : Type} : List (Node ρ) → Nat
  | [] => 0
  | item :: more => events item + eventsItems more

/-- `events` for the entries of a mapping. -/
def eventsEntries {ρ : Type} : List (Node ρ × Node ρ) → Nat
  | [] => 0
  | (key, value) :: more => events key + events value + eventsEntries more

end

end Node

/-- A document: its tree and the anchored nodes by number. -/
structure Tree where
  root : Node Nat
  anchors : List (Nat × Node Nat)

namespace Tree

/-- The node of a number. The last anchor that took a number keeps it. -/
def target? (tree : Tree) (n : Nat) : Option (Node Nat) := tree.anchors.reverse.lookup n

/-- The most aliases that may be followed while a document is read. -/
def aliasLimit (tree : Tree) : Nat := 100 * tree.root.events

/-- The document of a text: `none` inside if the text holds no document. -/
def read? (text : String) : Option (Option Tree) := do
  let gs ← glyphs text
  let ts ← Token.ofGlyphs? gs
  match ← Node.ofTokens? ts with
  | none => some none
  | some node =>
    let root ← node.bind?
    some (some ⟨root, root.anchored⟩)

end Tree

end ApiCodegen.Markup
