import ApiCodegen.Markup.Token
import ApiCodegen.Markup.Token.Scalars

/-!
# From glyphs to tokens

The lexer keeps the indentation of the open block collections and, for every bracket level,
the place where a key may have started. A key is only known as one when its colon is met; its
token is then put in front of the tokens that were read since.

* `Lexer.step`: one more token.
* `Token.ofGlyphs?`: the tokens of a text.
-/

namespace ApiCodegen.Markup

/-- A place where a key may have started. -/
structure PossibleKey where
  /-- Nothing but a key can stand here. -/
  required : Bool
  /-- The number of tokens in front of the key. -/
  number : Nat
  line : Nat
  column : Nat
  index : Nat

/-- The state of the lexer. -/
structure Lexer where
  rest : List Glyph
  /-- The tokens read, latest first. -/
  tokens : List Token
  /-- The indentation of the innermost block collection. -/
  indent : Int
  /-- The indentations of the collections around it, innermost first. -/
  outer : List Int
  /-- A key may start at the next token. -/
  keyAllowed : Bool
  /-- The possible key of the innermost bracket level. -/
  key : Option PossibleKey
  /-- The possible keys of the levels around it, innermost first. -/
  levels : List (Option PossibleKey)

namespace Lexer

/-- The lexer at the start of a text. -/
def start (gs : List Glyph) : Lexer := ⟨gs, [], -1, [], true, none, []⟩

/-- Whether the lexer is inside brackets. -/
def inFlow (lx : Lexer) : Bool := !lx.levels.isEmpty

/-- The column of the next glyph. -/
def column (lx : Lexer) : Nat :=
  match lx.rest with
  | g :: _ => g.column
  | [] => 0

/-- One more token. -/
def push (lx : Lexer) (t : Token) : Lexer := { lx with tokens := t :: lx.tokens }

/-- Leaves out the next `n` glyphs. -/
def skip (lx : Lexer) (n : Nat) : Lexer := { lx with rest := lx.rest.drop n }

/-- A token put behind the first `number` tokens. -/
def insert (lx : Lexer) (number : Nat) (t : Token) : Lexer :=
  let later := lx.tokens.length - number
  { lx with tokens := lx.tokens.take later ++ t :: lx.tokens.drop later }

/-- Gives up the possible key of this level. -/
def dropKey (lx : Lexer) : Option Lexer :=
  match lx.key with
  | some k => if k.required then none else some { lx with key := none }
  | none => some lx

/-- Notes that a key may start at the next glyph. -/
def saveKey (lx : Lexer) : Option Lexer :=
  if lx.keyAllowed then
    match lx.rest with
    | [] => none
    | g :: _ =>
      lx.dropKey.map fun lx =>
        { lx with key := some ⟨!lx.inFlow && lx.indent == g.column, lx.tokens.length, g.line, g.column, g.index⟩ }
  else some lx

/-- A possible key lies on one line and within 1024 characters; one that is farther away is
given up. -/
def expire (g : Glyph) : Option PossibleKey → Option (Option PossibleKey)
  | none => some none
  | some k =>
    if k.line < g.line || k.index + 1024 < g.index then
      if k.required then none else some none
    else some (some k)

/-- Gives up the possible keys that are too far away. -/
def expireKeys (lx : Lexer) : Option Lexer :=
  match lx.rest with
  | [] => some lx
  | g :: _ => do
    let key ← expire g lx.key
    let levels ← lx.levels.mapM (expire g)
    some { lx with key, levels }

/-- A deeper column opens a block collection, at the end of the tokens or behind the first
`number?` of them. -/
def roll (lx : Lexer) (column : Nat) (number? : Option Nat) (t : Token) : Lexer :=
  if !lx.inFlow && lx.indent < column then
    let lx := { lx with outer := lx.indent :: lx.outer, indent := column }
    match number? with
    | some number => lx.insert number t
    | none => lx.push t
  else lx

/-- The ends of the collections that are indented deeper than a column. -/
def unrollFrom (column : Int) (tokens : List Token) (indent : Int) :
    List Int → List Token × Int × List Int
  | [] => (tokens, indent, [])
  | next :: outer =>
    if column < indent then unrollFrom column (.blockEnd :: tokens) next outer
    else (tokens, indent, next :: outer)

/-- Ends the block collections that are indented deeper than a column. -/
def unroll (lx : Lexer) (column : Int) : Lexer :=
  if lx.inFlow then lx
  else
    let (tokens, indent, outer) := unrollFrom column lx.tokens lx.indent lx.outer
    { lx with tokens, indent, outer }

/-- Passes over blanks, comments and line ends. A tab is a blank inside brackets and where no
key can start. -/
def skipBlanks (flow : Bool) (comment keyAllowed : Bool) : List Glyph → List Glyph × Bool
  | [] => ([], keyAllowed)
  | g :: rest =>
    let c := g.char
    if isBreak c then skipBlanks flow false (!flow || keyAllowed) rest
    else if c == endMark then (g :: rest, keyAllowed)
    else if comment then skipBlanks flow true keyAllowed rest
    else if c == ' ' || (c == '\t' && (flow || !keyAllowed)) then skipBlanks flow false keyAllowed rest
    else if c == '\ufeff' && g.column == 0 then skipBlanks flow false keyAllowed rest
    else if c == '#' then skipBlanks flow true keyAllowed rest
    else (g :: rest, keyAllowed)

/-- The longest start of the glyphs whose characters satisfy `p`, and the glyphs behind it. -/
def span (p : Char → Bool) (gs : List Glyph) : List Char × List Glyph :=
  ((gs.takeWhile fun g => p g.char).map Glyph.char, gs.dropWhile fun g => p g.char)

/-- The characters of anchors and handles. -/
def isNameChar (c : Char) : Bool := c.isAlphanum || c == '_' || c == '-'

/-- The characters of tags; brackets and commas only between angle brackets and in shorthands. -/
def isTagChar (verbatim : Bool) (c : Char) : Bool :=
  isNameChar c || ";/?:@&=+$.%!~*'()".toList.contains c ||
    (verbatim && (c == ',' || c == '[' || c == ']'))

/-- The bytes of a text with escapes of two hexadecimal digits. -/
def tagBytes : List Char → Option (List UInt8)
  | [] => some []
  | '%' :: a :: b :: rest =>
    match hexValue a, hexValue b with
    | some x, some y => (tagBytes rest).map (UInt8.ofNat (x * 16 + y) :: ·)
    | _, _ => none
  | '%' :: _ => none
  | c :: rest => (tagBytes rest).map ((String.singleton c).toUTF8.toList ++ ·)

/-- The text of a tag with its escapes resolved. -/
def tagText (cs : List Char) : Option String :=
  match tagBytes cs with
  | some bytes => String.fromUTF8? (ByteArray.mk bytes.toArray)
  | none => none

/-- The handle of a tag: `!`, or a name between exclamation marks. -/
def tagHandle : List Glyph → Option (List Char × List Glyph)
  | g :: rest =>
    if g.char == '!' then
      let (name, more) := span isNameChar rest
      if peek more 0 == '!' then some ('!' :: name ++ ['!'], more.drop 1)
      else some ('!' :: name, more)
    else none
  | [] => none

/-- The rest of a line may hold a comment only. -/
def lineRest (gs : List Glyph) : Option (List Glyph) :=
  let (_, gs) := span isSpacing gs
  let gs := if peek gs 0 == '#' then (span (fun c => !isBreak c && c != endMark) gs).2 else gs
  if isBreak (peek gs 0) then some (gs.drop 1)
  else if peek gs 0 == endMark then some gs
  else none

/-- A number of at most nine digits. -/
def shortNumber (gs : List Glyph) : Option (Nat × List Glyph) :=
  let (digits, rest) := span Char.isDigit gs
  if digits.isEmpty || 9 < digits.length then none
  else some (digits.foldl (fun n c => n * 10 + (c.toNat - 48)) 0, rest)

/-- A directive, behind its percent sign. -/
def directive (gs : List Glyph) : Option (Token × List Glyph) := do
  let (name, gs) := span isNameChar gs
  if name.isEmpty || !endsWord (peek gs 0) then none
  else if name = ['Y', 'A', 'M', 'L'] then
    let (major, gs) ← shortNumber (span isSpacing gs).2
    if peek gs 0 ≠ '.' then none
    else
      let (minor, gs) ← shortNumber (gs.drop 1)
      let gs ← lineRest gs
      some (.version major minor, gs)
  else if name = ['T', 'A', 'G'] then
    let (handle, gs) ← tagHandle (span isSpacing gs).2
    if handle.getLast? ≠ some '!' || !isSpacing (peek gs 0) then none
    else
      let (leading, gs) := span (isTagChar true) (span isSpacing gs).2
      if leading.isEmpty || !endsWord (peek gs 0) then none
      else
        let leading ← tagText leading
        let gs ← lineRest gs
        some (.shorthand (String.ofList handle) leading, gs)
  else none

/-- The name of an anchor or alias, behind its indicator. -/
def anchorName (gs : List Glyph) : Option (String × List Glyph) :=
  let (name, rest) := span isNameChar gs
  let c := peek rest 0
  if name.isEmpty || !(endsWord c || "?:,]\x7d%@\x60".toList.contains c) then none
  else some (String.ofList name, rest)

/-- A tag, with its exclamation mark. -/
def tag (flow : Bool) (gs : List Glyph) : Option (Token × List Glyph) := do
  let (token, rest) ←
    if peek gs 1 == '<' then do
      let (suffix, rest) := span (isTagChar true) (gs.drop 2)
      if suffix.isEmpty || peek rest 0 ≠ '>' then none
      else
        let suffix ← tagText suffix
        some (Token.tag "" suffix, rest.drop 1)
    else do
      let (handle, rest) ← tagHandle gs
      let (more, rest) := span (isTagChar false) rest
      if handle.length ≥ 2 && handle.getLast? == some '!' then
        if more.isEmpty then none
        else
          let suffix ← tagText more
          some (Token.tag (String.ofList handle) suffix, rest)
      else
        let suffix ← tagText (handle.drop 1 ++ more)
        if suffix.isEmpty then some (Token.tag "" "!", rest)
        else some (Token.tag "!" suffix, rest)
  let c := peek rest 0
  if endsWord c || (flow && c == ',') then some (token, rest) else none

/-- The indicators of a block scalar: how its end is kept, and its indentation. -/
def blockHeader (gs : List Glyph) : Option (Chomp × Nat × List Glyph) :=
  let chomp? : Char → Option Chomp
    | '+' => some .keep
    | '-' => some .strip
    | _ => none
  let indent? (c : Char) : Option Nat := if c.isDigit then some (c.toNat - 48) else none
  let a := peek gs 0
  let b := peek gs 1
  let header : Chomp × Option Nat × List Glyph :=
    match chomp? a, indent? a with
    | some chomp, _ =>
      match indent? b with
      | some n => (chomp, some n, gs.drop 2)
      | none => (chomp, none, gs.drop 1)
    | none, some n =>
      match chomp? b with
      | some chomp => (chomp, some n, gs.drop 2)
      | none => (.clip, some n, gs.drop 1)
    | none, none => (.clip, none, gs)
  match header with
  | (_, some 0, _) => none
  | (chomp, n?, rest) => (lineRest rest).map fun rest => (chomp, n?.getD 0, rest)

/-- A block scalar, behind its indicator. -/
def block (lx : Lexer) (literal : Bool) : Option Lexer := do
  let lx ← lx.dropKey
  let (chomp, increment, rest) ← blockHeader (lx.rest.drop 1)
  let indent := if increment = 0 then 0 else if 0 ≤ lx.indent then lx.indent.toNat + increment else increment
  let least := max (lx.indent + 1).toNat 1
  let scalar ← blockScalar ⟨literal, chomp, least, indent, [], [], [], false, 0⟩ false rest
  some { lx with
    rest := scalar.rest
    tokens := .scalar (if literal then .literal else .folded) (String.ofList scalar.text) :: lx.tokens
    keyAllowed := true }

/-- A quoted scalar. -/
def quoted (lx : Lexer) (single : Bool) : Option Lexer := do
  let lx ← lx.saveKey
  let inner := lx.rest.drop 1
  let scalar ← if single then singleQuoted Gap.none [] inner else doubleQuoted Gap.none [] .plain inner
  some { lx with
    rest := scalar.rest
    tokens := .scalar .quoted (String.ofList scalar.text) :: lx.tokens
    keyAllowed := false }

/-- An unquoted scalar. -/
def plain (lx : Lexer) : Option Lexer := do
  let lx ← lx.saveKey
  let scalar ← plainScalar lx.inFlow (lx.indent + 1) false Gap.none [] lx.rest
  some { lx with
    rest := scalar.rest
    tokens := .scalar .plain (String.ofList scalar.text) :: lx.tokens
    keyAllowed := scalar.broken }

/-- A colon: it makes the possible key of this level a key, or else stands for the value of a
key that was marked as one or is missing. -/
def colon (lx : Lexer) : Option Lexer :=
  match lx.key with
  | some k =>
    let lx := { lx with key := none }
    let lx := (lx.insert k.number .key).roll k.column (some k.number) .blockMappingStart
    some ({ lx with keyAllowed := false }.skip 1 |>.push .value)
  | none =>
    if !lx.inFlow && !lx.keyAllowed then none
    else
      let lx := lx.roll lx.column none .blockMappingStart
      some ({ lx with keyAllowed := !lx.inFlow }.skip 1 |>.push .value)

/-- A mark of one character that is a token by itself and after which a key may start. -/
def mark (lx : Lexer) (keyAllowed : Bool) (t : Token) : Lexer :=
  { lx with keyAllowed }.skip 1 |>.push t

/-- Whether a character can start a plain scalar, seen with the one behind it. -/
def startsPlain (flow : Bool) (c next : Char) : Bool :=
  !(endsWord c || "-?:,[]\x7b\x7d#&*!|>'\"%@\x60".toList.contains c) ||
    (c == '-' && !isSpacing next) ||
    (!flow && (c == '?' || c == ':') && !endsWord next)

/-- Reads one token, and with it the block ends and key marks that it implies. -/
def token (lx : Lexer) (g : Glyph) : Option Lexer :=
  let c := g.char
  let next := peek lx.rest 1
  let flow := lx.inFlow
  if g.column == 0 && c == '%' then do
    let lx ← (lx.unroll (-1)).dropKey
    let (t, rest) ← directive (lx.rest.drop 1)
    some { lx with rest, tokens := t :: lx.tokens, keyAllowed := false }
  else if atDocumentMark lx.rest then do
    let lx ← (lx.unroll (-1)).dropKey
    some ({ lx with keyAllowed := false }.skip 3 |>.push
      (if c == '-' then .documentStart else .documentEnd))
  else if c == '[' || c == '\x7b' then do
    let lx ← lx.saveKey
    some ({ lx with levels := lx.key :: lx.levels, key := none }.mark true
      (if c == '[' then .flowSequenceStart else .flowMappingStart))
  else if c == ']' || c == '\x7d' then do
    let lx ← lx.dropKey
    let lx := match lx.levels with
      | key :: levels => { lx with key, levels }
      | [] => lx
    some (lx.mark false (if c == ']' then .flowSequenceEnd else .flowMappingEnd))
  else if c == ',' then do
    let lx ← lx.dropKey
    some (lx.mark true .flowEntry)
  else if c == '-' && endsWord next then
    if !flow && !lx.keyAllowed then none
    else do
      let lx ← (lx.roll g.column none .blockSequenceStart).dropKey
      some (lx.mark true .blockEntry)
  else if c == '?' && (flow || endsWord next) then
    if !flow && !lx.keyAllowed then none
    else do
      let lx ← (lx.roll g.column none .blockMappingStart).dropKey
      some (lx.mark (!flow) .key)
  else if c == ':' && (flow || endsWord next) then lx.colon
  else if c == '*' || c == '&' then do
    let lx ← lx.saveKey
    let (name, rest) ← anchorName (lx.rest.drop 1)
    some { lx with
      rest
      tokens := (if c == '*' then .alias name else .anchor name) :: lx.tokens
      keyAllowed := false }
  else if c == '!' then do
    let lx ← lx.saveKey
    let (t, rest) ← tag flow lx.rest
    some { lx with rest, tokens := t :: lx.tokens, keyAllowed := false }
  else if !flow && (c == '|' || c == '>') then lx.block (c == '|')
  else if c == '\'' || c == '"' then lx.quoted (c == '\'')
  else if startsPlain flow c next then lx.plain
  else none

/-- Passes over blanks and reads one token; at the end of the text there is none. -/
def step (lx : Lexer) : Option (Lexer × Bool) := do
  let (rest, keyAllowed) := skipBlanks lx.inFlow false lx.keyAllowed lx.rest
  let lx ← { lx with rest, keyAllowed }.expireKeys
  match lx.rest with
  | [] => none
  | g :: _ =>
    let lx := lx.unroll g.column
    if g.char == endMark then
      let lx ← (lx.unroll (-1)).dropKey
      some (lx, true)
    else
      let lx ← lx.token g
      some (lx, false)

/-- All tokens. Every step but the last leaves fewer glyphs, so their number bounds the steps. -/
def run : Nat → Lexer → Option (List Token)
  | 0, _ => none
  | steps + 1, lx =>
    match lx.step with
    | some (lx, true) => some lx.tokens.reverse
    | some (lx, false) => run steps lx
    | none => none

end Lexer

/-- The tokens of a text, if it is well formed as far as single tokens go. -/
def Token.ofGlyphs? (gs : List Glyph) : Option (List Token) :=
  Lexer.run (gs.length + 1) (Lexer.start gs)

end ApiCodegen.Markup
