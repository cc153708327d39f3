import ApiCodegen.Markup.Glyph

/-!
# Texts of scalars

Each reader walks over the glyphs once and carries the blanks that it has seen since the last
word, because what they stand for depends on what follows.

* `plainScalar`: unquoted words, on one or several lines.
* `singleQuoted`, `doubleQuoted`: quoted texts; only the latter knows escapes.
* `blockScalar`: literal (`|`) and folded (`>`) blocks.
-/

namespace ApiCodegen.Markup

/-- The blanks read since the last word: spacing on the same line, or line ends. Characters
are kept latest first. -/
structure Gap where
  spacing : List Char
  /-- A line has ended; further spacing is dropped. -/
  broken : Bool
  firstBreak : List Char
  laterBreaks : List Char

namespace Gap

/-- No blanks. -/
def none : Gap := ⟨[], false, [], []⟩

/-- One more space or tab. -/
def space (gap : Gap) (c : Char) : Gap :=
  if gap.broken then gap else { gap with spacing := c :: gap.spacing }

/-- One more line end. -/
def newline (gap : Gap) (c : Char) : Gap :=
  if gap.broken then { gap with laterBreaks := c :: gap.laterBreaks }
  else ⟨[], true, [c], gap.laterBreaks⟩

/-- What the blanks stand for, latest first: a single line end is a space, and of several the
first is dropped. -/
def folded (gap : Gap) : List Char :=
  if gap.broken then
    if gap.firstBreak = ['\n'] then
      if gap.laterBreaks.isEmpty then [' '] else gap.laterBreaks
    else gap.laterBreaks ++ gap.firstBreak
  else gap.spacing

end Gap

/-- What a scalar reader returns: the text, whether a line ended after it, and the glyphs left. -/
structure ScalarText where
  text : List Char
  broken : Bool
  rest : List Glyph

/-- The characters that end a plain scalar inside brackets. -/
def isFlowIndicator (c : Char) : Bool :=
  c == ',' || c == '[' || c == ']' || c == '\x7b' || c == '\x7d'

/-- Reads a plain scalar. `inBlanks` says that the last glyph was blank, `text` is the text so
far, latest first. Outside brackets a line indented less than `indent` ends the scalar. -/
def plainScalar (flow : Bool) (indent : Int) (inBlanks : Bool) (gap : Gap) (text : List Char) :
    List Glyph → Option ScalarText
  | [] => some ⟨text.reverse, gap.broken, []⟩
  | g :: rest =>
    let c := g.char
    if isSpacing c then
      if gap.broken && g.column < indent && c == '\t' then Option.none
      else plainScalar flow indent true (gap.space c) text rest
    else if isBreak c then plainScalar flow indent true (gap.newline c) text rest
    else if c == endMark || (inBlanks && !flow && g.column < indent) ||
        atDocumentMark (g :: rest) || (inBlanks && c == '#') then
      some ⟨text.reverse, gap.broken, g :: rest⟩
    else if flow && c == ':' && (isFlowIndicator (peek rest 0) || peek rest 0 == '?') then Option.none
    else if (c == ':' && endsWord (peek rest 0)) || (flow && isFlowIndicator c) then
      some ⟨text.reverse, gap.broken, g :: rest⟩
    else plainScalar flow indent false Gap.none (c :: (gap.folded ++ text)) rest

/-- Reads a single-quoted text after its opening quote. A quote is written twice. -/
def singleQuoted (gap : Gap) (text : List Char) : List Glyph → Option ScalarText
  | [] => Option.none
  | g :: rest =>
    let c := g.char
    if isSpacing c then singleQuoted (gap.space c) text rest
    else if isBreak c then singleQuoted (gap.newline c) text rest
    else if c == endMark || atDocumentMark (g :: rest) then Option.none
    else if c == '\'' then
      match rest with
      | h :: more =>
        if h.char == '\'' then singleQuoted Gap.none ('\'' :: (gap.folded ++ text)) more
        else some ⟨(gap.folded ++ text).reverse, false, rest⟩
      | [] => some ⟨(gap.folded ++ text).reverse, false, []⟩
    else singleQuoted Gap.none (c :: (gap.folded ++ text)) rest

/-- The character that a one-letter escape stands for. -/
def escapeLetter : Char → Option Char
  | '0' => some '\x00'
  | 'a' => some '\x07'
  | 'b' => some '\x08'
  | 't' => some '\t'
  | '\t' => some '\t'
  | 'n' => some '\n'
  | 'v' => some '\x0b'
  | 'f' => some '\x0c'
  | 'r' => some '\r'
  | 'e' => some '\x1b'
  | ' ' => some ' '
  | '"' => some '"'
  | '/' => some '/'
  | '\\' => some '\\'
  | 'N' => some '\u0085'
  | '_' => some '\u00a0'
  | 'L' => some '\u2028'
  | 'P' => some '\u2029'
  | _ => Option.none

/-- The number of hexadecimal digits after an escape letter. -/
def escapeWidth : Char → Option Nat
  | 'x' => some 2
  | 'u' => some 4
  | 'U' => some 8
  | _ => Option.none

/-- The value of a hexadecimal digit. -/
def hexValue (c : Char) : Option Nat :=
  if c.isDigit then some (c.toNat - 48)
  else if 'a' ≤ c ∧ c ≤ 'f' then some (c.toNat - 87)
  else if 'A' ≤ c ∧ c ≤ 'F' then some (c.toNat - 55)
  else Option.none

/-- The character with a code, if there is one. -/
def charOf? (n : Nat) : Option Char := if n.isValidChar then some (Char.ofNat n) else Option.none

/-- What a double-quoted text is reading: ordinary characters, the letter of an escape, or the
hexadecimal digits of one. -/
inductive Escape where
  | plain
  | letter
  | digits (left value : Nat)

/-- Reads a double-quoted text after its opening quote. An escaped line end is no character,
and the blanks after it are dropped. -/
def doubleQuoted (gap : Gap) (text : List Char) : Escape → List Glyph → Option ScalarText
  | _, [] => Option.none
  | .plain, g :: rest =>
    let c := g.char
    if isSpacing c then doubleQuoted (gap.space c) text .plain rest
    else if isBreak c then doubleQuoted (gap.newline c) text .plain rest
    else if c == endMark || atDocumentMark (g :: rest) then Option.none
    else if c == '"' then some ⟨(gap.folded ++ text).reverse, false, rest⟩
    else if c == '\\' then doubleQuoted Gap.none (gap.folded ++ text) .letter rest
    else doubleQuoted Gap.none (c :: (gap.folded ++ text)) .plain rest
  | .letter, g :: rest =>
    if isBreak g.char then doubleQuoted ⟨[], true, [], []⟩ text .plain rest
    else match escapeLetter g.char with
      | some c => doubleQuoted Gap.none (c :: text) .plain rest
      | Option.none =>
        match escapeWidth g.char with
        | some width => doubleQuoted Gap.none text (.digits width 0) rest
        | Option.none => Option.none
  | .digits left value, g :: rest =>
    match hexValue g.char with
    | Option.none => Option.none
    | some d =>
      let n := value * 16 + d
      if left ≤ 1 then
        match charOf? n with
        | some c => doubleQuoted Gap.none (c :: text) .plain rest
        | Option.none => Option.none
      else doubleQuoted Gap.none text (.digits (left - 1) n) rest

/-- What is kept of the line ends after a block. -/
inductive Chomp where
  | strip
  | clip
  | keep

/-- A block scalar while it is read. Characters are kept latest first. -/
structure Block where
  literal : Bool
  chomp : Chomp
  /-- The least indentation that the block can have. -/
  least : Nat
  /-- The indentation of the block, zero as long as it is not known. -/
  indent : Nat
  text : List Char
  /-- The line end of the last line of text. -/
  lineEnd : List Char
  /-- The ends of the empty lines after it. -/
  emptyLines : List Char
  /-- The last line of text started with spacing. -/
  spaced : Bool
  /-- The deepest indentation of the lines read since the last line of text. -/
  deepest : Nat

namespace Block

/-- The text of a block that has ended. -/
def finish (block : Block) : List Char :=
  match block.chomp with
  | .strip => block.text.reverse
  | .clip => (block.lineEnd ++ block.text).reverse
  | .keep => (block.emptyLines ++ block.lineEnd ++ block.text).reverse

/-- The block as a new line of text starts with the character `c`. A folded line end between
two lines that do not start with spacing becomes a space, or nothing if empty lines follow. -/
def startLine (block : Block) (c : Char) : Block :=
  let folds := !block.literal && block.lineEnd == ['\n'] && !block.spaced && !isSpacing c
  let joined :=
    if folds then (if block.emptyLines.isEmpty then [' '] else []) else block.lineEnd
  { block with
    text := c :: (block.emptyLines ++ joined ++ block.text)
    lineEnd := []
    emptyLines := []
    spaced := isSpacing c }

/-- The block with its indentation fixed by the empty lines read so far. -/
def settle (block : Block) : Block :=
  if block.indent = 0 then { block with indent := max block.deepest block.least } else block

end Block

/-- Reads the lines of a block; `inLine` says that a line of text has started. -/
def blockScalar (block : Block) (inLine : Bool) : List Glyph → Option ScalarText
  | [] => some ⟨block.finish, false, []⟩
  | g :: rest =>
    let c := g.char
    if inLine then
      if isBreak c then
        blockScalar { block with lineEnd := [c], deepest := 0 } false rest
      else if c == endMark then some ⟨block.finish, false, g :: rest⟩
      else blockScalar { block with text := c :: block.text } true rest
    else
      let open_ := block.indent = 0 || g.column < block.indent
      if open_ && c == ' ' then blockScalar block false rest
      else
        let deeper := { block with deepest := max block.deepest g.column }
        if open_ && c == '\t' then Option.none
        else if isBreak c then
          blockScalar { deeper with emptyLines := c :: block.emptyLines } false rest
        else
          let settled := deeper.settle
          if g.column = settled.indent ∧ c ≠ endMark then
            blockScalar (settled.startLine c) true rest
          else some ⟨settled.finish, false, g :: rest⟩

end ApiCodegen.Markup
