/-!
# Characters with their places

* `Glyph`: a character of a text with its line, column and index.
* `glyphs`: the glyphs of a text. Line ends of all spellings become one glyph; a text with a
  control character has no glyphs. The last glyph is the end mark.
-/

namespace ApiCodegen.Markup

/-- A character of a text and where it stands. -/
structure Glyph where
  char : Char
  line : Nat
  column : Nat
  index : Nat

/-- The character of the glyph behind the last character. -/
def endMark : Char := '\x00'

/-- The characters that a text may contain. -/
def isAdmissible (c : Char) : Bool :=
  let n := c.toNat
  n == 0x09 || n == 0x0A || n == 0x0D || (0x20 ≤ n && n ≤ 0x7E) || n == 0x85 ||
    (0xA0 ≤ n && n ≤ 0xD7FF) || (0xE000 ≤ n && n ≤ 0xFFFD) || 0x10000 ≤ n

/-- A carriage return and a next-line control are line feeds. -/
def unifyBreak (c : Char) : Char := if c = '\r' ∨ c = '\x85' then '\n' else c

/-- The characters that end a line. -/
def isBreak (c : Char) : Bool := c == '\n' || c == '\u2028' || c == '\u2029'

/-- Spaces and tabs. -/
def isSpacing (c : Char) : Bool := c == ' ' || c == '\t'

/-- The characters that end a word: spacing, a line end or the end mark. -/
def endsWord (c : Char) : Bool := isSpacing c || isBreak c || c == endMark

/-- The glyphs of a text that starts at the given place. -/
def glyphsFrom (line column index : Nat) : List Char → Option (List Glyph)
  | [] => some [⟨endMark, line, column, index⟩]
  | '\r' :: '\n' :: rest => (glyphsFrom (line + 1) 0 (index + 2) rest).map (⟨'\n', line, column, index⟩ :: ·)
  | c :: rest =>
    if !isAdmissible c then none
    else
      let d := unifyBreak c
      let more :=
        if isBreak d then glyphsFrom (line + 1) 0 (index + 1) rest
        else glyphsFrom line (column + 1) (index + 1) rest
      more.map (⟨d, line, column, index⟩ :: ·)

/-- The glyphs of a text. -/
def glyphs (text : String) : Option (List Glyph) := glyphsFrom 0 0 0 text.toList

/-- The character at a distance, or the end mark. -/
def peek (gs : List Glyph) (n : Nat) : Char :=
  match gs[n]? with
  | some g => g.char
  | none => endMark

/-- Whether three equal characters that form a document mark stand here. -/
def atDocumentMark (gs : List Glyph) : Bool :=
  match gs with
  | a :: b :: c :: rest =>
    a.column == 0 && (a.char == '-' || a.char == '.') && a.char == b.char && b.char == c.char &&
      endsWord (peek rest 0)
  | _ => false

end ApiCodegen.Markup
