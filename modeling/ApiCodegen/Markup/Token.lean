/-!
# Tokens

The tokens of a description text. Block collections have no brackets of their own, so their
starts and ends are tokens that stand for changes of the indentation.
-/

namespace ApiCodegen.Markup

/-- How a scalar is written. -/
inductive Style where
  | plain
  | quoted
  | literal
  | folded
  deriving DecidableEq

/-- A token of a text. -/
inductive Token where
  | version (major minor : Nat)
  | shorthand (handle leading : String)
  | documentStart
  | documentEnd
  | blockSequenceStart
  | blockMappingStart
  | blockEnd
  | flowSequenceStart
  | flowSequenceEnd
  | flowMappingStart
  | flowMappingEnd
  | blockEntry
  | flowEntry
  | key
  | value
  | alias (name : String)
  | anchor (name : String)
  | tag (handle suffix : String)
  | scalar (style : Style) (text : String)
  deriving DecidableEq

end ApiCodegen.Markup
