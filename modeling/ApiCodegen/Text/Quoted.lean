/-!
# Quoted texts

A string literal in double quotes, on one line. Its form is shared by Python, JavaScript
and JSON: a quote and a backslash are escaped, and so is every control character, the
common ones by a letter and the others by four hexadecimal digits.

* `quote`: the literal of a string.
-/

namespace ApiCodegen.Text

/-- The lower-case hexadecimal digit of a number below sixteen. -/
def hexDigit (n : Nat) : Char :=
  if n < 10 then Char.ofNat (48 + n) else Char.ofNat (87 + n)

/-- How a character is written inside a literal. -/
def escapeChar (c : Char) : List Char :=
  if c = '"' then ['\\', '"']
  else if c = '\\' then ['\\', '\\']
  else if c = '\x08' then ['\\', 'b']
  else if c = '\x0c' then ['\\', 'f']
  else if c = '\n' then ['\\', 'n']
  else if c = '\r' then ['\\', 'r']
  else if c = '\t' then ['\\', 't']
  else if c.toNat < 32 then
    ['\\', 'u', '0', '0', hexDigit (c.toNat / 16), hexDigit (c.toNat % 16)]
  else [c]

/-- The characters of a string literal, with its quotes. -/
def quoteChars (cs : List Char) : List Char := '"' :: (cs.flatMap escapeChar ++ ['"'])

/-- The string literal of a text. -/
def quote (s : String) : String := String.ofList (quoteChars s.toList)

end ApiCodegen.Text
