import LayoutRule.Text.Hex
import LayoutRule.Text.Printable

/-!
# Quoted text

A text inside a message is quoted so that it can be told apart from the message: single quotes,
unless the text holds a single quote and no double one. The quote in use and the backslash are
written after a backslash, line ends and the tab by their letter, and any other character without a
printed form by its code in hexadecimal.
-/

namespace LayoutRule

namespace Quoted

/-- A character without a printed form: two, four or eight digits, by its size. -/
def escapeCode (n : Nat) : List Char :=
  if n < 0x100 then '\\' :: 'x' :: Hex.digits 2 n
  else if n < 0x10000 then '\\' :: 'u' :: Hex.digits 4 n
  else '\\' :: 'U' :: Hex.digits 8 n

/-- One character of a quoted text. -/
def encodeChar (mark c : Char) : List Char :=
  if c = mark ∨ c = '\\' then ['\\', c]
  else if c = '\n' then ['\\', 'n']
  else if c = '\t' then ['\\', 't']
  else if c = '\r' then ['\\', 'r']
  else if isPrintable c then [c]
  else escapeCode c.toNat

/-- The quote that a text is put in. -/
def markFor (s : List Char) : Char := if '\'' ∈ s ∧ '"' ∉ s then '"' else '\''

/-- A text in quotes. -/
def encode (s : List Char) : List Char :=
  markFor s :: (s.flatMap (encodeChar (markFor s)) ++ [markFor s])

end Quoted

/-- A text in quotes, as messages and tables show it. -/
def quoted (s : String) : String := String.ofList (Quoted.encode s.toList)

end LayoutRule
