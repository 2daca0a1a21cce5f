import LayoutRule.Json.Basic
import LayoutRule.Text.Quoted

/-!
# Writing JSON

Two layouts: everything on one line, or one item a line, each level two blanks further in. Only the
quote, the backslash and the control characters are escaped.
-/

namespace LayoutRule

namespace Json

/-- One character of a JSON string. -/
def encodeChar (c : Char) : List Char :=
  if c = '"' then ['\\', '"']
  else if c = '\\' then ['\\', '\\']
  else if c = '\n' then ['\\', 'n']
  else if c = '\r' then ['\\', 'r']
  else if c = '\t' then ['\\', 't']
  else if c = '\x08' then ['\\', 'b']
  else if c = '\x0c' then ['\\', 'f']
  else if c.toNat < 0x20 then '\\' :: 'u' :: Hex.digits 4 c.toNat
  else [c]

/-- A JSON string. -/
def encodeString (s : String) : String :=
  "\"" ++ String.ofList (s.toList.flatMap encodeChar) ++ "\""

mutual

/-- A value on one line. -/
def compact : Json → String
  | .null => "null"
  | .bool b => if b then "true" else "false"
  | .int n => toString n
  | .real written => written
  | .string s => encodeString s
  | .array items => "[" ++ compactItems items ++ "]"
  | .object fields => "\x7b" ++ compactFields fields ++ "\x7d"

/-- The items of an array on one line. -/
def compactItems : List Json → String
  | [] => ""
  | [x] => compact x
  | x :: rest => compact x ++ "," ++ compactItems rest

/-- The fields of an object on one line. -/
def compactFields : List (String × Json) → String
  | [] => ""
  | [(k, v)] => encodeString k ++ ":" ++ compact v
  | (k, v) :: rest => encodeString k ++ ":" ++ compact v ++ "," ++ compactFields rest

end

/-- A new line with a margin. -/
def newline (margin : Nat) : String := "\n" ++ String.ofList (List.replicate margin ' ')

mutual

/-- A value with one item a line, the first line put after `margin` blanks by the caller. -/
def pretty (margin : Nat) : Json → String
  | .null => "null"
  | .bool b => if b then "true" else "false"
  | .int n => toString n
  | .real written => written
  | .string s => encodeString s
  | .array [] => "[]"
  | .array (x :: rest) => "[" ++ prettyItems (margin + 2) (x :: rest) ++ newline margin ++ "]"
  | .object [] => "\x7b\x7d"
  | .object (f :: rest) =>
    "\x7b" ++ prettyFields (margin + 2) (f :: rest) ++ newline margin ++ "\x7d"

/-- The items of an array, one a line. -/
def prettyItems (margin : Nat) : List Json → String
  | [] => ""
  | [x] => newline margin ++ pretty margin x
  | x :: rest => newline margin ++ pretty margin x ++ "," ++ prettyItems margin rest

/-- The fields of an object, one a line. -/
def prettyFields (margin : Nat) : List (String × Json) → String
  | [] => ""
  | [(k, v)] => newline margin ++ encodeString k ++ ": " ++ pretty margin v
  | (k, v) :: rest =>
    newline margin ++ encodeString k ++ ": " ++ pretty margin v ++ "," ++ prettyFields margin rest

end

end Json

end LayoutRule
