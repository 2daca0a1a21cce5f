import LayoutRule.Platform
import LayoutRule.Text.Printable
import LayoutRule.Text.WordChar

/-!
# Reading integers

An integer is written with an optional sign and decimal digits of any script, single underscores
between digits, and blanks around it: among the ASCII characters the six usual ones, beyond ASCII
all. More digits than the platform allows are refused, before what follows them is looked at; and no
integer of more digits is written.
-/

namespace LayoutRule

namespace IntegerText

/-- Why a text is not read as an integer. -/
inductive Refusal where
  /-- It is not written like one. -/
  | malformed
  /-- It has this many digits, which are too many. -/
  | tooLong (digits : Nat)
deriving DecidableEq, Repr

/-- The blanks among the ASCII characters. -/
def isAsciiBlank (c : Char) : Bool := c == ' ' || (9 ≤ c.toNat && c.toNat ≤ 13)

/-- The blanks that may surround a number. -/
def isMargin (c : Char) : Bool := if c.toNat < 128 then isAsciiBlank c else isBlankChar c

/-- A text without the blanks around it. -/
def strip (blank : Char → Bool) (s : List Char) : List Char :=
  ((s.dropWhile blank).reverse.dropWhile blank).reverse

/-- The value of a decimal digit: the scripts have their ten digits in order. -/
def digitValue (c : Char) : Nat := (c.toNat - decimalDigits.runFirst c) % 10

/-- The digits of a number after its first one. -/
def moreDigits? : List Char → Option (List Char)
  | [] => some []
  | '_' :: c :: rest => if isDecimalDigit c then (moreDigits? rest).map (c :: ·) else none
  | c :: rest => if isDecimalDigit c then (moreDigits? rest).map (c :: ·) else none

/-- Whether a character can stand in a number after its sign. -/
def isNumeral (c : Char) : Bool := c == '_' || isDecimalDigit c

/-- The digits of a number. -/
def digits? : List Char → Option (List Char)
  | [] => none
  | c :: rest => if isDecimalDigit c then (moreDigits? rest).map (c :: ·) else none

/-- The value of digits. -/
def value (digits : List Char) : Nat := digits.foldl (fun n c => n * 10 + digitValue c) 0

/-- The sign and what follows it. -/
def signed : List Char → Bool × List Char
  | '-' :: rest => (true, rest)
  | '+' :: rest => (false, rest)
  | s => (false, s)

/-- The integer that a text is. -/
def read [Platform] (s : String) : Except Refusal Int :=
  let (negative, rest) := signed (s.toList.dropWhile isMargin)
  match digits? (rest.takeWhile isNumeral) with
  | none => .error .malformed
  | some digits =>
    if Platform.maxDigits < digits.length then .error (.tooLong digits.length)
    else if (rest.dropWhile isNumeral).all isMargin then
      .ok (if negative then -(value digits : Int) else value digits)
    else .error .malformed

/-- The first number with too many digits. -/
def limit [Platform] : Nat := Nat.pow 10 Platform.maxDigits

/-- Whether an integer can be written. -/
def isWritable [Platform] (n : Int) : Bool := n.natAbs < limit

end IntegerText

end LayoutRule
