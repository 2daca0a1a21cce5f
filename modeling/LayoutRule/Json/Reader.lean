import LayoutRule.Json.Basic
import LayoutRule.Platform
import LayoutRule.Text.Hex
import LayoutRule.Text.Surrogate

/-!
# Reading JSON

The reader takes one value with blanks around it and nothing else. Besides the standard's values it
takes `NaN`, `Infinity` and `-Infinity` as numbers that are no integers. Control characters must be
escaped in strings. An integer of more digits than the platform allows is refused. Half of a
surrogate pair stands for the replacement character.

Arrays and objects may be nested a given number of levels deep. The reader gives up at the first
bracket that goes deeper, whatever follows it, so a text can be too deep without being JSON.

Each function takes the number of steps it may still make; `Json.parse` gives twice as many as the
input has characters, which is never too few, because two steps take at least one character.
-/

namespace LayoutRule

namespace Json

/-- Why a text is not read as a value. -/
inductive ReadFailure where
  /-- It is not written like one. -/
  | malformed
  /-- It is nested too deep. -/
  | tooDeep
deriving DecidableEq, Repr

namespace Reader

/-- Blanks between the parts of a value. -/
def isSpace (c : Char) : Bool := c == ' ' || c == '\t' || c == '\n' || c == '\r'

/-- Drops blanks. -/
def skipSpace (s : List Char) : List Char := s.dropWhile isSpace

/-- The decimal digits. -/
def isDigit (c : Char) : Bool := '0' ≤ c && c ≤ '9'

/-- Four hexadecimal digits. -/
def hex4? : List Char → Option (Nat × List Char)
  | a :: b :: c :: d :: rest => do
    let a ← Hex.value? a
    let b ← Hex.value? b
    let c ← Hex.value? c
    let d ← Hex.value? d
    return (((a * 16 + b) * 16 + c) * 16 + d, rest)
  | _ => none

/-- The character of a code written with four digits, together with its second half if it is the
first of a pair. -/
def pairChar (n : Nat) (rest : List Char) : Char × List Char :=
  if Surrogate.isHigh n then
    match rest with
    | '\\' :: 'u' :: more =>
      match hex4? more with
      | some (m, more) =>
        if Surrogate.isLow m then (Char.ofNat (Surrogate.join n m), more)
          else (Surrogate.charOf n, rest)
      | none => (Surrogate.charOf n, rest)
    | _ => (Surrogate.charOf n, rest)
  else (Surrogate.charOf n, rest)

/-- The character that a letter after a backslash stands for. -/
def escapedChar? (c : Char) : Option Char :=
  match c with
  | '"' => some '"'
  | '\\' => some '\\'
  | '/' => some '/'
  | 'b' => some '\x08'
  | 'f' => some '\x0c'
  | 'n' => some '\n'
  | 'r' => some '\r'
  | 't' => some '\t'
  | _ => none

/-- The rest of a string after its opening quote; what was read so far is kept last to first. -/
def stringRest? : Nat → List Char → List Char → Option (String × List Char)
  | 0, _, _ => none
  | steps + 1, read, s =>
    match s with
    | [] => none
    | '"' :: rest => some (String.ofList read.reverse, rest)
    | '\\' :: 'u' :: rest => do
      let (n, rest) ← hex4? rest
      let (c, rest) := pairChar n rest
      stringRest? steps (c :: read) rest
    | '\\' :: e :: rest => do
      let c ← escapedChar? e
      stringRest? steps (c :: read) rest
    | c :: rest => if c.toNat < 0x20 ∨ c = '\\' then none else stringRest? steps (c :: read) rest

/-- The value of a run of digits. -/
def digitsValue (digits : List Char) : Nat :=
  digits.foldl (fun n c => n * 10 + (c.toNat - '0'.toNat)) 0

/-- The digits of the whole part: a zero, or digits that start with another one. -/
def wholePart? : List Char → Option (List Char × List Char)
  | '0' :: rest => some (['0'], rest)
  | c :: rest =>
    if isDigit c then some (c :: rest.takeWhile isDigit, rest.dropWhile isDigit) else none
  | [] => none

/-- The fraction, a point and digits, possibly missing. -/
def fraction : List Char → List Char × List Char
  | '.' :: c :: rest =>
    if isDigit c then ('.' :: c :: rest.takeWhile isDigit, rest.dropWhile isDigit)
      else ([], '.' :: c :: rest)
  | s => ([], s)

/-- The digits of an exponent after its sign, possibly missing. -/
def exponentDigits (mark : List Char) (s rest : List Char) : List Char × List Char :=
  match rest with
  | c :: more =>
    if isDigit c then (mark ++ c :: more.takeWhile isDigit, more.dropWhile isDigit) else ([], s)
  | [] => ([], s)

/-- The exponent, possibly missing. -/
def exponent (s : List Char) : List Char × List Char :=
  match s with
  | e :: sign :: rest =>
    if e = 'e' ∨ e = 'E' then
      if sign = '+' ∨ sign = '-' then exponentDigits [e, sign] s rest
      else exponentDigits [e] s (sign :: rest)
    else ([], s)
  | _ => ([], s)

/-- A number without its sign. -/
def unsigned? [Platform] (negative : Bool) (s : List Char) : Option (Json × List Char) := do
  let (whole, s) ← wholePart? s
  let (frac, s) := fraction s
  let (exp, s) := exponent s
  if frac.isEmpty && exp.isEmpty then
    if whole.length ≤ Platform.maxDigits then
      let n : Int := digitsValue whole
      return (.int (if negative then -n else n), s)
    else none
  else
    let sign := if negative then ['-'] else []
    return (.real (String.ofList (sign ++ whole ++ frac ++ exp)), s)

/-- Takes a word off the front. -/
def word? (w s : List Char) : Option (List Char) :=
  if w.isPrefixOf s then some (s.drop w.length) else none

/-- A value that is a word or a number. -/
def atom? [Platform] (s : List Char) : Option (Json × List Char) :=
  match s with
  | 'n' :: _ => (word? "null".toList s).map (.null, ·)
  | 't' :: _ => (word? "true".toList s).map (.bool true, ·)
  | 'f' :: _ => (word? "false".toList s).map (.bool false, ·)
  | 'N' :: _ => (word? "NaN".toList s).map (.real "NaN", ·)
  | 'I' :: _ => (word? "Infinity".toList s).map (.real "Infinity", ·)
  | '-' :: 'I' :: _ => (word? "-Infinity".toList s).map (.real "-Infinity", ·)
  | '-' :: rest => unsigned? true rest
  | _ => unsigned? false s

/-- A result, or the failure of a text that is not written like a value. -/
def orMalformed {α : Type} : Option α → Except ReadFailure α
  | some a => .ok a
  | none => .error .malformed

mutual

/-- A value without blanks in front, in which arrays and objects are at most `levels` deep. -/
def value [Platform] : Nat → Nat → List Char → Except ReadFailure (Json × List Char)
  | 0, _, _ => .error .malformed
  | steps + 1, levels, s =>
    match s with
    | '"' :: rest => do
      let (text, rest) ← orMalformed (stringRest? rest.length.succ [] rest)
      return (.string text, rest)
    | '[' :: rest =>
      match levels with
      | 0 => .error .tooDeep
      | deeper + 1 =>
        match skipSpace rest with
        | ']' :: rest => .ok (.array [], rest)
        | rest => do
          let (found, rest) ← items steps deeper rest
          return (.array found, rest)
    | '{' :: rest =>
      match levels with
      | 0 => .error .tooDeep
      | deeper + 1 =>
        match skipSpace rest with
        | '}' :: rest => .ok (.object [], rest)
        | rest => do
          let (found, rest) ← fields steps deeper rest
          return (.object found, rest)
    | s => orMalformed (atom? s)

/-- The items of an array up to its end. -/
def items [Platform] : Nat → Nat → List Char → Except ReadFailure (List Json × List Char)
  | 0, _, _ => .error .malformed
  | steps + 1, levels, s => do
    let (item, rest) ← value steps levels s
    match skipSpace rest with
    | ']' :: rest => return ([item], rest)
    | ',' :: rest =>
      let (others, rest) ← items steps levels (skipSpace rest)
      return (item :: others, rest)
    | _ => .error .malformed

/-- The fields of an object up to its end. -/
def fields [Platform] :
    Nat → Nat → List Char → Except ReadFailure (List (String × Json) × List Char)
  | 0, _, _ => .error .malformed
  | steps + 1, levels, s =>
    match s with
    | '"' :: rest => do
      let (name, rest) ← orMalformed (stringRest? rest.length.succ [] rest)
      match skipSpace rest with
      | ':' :: rest =>
        let (item, rest) ← value steps levels (skipSpace rest)
        match skipSpace rest with
        | '}' :: rest => return ([(name, item)], rest)
        | ',' :: rest =>
          let (others, rest) ← fields steps levels (skipSpace rest)
          return ((name, item) :: others, rest)
        | _ => .error .malformed
      | _ => .error .malformed
    | _ => .error .malformed

end

end Reader

/-- The value that a text is, with arrays and objects at most `levels` deep. -/
def parse [Platform] (levels : Nat) (s : String) : Except ReadFailure Json := do
  let cs := Reader.skipSpace s.toList
  let (j, rest) ← Reader.value (2 * cs.length + 2) levels cs
  if (Reader.skipSpace rest).isEmpty then return j else .error .malformed

/-- The value that a text is, if it is one, however deep. -/
def parse? [Platform] (s : String) : Option Json := (parse s.length s).toOption

end Json

end LayoutRule
