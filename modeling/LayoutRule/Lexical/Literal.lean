import LayoutRule.Text.Reading

/-!
# String and character literals

A string ends at its closing quote; a backslash takes the next character with it, so that a gap may
span lines, and a bare newline ends an unfinished string right there. A character literal is one
character, or a backslash and at least one more character up to the next quote on the line.
-/

namespace LayoutRule

namespace Text

/-- The end of a string from inside it; one past the end of the text when it has none. -/
def stringRest (t : Text) (j : Int) : Except Fault Int :=
  if j < t.length then
    match t.read j with
    | .error e => .error e
    | .ok c =>
      if c = '\\' then t.stringRest (j + 2)
      else if c = '"' then .ok (j + 1)
      else if c = '\n' then .ok j
      else t.stringRest (j + 1)
  else .ok (t.length + 1)
termination_by (t.length - j).toNat

/-- The position right after the string whose opening quote is at `i`. -/
def stringStop (t : Text) (i : Int) : Except Fault Int := t.stringRest (i + 1)

/-- Neither a quote nor a newline. -/
def insideQuotes (c : Char) : Bool := c != '\'' && c != '\n'

/-- The end of a character literal after its backslash at `k - 1`. -/
def escapeStop? (t : Text) (k : Nat) : Option Nat :=
  match t.chars[k]? with
  | none => none
  | some c =>
    if c = '\n' then none
    else
      let m := t.runStop insideQuotes (k + 1)
      if t.chars[m]? = some '\'' then some (m + 1) else none

/-- The position right after the character literal at `k`, if there is one. -/
def charLiteralStop? (t : Text) (k : Nat) : Option Nat :=
  if t.chars[k]? = some '\'' then
    match t.chars[k + 1]? with
    | none => none
    | some c =>
      if c = '\\' then t.escapeStop? (k + 2)
      else if insideQuotes c then
        if t.chars[k + 2]? = some '\'' then some (k + 3) else none
      else none
  else none

/-! ## Literals are not empty -/

/-- The rest of a string ends no earlier than it starts. Past the end of the text, where a gap that
is not finished may lead, the end of the text counts. -/
theorem min_le_of_stringRest {t : Text} {j k : Int} (h : t.stringRest j = .ok k) :
    min j (t.length + 1) ≤ k := by
  fun_induction stringRest t j with
  | case1 => cases h
  | case2 _ _ _ ih => have := ih h; omega
  | case3 => cases h; omega
  | case4 => cases h; omega
  | case5 _ _ _ _ _ _ _ ih => have := ih h; omega
  | case6 => cases h; omega

/-- A string ends behind its opening quote. -/
theorem lt_of_stringStop {t : Text} {i k : Int} (hi : i < t.length) (h : t.stringStop i = .ok k) :
    i < k := by
  have := min_le_of_stringRest h
  omega

/-- A character literal ends behind its opening quote. -/
theorem lt_of_charLiteralStop? {t : Text} {k m : Nat} (h : t.charLiteralStop? k = some m) :
    k < m := by
  unfold charLiteralStop? escapeStop? at h
  have := t.le_runStop insideQuotes (k + 2 + 1)
  grind

end Text

end LayoutRule
