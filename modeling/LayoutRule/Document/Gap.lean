import LayoutRule.Document.Basic
import LayoutRule.Lexical.Expression

/-!
# Gaps between code

Between two pieces of code there may be blanks, newlines, markers of literate lines and comments.
This module skips them in both directions and answers what a place lies in. Backwards, a comment can
be recognised only from its start, so skipping back walks forward over the stretch first and then
uses the comments found there, last to first.
-/

namespace LayoutRule

namespace Document

/-- Whether the character at `i` is a blank, a newline or a literate marker. -/
def isGapAt (d : Document) (i : Int) : Except Fault Bool := do
  let c ← d.text.read i
  if isBlank c || c == '\n' then return true
  else d.text.isMarker d.bird c i

/-- Skips blanks, newlines and markers forward, at most to `limit`. -/
def skipBlanks (d : Document) (pos limit : Int) : Except Fault Int := advance d.isGapAt limit pos

/-- Skips blanks, newlines and markers backward, at most to `limit`. -/
def skipBlanksBack (d : Document) (pos limit : Int) : Except Fault Int :=
  retreat d.isGapAt limit pos

/-- Skips blanks and whole comments forward, at most to `limit`. -/
def skipGap (d : Document) (pos limit : Int) : Except Fault Int :=
  match _h : d.skipBlanks pos limit with
  | .error e => .error e
  | .ok i =>
    if i < limit then
      match _hc : d.text.commentAt i d.text.length with
      | .error e => .error e
      | .ok true => d.skipGap (min (d.text.commentStop i) limit) limit
      | .ok false => .ok i
    else .ok i
termination_by (limit - pos).toNat
decreasing_by
  have h₁ : pos ≤ i := le_of_advance _h
  have h₂ := Text.lt_commentStop (Text.lt_length_of_commentAt _hc)
  omega

/-- What is open after the stretch from `start` to `stop`. -/
def nesting (d : Document) (start stop : Int) : Except Fault Nesting :=
  d.text.nesting d.bird start stop

/-- Skips blanks, and the given comments, backward from `pos`; the comments are listed last to
first. -/
def skipBackOver (d : Document) (limit : Int) : List Span → Int → Except Fault Int
  | [], pos => d.skipBlanksBack pos limit
  | s :: rest, pos => do
    let i ← d.skipBlanksBack pos limit
    if s.start < i ∧ i ≤ s.stop then d.skipBackOver limit rest s.start
    else d.skipBackOver limit rest i

/-- Skips blanks and whole comments backward, at most to `limit`. -/
def skipGapBack (d : Document) (pos limit : Int) : Except Fault Int := do
  let s ← d.nesting limit pos
  d.skipBackOver limit (s.commentsBefore pos).reverse pos

/-! ## Where a place lies -/

/-- The innermost bracket opened after `start` and still open at `stop`. -/
def openBracket? (d : Document) (start stop : Int) : Except Fault (Option Int) := do
  return (← d.nesting start stop).innermost?

/-- The start of the string that holds `stop`. -/
def openString? (d : Document) (start stop : Int) : Except Fault (Option Int) := do
  return (← d.nesting start stop).string?

/-- Whether a comment starts at `pos`. -/
def commentAt (d : Document) (pos : Int) : Except Fault Bool := d.text.commentAt pos d.text.length

/-- The start of the comment that holds `stop`, or `stop` itself when a comment starts there. -/
def openComment? (d : Document) (start stop : Int) : Except Fault (Option Int) := do
  if stop ≤ start then
    if ← d.commentAt stop then return some stop else return none
  else
    let s ← d.nesting start stop
    match s.comment?, s.string? with
    | some i, _ => return some i
    | none, some _ => return none
    | none, none => if ← d.commentAt stop then return some stop else return none

/-- Skips blanks and comments, then one expression. The gap is skipped at most to `limit`. -/
def expressionAfter (d : Document) (pos limit : Int) : Except Fault Int := do
  let i ← d.skipGap pos limit
  if d.text.length ≤ i then .error (.scan .endOfText)
  else d.text.expressionStop d.bird i

/-! ## Bounds -/

/-- Skipping blanks goes forward or stays. -/
theorem le_of_skipBlanks {d : Document} {pos limit i : Int} (h : d.skipBlanks pos limit = .ok i) :
    pos ≤ i :=
  le_of_advance h

/-- Skipping blanks and comments goes forward or stays. -/
theorem le_of_skipGap {d : Document} {pos limit i : Int} (h : d.skipGap pos limit = .ok i) :
    pos ≤ i := by
  fun_induction skipGap d pos limit with
  | case1 => cases h
  | case2 => cases h
  | case3 pos j hj _ hc ih =>
    have h₁ := le_of_skipBlanks hj
    have h₂ := Text.lt_commentStop (Text.lt_length_of_commentAt hc)
    have h₃ := ih h
    omega
  | case4 pos j hj => cases h; exact le_of_skipBlanks hj
  | case5 pos j hj => cases h; exact le_of_skipBlanks hj

/-- The expression behind a place ends behind that place, with the gap before it skipped. -/
theorem lt_of_expressionAfter {d : Document} {pos limit i : Int}
    (h : d.expressionAfter pos limit = .ok i) : pos < i := by
  unfold expressionAfter at h
  obtain ⟨j, hj, h⟩ := bind_eq_ok.1 h
  have h₁ := le_of_skipGap hj
  split at h
  · cases h
  · have := Text.lt_of_expressionStop h
    omega

end Document

end LayoutRule
