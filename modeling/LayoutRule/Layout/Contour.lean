import LayoutRule.Document.Gap
import LayoutRule.Layout.Settings

/-!
# Contours

The contour of a stretch of code is the sequence of lines, outermost first, that bound the layout
blocks before its end: going up from the end, a line belongs to it when it is indented less than
every line met so far. The first bound is the column where the code ends. Blank lines and comments
are passed over; with `lookPastEmptyLines` off a blank line ends the walk.
-/

namespace LayoutRule

namespace Document

/-- Whether a line whose indentation ends at `point` starts with or lies in a comment. -/
def isCommentLine (d : Document) (point origin : Int) : Except Fault Bool := do
  if ← d.commentAt point then return true
  else return (← d.openComment? origin point).isSome

/-- Goes up from the line at `bol`. Lines below it, outermost first, are `found`, and `bound` is the
least column so far. -/
def contourFrom (d : Document) (s : Settings) (start : Int) (bol bound : Int) (found : List Int) :
    Except Fault (List Int) := do
  if bound ≤ 0 then return found
  if d.style != .plain && !d.isCodeLine bol then return found
  let point := d.indentationPoint bol
  if point < start then return found
  let blank := d.isBlankLine bol
  if blank && !s.lookPastEmptyLines then return found
  let passed ← if blank then pure true else d.isCommentLine point start
  let col := d.column point
  let counts := !passed && decide (col < bound)
  match _h : d.text.lineAbove? bol with
  | some above =>
    if counts then d.contourFrom s start above col (point :: found)
    else d.contourFrom s start above bound found
  | none => return if counts then point :: found else found
termination_by (d.text.lineStart bol).toNat
decreasing_by
  all_goals
    have h₁ := Text.lineAbove?_lt _h
    have := Text.lineStart_le (t := d.text) h₁.1
    omega

/-- The contour of the stretch from `start` to `stop`. -/
def contour (d : Document) (s : Settings) (start stop : Int) : Except Fault (List Int) := do
  if stop ≤ start then return []
  let pos ← d.skipGapBack stop start
  if pos ≤ start then return []
  d.contourFrom s start (d.text.lineStart pos) (d.column pos) []

end Document

end LayoutRule
