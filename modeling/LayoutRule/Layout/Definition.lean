import LayoutRule.Document.Gap
import LayoutRule.Layout.Settings

/-!
# The enclosing definition

A definition starts on a line at the top column. From the line above a place one goes up over deeper
lines and, unless the settings say otherwise, over blank ones, never out of the block of code; then
comments at the start are skipped.
-/

namespace LayoutRule

namespace Document

/-- Whether the line at `bol` belongs to a definition that started above it. -/
def continuesAbove (d : Document) (s : Settings) (bol : Int) : Bool :=
  let blank := d.isBlankLine bol
  let deeper := decide (s.topColumn d < d.indentation bol)
  if s.lookPastEmptyLines then deeper || blank else deeper && !blank

/-- Goes up from the line at `bol` to the first line that starts a definition. -/
def climb (d : Document) (s : Settings) (codeStart bol : Int) : Int :=
  if codeStart < bol ∧ d.continuesAbove s bol then
    match _h : d.text.lineAbove? bol with
    | some above => d.climb s codeStart above
    | none => bol
  else bol
termination_by (d.text.lineStart bol).toNat
decreasing_by
  have h₁ := Text.lineAbove?_lt _h
  have := Text.lineStart_le (t := d.text) h₁.1
  omega

/-- The line where the definition that encloses `pos` starts. -/
def definitionLine (d : Document) (s : Settings) (pos : Int) : Int :=
  let here := d.text.lineStart pos
  let top := d.climb s (d.codeStart pos) ((d.text.lineAbove? here).getD here)
  if d.isBlankLine top ∧ top < here then (d.text.moveLines top 1).1 else top

/-- The place where the definition that encloses `pos` starts. -/
def definitionStart (d : Document) (s : Settings) (pos : Int) : Except Fault Int := do
  let origin := d.indentationPoint (d.definitionLine s pos)
  let first ← d.skipGap origin d.text.length
  return if pos < first then origin else first

end Document

end LayoutRule
