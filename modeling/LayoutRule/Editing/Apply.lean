import LayoutRule.Document.Edit
import LayoutRule.Layout.Candidate

/-!
# Applying a candidate

Applying a candidate indents the line to its column, takes out the text that an earlier candidate
had put in there, and puts in its own.
-/

namespace LayoutRule

/-- An entry of a list; a negative index counts from the end. -/
def entry? {α : Type} (l : List α) (index : Int) : Option α :=
  if 0 ≤ index then l[index.toNat]?
  else if 0 ≤ index + l.length then l[(index + l.length).toNat]?
  else none

namespace Candidate

/-- The length of the text that a candidate puts in. -/
def insertLength (c : Candidate) : Nat := (c.insert.getD "").length

end Candidate

namespace Document

/-- Indents the line of `pos` by a candidate after `removed` characters of earlier text are taken
out. Gives the document and the position after the text put in. -/
def applyCandidate (d : Document) (pos : Int) (c : Candidate) (removed : Int) : Document × Int :=
  let (d, point) := d.indentLine pos c.column
  let d := if removed = 0 then d else d.deleteText point removed
  match c.insert with
  | some text =>
    if text.isEmpty then (d, point)
      else (d.insertText point (Text.ofString text), point + text.length)
  | none => (d, point)

/-- Applies an entry of a list of candidates, if the line can be indented so far. -/
def applyEntry [Platform] (d : Document) (pos : Int) (cs : List Candidate) (index removed : Int) :
    Except Fault (Document × Int) :=
  match entry? cs index with
  | some c => do
    d.checkIndent pos c.column
    return d.applyCandidate pos c removed
  | none => .error (missingAt .noSuchCandidate index)

/-- Regions are never indented as a whole. -/
def indentRegion (_d : Document) (_start _stop : Int) : Except Fault Unit := .error .regionRefused

end Document

end LayoutRule
