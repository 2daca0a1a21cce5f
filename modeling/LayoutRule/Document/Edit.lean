import LayoutRule.Document.Basic
import LayoutRule.Text.Limit

/-!
# Edits

Every edit replaces one stretch of the text and counts as one version, also when the text stays the
same; a request that finds nothing to do makes no edit and keeps the version. A line can be indented
only as far as the platform can make its blanks (`Document.checkIndent`).
-/

namespace LayoutRule

namespace Document

/-- Puts new text in place of the stretch from `start` to `stop`. -/
def replaceRange (d : Document) (start stop : Int) (new : Text) : Document :=
  { d with text := d.text.takeTo start ++ new ++ d.text.dropTo stop, version := d.version + 1 }

/-- Puts text in at a position. -/
def insertText (d : Document) (pos : Int) (new : Text) : Document := d.replaceRange pos pos new

/-- Takes out `count` characters at a position. -/
def deleteText (d : Document) (pos count : Int) : Document :=
  d.replaceRange pos (min d.text.length (pos + count)) (Text.ofString "")

/-- Exchanges the whole text; the same text is no edit. -/
def setText (d : Document) (new : Text) : Document :=
  if new = d.text then d else { d with text := new, version := d.version + 1 }

/-- Whether the line at `bol` has the marker of a literate line. -/
def isMarked (d : Document) (bol : Int) : Bool := d.bird && d.text.charAt? bol == some '>'

/-- The indentation of a line at a column: spaces, after the marker of a literate line. -/
def leadFor (d : Document) (bol column : Int) : Text :=
  if d.isMarked bol then ⟨#['>']⟩ ++ Text.replicate (column - 1).toNat ' '
  else Text.replicate column.toNat ' '

/-- Indents the line of `pos` to a column. Gives the document and the new indentation point. -/
def indentLine (d : Document) (pos column : Int) : Document × Int :=
  let bol := d.text.lineStart pos
  let point := d.indentationPoint pos
  let lead := d.leadFor bol column
  if d.text.slice bol point = lead then (d, bol + lead.length)
  else (d.replaceRange bol point lead, bol + lead.length)

/-- Checks that the line of `pos` can be indented to a column. -/
def checkIndent [Platform] (d : Document) (pos column : Int) : Except Fault Unit :=
  checkRun (if d.isMarked (d.text.lineStart pos) then column - 1 else column)

/-- Indents the line of `pos` to a column, if that can be done. -/
def tryIndentLine [Platform] (d : Document) (pos column : Int) : Except Fault (Document × Int) := do
  d.checkIndent pos column
  return d.indentLine pos column

end Document

end LayoutRule
