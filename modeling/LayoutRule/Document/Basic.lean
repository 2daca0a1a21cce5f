import LayoutRule.Fault
import LayoutRule.Text.Line

/-!
# Documents: columns and literate styles

A `Document` is a text with its literate style and tab width, and the number of edits made to it.
Columns are display columns: a tab moves to the next multiple of the tab width. In a Bird script the
code stands on lines that start with the marker `>` in column zero, and every question about blanks
or indentation looks past the marker; in a LaTeX script it stands between `\begin{code}` and
`\end{code}`.
-/

namespace LayoutRule

/-- How code and prose share a script. -/
inductive Literate where
  /-- Everything is code. -/
  | plain
  /-- Lines of code start with `>`. -/
  | bird
  /-- Code stands in `code` environments. -/
  | latex
deriving DecidableEq, Repr

namespace Literate

/-- The style of a given name. -/
def ofName? (name : String) : Option Literate :=
  if name = "none" then some .plain
  else if name = "bird" then some .bird
  else if name = "latex" then some .latex
  else none

/-- The style of a given name, or the fault of there being none. -/
def ofName (name : String) : Except Fault Literate :=
  match ofName? name with
  | some style => .ok style
  | none => .error (.unknownStyle name)

end Literate

/-- A text that is being indented. -/
structure Document where
  /-- The text. -/
  text : Text
  /-- The literate style. -/
  style : Literate := .plain
  /-- The distance of tab stops. -/
  tabWidth : Nat := 8
  /-- Tab stops are apart. -/
  tabWidth_pos : 0 < tabWidth := by decide
  /-- The number of edits so far. -/
  version : Nat := 0

namespace Document

/-- A document without edits; a tab width below one counts as one. -/
def new (text : Text) (style : Literate) (tabWidth : Int) : Document where
  text := text
  style := style
  tabWidth := max 1 tabWidth.toNat
  tabWidth_pos := by omega

/-- Whether the document is a Bird script. -/
def bird (d : Document) : Bool := d.style == .bird

/-! ## Columns -/

/-- The column after a character that starts in column `col`. -/
def nextColumn (tabWidth col : Nat) (c : Char) : Nat :=
  if c = '\t' then (col / tabWidth + 1) * tabWidth else col + 1

/-- The column of a position: the width of its line before it. -/
def column (d : Document) (pos : Int) : Int :=
  ((d.text.slice (d.text.lineStart pos) pos).chars.foldl (nextColumn d.tabWidth) 0 : Nat)

/-- The number of the line that holds a position, from zero, and the column of the position. -/
def lineColumn (d : Document) (pos : Int) : Int × Int := (d.text.newlinesBefore pos, d.column pos)

/-- Walks from index `i` in column `col` to the wanted column, at most to index `stop`. -/
def seekColumn (d : Document) (column : Int) (stop i col : Nat) : Nat :=
  if i < stop ∧ col < column then
    match d.text.chars[i]? with
    | some c => d.seekColumn column stop (i + 1) (nextColumn d.tabWidth col c)
    | none => i
  else i
termination_by stop - i

/-- The position on the line of `pos` at a column, or the end of the line when it is shorter. -/
def moveToColumn (d : Document) (pos column : Int) : Int :=
  d.seekColumn column (d.text.lineStop pos).toNat (d.text.lineStart pos).toNat 0

/-- The position of a line, counted from zero, and a column. -/
def positionOf (d : Document) (line column : Int) : Except Fault Int :=
  if line < 0 then .error (.noSuchLine line)
  else
    match d.text.linesDown line.toNat 0 with
    | (bol, 0) => .ok (d.moveToColumn bol column)
    | _ => .error (.noSuchLine line)

/-! ## Indentation -/

/-- The two characters of indentation. -/
def isBlank (c : Char) : Bool := c == ' ' || c == '\t'

/-- Where the code of the line that starts at `bol` may start: after its marker. -/
def codeOrigin (d : Document) (bol : Int) : Int :=
  if d.bird && d.text.charAt? bol == some '>' then bol + 1 else bol

/-- The position of the first character of the line of `pos` that is no indentation. -/
def indentationPoint (d : Document) (pos : Int) : Int :=
  d.text.runStop isBlank (d.codeOrigin (d.text.lineStart pos)).toNat

/-- The column of the first character that is no indentation. -/
def indentation (d : Document) (pos : Int) : Int := d.column (d.indentationPoint pos)

/-- Whether the line of `pos` holds indentation only. -/
def isBlankLine (d : Document) (pos : Int) : Bool := d.indentationPoint pos == d.text.lineStop pos

/-- Whether nothing but indentation stands before `pos` on its line. -/
def isFirstOnLine (d : Document) (pos : Int) : Bool := decide (pos ≤ d.indentationPoint pos)

/-! ## Code and prose -/

/-- The line that starts a block of code in a LaTeX script. -/
def codeBegin : List Char := ['\\', 'b', 'e', 'g', 'i', 'n', '\x7b', 'c', 'o', 'd', 'e', '\x7d']

/-- The line that ends a block of code in a LaTeX script. -/
def codeEnd : List Char := ['\\', 'e', 'n', 'd', '\x7b', 'c', 'o', 'd', 'e', '\x7d']

/-- Whether the line of `pos` is code. -/
def isCodeLine (d : Document) (pos : Int) : Bool :=
  let bol := d.text.lineStart pos
  match d.style with
  | .plain => true
  | .bird => d.text.charAt? bol == some '>'
  | .latex =>
    match d.text.lastWord? codeBegin bol, d.text.lastWord? codeEnd bol with
    | none, _ => false
    | some _, none => true
    | some opened, some closed => decide (closed < opened)

/-- The start of the first of the marked lines that run up to the line at `bol`. -/
def markedBlockStart (t : Text) (bol : Nat) : Nat :=
  if 0 < bol then
    if t.chars[t.runStart Text.notNewline (bol - 1)]? = some '>' then
      markedBlockStart t (t.runStart Text.notNewline (bol - 1))
    else bol
  else bol
termination_by bol
decreasing_by
  have := t.runStart_le Text.notNewline (bol - 1)
  omega

/-- The start of the block of code that holds `pos`. -/
def codeStart (d : Document) (pos : Int) : Int :=
  match d.style with
  | .plain => 0
  | .bird => markedBlockStart d.text (d.text.lineStart pos).toNat
  | .latex =>
    match d.text.lastWord? codeBegin (d.text.lineStart pos) with
    | some opened => min (d.text.lineStop opened + 1) d.text.length
    | none => 0

end Document

end LayoutRule
