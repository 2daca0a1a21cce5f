import LayoutRule.Request.Bracket
import LayoutRule.Request.KeywordPair
import LayoutRule.Request.Prose

/-!
# Candidates for a line

`Request.answer` decides what a line goes by, first match first: the string or comment it lies in,
the opener of its closing keyword, a block keyword right before it, the bracket it lies in, the
contour above it, and last the start of the definition.

Some of these measure other lines. `candidatesWithin` ties the knot: it answers with a bound on how
many lines are measured inside one another, and running out of the bound is a fault.
`Document.candidates` is the request for one line of a document; a move through the text that cannot
be completed makes it fall back to the column of the definition.

The bound is the one of the settings, and nothing else limits how deep lines are measured inside one
another: the stack of the program is not modelled, here or in any other module. So a request with a
bound that no stack could follow is answered here as if there were room for it.
-/

namespace LayoutRule

namespace Request

/-- The column of a line that nothing above it decides. -/
def definitionColumn (r : Request) (start stop : Int) : Int :=
  let col := r.doc.column start
  if r.doc.bird && col == 1 then r.settings.topColumn r.doc
  else if r.doc.text.lineStart start == r.doc.text.lineStart stop && r.doc.isBlankLine stop then
    r.settings.topColumn r.doc
  else col

/-- The candidates for code at `stop` in the definition that starts at `start`. -/
def codeLine (r : Request) (start stop : Int) : Noted (List Candidate) := do
  if let some found ← r.closingKeyword? stop start then return found
  if let some keyword ← r.keywordBefore? start stop then
    return [⟨← r.blockColumn keyword (some start) none none, none⟩]
  if let some bracket ← r.doc.openBracket? start stop then
    return ← r.insideBracket bracket stop
  let contour ← r.doc.contour r.settings start stop
  if contour.isEmpty then return [⟨r.definitionColumn start stop, none⟩]
  r.belowContour start contour stop

/-- The candidates for the text at `stop` in the definition that starts at `start`. -/
def answer (r : Request) (start stop : Int) : Noted (List Candidate) := do
  if let some quote ← r.doc.openString? start stop then return r.insideString quote stop
  if let some opened ← r.doc.openComment? start stop then return ← r.commentText opened stop start
  r.codeLine start stop

end Request

/-- Answers requests with at most `levels` of them inside one another. -/
def candidatesWithin (d : Document) (s : Settings) : Nat → Bool → Int → Int → Noted (List Candidate)
  | 0, _, _, _ => Noted.fail (.tooDeep s.maxNestingDepth)
  | levels + 1, inhibit, start, stop =>
    Request.answer ⟨d, s, inhibit, candidatesWithin d s levels⟩ start stop

namespace Settings

/-- How many requests may still lie inside one another at a depth. -/
def levelsAt (s : Settings) (depth : Int) : Nat := (s.maxNestingDepth - depth + 1).toNat

end Settings

namespace Request

/-- A request at a depth: nested ones are one level further in. -/
def atDepth (d : Document) (s : Settings) (depth : Int) (inhibit : Bool) : Request :=
  ⟨d, s, inhibit, candidatesWithin d s (s.levelsAt (depth + 1))⟩

end Request

namespace Document

/-- The number of the line that holds `pos`, counted from one. -/
def lineNumber (d : Document) (pos : Int) : Int := d.text.newlinesBefore pos + 1

/-- Whether the line of `pos` is prose, which is not indented. -/
def isProse (d : Document) (pos : Int) : Bool := d.style != .plain && !d.isCodeLine pos

/-- A failed move through the text gives the column of the definition instead. -/
def orDefinitionColumn (d : Document) (start : Int) (x : Noted (List Candidate)) :
    Noted (List Candidate) :=
  match x.result with
  | .error (.scan why) => ⟨x.notes ++ [.stoppedEarly why], .ok [⟨d.column start, none⟩]⟩
  | _ => x

/-- The candidates for the line of `pos`. -/
def candidates (d : Document) (s : Settings) (pos : Int) : Noted (List Candidate) := do
  if d.isProse pos then
    Noted.note (.notCode (d.lineNumber pos))
    return []
  let stop := d.indentationPoint pos
  let start ← d.definitionStart s stop
  let cs ← d.orDefinitionColumn start (candidatesWithin d s (s.levelsAt 0) false start stop)
  Noted.note (.counted (d.lineNumber pos) cs.length)
  return cs

end Document

end LayoutRule
