import LayoutRule.Layout.Candidate
import LayoutRule.Layout.Contour
import LayoutRule.Layout.Definition
import LayoutRule.Request.Note

/-!
# Hanging keywords

A keyword hangs when it ends a line that it does not start. A block below a hanging keyword is
measured from the keyword's *virtual column*: the column that the keyword would get on a line of its
own. Finding that column is itself a request for candidates, one level further in; a `Request`
therefore carries the function that answers such nested requests.
-/

namespace LayoutRule

/-- The surroundings in which candidates are looked for. -/
structure Request where
  /-- The document. -/
  doc : Document
  /-- The settings. -/
  settings : Settings
  /-- Whether a hanging keyword is being measured, so that the block it opens adds no offset. -/
  inhibit : Bool := false
  /-- Answers a request one level further in: whether a hanging keyword is being measured, and the
  stretch from the start of the definition to the text to be indented. -/
  nested : Bool → Int → Int → Noted (List Candidate)

namespace Request

/-- Whether the lexeme at `pos` ends a line that it does not start. -/
def hangs (r : Request) (pos : Int) : Except Fault Bool := do
  if r.doc.isFirstOnLine pos then return false
  let word ← r.doc.text.readLexeme pos
  if word ∈ r.settings.dontHang then return false
  let next ← r.doc.skipGap (pos + max (word.length : Int) 1) r.doc.text.length
  return decide (r.doc.text.lineStop pos ≤ next)

/-- The largest candidate that is not right of `col`, or `col` when there is none. -/
def nearestLeft (cs : List Candidate) (col : Int) : Int :=
  let best := cs.foldl (fun best c => if c.column ≤ col then max best c.column else best) (-1)
  if 0 ≤ best then best else col

/-- The column that the text at `pos` would get on a line of its own. The enclosing definition is
looked for when `start` does not tell it. -/
def virtualColumn (r : Request) (pos : Int) (start : Option Int) : Noted Int := do
  let col := r.doc.column pos
  if r.doc.isFirstOnLine pos then return col
  let start : Int ← match start with
    | some i => pure i
    | none => r.doc.definitionStart r.settings pos
  let cs ← r.nested (← r.hangs pos) start pos
  return nearestLeft cs col

/-- The offsets of the block that the lexeme at `pos` opens. -/
def offsetAt? (r : Request) (pos : Int) : Except Fault (Option KeywordOffset) := do
  return r.settings.keywordOffset? (← r.doc.text.readLexeme pos)

/-- The last code before `stop` is a keyword that opens a block: its position. -/
def keywordBefore? (r : Request) (start stop : Int) : Except Fault (Option Int) := do
  let p ← r.doc.skipGapBack stop start
  if p ≤ start then return none
  let c ← r.doc.text.read (p - 1)
  let q ← if isNameChar c then
      retreat (fun i => (r.doc.text.read i).map isNameChar) start (p - 1)
    else pure (p - 1)
  if (r.settings.keywordOffset? (r.doc.text.slice q p).toString).isSome then return some q
    else return none

/-- The column of a block that the keyword at `pos` opens; `default` replaces the general step. -/
def blockColumn (r : Request) (pos : Int) (start : Option Int) (offsets : Option KeywordOffset)
    (default : Option Int) : Noted Int := do
  let default := default.getD r.settings.indentStep
  let offsets : Option KeywordOffset ← if offsets.isSome then pure offsets else r.offsetAt? pos
  let offsets : KeywordOffset := if r.inhibit then ⟨some 0, none⟩ else offsets.getD ⟨none, none⟩
  if ← r.hangs pos then
    let base ← r.virtualColumn pos start
    return base + ((offsets.hanging <|> offsets.offset).getD default)
  else return r.doc.column pos + offsets.offset.getD default

end Request

end LayoutRule
