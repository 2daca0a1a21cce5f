import LayoutRule.Document.Basic

/-!
# Settings

What a user may choose about the layout of a document. A keyword that opens a block has two offsets:
one for a block below a keyword that starts its line, and one for a keyword that hangs at the end of
a line. A missing hanging offset falls back to the plain one, and that to the general step.
-/

namespace LayoutRule

/-- The offsets of a block below the keyword that opens it. -/
structure KeywordOffset where
  /-- From the keyword. -/
  offset : Option Int
  /-- From the column that a hanging keyword would have on a line of its own. -/
  hanging : Option Int
deriving DecidableEq, Repr

/-- Choices about the layout of a document. -/
structure Settings where
  /-- The offset of a new level where nothing else prescribes one. -/
  indentStep : Int := 4
  /-- The number of blanks after the marker of a fresh literate line. -/
  birdOffset : Int := 1
  /-- Whether a definition reaches over blank lines. -/
  lookPastEmptyLines : Bool := true
  /-- How far `then` and `else` stand right of their `if`. -/
  thenElseOffset : Int := 0
  /-- The keywords that open a block, with their offsets. -/
  keywordOffsets : List (String × KeywordOffset) := [
    ("where", ⟨some 2, some 0⟩),
    ("of", ⟨some 2, none⟩),
    ("do", ⟨some 2, none⟩),
    ("mdo", ⟨some 2, none⟩),
    ("rec", ⟨some 2, none⟩),
    ("in", ⟨some 2, some 0⟩),
    ("\x7b", ⟨some 2, none⟩),
    ("if", ⟨none, none⟩),
    ("then", ⟨none, none⟩),
    ("else", ⟨none, none⟩),
    ("let", ⟨none, none⟩)]
  /-- Lexemes that never hang. -/
  dontHang : List String := ["("]
  /-- The least column of aligned right-hand sides. -/
  rhsAlignColumn : Int := 0
  /-- How many lines may be measured inside one another. -/
  maxNestingDepth : Int := 32
deriving Repr

namespace Settings

/-- The offsets of the block that a keyword opens; none for a word that opens no block. -/
def keywordOffset? (s : Settings) (word : String) : Option KeywordOffset :=
  s.keywordOffsets.lookup word

/-- The column of top-level definitions. -/
def topColumn (s : Settings) (d : Document) : Int := if d.bird then 1 + s.birdOffset else 0

end Settings

end LayoutRule
