import LayoutRule.Layout.Clause

/-!
# Candidates and proposals

A candidate is one way to indent a line: a column, and possibly text to put in there. A list of
candidates keeps the order in which they were offered, each once, and no column left of the margin.
A `Proposal` names a place of the text instead of a column: the line may go under it, or some way
beyond it.
-/

namespace LayoutRule

/-- One way to indent a line. -/
structure Candidate where
  /-- The column of the first character. -/
  column : Int
  /-- Text to put in at that column. -/
  insert : Option String := none
deriving DecidableEq, Repr

/-- Adds a candidate at the end of a list unless it is there already; the margin is the least
column. -/
def offer (cs : List Candidate) (c : Candidate) : List Candidate :=
  let c := { c with column := max 0 c.column }
  if c ∈ cs then cs else cs ++ [c]

/-- Adds several candidates, first to last. -/
def offerAll (cs : List Candidate) (more : List Candidate) : List Candidate := more.foldl offer cs

/-- A candidate in terms of a place in the text. -/
inductive Proposal where
  /-- The column of the place, with text to put in. -/
  | under (place : Option Int) (insert : Option String)
  /-- A number of columns right of the place; none stands for the general step. -/
  | beyond (place : Option Int) (offset : Option Int)
deriving DecidableEq, Repr

namespace Document

/-- The column of a part of a clause; a part that is not there counts as the end of the text. -/
def partColumn (d : Document) (place : Option Int) : Int := d.column (place.getD d.text.length)

end Document

namespace Proposal

/-- The candidate that a proposal stands for. -/
def candidate (d : Document) (step : Int) : Proposal → Candidate
  | .under place insert => ⟨d.partColumn place, insert⟩
  | .beyond place offset => ⟨d.partColumn place + offset.getD step, none⟩

end Proposal

/-- Adds the candidates of proposals, first to last. -/
def offerProposals (d : Document) (step : Int) (cs : List Candidate) (ps : List Proposal) :
    List Candidate :=
  offerAll cs (ps.map (Proposal.candidate d step))

end LayoutRule
