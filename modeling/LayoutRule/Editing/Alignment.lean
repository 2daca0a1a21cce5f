import LayoutRule.Document.Edit
import LayoutRule.Layout.Clause
import LayoutRule.Layout.Settings
import LayoutRule.Request.Note

/-!
# Aligning guards or right-hand sides

The definition around a place is the run of top-level clauses with one name. Blanks are put in
before the signs of one kind, on the first lines of its clauses and on its guard lines, so that they
share the column of the rightmost one. Only signs written like the first one take part.

The signs are moved one after another, from the last to the first. A sign whose blanks cannot be
made ends the alignment, and the signs behind it have been moved by then (`Document.alignOutcome`).
-/

namespace LayoutRule

/-- The signs that can be aligned. -/
inductive AlignSign where
  | guard
  | rhs
deriving DecidableEq, Repr

namespace AlignSign

/-- The name of the kind of sign. -/
def label : AlignSign → String
  | .guard => "guard"
  | .rhs => "rhs"

/-- The kind of sign of a given name. -/
def ofName (name : String) : Except Fault AlignSign :=
  if name = "guard" then .ok .guard
  else if name = "rhs" then .ok .rhs
  else .error (.unknownSign name)

/-- Where a clause has the sign. -/
def place? (sign : AlignSign) (c : Clause) : Option Int :=
  match sign with
  | .guard => c.guard
  | .rhs => c.rhs

end AlignSign

/-- The lines of one clause, each by its indentation point. -/
structure ClauseLines where
  /-- The first line. -/
  head : Int
  /-- The lines below it that are indented deeper than top level. -/
  rest : List Int
deriving DecidableEq, Repr

/-- What alignment leaves behind, whether it failed or not. -/
structure AlignOutcome where
  /-- The document. Blanks that were put in before a failure are still there. -/
  doc : Document
  /-- The notes, and the number of changed lines or the fault. -/
  changed : Noted Nat

namespace Text

/-- The starts of all lines. -/
def lineStarts (t : Text) : List Int :=
  0 :: (List.range t.chars.size).filterMap fun k : Nat =>
    if t.chars[k]? = some '\n' then some ((k : Int) + 1) else none

end Text

namespace Document

/-- The indentation point of the line at `bol` when the line holds code. -/
def codePoint? (d : Document) (bol : Int) : Except Fault (Option Int) := do
  if !d.isCodeLine bol || d.isBlankLine bol then return none
  let point := d.indentationPoint bol
  if ← d.commentAt point then return none
  if (← d.openComment? 0 point).isSome then return none
  return some point

/-- The indentation points of all lines that hold code. -/
def codePoints (d : Document) : Except Fault (List Int) := do
  return (← d.text.lineStarts.mapM d.codePoint?).filterMap id

/-- Whether the line with this indentation point is deeper than `top`. -/
def isDeeper (d : Document) (top point : Int) : Bool := decide (top < d.column point)

/-- Cuts lines into clauses: a line no deeper than `top` starts one. -/
def clauseLines (d : Document) (top : Int) : List Int → List ClauseLines
  | [] => []
  | p :: ps =>
    ⟨p, ps.takeWhile (d.isDeeper top)⟩ :: d.clauseLines top (ps.dropWhile (d.isDeeper top))
termination_by ps => ps.length
decreasing_by
  have := (List.dropWhile_sublist (d.isDeeper top) (l := ps)).length_le
  simp only [List.length_cons]
  omega

/-- The name of a clause. -/
def clauseName? (d : Document) (c : ClauseLines) : Except Fault (Option String) := do
  return (← d.clauseAt c.head (d.text.lineStop c.head) c.head).nameText

/-- The definition around `pos`: the last clause that starts no later, with its neighbours of the
same name. -/
def definitionClauses (d : Document) (s : Settings) (pos : Int) :
    Except Fault (List ClauseLines) := do
  let clauses := d.clauseLines (s.topColumn d) (← d.codePoints)
  let starts : ClauseLines × Option String → Bool :=
    fun c => decide (d.text.lineStart c.1.head ≤ pos)
  let named ← clauses.mapM fun c => do return (c, ← d.clauseName? c)
  match (named.takeWhile starts).reverse with
  | [] => return []
  | here :: above =>
    if here.2.isNone then return [here.1]
    let same : ClauseLines × Option String → Bool := fun c => c.2 == here.2
    let run := (above.takeWhile same).reverse ++ here :: (named.dropWhile starts).takeWhile same
    return run.map (·.1)

/-- The sign on a line of a clause; below the first line only guard lines count. -/
def signOnLine? (d : Document) (sign : AlignSign) (isHead : Bool) (point : Int) :
    Except Fault (Option Int) := do
  if !isHead && (← d.markerAt point 0 d.text.length).kind != .guard then return none
  return sign.place? (← d.clauseAt point (d.text.lineStop point) point)

/-- The signs of one clause. -/
def clauseSigns (d : Document) (sign : AlignSign) (c : ClauseLines) : Except Fault (List Int) := do
  let first ← d.signOnLine? sign true c.head
  let others ← c.rest.mapM (d.signOnLine? sign false)
  return (first :: others).filterMap id

/-- The signs that are written like the first one. -/
def likeFirst (d : Document) : List Int → List Int
  | [] => []
  | p :: ps => p :: ps.filter fun q => d.text.lexemeAt q == d.text.lexemeAt p

/-- The signs of one kind that are aligned in the definition around `pos`, first to last. -/
def alignedSigns (d : Document) (s : Settings) (sign : AlignSign) (pos : Int) :
    Except Fault (List Int) := do
  let clauses ← d.definitionClauses s pos
  return d.likeFirst (← clauses.mapM (d.clauseSigns sign)).flatten

/-- The column at which signs are aligned. -/
def alignColumn (d : Document) (s : Settings) (sign : AlignSign) (signs : List Int) : Int :=
  let widest := signs.foldl (fun col p => max col (d.column p)) 0
  match sign with
  | .guard => widest
  | .rhs => max widest s.rhsAlignColumn

/-- Moves one sign to a column by blanks before it. Gives the document and the number of changed
lines. -/
def padSign (target : Int) (acc : Document × Nat) (p : Int) : Document × Nat :=
  let pad := target - acc.1.column p
  if 0 < pad then (acc.1.insertText p (Text.replicate pad.toNat ' '), acc.2 + 1) else acc

/-- Moves one sign to a column if its blanks can be made; after one that cannot be moved, none
is. -/
def tryPadSign [Platform] (target : Int) (acc : Document × Except Fault Nat) (p : Int) :
    Document × Except Fault Nat :=
  match acc.2 with
  | .error e => (acc.1, .error e)
  | .ok changed =>
    match checkRun (target - acc.1.column p) with
    | .error e => (acc.1, .error e)
    | .ok () =>
      let moved := padSign target (acc.1, changed) p
      (moved.1, .ok moved.2)

/-- Moves signs to a column, the last one first, so that the places of the others stay right. -/
def padSigns [Platform] (d : Document) (target : Int) (signs : List Int) :
    Document × Except Fault Nat :=
  signs.reverse.foldl (tryPadSign target) (d, .ok 0)

/-- Aligns the signs of one kind in the definition around `pos`. -/
def alignOutcome [Platform] (d : Document) (s : Settings) (sign : AlignSign) (pos : Int) :
    AlignOutcome :=
  match d.alignedSigns s sign pos with
  | .error e => ⟨d, Noted.fail e⟩
  | .ok signs =>
    if signs.isEmpty then ⟨d, pure 0⟩
    else
      let target := d.alignColumn s sign signs
      let padded := d.padSigns target signs
      ⟨padded.1, do
        let changed ← padded.2
        Noted.note (.aligned changed sign.label target)
        return changed⟩

/-- Aligns the signs of one kind in the definition around `pos`. Gives the document and the number
of changed lines. -/
def align [Platform] (d : Document) (s : Settings) (sign : AlignSign) (pos : Int) :
    Noted (Document × Nat) := do
  let outcome := d.alignOutcome s sign pos
  return (outcome.doc, ← outcome.changed)

end Document

end LayoutRule
