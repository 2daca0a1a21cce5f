import LayoutRule.Lexical.Piece

/-!
# What is open at a place

Walking over the pieces of a stretch of text, `Text.nesting` keeps the brackets that are open,
innermost first, and the comments that lie wholly behind, in order. When the stretch ends inside a
string or comment, the walk stops there and says where that began. A closing bracket closes the
innermost open one, whatever its form; one without an open bracket is passed over.

The walk can be cut at the end of any piece: `Text.nestingFrom` continues from the state reached
there.
-/

namespace LayoutRule

/-- A stretch of text. -/
structure Span where
  /-- Its first position. -/
  start : Int
  /-- The position right after it. -/
  stop : Int
deriving DecidableEq, Repr

/-- What is open after a stretch of text. -/
structure Nesting where
  /-- The brackets without a partner yet, innermost first. -/
  openers : List Int := []
  /-- Where the string that holds the end of the stretch began. -/
  string? : Option Int := none
  /-- Where the comment that holds the end of the stretch began. -/
  comment? : Option Int := none
  /-- The comments wholly inside the stretch, first to last. -/
  comments : List Span := []
deriving DecidableEq, Repr

namespace Nesting

/-- The innermost open bracket. -/
def innermost? (s : Nesting) : Option Int := s.openers.head?

/-- The state after the whole piece `p` that starts at `i`. -/
def record (s : Nesting) (i : Int) (p : Piece) : Nesting :=
  match p.kind with
  | .comment => { s with comments := s.comments ++ [⟨i, p.stop⟩] }
  | .opening => { s with openers := i :: s.openers }
  | .closing => { s with openers := s.openers.tail }
  | _ => s

/-- The final state when the stretch ends at `limit`, inside the string or comment `p` that starts
at `i`. -/
def within? (s : Nesting) (i limit : Int) (p : Piece) : Option Nesting :=
  if limit < p.stop then
    match p.kind with
    | .comment => some { s with comment? := some i }
    | .string => some { s with string? := some i }
    | _ => none
  else none

/-- The comments of a stretch that ends at `limit`, first to last, one that holds the end
included. -/
def commentsBefore (s : Nesting) (limit : Int) : List Span :=
  match s.comment? with
  | some start => s.comments ++ [⟨start, limit⟩]
  | none => s.comments

end Nesting

namespace Text

/-- Walks from `i` to `limit`, starting with the state `s`. -/
def nestingFrom (t : Text) (bird : Bool) (limit : Int) (s : Nesting) (i : Int) :
    Except Fault Nesting :=
  if i < limit then
    match _h : t.pieceAt bird i limit with
    | .error e => .error e
    | .ok p =>
      match s.within? i limit p with
      | some final => .ok final
      | none => t.nestingFrom bird limit (s.record i p) p.stop
  else .ok s
termination_by (limit - i).toNat
decreasing_by
  have := lt_stop_of_pieceAt _h
  omega

/-- What is open after the stretch from `start` to `limit`. -/
def nesting (t : Text) (bird : Bool) (start limit : Int) : Except Fault Nesting :=
  t.nestingFrom bird limit {} start

end Text

end LayoutRule
