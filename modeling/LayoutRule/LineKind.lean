/-!
# Kinds of lines

What a line, or a place on it, begins with decides how it is indented.
-/

namespace LayoutRule

/-- What begins at a place. -/
inductive LineKind where
  /-- Nothing: the line is blank. -/
  | empty
  /-- A comment, or a place inside one. -/
  | comment
  /-- A name. -/
  | name
  /-- The bar of a guard. -/
  | guard
  /-- The sign of a right-hand side: an equals sign, an arrow or a type sign. -/
  | rhs
  /-- Anything else. -/
  | other
deriving DecidableEq, Repr

namespace LineKind

/-- The word for a kind of line in messages. -/
def label : LineKind → String
  | .empty => "empty"
  | .comment => "comment"
  | .name => "ident"
  | .guard => "guard"
  | .rhs => "rhs"
  | .other => "other"

end LineKind

end LayoutRule
