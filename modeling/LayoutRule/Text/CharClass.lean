/-!
# Classes of characters

A class of characters is written down as the ascending list of code points at which membership
changes: the first is the first member, the second the first character after it that is no member,
and so on. A character belongs to the class when an odd number of these changes lie at or below it.
-/

namespace LayoutRule

/-- A class of characters: the code points at which membership changes, ascending. -/
structure CharClass where
  /-- The changes of membership, ascending. -/
  changes : List Nat

namespace CharClass

/-- Whether membership at `n` is `inside`, flipped once for each change at or below `n`. -/
def holdsFrom (n : Nat) : Bool → List Nat → Bool
  | inside, [] => inside
  | inside, k :: rest => if n < k then inside else holdsFrom n (!inside) rest

/-- Whether a character belongs to the class. -/
def contains (cls : CharClass) (c : Char) : Bool := holdsFrom c.toNat false cls.changes

/-- The last change at or below `n`, or `start` when there is none. -/
def lastChangeFrom (n : Nat) : Nat → List Nat → Nat
  | start, [] => start
  | start, k :: rest => if n < k then start else lastChangeFrom n k rest

/-- The first member of the run of members that a character belongs to. -/
def runFirst (cls : CharClass) (c : Char) : Nat := lastChangeFrom c.toNat 0 cls.changes

end CharClass

end LayoutRule
