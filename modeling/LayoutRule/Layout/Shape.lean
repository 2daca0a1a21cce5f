import LayoutRule.Layout.Clause

/-!
# Shapes of clauses

Which parts of a clause can be seen decides what may stand below it. A part is visible when it
starts before the column where the next line of the contour starts; the name is always visible. The
six parts give six bits, and the bits are looked up in a table of shapes, where a point stands for
either bit.
-/

namespace LayoutRule

/-- The shapes of a clause, by the parts that can be seen. -/
inductive Shape where
  | nameGuardRhsAfter
  | nameGuardRhs
  | nameGuardAfter
  | nameGuard
  | nameRhsAfter
  | nameRhs
  | nameAfter
  | name
  | guardRhsAfter
  | guardRhs
  | guardAfter
  | guard
  | rhsAfter
  | rhs
  /-- Nothing can be seen. -/
  | nothing
deriving DecidableEq, Repr

namespace Shape

/-- The table of shapes: name, after name, guard, after guard, right-hand side, after it. -/
def table : List (Shape × List Char) := [
  (.nameGuardRhsAfter, ['1', '.', '1', '.', '1', '1']),
  (.nameGuardRhs, ['1', '.', '1', '.', '1', '0']),
  (.nameGuardAfter, ['1', '.', '1', '1', '0', '0']),
  (.nameGuard, ['1', '.', '1', '0', '0', '0']),
  (.nameRhsAfter, ['1', '.', '0', '0', '1', '1']),
  (.nameRhs, ['1', '.', '0', '0', '1', '0']),
  (.nameAfter, ['1', '1', '0', '0', '0', '0']),
  (.name, ['1', '0', '0', '0', '0', '0']),
  (.guardRhsAfter, ['0', '0', '1', '.', '1', '1']),
  (.guardRhs, ['0', '0', '1', '.', '1', '0']),
  (.guardAfter, ['0', '0', '1', '1', '0', '0']),
  (.guard, ['0', '0', '1', '0', '0', '0']),
  (.rhsAfter, ['0', '0', '0', '0', '1', '1']),
  (.rhs, ['0', '0', '0', '0', '1', '0']),
  (.nothing, ['0', '0', '0', '0', '0', '0'])]

/-- Whether bits fit a row of the table. -/
def fits : List Char → List Char → Bool
  | [], [] => true
  | p :: ps, b :: bs => (p == '.' || p == b) && fits ps bs
  | _, _ => false

/-- The shape of the first row that fits. -/
def ofBits? (bits : List Char) : Option Shape := (table.find? fun row => fits row.2 bits).map (·.1)

/-- The number of a shape, from one, in the order of the table. -/
def number (s : Shape) : Nat := table.findIdx (fun row => row.1 == s) + 1

end Shape

namespace Clause

/-- The bit of a part: whether it starts before `boundary`. -/
def visibleBit (boundary : Int) (place : Option Int) : Char :=
  match place with
  | some p => if p < boundary then '1' else '0'
  | none => '0'

/-- The bits of the six parts. -/
def visibleBits (c : Clause) (boundary : Int) : List Char :=
  [if c.name.isSome then '1' else '0',
    visibleBit boundary c.afterName,
    visibleBit boundary c.guard,
    visibleBit boundary c.afterGuard,
    visibleBit boundary c.rhs,
    visibleBit boundary c.afterRhs]

end Clause

end LayoutRule
