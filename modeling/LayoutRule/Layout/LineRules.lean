import LayoutRule.Layout.Candidate
import LayoutRule.Layout.Shape

/-!
# What may stand below a clause

For each kind of line, and each shape of the clause above it, these rules say under which parts of
the clause the line may go. `Document.lineProposals` chooses between them:

* a line that goes on with a type signature goes under the name;
* a guard goes under a guard, a right-hand side under a right-hand side, or else relative to the
  parts before it;
* a declaration that starts with a word such as `data` has rules of its own;
* every other line goes by the shape of the visible parts, and a clause without a shape is a fault.

A clause is *last* when it is the innermost line of the contour: only then may a line be indented
deeper than its parts.
-/

namespace LayoutRule

/-- The offset after a bare guard or a bare sign. -/
def smallOffset : Int := 2

/-- Words that start a top-level declaration. -/
def declarationWords : List String :=
  ["class", "data", "import", "infix", "infixl", "infixr", "instance", "module", "newtype",
    "primitive", "type"]

namespace Text

/-- The word of a guard that always holds. -/
def otherwiseWord : List Char := ['o', 't', 'h', 'e', 'r', 'w', 'i', 's', 'e']

/-- Whether a whole word is written at index `k`. -/
def wholeWordAt (t : Text) (w : List Char) (k : Nat) : Bool :=
  t.holdsAt w k &&
    match t.chars[k + w.length]? with
    | some c => !isNameChar c
    | none => true

/-- Whether the guard at `pos` is not the one that always holds. -/
def isOpenGuard (t : Text) (pos : Int) : Bool :=
  let k := t.clamp pos
  !(t.chars[k]? == some '|' && t.wholeWordAt otherwiseWord (t.runStop Document.isBlank (k + 1)))

/-- Whether the guard at `pos` is not the one that always holds, if that can be looked at. -/
def readGuard (t : Text) (pos : Int) : Except Fault Bool := do
  t.checkStart pos
  return t.isOpenGuard pos

end Text

namespace Clause

/-- Under a part. -/
def under (place : Option Int) : Proposal := .under place none

/-- The general step beyond a part. -/
def step (place : Option Int) : Proposal := .beyond place none

/-- The small offset beyond a part. -/
def small (place : Option Int) : Proposal := .beyond place (some smallOffset)

/-- Proposals that hold under a condition. -/
def when (b : Bool) (ps : List Proposal) : List Proposal := if b then ps else []

/-- Rules for an empty line: below each shape, the places where code may go on, with another clause
of the same name or another guard put in where one may follow. -/
def emptyLine (d : Document) (c : Clause) (last : Bool) : Shape → List Proposal :=
  let again : Proposal :=
    .under c.name (match c.nameText with
      | some name => if name.isEmpty then none else some (name ++ " ")
      | none => none)
  let anotherGuard := when (d.text.isOpenGuard (c.guard.getD 0)) [.under c.guard (some "| ")]
  let sign := d.text.charAt? (c.rhs.getD (-1))
  let mayRepeat := (c.afterName.isSome && sign == some '=') || sign == some ':' || sign == some '∷'
  fun
  | .nameGuardRhsAfter => [under c.name, again] ++ anotherGuard ++ [under c.afterRhs]
  | .nameGuardRhs => [under c.name, again] ++ anotherGuard ++ when last [step c.guard]
  | .nameGuardAfter => [under c.name, under c.afterGuard] ++ when last [step c.name]
  | .nameGuard => [under c.name, under c.guard] ++ when last [small c.guard]
  | .nameRhsAfter => [under c.name] ++ when mayRepeat [again] ++ [under c.afterRhs]
  | .nameRhs => [under c.name, again] ++ when last [step c.name]
  | .nameAfter => [under c.name, step c.name]
  | .name => [under c.name, step c.name]
  | .guardRhsAfter => anotherGuard ++ [under c.afterRhs]
  | .guardRhs => anotherGuard ++ when last [step c.guard]
  | .guardAfter => anotherGuard ++ [under c.afterGuard]
  | .guard => anotherGuard ++ when last [small c.guard]
  | .rhsAfter => [under c.afterRhs]
  | .rhs => when last [small c.rhs]
  | .nothing => []

/-- Whether the rules for an empty line look at the guard below a shape. -/
def consultsGuard : Shape → Bool
  | .nameGuardRhsAfter => true
  | .nameGuardRhs => true
  | .guardRhsAfter => true
  | .guardRhs => true
  | .guardAfter => true
  | .guard => true
  | _ => false

/-- Rules for a line that starts with `where`. -/
def whereLine (c : Clause) : Shape → List Proposal
  | .nameGuardRhsAfter => [under c.guard]
  | .nameGuardRhs => [under c.guard]
  | .nameGuardAfter => [step c.guard]
  | .nameGuard => [under c.guard]
  | .nameRhsAfter => [step c.name]
  | .nameRhs => [step c.name]
  | .nameAfter => [step c.name]
  | .name => [step c.name]
  | .guardRhsAfter => [step c.guard]
  | .guardRhs => [step c.guard]
  | .guardAfter => [step c.guard]
  | .guard => [step c.guard]
  | .rhsAfter => [step c.rhs]
  | .rhs => [step c.rhs]
  | .nothing => []

/-- Rules for a line that starts with a name; one that starts with the name of the clause starts
another clause. -/
def nameLine (c : Clause) (last : Bool) (first : String) : Shape → List Proposal :=
  let differs := c.nameText != some first
  fun
  | .nameGuardRhsAfter => [under c.name] ++ when differs [under c.afterRhs]
  | .nameGuardRhs => [under c.name] ++ when last [step c.guard]
  | .nameGuardAfter => [under c.name] ++ when differs [under c.afterGuard]
  | .nameGuard => [under c.name] ++ when last [small c.guard]
  | .nameRhsAfter => [under c.name] ++ when differs [under c.afterRhs]
  | .nameRhs => [under c.name] ++ when last [step c.name]
  | .nameAfter => [under c.name] ++ when last [under c.afterName]
  | .name => [under c.name]
  | .guardRhsAfter => when differs [under c.afterRhs]
  | .guardRhs => when last [step c.guard]
  | .guardAfter => when differs [under c.afterGuard]
  | .guard => when last [small c.guard]
  | .rhsAfter => when differs [under c.afterRhs]
  | .rhs => when last [small c.rhs]
  | .nothing => []

/-- Rules for any other line. -/
def otherLine (c : Clause) (last : Bool) : Shape → List Proposal
  | .nameGuardRhsAfter => [under c.afterRhs]
  | .nameRhsAfter => [under c.afterRhs]
  | .guardRhsAfter => [under c.afterRhs]
  | .rhsAfter => [under c.afterRhs]
  | .nameGuardRhs => if last then [step c.guard] else [small c.rhs]
  | .guardRhs => if last then [step c.guard] else [small c.rhs]
  | .nameGuardAfter => [under c.afterGuard]
  | .guardAfter => [under c.afterGuard]
  | .nameGuard => [small c.guard]
  | .guard => [small c.guard]
  | .nameRhs => [small c.rhs]
  | .rhs => [small c.rhs]
  | .nameAfter => [under c.afterName]
  | .name => [step c.name]
  | .nothing => []

/-- Whether a part can be seen. -/
def sees (boundary : Int) (place : Option Int) : Bool :=
  match place with
  | some p => decide (p < boundary)
  | none => false

/-- Rules for a line that starts with a guard. -/
def guardLine (d : Document) (c : Clause) (boundary : Int) : List Proposal :=
  if sees boundary c.guard && d.text.isOpenGuard (c.guard.getD 0) then [under c.guard]
  else if c.rhs.isSome then [under c.rhs]
  else when c.name.isSome [step c.name]

/-- Rules for a line that starts with the sign of a right-hand side. -/
def rhsLine (c : Clause) (boundary : Int) : List Proposal :=
  if sees boundary c.rhs then [under c.rhs]
  else if sees boundary c.guard then [step c.guard]
  else when c.name.isSome [step c.name]

/-- Rules below a declaration that starts with one of the `declarationWords`; none for any other
clause. -/
def declarationLine? (c : Clause) (kind : LineKind) : Option (List Proposal) :=
  match c.nameText with
  | none => none
  | some word =>
    if word ∈ declarationWords then
      if kind = .other then some [step c.name]
      else if word = "data"
        then some [under c.name, if c.rhs.isSome then under c.rhs else step c.name]
      else some [under c.name]
    else none

/-- Rules by shape. The kind is `empty`, `name` or `other`. -/
def shapedLine (d : Document) (c : Clause) (kind : LineKind) (last : Bool) (first : String)
    (shape : Shape) : List Proposal :=
  match kind with
  | .empty => c.emptyLine d last shape
  | .name => if first = "where" then c.whereLine shape else c.nameLine last first shape
  | _ => c.otherLine last shape

end Clause

/-- The kinds that go by shape; every kind without rules of its own counts as `other`. -/
def LineKind.shaped (k : LineKind) : LineKind :=
  match k with
  | .empty => .empty
  | .name => .name
  | _ => .other

namespace Document

/-- Checks the place of a guard before it is looked at. -/
def checkGuard (d : Document) (c : Clause) (looked : Bool) : Except Fault Unit :=
  if looked then d.text.checkStart (c.guard.getD 0) else .ok ()

/-- What one line of the contour, with the clause `c`, proposes for a line of a kind that starts
with the lexeme `first`. Parts of the clause are visible up to `boundary`; the line to be indented
starts at `stop`. -/
def lineProposals (d : Document) (kind : LineKind) (first : String) (c : Clause)
    (boundary stop : Int) : Except Fault (List Proposal) :=
  if (kind = .name ∨ kind = .rhs) ∧ (first = "::" ∨ first = "∷") then
    .ok (Clause.when c.name.isSome [Clause.under c.name])
  else if kind = .guard then do
    d.checkGuard c (Clause.sees boundary c.guard)
    return c.guardLine d boundary
  else if kind = .rhs then .ok (c.rhsLine boundary)
  else
    match c.declarationLine? kind.shaped with
    | some ps => .ok ps
    | none =>
      match Shape.ofBits? (c.visibleBits boundary) with
      | none => .error (.impossible kind.shaped (c.visibleBits boundary))
      | some .nothing => .error (.impossible kind.shaped (c.visibleBits boundary))
      | some shape => do
        d.checkGuard c (kind.shaped == .empty && Clause.consultsGuard shape)
        return c.shapedLine d kind.shaped (decide (stop ≤ boundary)) first shape

end Document

end LayoutRule
