import LayoutRule.Layout.Marker

/-!
# Clauses

A clause of a definition has up to six parts, in this order:

    name  arguments  | guard  condition  = right-hand side

`Document.clauseAt` finds where each part starts. It steps from symbol to symbol, a bracketed group
being one symbol; where an expression cannot be completed the clause reaches to the end of the
stretch. Each step moves forward (`Document.lt_of_stepOver`), so the search ends.
-/

namespace LayoutRule

/-- Where the parts of a clause start; a missing part has no place. -/
structure Clause where
  /-- The name, or the first symbol when that is no name. -/
  name : Option Int := none
  /-- The text of the name. -/
  nameText : Option String := none
  /-- What follows the name. -/
  afterName : Option Int := none
  /-- The bar of the guard. -/
  guard : Option Int := none
  /-- The condition of the guard. -/
  afterGuard : Option Int := none
  /-- The sign of the right-hand side. -/
  rhs : Option Int := none
  /-- What follows the sign. -/
  afterRhs : Option Int := none
deriving DecidableEq, Repr

namespace Document

/-- Moves forward from `i` while it is before `limit` and the character there passes the test; a
place outside the text passes every test. -/
def passOver (d : Document) (test : Char → Bool) (limit i : Int) : Int :=
  if i < limit then
    match d.text.charAt? i with
    | some c => if test c then d.passOver test limit (i + 1) else i
    | none => d.passOver test limit (i + 1)
  else i
termination_by (limit - i).toNat
decreasing_by all_goals omega

/-- Moves past the symbol at `pos` and the blanks after it, at most to `stop`. Closing brackets
before the symbol are passed over. -/
def nextSymbol (d : Document) (pos stop : Int) : Except Fault Int := do
  let i := d.passOver isClosing stop pos
  if i < stop then
    let j ← d.expressionAfter i d.text.length
    let j ← d.skipBlanks j stop
    return min j stop
  else return min i stop

/-- The next symbol, or the end of the stretch when there is no whole one. -/
def stepOver (d : Document) (pos stop : Int) : Except Fault Int :=
  match d.nextSymbol pos stop with
  | .error (.scan _) => .ok stop
  | r => r

/-- Passing over characters of a class goes forward or stays. -/
theorem le_passOver (d : Document) (test : Char → Bool) (limit i : Int) :
    i ≤ d.passOver test limit i := by
  fun_induction passOver d test limit i <;> omega

/-- Looking for the next symbol moves forward by at least one character as long as there is one, so
the search for the parts of a clause comes to an end. -/
theorem lt_of_nextSymbol {d : Document} {pos stop j : Int} (hp : pos < stop)
    (h : d.nextSymbol pos stop = .ok j) : pos < j := by
  have hle := d.le_passOver isClosing stop pos
  simp only [nextSymbol] at h
  split at h
  · obtain ⟨k, hk, h⟩ := bind_eq_ok.1 h
    obtain ⟨l, hl, h⟩ := bind_eq_ok.1 h
    cases h
    have := lt_of_expressionAfter hk
    have := le_of_skipBlanks hl
    omega
  · cases h
    omega

/-- A step moves forward. -/
theorem lt_of_stepOver {d : Document} {pos stop j : Int} (hp : pos < stop)
    (h : d.stepOver pos stop = .ok j) : pos < j := by
  unfold stepOver at h
  split at h
  · cases h; exact hp
  · exact lt_of_nextSymbol hp h

/-- A place in a clause that is being taken apart. -/
structure Cursor where
  /-- The place. -/
  pos : Int
  /-- The last marker seen; when the place is before the end, the one there. -/
  marker : Marker
  /-- The first symbol that was stepped over. -/
  first : Option Int := none

/-- Steps over symbols while their kind passes the test. -/
def stepWhile (d : Document) (origin stop : Int) (test : LineKind → Bool) (c : Cursor) :
    Except Fault Cursor :=
  if c.pos < stop then
    match d.markerAt c.pos origin stop with
    | .error e => .error e
    | .ok m =>
      if test m.kind then
        match _h : d.stepOver c.pos stop with
        | .error e => .error e
        | .ok j => d.stepWhile origin stop test ⟨j, m, c.first <|> some c.pos⟩
      else .ok { c with marker := m }
  else .ok c
termination_by (stop - c.pos).toNat
decreasing_by
  have := lt_of_stepOver (by assumption) _h
  omega

/-- The symbols of a clause head: everything before a guard or a right-hand side. -/
def inHead (k : LineKind) : Bool := k == .name || k == .other

/-- The name of the clause and what follows it. -/
def headPart (d : Document) (start stop origin : Int) (m : Marker) :
    Except Fault (Clause × Cursor) := do
  match m.kind with
  | .name =>
    let c ← d.stepWhile origin stop inHead ⟨min m.stop stop, m, none⟩
    return (⟨some m.start, some m.text, c.first, none, none, none, none⟩, c)
  | .other =>
    let i := d.passOver isBlank stop start
    let j ← d.stepOver i stop
    let c ← d.stepWhile origin stop inHead ⟨j, m, none⟩
    return (⟨some i, none, c.first, none, none, none, none⟩, c)
  | _ => return ({}, ⟨start, m, none⟩)

/-- The guard of the clause and its condition. -/
def guardPart (d : Document) (stop origin : Int) (clause : Clause) (c : Cursor) :
    Except Fault (Clause × Cursor) := do
  if c.pos < stop ∧ c.marker.kind = .guard then
    let g ← d.stepWhile origin stop (· != .rhs) ⟨min c.marker.stop stop, c.marker, none⟩
    return ({ clause with guard := some c.marker.start, afterGuard := g.first }, g)
  else return (clause, c)

/-- The right-hand side of the clause. -/
def rhsPart (stop : Int) (clause : Clause) (c : Cursor) : Clause :=
  if c.pos < stop ∧ c.marker.kind = .rhs then
    { clause with
      rhs := some c.marker.start
      afterRhs := if min c.marker.stop stop < stop then some (min c.marker.stop stop) else none }
  else clause

/-- The clause in the stretch from `start` to `stop`. Comments are looked for from `origin` on. -/
def clauseAt (d : Document) (start stop origin : Int) : Except Fault Clause := do
  let m ← d.markerAt start origin stop
  let (clause, c) ← d.headPart start stop origin m
  let (clause, c) ← d.guardPart stop origin clause c
  return rhsPart stop clause c

end Document

end LayoutRule
