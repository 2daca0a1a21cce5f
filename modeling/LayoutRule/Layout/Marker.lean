import LayoutRule.Document.Gap

/-!
# Markers

The marker at a place is what decides the kind of a line: a name, the bar of a guard, or the sign of
a right-hand side. A bar is a guard unless it is doubled; an equals sign is a right-hand side unless
it belongs to `==` or `=>`; both need a character after them. Everything else, a comment or a blank
line has a kind but no text.
-/

namespace LayoutRule

/-- What stands at a place. -/
structure Marker where
  /-- The kind of line that it starts. -/
  kind : LineKind
  /-- Where it starts. -/
  start : Int
  /-- The first code after it; its start when it has no text. -/
  stop : Int
  /-- Its text. -/
  text : String
deriving DecidableEq, Repr

namespace Text

/-- The end of the name at `k`, if there is one. -/
def nameStop? (t : Text) (k : Nat) : Option Nat :=
  match t.chars[k]? with
  | some c => if isNameStart c then some (t.runStop isNameChar (k + 1)) else none
  | none => none

/-- The end of the guard's bar at `k`, if there is one. -/
def guardStop? (t : Text) (k : Nat) : Option Nat :=
  match t.chars[k]?, t.chars[k + 1]? with
  | some '|', some c => if c = '|' then none else some (k + 1)
  | _, _ => none

/-- The signs of a right-hand side that are one character, apart from the equals sign. -/
def rhsSigns : List Char := ['∷', '→', '←']

/-- The signs of a right-hand side that are two characters. -/
def rhsPairs : List (Char × Char) := [(':', ':'), ('-', '>'), ('<', '-')]

/-- The end of the sign of a right-hand side at `k`, if there is one. -/
def rhsStop? (t : Text) (k : Nat) : Option Nat :=
  match t.chars[k]? with
  | none => none
  | some c =>
    if c ∈ rhsSigns then some (k + 1)
    else
      match t.chars[k + 1]? with
      | none => none
      | some next =>
        if c = '=' then if next = '>' ∨ next = '=' then none else some (k + 1)
        else if (c, next) ∈ rhsPairs then some (k + 2)
        else none

/-- The kind and the end of the marker at `k`, if there is one. -/
def markerStop? (t : Text) (k : Nat) : Option (LineKind × Nat) :=
  match t.nameStop? k with
  | some stop => some (.name, stop)
  | none =>
    match t.guardStop? k with
    | some stop => some (.guard, stop)
    | none => (t.rhsStop? k).map (LineKind.rhs, ·)

end Text

namespace Document

/-- What stands at `pos`. Comments are looked for from `origin` on, and the blanks after the marker
are skipped at most to `limit`. -/
def markerAt (d : Document) (pos origin limit : Int) : Except Fault Marker := do
  if d.isBlankLine pos then return ⟨.empty, pos, pos, ""⟩
  if (← d.openComment? (min origin pos) pos).isSome then return ⟨.comment, pos, pos, ""⟩
  d.text.checkStart pos
  let k := d.text.clamp pos
  match d.text.markerStop? k with
  | some (kind, stop) =>
    return ⟨kind, k, ← d.skipBlanks stop limit, String.ofList (d.text.chars.extract k stop).toList⟩
  | none => return ⟨.other, pos, pos, ""⟩

end Document

end LayoutRule
