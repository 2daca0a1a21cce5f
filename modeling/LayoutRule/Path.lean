import LayoutRule.Text.Basic

/-!
# File paths

A path is made of components; empty ones and single dots between slashes say nothing and are
dropped. The suffix of a path is that of its last component: from its last dot on, unless the
component starts or ends with that dot.
-/

namespace LayoutRule

/-- A path of a file. -/
structure Path where
  /-- The slashes it starts with: none, one, or exactly two. -/
  root : String
  /-- The components. -/
  parts : List String
deriving DecidableEq, Repr

namespace Path

/-- The components between slashes. -/
def splitParts (s : List Char) : List (List Char) := s.splitOn '/'

/-- The path that a text names. -/
def ofString (s : String) : Path where
  root :=
    match s.toList with
    | '/' :: '/' :: '/' :: _ => "/"
    | '/' :: '/' :: _ => "//"
    | '/' :: _ => "/"
    | _ => ""
  parts := ((splitParts s.toList).filter fun p => p ≠ [] ∧ p ≠ ['.']).map String.ofList

/-- A path as it is shown. -/
def toString (p : Path) : String :=
  if p.root = "" ∧ p.parts = [] then "." else p.root ++ String.intercalate "/" p.parts

/-- Whether a path holds a character of code zero, which no file's name does. -/
def hasZero (p : Path) : Bool := p.parts.any (·.toList.contains '\x00')

/-- The last component. -/
def name (p : Path) : String := p.parts.getLast?.getD ""

/-- The suffix of a component, dot included. -/
def suffixOf (name : List Char) : List Char :=
  let after := name.reverse.takeWhile (· ≠ '.')
  let start := name.length - (after.length + 1)
  if '.' ∈ name ∧ 0 < start ∧ after ≠ [] then name.drop start else []

/-- The suffix of the last component. -/
def suffix (p : Path) : String := String.ofList (suffixOf p.name.toList)

/-- Whether a path names a Bird script. -/
def isBirdScript (p : Path) : Bool := p.suffix == ".lhs"

/-- A text that is at most `width` long: of a longer one both ends are kept, with points between
them. -/
def shorten (text : Text) (width : Int) : Text :=
  if text.length ≤ width then text
  else
    let keep := Int.fdiv width 2 - 3
    text.takeTo keep ++ Text.ofString "..." ++ text.dropTo (-keep)

end Path

end LayoutRule
