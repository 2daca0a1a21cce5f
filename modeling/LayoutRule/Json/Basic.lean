/-!
# JSON values

Integers are kept apart from numbers written with a fraction or an exponent: those are no integers,
whatever their value, and keep their written form. An object keeps its fields as written; of two
fields with one name the last counts.
-/

namespace LayoutRule

/-- A JSON value. -/
inductive Json where
  | null
  | bool (value : Bool)
  | int (value : Int)
  /-- A number with a fraction or an exponent, as written. -/
  | real (written : String)
  | string (value : String)
  | array (items : List Json)
  /-- The fields as written. -/
  | object (fields : List (String × Json))
deriving Inhabited

namespace Json

/-- The value of the last field of that name. -/
def lookup (name : String) : List (String × Json) → Option Json
  | [] => none
  | (k, v) :: rest =>
    match lookup name rest with
    | some w => some w
    | none => if k = name then some v else none

/-- A field of an object. -/
def field? (j : Json) (name : String) : Option Json :=
  match j with
  | .object fields => lookup name fields
  | _ => none

/-- A value, or `null` in its place. -/
def ofOption {α : Type} (f : α → Json) : Option α → Json
  | none => .null
  | some a => f a

end Json

end LayoutRule
