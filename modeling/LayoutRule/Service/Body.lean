import LayoutRule.Document.Basic
import LayoutRule.Json.Encoding
import LayoutRule.Json.Reader
import LayoutRule.Text.Integer

/-!
# Bodies of requests

The service does not read the bodies of its requests itself. The framework below it hands it the
value of a body, or nothing when the body is no JSON, and a `BodyReader` stands for that: it is a
parameter of the service, and what is proved about the service holds for every reader.

`readBody` is the reader of a service that runs. A body counts as JSON when its content type says so
and its bytes hold one value in an encoding that they tell. A body that is nested deeper than the
platform allows is given up.
-/

namespace LayoutRule

namespace Service

/-- What becomes of a body. -/
inductive BodyReading where
  /-- It is read: as a value, or as nothing when it is no JSON. -/
  | read (value : Option Json)
  /-- Reading it is given up. -/
  | givenUp

/-- Reads a body of a content type. -/
abbrev BodyReader := String → ByteArray → BodyReading

/-- The type that a content type names, without parameters and the blanks and tabs around it, in
lower case. -/
def mediaType (contentType : String) : List Char :=
  (IntegerText.strip Document.isBlank (contentType.toList.takeWhile (· ≠ ';'))).map Char.toLower

/-- Whether a content type is JSON. -/
def isJsonType (contentType : String) : Bool :=
  let media := mediaType contentType
  media == "application/json".toList ||
    ("application/".toList.isPrefixOf media && "+json".toList.isSuffixOf media)

/-- Reads a text as one value. -/
def readJsonText [Platform] (text : String) : BodyReading :=
  match Json.parse Platform.jsonLevels text with
  | .ok value => .read (some value)
  | .error .malformed => .read none
  | .error .tooDeep => .givenUp

/-- Reads a body whose content type and encoding say that it is JSON. -/
def readBody [Platform] : BodyReader := fun contentType body =>
  if isJsonType contentType then
    match Json.decode? body with
    | some text => readJsonText text
    | none => .read none
  else .read none

end Service

end LayoutRule
