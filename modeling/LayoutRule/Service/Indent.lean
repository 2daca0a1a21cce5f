import LayoutRule.Json.Basic
import LayoutRule.Request.Answer
import LayoutRule.Text.Integer

/-!
# Indentation as a service

A request is a JSON object with a text and the number of a line, and possibly a literate style and a
step. `Service.indent` checks the fields one after another and answers the first that is wrong with
status 400; a request that cannot be answered gets 422, one that is given up 500, and every other
200 and the candidates. An answer with a column that has too many digits to be written is given up
too.
-/

namespace LayoutRule

/-- What an answer holds. -/
inductive Content where
  /-- A JSON value. -/
  | json (value : Json)
  /-- A page for people. -/
  | page

/-- The answer to a request. -/
structure Response where
  /-- The status code. -/
  status : Nat
  /-- The content. -/
  content : Content

/-- How the service is set up. -/
structure ServiceSettings where
  /-- The settings of requests. -/
  settings : Settings := {}
  /-- The literate style when a request names none. -/
  style : Literate := .plain
  /-- The tab width of all texts. -/
  tabWidth : Int := 8

namespace Service

/-- Why a request is not answered with candidates. -/
inductive Refusal where
  | notObject
  | noText
  | noLine
  | noStyle
  | noStep
  | lineRange (count : Nat)
deriving DecidableEq, Repr

/-- The wording of a refusal. -/
def Refusal.message : Refusal → String
  | .notObject => "expected a JSON object"
  | .noText => "'text' must be a string"
  | .noLine => "'line' must be a 1-based integer"
  | .noStyle => "'literate' must be none, bird or latex"
  | .noStep => "'indent_step' must be a positive integer"
  | .lineRange count => "'line' out of range (1.." ++ toString count ++ ")"

/-- A checked request. -/
structure Query where
  /-- The text. -/
  text : String
  /-- The line, counted from one. -/
  line : Int
  /-- The literate style. -/
  style : Literate
  /-- The step, if the request names one. -/
  step : Option Int

/-- A positive integer. -/
def positive? : Json → Option Int
  | .int n => if 1 ≤ n then some n else none
  | _ => none

/-- The literate style that a value names. -/
def style? : Json → Option Literate
  | .string name => Literate.ofName? name
  | _ => none

/-- The text of a request. -/
def readText (body : Json) : Except Refusal String :=
  match body.field? "text" with
  | some (.string s) => .ok s
  | _ => .error .noText

/-- The line of a request. -/
def readLine (body : Json) : Except Refusal Int :=
  match (body.field? "line").bind positive? with
  | some n => .ok n
  | none => .error .noLine

/-- The literate style of a request. -/
def readStyle (base : ServiceSettings) (body : Json) : Except Refusal Literate :=
  match body.field? "literate" with
  | none => .ok base.style
  | some j =>
    match style? j with
    | some style => .ok style
    | none => .error .noStyle

/-- The step of a request. -/
def readStep (body : Json) : Except Refusal (Option Int) :=
  match body.field? "indent_step" with
  | none => .ok none
  | some .null => .ok none
  | some j =>
    match positive? j with
    | some n => .ok (some n)
    | none => .error .noStep

/-- Checks the fields of a request. -/
def readQuery (base : ServiceSettings) (body : Option Json) : Except Refusal Query := do
  let body ← match body with
    | some (.object fields) => pure (Json.object fields)
    | _ => .error .notObject
  let text ← readText body
  let line ← readLine body
  let style ← readStyle base body
  let step ← readStep body
  return ⟨text, line, style, step⟩

/-- The document of a request. -/
def Query.document (base : ServiceSettings) (q : Query) : Document :=
  Document.new (Text.ofString q.text) q.style base.tabWidth

/-- The settings of a request. -/
def Query.settings (base : ServiceSettings) (q : Query) : Settings :=
  match q.step with
  | some step => { base.settings with indentStep := step }
  | none => base.settings

/-- An error as JSON. -/
def errorJson (message : String) : Json := .object [("error", .string message)]

/-- A candidate as JSON. -/
def candidateJson (c : Candidate) : Json :=
  .object [("column", .int c.column), ("insert_text", Json.ofOption .string c.insert)]

/-- The answer to a refused request. -/
def refuse (why : Refusal) : Response := ⟨400, .json (errorJson why.message)⟩

/-- The candidates for a line of a document. -/
def answerLine [Platform] (d : Document) (s : Settings) (line : Int) : Response :=
  let x : Noted (List Candidate) := do d.candidates s (← d.positionOf (line - 1) 0)
  match x.result with
  | .ok cs =>
    if cs.all fun c => IntegerText.isWritable c.column then
      ⟨200, .json (.object [
        ("candidates", .array (cs.map candidateJson)),
        ("diagnostics", .array (x.diagnostics.map .string))])⟩
    else ⟨500, .page⟩
  | .error e => if e.group = .request then ⟨422, .json (errorJson e.message)⟩ else ⟨500, .page⟩

/-- The answer to a request for candidates; a body that is not JSON is none. -/
def indent [Platform] (base : ServiceSettings) (body : Option Json) : Response :=
  match readQuery base body with
  | .error why => refuse why
  | .ok q =>
    let d := q.document base
    if q.line ≤ d.text.lineCount then answerLine d (q.settings base) q.line
    else refuse (.lineRange d.text.lineCount)

end Service

end LayoutRule
