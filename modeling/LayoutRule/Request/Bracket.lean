import LayoutRule.Layout.LineRules
import LayoutRule.Request.Hanging

/-!
# Lines below a contour and inside brackets

`Request.belowContour` collects what each line of a contour proposes for the text at `stop`,
outermost first. Inside a bracket, a closing bracket or a separator goes under the bracket; other
text goes under the first code after the bracket, or where the contour inside it says.
-/

namespace LayoutRule

namespace Request

/-- Adds what the contour lines propose for a line of a kind, with `first` its first lexeme. The
parts of a clause are visible up to the column where the next line of the contour starts. -/
def offerContour (r : Request) (start stop : Int) (kind : LineKind) (first : String) :
    List Int → List Candidate → Except Fault (List Candidate)
  | [], found => .ok found
  | p :: rest, found => do
    let boundary := match rest with
      | next :: _ => r.doc.moveToColumn p (r.doc.column next)
      | [] => stop
    let clause ← r.doc.clauseAt p stop start
    let ps ← r.doc.lineProposals kind first clause boundary stop
    r.offerContour start stop kind first rest (offerProposals r.doc r.settings.indentStep found ps)

/-- The candidates for the text at `stop` below a contour. -/
def belowContour (r : Request) (start : Int) (contour : List Int) (stop : Int) :
    Except Fault (List Candidate) := do
  let m ← r.doc.markerAt stop start r.doc.text.length
  r.offerContour start stop m.kind (← r.doc.text.readLexeme stop) contour []

/-- Whether a character closes a bracket or separates what stands in one. -/
def isCloserOrSeparator (c : Char) : Bool := isClosing c || c == ',' || c == ';'

/-- Whether a separator does not fit its bracket: a semicolon in parentheses, a comma in braces. -/
def isMismatch (sign opener : Char) : Bool :=
  (sign == ';' && opener == '(') || (sign == ',' && opener == '{')

/-- The column of plain text inside the bracket at `bracket`. -/
def insideColumn (r : Request) (bracket stop : Int) : Noted Int := do
  let follow ← r.doc.skipGap (bracket + 1) stop
  if stop ≤ follow then r.blockColumn bracket none none (some 1)
  else return r.doc.column follow

/-- Puts `basic` in place of the first candidate at the column of the bracket, or last when there is
none. -/
def replaceBracketColumn (bracketCol basic : Int) (found : List Candidate) :
    List Candidate → List Candidate
  | [] => offer found ⟨basic, none⟩
  | c :: rest =>
    if c.column = bracketCol then offerAll (offer found ⟨basic, none⟩) rest
    else replaceBracketColumn bracketCol basic (offer found c) rest

/-- The candidates for the text at `stop` inside the bracket at `bracket`. -/
def insideBracket (r : Request) (bracket stop : Int) : Noted (List Candidate) := do
  let bracketCol := r.doc.column bracket
  let first := r.doc.text.charAt? stop
  if first.any isCloserOrSeparator then
    match first, r.doc.text.charAt? bracket with
    | some sign, some opener => if isMismatch sign opener then Noted.note (.mismatch sign opener)
    | _, _ => pure ()
    let col ← if ← r.hangs bracket then r.virtualColumn bracket none else pure bracketCol
    return [⟨col, none⟩]
  let basic ← if first.any isOperatorChar then pure bracketCol else r.insideColumn bracket stop
  let contour ← r.doc.contour r.settings (bracket + 1) stop
  if contour.isEmpty then return [⟨basic, none⟩]
  let inner ← r.belowContour (bracket + 1) contour stop
  return replaceBracketColumn bracketCol basic [] inner

end Request

end LayoutRule
