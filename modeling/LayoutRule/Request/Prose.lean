import LayoutRule.Request.Hanging

/-!
# Lines inside strings and comments

Text inside a string goes right of its quote. A line that starts with a comment follows the comment
right before it, then the code after it, nearest column first. A line inside a comment follows the
line above it, past that line's comment sign.
-/

namespace LayoutRule

namespace Text

/-- The number of dashes at `pos`, at most two. -/
def dashCount (t : Text) (pos : Int) : Nat :=
  let k := t.clamp pos
  if t.chars[k]? = some '-' then if t.chars[k + 1]? = some '-' then 2 else 1 else 0

/-- The end of a comment sign at `pos` and the blanks after it, if there is one. -/
def commentLeadStop? (t : Text) (pos : Int) : Option Nat :=
  let k := t.clamp pos
  if (t.chars[k]? = some '-' ∨ t.chars[k]? = some '{') ∧ t.chars[k + 1]? = some '-' then
    some (t.runStop Document.isBlank (k + 2))
  else none

end Text

namespace Request

/-- The candidate inside the string that starts at `quote`: a backslash that ends a gap goes under
the quote. -/
def insideString (r : Request) (quote stop : Int) : List Candidate :=
  [⟨r.doc.column quote + (if r.doc.text.charAt? stop = some '\\' then 0 else 1), none⟩]

/-- The comment that ends right before `pos`, when no blank line stands between. -/
def commentBefore? (r : Request) (pos start : Int) : Except Fault (Option Int) := do
  let p ← r.doc.skipBlanksBack pos start
  let s ← r.doc.nesting start pos
  match s.comments.reverse.find? fun span => decide (span.start < p) && decide (p ≤ span.stop) with
  | none => return none
  | some span =>
    match r.doc.text.moveLines span.start 2 with
    | (bol, 0) => return if pos < bol then some span.start else none
    | _ => return some span.start

/-- Candidates by their distance from a column, nearest first; equally near ones keep their
order. -/
def nearestFirst (col : Int) (cs : List Candidate) : List Candidate :=
  cs.mergeSort fun a b => decide ((col - a.column).natAbs ≤ (col - b.column).natAbs)

/-- The candidates for a line that starts with the comment at `stop`. -/
def commentLine (r : Request) (stop start : Int) : Noted (List Candidate) := do
  let previous ←
    if r.doc.text.charAt? stop = some '{' then pure none
      else (r.commentBefore? stop start : Except Fault _)
  let found := match previous with
    | some p => offer [] ⟨r.doc.column p, none⟩
    | none => []
  let code ← r.doc.skipGap stop r.doc.text.length
  let cs ← r.nested false start code
  return offerAll found (nearestFirst (r.doc.column code) cs)

/-- The candidate for a line inside the comment that starts at `opened`. -/
def insideComment (r : Request) (opened stop start : Int) : Except Fault (List Candidate) := do
  let t := r.doc.text
  if t.hasWord Text.blockClose stop t.length then return [⟨r.doc.column opened + 1, none⟩]
  t.checkStart stop
  let p := max (r.doc.indentationPoint (t.moveLines stop (-1)).1) start
  t.checkStart p
  match t.commentLeadStop? p with
  | none => return [⟨r.doc.column p, none⟩]
  | some lead =>
    if t.dashCount stop = 0 then return [⟨r.doc.column lead, none⟩]
    else return [⟨2 - t.dashCount stop + r.doc.column p, none⟩]

/-- The candidates for the text at `stop` in or at the comment that starts at `opened`. -/
def commentText (r : Request) (opened stop start : Int) : Noted (List Candidate) :=
  if opened = stop then r.commentLine stop start
    else Noted.ofExcept (r.insideComment opened stop start)

end Request

end LayoutRule
