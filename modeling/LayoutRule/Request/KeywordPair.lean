import LayoutRule.Layout.LineRules
import LayoutRule.Request.Hanging

/-!
# Keywords that close others

`in` closes a `let`, `of` a `case`, `then` and `else` an `if`. The opener is searched backward like
the opening bracket of a closing one: each closer on the way needs an opener of its own, and words
in strings, comments and brackets do not count. A `let` whose block was already ended by braces or
by layout does not count either. The search itself takes any pair of words.
-/

namespace LayoutRule

/-- Two words of which one closes what the other opens. -/
structure WordPair where
  /-- The word that opens. -/
  opener : List Char
  /-- The word that closes. -/
  closer : List Char
deriving DecidableEq, Repr

/-- The word of a pair that closes, or the one that opens. -/
def WordPair.word (pair : WordPair) (closes : Bool) : List Char :=
  if closes then pair.closer else pair.opener

/-- The pairs of keywords. -/
inductive KeywordPair where
  | letIn
  | caseOf
  | ifThen
  | ifElse
deriving DecidableEq, Repr

namespace KeywordPair

/-- The words of a pair. -/
def words : KeywordPair → WordPair
  | .letIn => ⟨['l', 'e', 't'], ['i', 'n']⟩
  | .caseOf => ⟨['c', 'a', 's', 'e'], ['o', 'f']⟩
  | .ifThen => ⟨['i', 'f'], ['t', 'h', 'e', 'n']⟩
  | .ifElse => ⟨['i', 'f'], ['e', 'l', 's', 'e']⟩

/-- All pairs. -/
def all : List KeywordPair := [.letIn, .caseOf, .ifThen, .ifElse]

/-- How far the column of the closer is moved from that of the opener. -/
def closerOffset (s : Settings) : KeywordPair → Int
  | .ifThen => s.thenElseOffset
  | .ifElse => s.thenElseOffset
  | _ => 0

end KeywordPair

/-- A word of a pair in the text. -/
structure KeywordHit where
  /-- Where it stands. -/
  pos : Nat
  /-- Whether it closes. -/
  closes : Bool
deriving DecidableEq, Repr

namespace Text

/-- The pair whose closing keyword stands at `pos`. -/
def closingPair? (t : Text) (pos : Int) : Option KeywordPair :=
  KeywordPair.all.find? fun pair => t.wholeWordAt pair.words.closer (t.clamp pos)

/-- Whether a whole word is written at index `k` in the text up to `stop`; a name may not reach into
it from before. -/
def wordWithin (t : Text) (w : List Char) (stop k : Nat) : Bool :=
  decide (k + w.length ≤ stop) && t.holdsAt w k &&
    (decide (k + w.length = stop) || t.wholeWordAt w k) &&
    (decide (k = 0) || !(t.chars[k - 1]?).any isNameChar)

/-- The word of a pair at index `k`; one that both opens and closes counts as a closer. -/
def pairWordAt? (t : Text) (pair : WordPair) (stop k : Nat) : Option KeywordHit :=
  if t.wordWithin pair.closer stop k then some ⟨k, true⟩
  else if t.wordWithin pair.opener stop k then some ⟨k, false⟩
  else none

/-- The words of a pair from index `k` to `stop`, first to last; after one of them the search goes
on behind it. -/
def pairWords (t : Text) (pair : WordPair) (stop k : Nat) : List KeywordHit :=
  if k < stop then
    match t.pairWordAt? pair stop k with
    | some hit => hit :: t.pairWords pair stop (k + max 1 (pair.word hit.closes).length)
    | none => t.pairWords pair stop (k + 1)
  else []
termination_by stop - k

/-- The words of a pair from `start` to `stop`, last to first. -/
def pairWordsBack (t : Text) (pair : WordPair) (start stop : Int) : List KeywordHit :=
  (t.pairWords pair (t.clamp stop) (t.clamp start)).reverse

end Text

namespace Document

/-- Whether a line below `bol` and before `stop` ends a block at column `col`. -/
def dedentsBelow (d : Document) (col stop bol : Int) : Bool :=
  match _h : d.text.lineBelow? bol with
  | none => false
  | some below =>
    let point := d.indentationPoint below
    if stop ≤ point then false
    else if !d.isBlankLine below && decide (d.column point < col) then true
    else d.dedentsBelow col stop below
termination_by (d.text.length - d.text.lineStart bol).toNat
decreasing_by
  have h := Text.lineBelow?_gt _h
  have hb : d.text.lineStart below = below := Text.lineStart_of_lineBelow? _h
  omega

/-- Whether the `let` at `pos` was ended, by braces or by layout, before the `in` at `stop`. -/
def letEnded (d : Document) (pos stop : Int) : Except Fault Bool :=
  if d.text.hasWord KeywordPair.letIn.words.opener pos d.text.length then do
    let i ← d.skipGap (pos + 3) d.text.length
    if d.text.charAt? i = some '{' then
      match d.expressionAfter i d.text.length with
      | .error (.scan _) => return false
      | .error e => .error e
      | .ok j => return decide ((← d.skipGap j d.text.length) < stop)
    else return d.dedentsBelow (d.column i) stop (d.text.lineStart i)
  else .ok false

/-- Whether a keyword at `pos` does not count in a search from `limit` to `stop`. -/
def keywordHidden (d : Document) (skipEnded : Bool) (limit stop pos : Int) : Except Fault Bool := do
  if (← d.openString? limit pos).isSome then return true
  if (← d.openComment? limit pos).isSome then return true
  if (← d.openBracket? limit pos).isSome then return true
  if skipEnded then d.letEnded pos stop else return false

/-- The opener among keywords, listed last to first, when `depth` closers wait for theirs. -/
def openerAmong? (d : Document) (skipEnded : Bool) (limit stop : Int) :
    Nat → List KeywordHit → Except Fault (Option Int)
  | _, [] => .ok none
  | depth, hit :: rest => do
    if ← d.keywordHidden skipEnded limit stop hit.pos
      then d.openerAmong? skipEnded limit stop depth rest
    else if hit.closes then d.openerAmong? skipEnded limit stop (depth + 1) rest
    else
      match depth with
      | deeper + 2 => d.openerAmong? skipEnded limit stop (deeper + 1) rest
      | _ => return some hit.pos

/-- The position of the opener that the closer at `pos` belongs to, not before `limit`. A `let` that
was ended is passed over when `skipEnded` is set. -/
def matchingOpener? (d : Document) (pair : WordPair) (skipEnded : Bool) (limit pos : Int) :
    Except Fault (Option Int) := do
  let limit := match ← d.openBracket? limit pos with
    | some bracket => bracket + 1
    | none => limit
  d.text.checkStart limit
  d.text.checkStart pos
  d.openerAmong? skipEnded limit pos 1 (d.text.pairWordsBack pair limit pos)

end Document

namespace Request

/-- The candidate for a line that starts with a closing keyword: the column of its opener. A place
before the text has no keyword of its own, even if the text starts with one. -/
def closingKeyword? (r : Request) (pos start : Int) : Noted (Option (List Candidate)) := do
  r.doc.text.checkStart pos
  match r.doc.text.closingPair? pos with
  | none => return none
  | some pair =>
    if pos < 0 then Noted.ofExcept (.error .noKeyword)
    match ← r.doc.matchingOpener? pair.words (pair == .letIn) start pos with
    | none => return none
    | some opener =>
      let col ← if ← r.hangs opener then r.virtualColumn opener (some start)
        else pure (r.doc.column opener)
      return some [⟨col + pair.closerOffset r.settings, none⟩]

end Request

end LayoutRule
