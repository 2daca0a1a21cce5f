import LayoutRule.Lexical.Comment
import LayoutRule.Lexical.Literal
import LayoutRule.Text.WordChar

/-!
# Pieces of text

For the layout of a program its text is a sequence of pieces: markers of literate lines, comments,
strings, character literals, brackets, and single characters of anything else. `Text.pieceAt` tells
the piece that starts at a position. A quote right after a name belongs to that name and starts no
literal.

Main statement: a piece ends after it starts (`Text.lt_stop_of_pieceAt`), so walking from piece to
piece comes to an end.
-/

namespace LayoutRule

/-- What a piece of text is. -/
inductive PieceKind where
  /-- The sign in the first column of a literate line. -/
  | marker
  | comment
  | string
  | character
  | opening
  | closing
  /-- Any single character. -/
  | other
deriving DecidableEq, Repr

/-- A piece of text: what it is and where it ends. -/
structure Piece where
  /-- What the piece is. -/
  kind : PieceKind
  /-- The position right after it; past the end of the text when the piece has no end. -/
  stop : Int
deriving DecidableEq, Repr

/-- Opening brackets. -/
def isOpening (c : Char) : Bool := c == '(' || c == '[' || c == '{'

/-- Closing brackets. -/
def isClosing (c : Char) : Bool := c == ')' || c == ']' || c == '}'

namespace Text

/-- Whether a line starts at `i`. -/
def startsLine (t : Text) (i : Int) : Except Fault Bool :=
  if i = 0 then .ok true else (t.read (i - 1)).map (· == '\n')

/-- Whether the character `c` at `i` is the marker of a literate line. -/
def isMarker (t : Text) (bird : Bool) (c : Char) (i : Int) : Except Fault Bool :=
  if bird && c == '>' then t.startsLine i else .ok false

/-- Whether a name ends right before `i`. -/
def afterName (t : Text) (i : Int) : Except Fault Bool :=
  if i = 0 then .ok false else (t.read (i - 1)).map isNameChar

/-- The character literal at `i`: it does not follow a name. -/
def characterAt? (t : Text) (c : Char) (i : Int) : Except Fault (Option Nat) :=
  if c = '\'' then do
    if ← t.afterName i then return none
    else return t.charLiteralStop? (t.clamp i)
  else .ok none

/-- A piece of a single character. -/
def singlePiece (c : Char) (i : Int) : Piece :=
  if isOpening c then ⟨.opening, i + 1⟩
  else if isClosing c then ⟨.closing, i + 1⟩
  else ⟨.other, i + 1⟩

/-- The piece that starts at `i`. A comment has its first two characters before `limit`. -/
def pieceAt (t : Text) (bird : Bool) (i limit : Int) : Except Fault Piece := do
  let c ← t.read i
  if ← t.isMarker bird c i then return ⟨.marker, i + 1⟩
  if ← t.commentAt i limit then return ⟨.comment, t.commentStop i⟩
  if c = '"' then return ⟨.string, ← t.stringStop i⟩
  match ← t.characterAt? c i with
  | some k => return ⟨.character, k⟩
  | none => return singlePiece c i

/-- A character literal is read off the text at its place. -/
theorem charLiteralStop?_of_characterAt? {t : Text} {c : Char} {i : Int} {k : Nat}
    (h : t.characterAt? c i = .ok (some k)) : t.charLiteralStop? (t.clamp i) = some k := by
  unfold characterAt? at h
  split at h
  · obtain ⟨named, _, h⟩ := bind_eq_ok.1 h
    split at h
    · cases h
    · exact Except.ok.inj h
  · cases h

/-- A character literal that is found at a quote ends behind the quote. -/
theorem lt_of_characterAt? {t : Text} {c : Char} {i : Int} {k : Nat} (hi : i < t.length)
    (h : t.characterAt? c i = .ok (some k)) : i < k := by
  have hlt := lt_of_charLiteralStop? (charLiteralStop?_of_characterAt? h)
  by_cases h₀ : 0 ≤ i
  · have := clamp_of_mem h₀ (Int.le_of_lt hi)
    omega
  · omega

/-- A piece of a single character ends right behind it. -/
theorem lt_stop_singlePiece (c : Char) (i : Int) : i < (singlePiece c i).stop := by
  unfold singlePiece
  split
  · exact Int.lt_succ i
  · split <;> exact Int.lt_succ i

/-- A piece ends after it starts. -/
theorem lt_stop_of_pieceAt {t : Text} {bird : Bool} {i limit : Int} {p : Piece}
    (h : t.pieceAt bird i limit = .ok p) : i < p.stop := by
  unfold pieceAt at h
  obtain ⟨c, hc, h⟩ := bind_eq_ok.1 h
  have hi := lt_length_of_read hc
  obtain ⟨marker, _, h⟩ := bind_eq_ok.1 h
  split at h
  · cases h; exact Int.lt_succ i
  obtain ⟨comment, _, h⟩ := bind_eq_ok.1 h
  split at h
  · cases h; exact lt_commentStop hi
  split at h
  · obtain ⟨k, hk, h⟩ := bind_eq_ok.1 h
    cases h; exact lt_of_stringStop hi hk
  obtain ⟨literal?, hl, h⟩ := bind_eq_ok.1 h
  cases literal? with
  | some k => cases h; exact lt_of_characterAt? hi hl
  | none => cases h; exact lt_stop_singlePiece c i

end Text

end LayoutRule
