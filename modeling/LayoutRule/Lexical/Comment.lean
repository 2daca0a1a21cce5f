import LayoutRule.Text.Reading

/-!
# Comments

A block comment stands between `{-` and `-}` and nests. A line comment starts with two dashes and
ends with its line, newline included; the dashes start no comment when they belong to a longer
operator, so that an arrow such as `-->` stays an operator. Dashes right after a `>` may start a
comment: there the sign is often the marker of a literate line.
-/

namespace LayoutRule

/-- Characters that operators are made of. -/
def operatorChars : List Char :=
  ['!', '#', '$', '%', '&', '*', '+', '.', '/', '<', '=', '>', '?', '@', '\\', '^', '|', '-',
    '~', ':', '∷', '→', '←', '⇒', '∀']

/-- Whether a character may belong to an operator. -/
def isOperatorChar (c : Char) : Bool := operatorChars.contains c

namespace Text

/-- Two dashes. -/
def dashes : List Char := ['-', '-']

/-- The start of a block comment. -/
def blockOpen : List Char := ['{', '-']

/-- The end of a block comment. -/
def blockClose : List Char := ['-', '}']

/-- Whether an operator ends right before `i`, a lone `>` apart. -/
def afterOperator (t : Text) (i : Int) : Bool :=
  match t.charAt? (i - 1) with
  | some c => isOperatorChar c && c != '>'
  | none => false

/-- The end of the run of dashes at `i`. -/
def dashStop (t : Text) (i : Int) : Except Fault Int :=
  advance (fun j => (t.read j).map (· == '-')) t.length i

/-- Whether a line comment starts at `i`, its dashes before `limit`. -/
def lineCommentAt (t : Text) (i limit : Int) : Except Fault Bool :=
  if t.hasWord dashes i limit && !t.afterOperator i then do
    let j ← t.dashStop i
    if j < t.length then
      let c ← t.read j
      return !isOperatorChar c
    else return true
  else .ok false

/-- Whether a block comment starts at `i`, its first two characters before `limit`. -/
def blockCommentAt (t : Text) (i limit : Int) : Bool := t.hasWord blockOpen i limit

/-- Whether a comment of either form starts at `i`. -/
def commentAt (t : Text) (i limit : Int) : Except Fault Bool :=
  if t.blockCommentAt i limit then .ok true else t.lineCommentAt i limit

/-- The end of a block comment from `j` on, with `depth` comments open there. -/
def blockStop (t : Text) (depth : Nat) (j : Int) : Int :=
  if j < t.length then
    if t.hasWord blockOpen j t.length then t.blockStop (depth + 1) (j + 2)
    else if t.hasWord blockClose j t.length then
      if depth ≤ 1 then j + 2 else t.blockStop (depth - 1) (j + 2)
    else t.blockStop depth (j + 1)
  else t.length + 1
termination_by (t.length - j).toNat

/-- The position right after the comment that starts at `i`; one past the end of the text when it
has no end. -/
def commentStop (t : Text) (i : Int) : Int :=
  if t.hasWord blockOpen i t.length then t.blockStop 0 i
  else
    match t.newlineFrom? i with
    | some k => k + 1
    | none => t.length + 1

/-! ## A comment is never empty -/

/-- A block comment ends behind every place inside it, and one that is not closed ends behind the
text. So the scan moves on even at the end of the text. -/
theorem min_lt_blockStop (t : Text) (depth : Nat) (j : Int) :
    min j t.length < t.blockStop depth j := by
  fun_induction blockStop t depth j <;> omega

/-- The next newline lies inside the text and not before the place it is looked for from. -/
theorem le_of_newlineFrom? {t : Text} {i k : Int} (h : t.newlineFrom? i = some k) :
    (t.bound i : Int) ≤ k ∧ k < t.length := by
  unfold newlineFrom? at h
  have := t.le_runStop notNewline (t.bound i)
  simp only at h
  split at h
  · cases h; unfold length; omega
  · cases h

/-- A comment ends behind its start, whether it is closed or not. -/
theorem lt_commentStop {t : Text} {i : Int} (h : i < t.length) : i < t.commentStop i := by
  have hmin := t.min_lt_blockStop 0 i
  unfold commentStop
  split
  · omega
  · split
    · next k hk =>
      have hb := (le_of_newlineFrom? hk).1
      by_cases h₀ : 0 ≤ i
      · have := bound_of_mem h₀ (Int.le_of_lt h); omega
      · omega
    · omega

/-- A comment starts inside the text. -/
theorem lt_length_of_commentAt {t : Text} {i limit : Int} (h : t.commentAt i limit = .ok true) :
    i < t.length := by
  unfold commentAt lineCommentAt blockCommentAt at h
  split at h
  · next hb => exact lt_length_of_hasWord hb
  · split at h
    · next hd =>
      simp only [Bool.and_eq_true] at hd
      exact lt_length_of_hasWord hd.1
    · cases h

end Text

end LayoutRule
