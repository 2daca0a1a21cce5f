import LayoutRule.Lexical.Nesting

/-!
# Expressions and lexemes

An expression is a bracketed group, a literal, a word or a run of operator characters;
`Text.expressionStop` tells where the one that starts at a position ends, and why there is none. A
lexeme is a word, or a run of operator characters with the brackets that follow it; every position
has one, possibly empty.
-/

namespace LayoutRule

/-- The string or comment that a piece without an end is. -/
def PieceKind.unclosed (k : PieceKind) : Unclosed :=
  match k with
  | .comment => .comment
  | _ => .string

namespace Text

/-- Walks from `i` to the closing bracket that brings the number of open brackets back to zero. -/
def groupRest (t : Text) (bird : Bool) (depth i : Int) : Except Fault Int :=
  if i < t.length then
    match _h : t.pieceAt bird i t.length with
    | .error e => .error e
    | .ok p =>
      if t.length < p.stop then .error (.scan (.openInside p.kind.unclosed i))
      else
        match p.kind with
        | .opening => t.groupRest bird (depth + 1) p.stop
        | .closing => if depth = 1 then .ok p.stop else t.groupRest bird (depth - 1) p.stop
        | _ => t.groupRest bird depth p.stop
  else .error (.scan .openBracket)
termination_by (t.length - i).toNat
decreasing_by
  all_goals
    have := lt_stop_of_pieceAt _h
    omega

/-- The position after the bracket that closes the one at `i`. -/
def groupStop (t : Text) (bird : Bool) (i : Int) : Except Fault Int := t.groupRest bird 0 i

/-- The end of the word at `i`, if there is one. -/
def wordStop? (t : Text) (i : Int) : Option Int :=
  let k := t.clamp i
  let stop := t.runStop isNameChar k
  if k < stop then some stop else none

/-- The end of the run of operator characters at `i`, if there is one. -/
def operatorStop? (t : Text) (i : Int) : Option Int :=
  let k := t.clamp i
  let stop := t.runStop isOperatorChar k
  if k < stop then some stop else none

/-- The end of a word or an operator at `i`, or of the single character there. -/
def plainStop (t : Text) (i : Int) : Int :=
  match t.wordStop? i with
  | some k => k
  | none =>
    match t.operatorStop? i with
    | some k => k
    | none => i + 1

/-- The end of the expression that starts at `i`. -/
def expressionStop (t : Text) (bird : Bool) (i : Int) : Except Fault Int :=
  if t.length ≤ i then .error (.scan .endOfText)
  else do
    let c ← t.read i
    if isClosing c then .error (.scan .enclosingEnds)
    else if isOpening c then t.groupStop bird i
    else
      let p ← t.pieceAt bird i t.length
      if p.kind = .string ∨ p.kind = .character then
        if t.length < p.stop then .error (.scan .openString) else return p.stop
      else return t.plainStop i

/-- The text of the lexeme at `i`. -/
def lexemeAt (t : Text) (i : Int) : String :=
  let k := t.clamp i
  let word := t.runStop isNameChar k
  let stop :=
    if k < word then word
    else t.runStop isClosing (t.runStop isOpening (t.runStop isOperatorChar k))
  String.ofList (t.chars.extract k stop).toList

/-- The text of the lexeme at `i`, if that can be looked at. -/
def readLexeme (t : Text) (i : Int) : Except Fault String := do
  t.checkStart i
  return t.lexemeAt i

/-! ## Expressions are not empty -/

/-- The rest of a group that is open has at least one character, the bracket that closes it. -/
theorem lt_of_groupRest {t : Text} {bird : Bool} {depth i k : Int}
    (h : t.groupRest bird depth i = .ok k) : i < k := by
  fun_induction groupRest t bird depth i with
  | case1 => cases h
  | case2 => cases h
  | case3 _ _ _ p hp _ _ ih =>
    have := lt_stop_of_pieceAt hp
    have := ih h
    omega
  | case4 _ _ p hp _ _ =>
    cases h
    exact lt_stop_of_pieceAt hp
  | case5 _ _ _ p hp _ _ _ ih =>
    have := lt_stop_of_pieceAt hp
    have := ih h
    omega
  | case6 _ _ _ p hp _ _ _ ih =>
    have := lt_stop_of_pieceAt hp
    have := ih h
    omega
  | case7 => cases h

/-- A word or a run of operator characters has at least one character. -/
theorem lt_plainStop {t : Text} {i : Int} (h : i < t.length) : i < t.plainStop i := by
  have hc : i ≤ t.clamp i := by
    by_cases h₀ : 0 ≤ i
    · exact Int.le_of_eq (clamp_of_mem h₀ (Int.le_of_lt h)).symm
    · omega
  unfold plainStop wordStop? operatorStop?
  grind

/-- An expression that can be completed has at least one character. -/
theorem lt_of_expressionStop {t : Text} {bird : Bool} {i k : Int}
    (h : t.expressionStop bird i = .ok k) : i < k := by
  unfold expressionStop at h
  split at h
  · cases h
  next hi =>
  obtain ⟨c, _, h⟩ := bind_eq_ok.1 h
  split at h
  · cases h
  split at h
  · exact lt_of_groupRest h
  obtain ⟨p, hp, h⟩ := bind_eq_ok.1 h
  split at h
  · split at h
    · cases h
    · cases h; exact lt_stop_of_pieceAt hp
  · cases h; exact lt_plainStop (Int.not_le.1 hi)

end Text

end LayoutRule
