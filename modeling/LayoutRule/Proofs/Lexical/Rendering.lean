import Mathlib.Data.List.Chain
import LayoutRule.Proofs.Lexical.Walks

/-!
# Scanning a written program

A program is written as tokens and blanks, one behind the other. `Token` has the words, operators,
brackets, literals and comments that a program is made of, each with what makes it one of its kind;
`Listing` puts them in order, so that no two tokens touch unless a newline ends the first.

Scanning undoes the writing (`Listing.nesting_text`): over the text of a listing the scanner ends
outside of every string and comment, finds the comments of the listing where they were put, and has
those brackets open that no closing bracket of the listing took away.
-/

namespace LayoutRule

/-! ## Tokens -/

/-- A character of a string literal: one that stands for itself, or any one behind a backslash. -/
inductive StringUnit where
  | plain (c : Char) (h : c ≠ '"' ∧ c ≠ '\\' ∧ c ≠ '\n')
  | escaped (c : Char)

/-- What stands between the ends of a block comment: characters that belong to no end of a comment,
and comments. -/
inductive CommentText where
  | done
  | plain (c : Char) (h : c ≠ '\x7b' ∧ c ≠ '-' ∧ c ≠ '\x7d') (rest : CommentText)
  | nested (inner rest : CommentText)

/-- A token of a program. -/
inductive Token where
  | word (first : Char) (rest : List Char) (hfirst : isNameChar first = true ∧ first ≠ '\'')
      (hrest : ∀ c ∈ rest, isNameChar c = true)
  | operator (signs : List Char) (hsigns : ∀ c ∈ signs, isOperatorChar c = true)
    (hdashes : ¬ Text.dashes <:+: signs)
  | opening (c : Char) (h : isOpening c = true)
  | closing (c : Char) (h : isClosing c = true)
  | string (units : List StringUnit)
  | character (c : Char) (h : Text.insideQuotes c = true ∧ c ≠ '\\')
  /-- A character literal with a backslash: the character behind it may be a quote. -/
  | escape (c : Char) (rest : List Char) (hc : c ≠ '\n')
    (hrest : ∀ c ∈ rest, Text.insideQuotes c = true)
  /-- A line comment up to its newline; the dashes are not part of a longer operator. -/
  | lineComment (body : List Char) (hline : '\n' ∉ body)
    (hfirst : ∀ c ∈ body.head?, isOperatorChar c = false)
  | blockComment (text : CommentText)

/-- How a character of a string literal is written. -/
def StringUnit.write : StringUnit → List Char
  | .plain c _ => [c]
  | .escaped c => ['\\', c]

/-- How the text of a block comment is written. -/
def CommentText.write : CommentText → List Char
  | .done => []
  | .plain c _ rest => c :: rest.write
  | .nested inner rest => Text.blockOpen ++ inner.write ++ Text.blockClose ++ rest.write

namespace Token

/-- How a token is written. -/
def write : Token → List Char
  | .word first rest _ _ => first :: rest
  | .operator signs _ _ => signs
  | .opening c _ => [c]
  | .closing c _ => [c]
  | .string units => '"' :: (units.flatMap StringUnit.write ++ ['"'])
  | .character c _ => ['\'', c, '\'']
  | .escape c rest _ _ => '\'' :: '\\' :: c :: (rest ++ ['\''])
  | .lineComment body _ _ => Text.dashes ++ body ++ ['\n']
  | .blockComment text => Text.blockOpen ++ text.write ++ Text.blockClose

/-- Whether a token is a comment. -/
def isComment : Token → Bool
  | .lineComment .. => true
  | .blockComment .. => true
  | _ => false

/-- Whether a token ends with the end of its line. -/
def endsLine : Token → Bool
  | .lineComment .. => true
  | _ => false

/-- The comments among tokens that start at given positions, first to last. -/
def comments (tokens : List (Int × Token)) : List Span :=
  (tokens.filter (·.2.isComment)).map fun (i, tok) => ⟨i, i + tok.write.length⟩

/-- The brackets that are open behind tokens that start at given positions, innermost first: a
closing bracket takes the innermost one away, or nothing when none is open. -/
def openers : List Int → List (Int × Token) → List Int
  | stack, [] => stack
  | stack, (i, .opening ..) :: rest => openers (i :: stack) rest
  | stack, (_, .closing ..) :: rest => openers stack.tail rest
  | stack, _ :: rest => openers stack rest

end Token

/-! ## Listings -/

/-- A token, or one of the blanks between tokens. -/
inductive Cell where
  | blank (c : Char) (h : c = ' ' ∨ c = '\n')
  | token (tok : Token)

namespace Cell

/-- How a cell is written. -/
def write : Cell → List Char
  | .blank c _ => [c]
  | .token tok => tok.write

/-- Whether the second of two cells may stand right behind the first. -/
def Apart : Cell → Cell → Prop
  | .token first, .token _ => first.endsLine = true
  | _, _ => True

/-- The tokens among cells, with their positions when the cells are written from position `i` on. -/
def placed : Nat → List Cell → List (Int × Token)
  | _, [] => []
  | i, .blank _ _ :: rest => placed (i + 1) rest
  | i, .token tok :: rest => (i, tok) :: placed (i + tok.write.length) rest

end Cell

/-- Tokens with blanks around them: between two tokens there is at least one blank, unless the first
one ends its line. -/
structure Listing where
  /-- The tokens and blanks in order. -/
  cells : List Cell
  /-- Tokens do not touch. -/
  apart : cells.IsChain Cell.Apart

namespace Listing

/-- The text of a listing. -/
def text (l : Listing) : Text := ⟨(l.cells.flatMap Cell.write).toArray⟩

/-- The tokens of a listing with their positions in its text. -/
def tokens (l : Listing) : List (Int × Token) := Cell.placed 0 l.cells

end Listing

namespace Nesting

/-- What is open behind tokens that start at given positions, when `s` is open before them. -/
def behind (s : Nesting) (tokens : List (Int × Token)) : Nesting :=
  { s with openers := Token.openers s.openers tokens,
           comments := s.comments ++ Token.comments tokens }

/-- Behind no tokens the same is open as before. -/
theorem behind_nil (s : Nesting) : s.behind [] = s := by
  simp [behind, Token.openers, Token.comments]

/-- What one token changes. -/
theorem behind_single (s : Nesting) (i : Int) (tok : Token) :
    s.behind [(i, tok)] =
      match tok with
      | .opening .. => { s with openers := i :: s.openers }
      | .closing .. => { s with openers := s.openers.tail }
      | .lineComment .. => { s with comments := s.comments ++ [⟨i, i + tok.write.length⟩] }
      | .blockComment .. => { s with comments := s.comments ++ [⟨i, i + tok.write.length⟩] }
      | _ => s := by
  cases tok <;> simp [behind, Token.openers, Token.comments, Token.isComment]

/-- What is open behind tokens can be worked out token by token, from the first on. -/
theorem behind_cons (s : Nesting) (first : Int × Token) (rest : List (Int × Token)) :
    s.behind (first :: rest) = (s.behind [first]).behind rest := by
  obtain ⟨i, tok⟩ := first
  cases tok <;> simp [behind, Token.openers, Token.comments, Token.isComment]

end Nesting

/-! ## Classes of characters -/

/-- Characters that are neither brackets nor start a string. -/
def isInert (c : Char) : Bool := c != '"' && !isOpening c && !isClosing c

/-- A character of a name is neither a bracket nor the start of a string. -/
theorem isInert_of_isNameChar {c : Char} (h : isNameChar c = true) : isInert c = true := by
  rw [← Bool.not_eq_false]
  intro hinert
  simp only [isInert, isOpening, isClosing, Bool.and_eq_false_iff, Bool.not_eq_false',
    Bool.or_eq_true, beq_iff_eq, bne_eq_false_iff_eq] at hinert
  rcases hinert with (rfl | (rfl | rfl) | rfl) | (rfl | rfl) | rfl <;> revert h <;> decide

/-- A character of an operator is neither a bracket nor the start of a string. -/
theorem isInert_of_isOperatorChar {c : Char} (h : isOperatorChar c = true) : isInert c = true := by
  have hall : operatorChars.all isInert = true := by decide
  exact List.all_eq_true.mp hall c (List.contains_iff_mem.mp h)

/-- Blanks and newlines are neither brackets nor the start of a string. -/
theorem isInert_of_blank {c : Char} (h : c = ' ' ∨ c = '\n') : isInert c = true := by
  rcases h with rfl | rfl <;> decide

/-! ## Text before and behind a place -/

namespace Text

/-- The text is `before` and then `after`. -/
def Reads (t : Text) (before after : List Char) : Prop := t.chars.toList = before ++ after

variable {t : Text} {before after : List Char} {c : Char}

namespace Reads

/-- Reading on over a list of characters moves them from what follows to what was read. -/
theorem append {l : List Char} (h : t.Reads before (l ++ after)) : t.Reads (before ++ l) after := by
  unfold Reads at h ⊢
  rw [h, List.append_assoc]

/-- Reading on over one character moves it from what follows to what was read. -/
theorem step (h : t.Reads before (c :: after)) : t.Reads (before ++ [c]) after :=
  h.append (l := [c])

/-- The text is as long as what was read and what follows. -/
theorem length (h : t.Reads before after) : t.length = before.length + after.length := by
  have := congrArg List.length h
  simp only [Array.length_toList, List.length_append] at this
  unfold Text.length
  omega

/-- As long as a character follows, the end of the text is not reached. -/
theorem lt_length {c : Char} (h : t.Reads before (c :: after)) :
    (before.length : Int) < t.length := by
  have hlength := h.length
  rw [List.length_cons] at hlength
  omega

/-- The characters behind what was read are those that follow. -/
theorem getElem? (h : t.Reads before after) (k : Nat) :
    t.chars[before.length + k]? = after[k]? := by
  rw [← Array.getElem?_toList, h, List.getElem?_append_right (by omega), Nat.add_sub_cancel_left]

/-- At the place that was reached stands the next character. -/
theorem charAt? (h : t.Reads before (c :: after)) : t.charAt? before.length = some c := by
  rw [charAt?_eq (Int.natCast_nonneg _), Int.toNat_natCast]
  exact h.getElem? 0

/-- Reading at the place that was reached gives the next character. -/
theorem read (h : t.Reads before (c :: after)) : t.read before.length = .ok c :=
  Document.read_eq (Int.natCast_nonneg _) h.charAt?

/-- The character before the place. -/
theorem charAt?_pred (h : t.Reads before after) :
    t.charAt? ((before.length : Int) - 1) = before.getLast? := by
  cases hlast : before.getLast? with
  | none =>
    rw [List.getLast?_eq_none_iff.mp hlast]
    rfl
  | some c =>
    obtain ⟨init, rfl⟩ := List.getLast?_eq_some_iff.mp hlast
    have h' : t.Reads init (c :: after) := by
      unfold Reads at h ⊢
      rw [h, List.append_assoc]
      rfl
    rw [List.length_append, show ((init.length + [c].length : Nat) : Int) - 1 = init.length by simp]
    exact h'.charAt?

/-- A word stands at the place when the text behind starts with it. -/
theorem hasWord (h : t.Reads before after) (w : List Char) :
    t.hasWord w before.length t.length = w.isPrefixOf after := by
  have hlength := h.length
  have holds : ∀ (w : List Char) {before after : List Char}, t.Reads before after →
      t.holdsAt w before.length = w.isPrefixOf after := by
    intro w
    induction w with
    | nil => intros; rfl
    | cons c w ih =>
      intro before after h
      have hfirst := h.getElem? 0
      cases after with
      | nil => simp_all [holdsAt]
      | cons c' after =>
        have hrest := ih h.step
        rw [List.length_append, List.length_singleton] at hrest
        unfold holdsAt
        rw [Nat.add_zero] at hfirst
        rw [hrest, hfirst, List.isPrefixOf, List.getElem?_cons_zero, Option.some_beq_some, BEq.comm]
  unfold Text.hasWord
  rw [bound_toNat (Int.natCast_nonneg _) (by omega), bound_toNat t.length_nonneg (Int.le_refl _),
    Int.toNat_natCast, holds w h]
  cases hprefix : w.isPrefixOf after with
  | false => rw [Bool.and_false]
  | true =>
    have := (List.isPrefixOf_iff_prefix.mp hprefix).length_le
    simp only [Bool.and_true, decide_eq_true_eq]
    omega

/-- A run that starts at the place. -/
theorem runStop {p : Char → Bool} {run : List Char} (h : t.Reads before (run ++ after))
    (hrun : ∀ c ∈ run, p c = true) (hstop : ∀ c ∈ after.head?, p c = false) :
    t.runStop p before.length = (before ++ run).length := by
  rw [List.length_append]
  apply runStop_eq_of (by omega)
  · intro i h₁ h₂
    obtain ⟨k, rfl⟩ := Nat.exists_eq_add_of_le h₁
    have hk : k < run.length := by omega
    refine ⟨run[k], ?_, hrun _ (List.getElem_mem hk)⟩
    rw [h.getElem?, List.getElem?_append_left hk, List.getElem?_eq_getElem hk]
  · intro c hc
    have hget := h.append.getElem? 0
    rw [List.length_append, Nat.add_zero, hc] at hget
    exact hstop c (by rw [List.head?_eq_getElem?, ← hget]; rfl)

/-! ### Pieces at a place -/

variable {s : Nesting}

/-- No comment starts with any other character. -/
theorem commentAt_eq_false (h : t.Reads before (c :: after)) (hdash : c ≠ '-')
    (hbrace : c ≠ '\x7b') : t.commentAt before.length t.length = .ok false :=
  Text.commentAt_eq_false (Int.natCast_nonneg _) h.charAt? hdash hbrace _

/-- The scan goes on behind a piece that ends in the text. -/
theorem nestingFrom_piece {l : List Char} (kind : PieceKind) (h : t.Reads before (l ++ after))
    (hne : l ≠ [])
    (hp : t.pieceAt false before.length t.length = .ok ⟨kind, (before ++ l).length⟩) :
    t.nestingFrom false t.length s before.length =
      t.nestingFrom false t.length (s.record before.length ⟨kind, (before ++ l).length⟩)
        (before ++ l).length := by
  have hlength := h.append.length
  have hpos := List.length_pos_iff.mpr hne
  have hadd : (before ++ l).length = before.length + l.length := List.length_append
  rw [Document.nestingFrom_step (by omega) hp]
  unfold Nesting.within?
  rw [if_neg (by simp only; omega)]

/-- A character that starts no longer piece. -/
theorem pieceAt_single (h : t.Reads before (c :: after))
    (hcomment : t.commentAt before.length t.length = .ok false) (hquote : c ≠ '"')
    (hchar : c = '\'' → ∃ c', before.getLast? = some c' ∧ isNameChar c' = true) :
    t.pieceAt false before.length t.length = .ok (singlePiece c before.length) := by
  have hliteral : t.characterAt? c before.length = .ok none := by
    unfold characterAt?
    split
    · next hc =>
      obtain ⟨c', hlast, hname⟩ := hchar hc
      have hprev := h.charAt?_pred
      rw [hlast] at hprev
      have hne : before ≠ [] := by rintro rfl; cases hlast
      have hpos := List.length_pos_iff.mpr hne
      unfold afterName
      rw [if_neg (by omega), Document.read_eq (by omega) hprev]
      simp only [Except.map, hname, Document.ok_bind]
      rfl
    · rfl
  unfold pieceAt
  rw [h.read, Document.ok_bind, show t.isMarker false c before.length = .ok false
    from rfl, Document.ok_bind, if_neg Bool.false_ne_true, hcomment, Document.ok_bind,
    if_neg Bool.false_ne_true, if_neg hquote, hliteral]
  rfl

/-- A character that is neither a bracket nor starts a longer piece leaves no trace. -/
theorem nestingFrom_inert (h : t.Reads before (c :: after)) (hinert : isInert c = true)
    (hcomment : t.commentAt before.length t.length = .ok false)
    (hchar : c = '\'' → ∃ c', before.getLast? = some c' ∧ isNameChar c' = true) :
    t.nestingFrom false t.length s before.length =
      t.nestingFrom false t.length s (before ++ [c]).length := by
  simp only [isInert, Bool.and_eq_true, bne_iff_ne, Bool.not_eq_true'] at hinert
  obtain ⟨⟨hquote, hopening⟩, hclosing⟩ := hinert
  have hp := h.pieceAt_single hcomment hquote hchar
  unfold singlePiece at hp
  rw [hopening, hclosing, if_neg Bool.false_ne_true, if_neg Bool.false_ne_true] at hp
  exact nestingFrom_piece (l := [c]) .other h (List.cons_ne_nil c [])
    (by rw [hp, List.length_append]; rfl)

/-! ### Tokens at a place -/

/-- The rest of a name. -/
theorem nestingFrom_name {l : List Char} (h : t.Reads before (l ++ after))
    (hl : ∀ c ∈ l, isNameChar c = true)
    (hlast : ∃ c, before.getLast? = some c ∧ isNameChar c = true) :
    t.nestingFrom false t.length s before.length =
      t.nestingFrom false t.length s (before ++ l).length := by
  induction l generalizing before with
  | nil => rw [List.append_nil]
  | cons c l ih =>
    have hname := hl c List.mem_cons_self
    have hdash : c ≠ '-' := by rintro rfl; revert hname; decide
    have hbrace : c ≠ '\x7b' := by rintro rfl; revert hname; decide
    rw [nestingFrom_inert h (isInert_of_isNameChar hname) (h.commentAt_eq_false hdash hbrace)
      fun _ => hlast, ih h.step (fun c hc => hl c (List.mem_cons_of_mem _ hc))
      ⟨c, List.getLast?_concat, hname⟩, List.append_assoc, List.singleton_append]

/-- Operators leave no trace, unless two of their dashes start a comment. -/
theorem nestingFrom_operator {l : List Char} (h : t.Reads before (l ++ after))
    (hl : ∀ c ∈ l, isOperatorChar c = true) (hdashes : ¬ dashes <:+: l)
    (hafter : after.head? ≠ some '-') :
    t.nestingFrom false t.length s before.length =
      t.nestingFrom false t.length s (before ++ l).length := by
  induction l generalizing before with
  | nil => rw [List.append_nil]
  | cons c l ih =>
    have hsign := hl c List.mem_cons_self
    have hquote : c ≠ '\'' := by rintro rfl; revert hsign; decide
    have hbrace : c ≠ '\x7b' := by rintro rfl; revert hsign; decide
    have hword : t.hasWord dashes before.length t.length = false := by
      rw [h.hasWord, ← Bool.not_eq_true, List.isPrefixOf_iff_prefix]
      intro hprefix
      cases l with
      | nil =>
        obtain ⟨rest, hrest⟩ := hprefix
        cases hrest
        exact hafter rfl
      | cons c' l =>
        obtain ⟨rest, hrest⟩ := hprefix
        cases hrest
        exact hdashes ⟨[], l, rfl⟩
    have hcomment : t.commentAt before.length t.length = .ok false := by
      have hlength := h.length
      rw [commentAt_eq (Int.natCast_nonneg _) (by omega), hword,
        show t.hasWord blockOpen before.length t.length = false from
          Document.hasWord_eq_false (Int.natCast_nonneg _) h.charAt? hbrace]
      rfl
    rw [nestingFrom_inert h (isInert_of_isOperatorChar hsign) hcomment fun hc => absurd hc hquote,
      ih h.step (fun c hc => hl c (List.mem_cons_of_mem _ hc)) fun hin =>
        hdashes (hin.trans (List.suffix_cons c l).isInfix),
      List.append_assoc, List.singleton_append]

/-- A bracket, unless it starts a comment. -/
theorem nestingFrom_bracket (h : t.Reads before (c :: after))
    (hbracket : isOpening c = true ∨ isClosing c = true) (hafter : after.head? ≠ some '-') :
    t.nestingFrom false t.length s before.length =
      t.nestingFrom false t.length (s.record before.length (singlePiece c before.length))
        (before ++ [c]).length := by
  have hcases : c = '(' ∨ c = '[' ∨ c = '\x7b' ∨ c = ')' ∨ c = ']' ∨ c = '\x7d' := by
    simpa [isOpening, isClosing, or_assoc] using hbracket
  have hdash : c ≠ '-' := by rintro rfl; revert hcases; decide
  have hquote : c ≠ '"' := by rintro rfl; revert hcases; decide
  have hprime : c ≠ '\'' := by rintro rfl; revert hcases; decide
  have hopen : t.hasWord blockOpen before.length t.length = false := by
    rw [h.hasWord, ← Bool.not_eq_true, List.isPrefixOf_iff_prefix]
    rintro ⟨rest, hrest⟩
    cases hrest
    exact hafter rfl
  have hcomment : t.commentAt before.length t.length = .ok false := by
    have hlength := h.length
    rw [commentAt_eq (Int.natCast_nonneg _) (by omega), hopen,
      show t.hasWord dashes before.length t.length = false from
        Document.hasWord_eq_false (Int.natCast_nonneg _) h.charAt? hdash]
    rfl
  have hp := h.pieceAt_single hcomment hquote fun hc => absurd hc hprime
  have hstop := singlePiece_stop c before.length
  generalize singlePiece c before.length = piece at hp hstop ⊢
  obtain ⟨kind, stop⟩ := piece
  obtain rfl : stop = (before ++ [c]).length := by
    rw [List.length_append]
    exact hstop
  exact nestingFrom_piece (l := [c]) kind h (List.cons_ne_nil c []) hp

/-- The rest of a string ends behind its closing quote. -/
theorem stringRest {units : List StringUnit}
    (h : t.Reads before (units.flatMap StringUnit.write ++ '"' :: after)) :
    t.stringRest before.length =
      .ok (before ++ (units.flatMap StringUnit.write ++ ['"'])).length := by
  induction units generalizing before with
  | nil =>
    rw [List.flatMap_nil, List.nil_append] at h ⊢
    rw [Text.stringRest, if_pos h.lt_length, h.read, List.length_append]
    rfl
  | cons unit units ih =>
    rw [List.flatMap_cons, List.append_assoc] at h
    rw [List.flatMap_cons, List.append_assoc, ← List.append_assoc before, ← ih h.append]
    cases unit with
    | plain c hc =>
      have hread := h.read
      rw [Text.stringRest, if_pos h.lt_length, hread]
      simp only
      rw [if_neg hc.2.1, if_neg hc.1, if_neg hc.2.2, List.length_append]
      rfl
    | escaped c =>
      have hread := h.read
      rw [Text.stringRest, if_pos h.lt_length, hread]
      simp only [if_true]
      rw [List.length_append]
      rfl

/-- A string literal is a piece. -/
theorem pieceAt_string {units : List StringUnit}
    (h : t.Reads before ('"' :: (units.flatMap StringUnit.write ++ ['"']) ++ after)) :
    t.pieceAt false before.length t.length =
      .ok ⟨.string, (before ++ '"' :: (units.flatMap StringUnit.write ++ ['"'])).length⟩ := by
  have hrest : t.Reads (before ++ ['"']) (units.flatMap StringUnit.write ++ '"' :: after) := by
    have hnext : t.Reads (before ++ ['"']) (units.flatMap StringUnit.write ++ ['"'] ++ after) :=
      h.step
    rwa [List.append_assoc] at hnext
  have hstop := hrest.stringRest
  rw [List.append_assoc, List.singleton_append] at hstop
  unfold pieceAt stringStop
  rw [h.read, Document.ok_bind, show t.isMarker false '"' before.length = .ok false
    from rfl, Document.ok_bind, if_neg Bool.false_ne_true,
    h.commentAt_eq_false (by decide) (by decide), Document.ok_bind, if_neg Bool.false_ne_true,
    if_pos rfl, show (before.length : Int) + 1 = (before ++ ['"']).length by simp, hstop]
  rfl

/-- A string literal leaves no trace. -/
theorem nestingFrom_string {units : List StringUnit}
    (h : t.Reads before ('"' :: (units.flatMap StringUnit.write ++ ['"']) ++ after)) :
    t.nestingFrom false t.length s before.length =
      t.nestingFrom false t.length s
        (before ++ '"' :: (units.flatMap StringUnit.write ++ ['"'])).length :=
  nestingFrom_piece .string h (List.cons_ne_nil _ _) h.pieceAt_string

/-- A character literal is a piece when it does not follow a name. -/
theorem pieceAt_literal {l : List Char} (h : t.Reads before ('\'' :: l ++ after))
    (hbefore : ∀ c ∈ before.getLast?, isNameChar c = false)
    (hstop : t.charLiteralStop? before.length = some (before ++ '\'' :: l).length) :
    t.pieceAt false before.length t.length = .ok ⟨.character, (before ++ '\'' :: l).length⟩ := by
  have hlength := h.length
  have hname : t.afterName before.length = .ok false := by
    unfold afterName
    cases hlast : before.getLast? with
    | none =>
      rw [List.getLast?_eq_none_iff.mp hlast]
      rfl
    | some c =>
      have hprev := h.charAt?_pred
      rw [hlast] at hprev
      have hne : before ≠ [] := by rintro rfl; cases hlast
      have hpos := List.length_pos_iff.mpr hne
      rw [if_neg (by omega), Document.read_eq (by omega) hprev]
      simp only [Except.map, hbefore c hlast]
  have hclamp : t.clamp before.length = before.length := by
    have := clamp_of_mem (t := t) (Int.natCast_nonneg before.length) (by omega)
    omega
  unfold pieceAt characterAt?
  rw [h.read, Document.ok_bind, show t.isMarker false '\'' before.length = .ok false
    from rfl, Document.ok_bind, if_neg Bool.false_ne_true,
    h.commentAt_eq_false (by decide) (by decide), Document.ok_bind, if_neg Bool.false_ne_true,
    if_neg (by decide), if_pos rfl, hname, Document.ok_bind, if_neg Bool.false_ne_true,
    hclamp, hstop]
  rfl

/-- A character literal leaves no trace when it does not follow a name. -/
theorem nestingFrom_literal {l : List Char} (h : t.Reads before ('\'' :: l ++ after))
    (hbefore : ∀ c ∈ before.getLast?, isNameChar c = false)
    (hstop : t.charLiteralStop? before.length = some (before ++ '\'' :: l).length) :
    t.nestingFrom false t.length s before.length =
      t.nestingFrom false t.length s (before ++ '\'' :: l).length :=
  nestingFrom_piece .character h (List.cons_ne_nil _ _) (h.pieceAt_literal hbefore hstop)

/-- A character literal of one character. -/
theorem charLiteralStop?_plain {c : Char} (h : t.Reads before (['\'', c, '\''] ++ after))
    (hc : insideQuotes c = true) (hslash : c ≠ '\\') :
    t.charLiteralStop? before.length = some (before ++ ['\'', c, '\'']).length := by
  have h₀ := h.getElem? 0
  have h₁ := h.getElem? 1
  have h₂ := h.getElem? 2
  simp only [List.cons_append, List.nil_append, List.getElem?_cons_zero, List.getElem?_cons_succ,
    Nat.add_zero] at h₀ h₁ h₂
  unfold charLiteralStop?
  rw [if_pos h₀, h₁]
  simp only
  rw [if_neg hslash, if_pos hc, if_pos h₂, List.length_append]
  rfl

/-- A character literal with a backslash. -/
theorem charLiteralStop?_escape {c : Char} {rest : List Char}
    (h : t.Reads before ('\'' :: '\\' :: c :: (rest ++ ['\'']) ++ after)) (hc : c ≠ '\n')
    (hrest : ∀ c ∈ rest, insideQuotes c = true) :
    t.charLiteralStop? before.length =
      some (before ++ '\'' :: '\\' :: c :: (rest ++ ['\''])).length := by
  have h₀ := h.getElem? 0
  have h₁ := h.getElem? 1
  have h₂ := h.getElem? 2
  simp only [List.cons_append, List.getElem?_cons_zero, List.getElem?_cons_succ, Nat.add_zero]
    at h₀ h₁ h₂
  have hbody : t.Reads (before ++ ['\'', '\\', c]) (rest ++ '\'' :: after) := by
    have hnext : t.Reads before (['\'', '\\', c] ++ (rest ++ ['\''] ++ after)) := h
    rw [List.append_assoc] at hnext
    exact hnext.append
  have hrun := hbody.runStop hrest fun c hc => by cases hc; decide
  have hquote : t.chars[(before ++ ['\'', '\\', c] ++ rest).length]? = some '\'' :=
    hbody.append.getElem? 0
  unfold charLiteralStop? escapeStop?
  rw [if_pos h₀, h₁]
  simp only [if_true]
  rw [h₂]
  simp only
  rw [List.length_append] at hrun
  rw [if_neg hc, show before.length + 2 + 1 = before.length + ['\'', '\\', c].length
    from rfl, hrun, if_pos hquote]
  simp only [List.length_append, List.length_cons, List.length_nil]
  congr 1
  omega

/-- A comment starts inside a comment. -/
theorem blockStop_open (h : t.Reads before (blockOpen ++ after)) (depth : Nat) :
    t.blockStop depth before.length = t.blockStop (depth + 1) (before ++ blockOpen).length := by
  have hlength := h.length
  have hopen : t.hasWord blockOpen before.length t.length = true := by
    rw [h.hasWord]
    rfl
  rw [Text.blockStop, if_pos (by simp [blockOpen] at hlength; omega), if_pos hopen,
    List.length_append]
  rfl

/-- The innermost comment ends. -/
theorem blockStop_close (h : t.Reads before (blockClose ++ after)) (depth : Nat) :
    t.blockStop depth before.length =
      if depth ≤ 1 then ((before ++ blockClose).length : Int)
        else t.blockStop (depth - 1) (before ++ blockClose).length := by
  have hlength := h.length
  have hopen : t.hasWord blockOpen before.length t.length = false := by
    rw [h.hasWord]
    rfl
  have hclose : t.hasWord blockClose before.length t.length = true := by
    rw [h.hasWord]
    rfl
  rw [Text.blockStop, if_pos (by simp [blockClose] at hlength; omega), hopen,
    if_neg Bool.false_ne_true, if_pos hclose, List.length_append]
  rfl

/-- The text of a block comment does not end it. -/
theorem blockStop {text : CommentText} {depth : Nat} (h : t.Reads before (text.write ++ after))
    (hdepth : 0 < depth) :
    t.blockStop depth before.length = t.blockStop depth (before ++ text.write).length := by
  induction text generalizing before depth after with
  | done => rw [CommentText.write, List.append_nil]
  | plain c hc rest ih =>
    have hlength := h.length
    have hopen : t.hasWord blockOpen before.length t.length = false :=
      Document.hasWord_eq_false (Int.natCast_nonneg _) h.charAt? hc.1
    have hclose : t.hasWord blockClose before.length t.length = false :=
      Document.hasWord_eq_false (Int.natCast_nonneg _) h.charAt? hc.2.1
    have hnext := ih h.step hdepth
    rw [Text.blockStop, if_pos (by simp [CommentText.write] at hlength; omega), hopen, hclose]
    simp only [Bool.false_eq_true, if_false]
    rw [List.length_append] at hnext
    rw [CommentText.write, show (before.length : Int) + 1 =
      ((before.length + [c].length : Nat) : Int) by
      simp, hnext, List.append_assoc, List.singleton_append]
  | nested inner rest ihInner ihRest =>
    simp only [CommentText.write, List.append_assoc] at h ⊢
    have hinner := h.append
    have hclose := hinner.append
    have hrest := hclose.append
    rw [h.blockStop_open, ihInner hinner (by omega), hclose.blockStop_close, if_neg (by omega),
      Nat.add_sub_cancel, ihRest hrest hdepth]
    simp only [List.append_assoc]

/-- A comment is put down when it ends. -/
theorem nestingFrom_comment {l : List Char} (h : t.Reads before (l ++ after)) (hne : l ≠ [])
    (hcomment : t.commentAt before.length t.length = .ok true)
    (hstop : t.commentStop before.length = (before ++ l).length) :
    t.nestingFrom false t.length s before.length =
      t.nestingFrom false t.length (s.record before.length ⟨.comment, (before ++ l).length⟩)
        (before ++ l).length := by
  obtain ⟨c, rest, rfl⟩ := List.exists_cons_of_ne_nil hne
  refine nestingFrom_piece .comment h hne ?_
  unfold pieceAt
  rw [h.read, Document.ok_bind, show t.isMarker false c before.length = .ok false
    from rfl, Document.ok_bind, if_neg Bool.false_ne_true, hcomment, Document.ok_bind,
    if_pos rfl, hstop]
  rfl

/-- A line comment that does not follow an operator. -/
theorem nestingFrom_lineComment {body : List Char}
    (h : t.Reads before (dashes ++ body ++ ['\n'] ++ after)) (hline : '\n' ∉ body)
    (hfirst : ∀ c ∈ body.head?, isOperatorChar c = false)
    (hbefore : ∀ c ∈ before.getLast?, isOperatorChar c = false) :
    t.nestingFrom false t.length s before.length =
      t.nestingFrom false t.length
        (s.record before.length ⟨.comment, (before ++ (dashes ++ body ++ ['\n'])).length⟩)
        (before ++ (dashes ++ body ++ ['\n'])).length := by
  have hlength := h.length
  have hdashes : t.hasWord dashes before.length t.length = true := by
    rw [h.hasWord]
    rfl
  have hopen : t.hasWord blockOpen before.length t.length = false := by
    rw [h.hasWord]
    rfl
  have hoperator : t.afterOperator before.length = false := by
    unfold afterOperator
    rw [h.charAt?_pred]
    cases hlast : before.getLast? with
    | none => rfl
    | some c => simp only [hbefore c hlast, Bool.false_and]
  -- the comment starts since no dash and no other sign follows its two dashes
  have hnext : ∀ c ∈ (body ++ ['\n'] ++ after).head?, isOperatorChar c = false := by
    intro c hc
    cases body with
    | nil => cases hc; decide
    | cons c' body => exact hfirst c hc
  have hrest : t.Reads before (dashes ++ (body ++ ['\n'] ++ after)) := by
    simpa only [List.append_assoc] using h
  have hrun := hrest.runStop (p := (· == '-')) (by simp [dashes]) fun c hc => by
    rw [beq_eq_false_iff_ne]
    rintro rfl
    exact absurd (hnext _ hc) (by decide)
  have hends : t.endsDashes (before ++ dashes).length = true := by
    have hget := hrest.append.getElem? 0
    rw [Nat.add_zero, ← List.head?_eq_getElem?] at hget
    unfold endsDashes
    rw [hget]
    cases hhead : (body ++ ['\n'] ++ after).head? with
    | none => rfl
    | some c => simp only [hnext c hhead, Bool.not_false]
  have hcomment : t.commentAt before.length t.length = .ok true := by
    rw [commentAt_eq (Int.natCast_nonneg _) (by omega), hdashes, hopen, hoperator,
      Int.toNat_natCast, hrun, hends]
    rfl
  refine nestingFrom_comment h (by simp [dashes]) hcomment ?_
  have hbody : t.Reads before ((dashes ++ body) ++ '\n' :: after) := by
    simpa only [List.append_assoc, List.singleton_append] using h
  have hnewline := hbody.runStop (p := notNewline) (fun c hc => ?_) fun c hc => by cases hc; decide
  · have hbound : t.bound before.length = before.length := by
      rw [bound_toNat (Int.natCast_nonneg _) (by omega), Int.toNat_natCast]
    have hlt : (before ++ (dashes ++ body)).length < t.chars.size := by
      have := hbody.append.length
      rw [List.length_cons] at this
      unfold Text.length at this
      omega
    unfold commentStop newlineFrom?
    rw [hopen, if_neg Bool.false_ne_true, hbound, hnewline]
    simp only [if_pos hlt]
    simp only [List.length_append, List.length_singleton]
    omega
  · unfold notNewline
    rw [bne_iff_ne]
    rintro rfl
    rcases List.mem_append.mp hc with hc | hc
    · revert hc
      decide
    · exact hline hc

/-- A block comment. -/
theorem nestingFrom_blockComment {text : CommentText}
    (h : t.Reads before (blockOpen ++ text.write ++ blockClose ++ after)) :
    t.nestingFrom false t.length s before.length =
      t.nestingFrom false t.length
        (s.record before.length
          ⟨.comment, (before ++ (blockOpen ++ text.write ++ blockClose)).length⟩)
        (before ++ (blockOpen ++ text.write ++ blockClose)).length := by
  have hlength := h.length
  have hopen : t.hasWord blockOpen before.length t.length = true := by
    rw [h.hasWord]
    rfl
  have hcomment : t.commentAt before.length t.length = .ok true := by
    rw [commentAt_eq (Int.natCast_nonneg _) (by omega), hopen]
    rfl
  refine nestingFrom_comment h (by simp [blockOpen]) hcomment ?_
  simp only [List.append_assoc] at h ⊢
  have htext := h.append
  unfold commentStop
  rw [if_pos hopen, h.blockStop_open, htext.blockStop (by omega), htext.append.blockStop_close,
    if_pos (by omega)]
  simp only [List.append_assoc]

/-- The scan goes over one token that is set apart. -/
theorem nestingFrom_token {tok : Token} (h : t.Reads before (tok.write ++ after))
    (hbefore : ∀ c ∈ before.getLast?, c = ' ' ∨ c = '\n')
    (hafter : tok.endsLine = true ∨ ∀ c ∈ after.head?, c = ' ' ∨ c = '\n') :
    t.nestingFrom false t.length s before.length =
      t.nestingFrom false t.length (s.behind [(before.length, tok)])
        (before ++ tok.write).length := by
  have hdash : tok.endsLine = false → after.head? ≠ some '-' := by
    intro hends hdash
    rcases hafter with htrue | hblank
    · rw [hends] at htrue
      cases htrue
    · exact absurd (hblank _ hdash) (by decide)
  have hname : ∀ c ∈ before.getLast?, isNameChar c = false := by
    intro c hc
    rcases hbefore c hc with rfl | rfl <;> decide
  cases tok with
  | word first rest hfirst hrest =>
    have hno : first ≠ '-' ∧ first ≠ '\x7b' := by
      constructor <;> rintro rfl <;> exact absurd hfirst.1 (by decide)
    have hreads : t.Reads before (first :: (rest ++ after)) := h
    rw [hreads.nestingFrom_inert (isInert_of_isNameChar hfirst.1)
      (hreads.commentAt_eq_false hno.1 hno.2) fun hc =>
      absurd hc hfirst.2, hreads.step.nestingFrom_name hrest
      ⟨first, List.getLast?_concat, hfirst.1⟩, List.append_assoc, List.singleton_append,
      Nesting.behind_single]
    rfl
  | operator signs hsigns hdashes =>
    rw [nestingFrom_operator h hsigns hdashes (hdash rfl), Nesting.behind_single, Token.write]
  | opening c hc =>
    rw [nestingFrom_bracket h (.inl hc) (hdash rfl), singlePiece, if_pos hc, Nesting.behind_single]
    rfl
  | closing c hc =>
    have hopening : isOpening c = false := by
      rw [isClosing, Bool.or_eq_true, Bool.or_eq_true, beq_iff_eq, beq_iff_eq, beq_iff_eq] at hc
      rcases hc with (rfl | rfl) | rfl <;> decide
    rw [nestingFrom_bracket h (.inr hc) (hdash rfl), singlePiece, hopening,
      if_neg Bool.false_ne_true, if_pos hc, Nesting.behind_single]
    rfl
  | string units =>
    rw [nestingFrom_string h, Nesting.behind_single]
    rfl
  | character c hc =>
    rw [nestingFrom_literal h hname (charLiteralStop?_plain h hc.1 hc.2), Nesting.behind_single]
    rfl
  | escape c rest hc hrest =>
    rw [nestingFrom_literal h hname (charLiteralStop?_escape h hc hrest), Nesting.behind_single]
    rfl
  | lineComment body hline hfirst =>
    have hoperator : ∀ c ∈ before.getLast?, isOperatorChar c = false := by
      intro c hc
      rcases hbefore c hc with rfl | rfl <;> decide
    rw [nestingFrom_lineComment h hline hfirst hoperator, Nesting.behind_single, Nesting.record,
      Token.write, List.length_append, Int.natCast_add]
  | blockComment text =>
    rw [nestingFrom_blockComment h, Nesting.behind_single, Nesting.record, Token.write,
      List.length_append, Int.natCast_add]

end Reads

end Text

/-! ## Whole listings -/

namespace Listing

open Text

variable {t : Text} {before : List Char} {s : Nesting}

/-- Behind a token of a listing its line has ended, or a blank follows. -/
theorem head_of_apart {rest : List Cell} {tok : Token}
    (h : (Cell.token tok :: rest).IsChain Cell.Apart) :
    tok.endsLine = true ∨ ∀ c ∈ (rest.flatMap Cell.write).head?, c = ' ' ∨ c = '\n' := by
  cases rest with
  | nil => exact .inr (by simp)
  | cons next rest =>
    cases next with
    | blank c hc =>
      refine .inr fun c' hc' => ?_
      cases hc'
      exact hc
    | token next => exact .inl (List.isChain_cons_cons.mp h).1

/-- Before a token that follows another one stands a newline. -/
theorem getLast?_of_apart {tok next : Token} {rest : List Cell}
    (h : (Cell.token tok :: Cell.token next :: rest).IsChain Cell.Apart) :
    (before ++ tok.write).getLast? = some '\n' := by
  have hends : tok.endsLine = true := (List.isChain_cons_cons.mp h).1
  cases tok with
  | lineComment body hline hfirst =>
    rw [Token.write, ← List.append_assoc]
    exact List.getLast?_concat
  | _ => cases hends

/-- The scan goes over the cells of a listing, from one to the next. -/
theorem nestingFrom_cells {cells : List Cell} (h : t.Reads before (cells.flatMap Cell.write))
    (hchain : cells.IsChain Cell.Apart)
    (hbefore : ∀ tok rest, cells = .token tok :: rest → ∀ c ∈ before.getLast?, c = ' ' ∨ c = '\n') :
    t.nestingFrom false t.length s before.length =
      .ok (s.behind (Cell.placed before.length cells)) := by
  induction cells generalizing before s with
  | nil =>
    have hlength := h.length
    rw [nestingFrom, if_neg (by simp at hlength; omega), Cell.placed, Nesting.behind_nil]
  | cons cell rest ih =>
    cases cell with
    | blank c hc =>
      rw [List.flatMap_cons, Cell.write] at h
      have hno : c ≠ '-' ∧ c ≠ '\x7b' ∧ c ≠ '\'' := by
        rcases hc with rfl | rfl <;> decide
      rw [h.nestingFrom_inert (isInert_of_blank hc) (h.commentAt_eq_false hno.1 hno.2.1)
        fun hq => absurd hq hno.2.2, ih h.append hchain.tail fun _ _ _ c' hc' => by
          rw [List.getLast?_concat] at hc'
          cases hc'
          exact hc,
        List.length_append]
      rfl
    | token tok =>
      rw [List.flatMap_cons, Cell.write] at h
      have hnext : ∀ next more, rest = .token next :: more →
          ∀ c ∈ (before ++ tok.write).getLast?, c = ' ' ∨ c = '\n' := by
        rintro next more rfl c hc
        rw [getLast?_of_apart hchain] at hc
        cases hc
        exact .inr rfl
      rw [h.nestingFrom_token (hbefore tok rest rfl) (head_of_apart hchain),
        ih h.append hchain.tail hnext, List.length_append, ← Nesting.behind_cons]
      rfl

/-- Scanning undoes writing: over the text of a listing the scanner ends outside of strings and
comments; it has found the comments of the listing, first to last, and the brackets that were opened
and not closed, innermost first. -/
theorem nesting_text (l : Listing) :
    l.text.nesting false 0 l.text.length = .ok
      { openers := Token.openers [] l.tokens
        string? := none
        comment? := none
        comments := Token.comments l.tokens } := by
  have hreads : l.text.Reads [] (l.cells.flatMap Cell.write) := rfl
  exact nestingFrom_cells hreads l.apart fun _ _ _ c hc => by cases hc

end Listing

end LayoutRule
