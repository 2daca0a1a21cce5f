import LayoutRule.Proofs.Lexical.Rendering
import LayoutRule.Proofs.Lexical.Resuming

/-!
# Terms

A term is a name, a number, a literal, an operator, or a group of terms in brackets. The scanner
goes over the text of a term without a trace (`Term.spans`): no comment starts in it, no literal is
left open, and every bracket is closed again (`Text.Balanced`). So one expression ends where the
term ends (`Term.expressionStop_write`), a number apart that has a sign or a point in it: that is
more than one expression.
-/

namespace LayoutRule

/-! ## Balanced stretches -/

namespace Text

variable {t : Text} {bird : Bool} {i j k : Int}

/-- From `i` to `j` there are no comments, and every bracket has its partner. -/
inductive Balanced (t : Text) (bird : Bool) : Int → Int → Prop where
  | refl (i : Int) : Balanced t bird i i
  | piece {i j : Int} {p : Piece} (hp : t.pieceAt bird i t.length = .ok p)
      (hkind : p.kind = .string ∨ p.kind = .character ∨ p.kind = .other) (hstop : p.stop ≤ t.length)
      (h : Balanced t bird p.stop j) : Balanced t bird i j
  | group {i j k : Int} (ho : t.pieceAt bird i t.length = .ok ⟨.opening, i + 1⟩)
      (hin : Balanced t bird (i + 1) k) (hc : t.pieceAt bird k t.length = .ok ⟨.closing, k + 1⟩)
      (h : Balanced t bird (k + 1) j) : Balanced t bird i j

/-- Pieces start inside the text. -/
theorem lt_length_of_pieceAt {p : Piece} {limit : Int} (h : t.pieceAt bird i limit = .ok p) :
    i < t.length := by
  obtain ⟨c, hc, -⟩ := pieceAt_cases h
  exact lt_length_of_read hc

/-- One step of the search for the end of a group. -/
theorem groupRest_step {depth : Int} {p : Piece} (hp : t.pieceAt bird i t.length = .ok p)
    (hstop : p.stop ≤ t.length) :
    t.groupRest bird depth i =
      match p.kind with
      | .opening => t.groupRest bird (depth + 1) p.stop
      | .closing => if depth = 1 then .ok p.stop else t.groupRest bird (depth - 1) p.stop
      | _ => t.groupRest bird depth p.stop := by
  rw [groupRest, if_pos (lt_length_of_pieceAt hp)]
  split
  · next he => cases hp.symm.trans he
  · next p' hp' =>
    cases hp.symm.trans hp'
    refine (if_neg (by omega)).trans ?_
    cases p.kind <;> rfl

/-- Walks over pieces can be put together. -/
theorem Walk.trans {limit : Int} (h : t.Walk bird limit i j) (h' : t.Walk bird limit j k) :
    t.Walk bird limit i k := by
  induction h with
  | refl => exact h'
  | step hlt hp _ ih => exact .step hlt hp (ih h')

namespace Balanced

/-- Balanced stretches next to each other are one balanced stretch. -/
theorem trans (h : t.Balanced bird i j) (h' : t.Balanced bird j k) : t.Balanced bird i k := by
  induction h with
  | refl => exact h'
  | piece hp hkind hstop _ ih => exact .piece hp hkind hstop (ih h')
  | group ho hin hc _ _ ih => exact .group ho hin hc (ih h')

/-- The scanner goes from the start of the stretch to its end. -/
theorem walk (h : t.Balanced bird i j) : t.Walk bird t.length i j := by
  induction h with
  | refl i => exact .refl i
  | piece hp _ _ _ ih => exact .step (lt_length_of_pieceAt hp) hp ih
  | group ho _ hc _ ihin ih =>
    exact .step (lt_length_of_pieceAt ho) ho (ihin.trans (.step (lt_length_of_pieceAt hc) hc ih))

/-- The search for the end of a group goes over a balanced stretch inside the group. -/
theorem groupRest {depth : Int} (h : t.Balanced bird i j) (hdepth : 0 < depth) :
    t.groupRest bird depth i = t.groupRest bird depth j := by
  induction h generalizing depth with
  | refl => rfl
  | piece hp hkind hstop _ ih =>
    rw [groupRest_step hp hstop, ← ih hdepth]
    rcases hkind with hkind | hkind | hkind <;> rw [hkind]
  | @group i j k ho _ hc _ ihin ih =>
    have hi := lt_length_of_pieceAt ho
    have hk := lt_length_of_pieceAt hc
    rw [groupRest_step ho (by simp only; omega), ← ih hdepth]
    simp only
    rw [ihin (by omega), groupRest_step hc (by simp only; omega)]
    simp only
    rw [if_neg (by omega), Int.add_sub_cancel]

/-- A group in brackets ends with its closing bracket. -/
theorem groupStop (ho : t.pieceAt bird i t.length = .ok ⟨.opening, i + 1⟩)
    (hin : t.Balanced bird (i + 1) k) (hc : t.pieceAt bird k t.length = .ok ⟨.closing, k + 1⟩) :
    t.groupStop bird i = .ok (k + 1) := by
  have hi := lt_length_of_pieceAt ho
  have hk := lt_length_of_pieceAt hc
  unfold Text.groupStop
  rw [groupRest_step ho (by simp only; omega)]
  simp only
  rw [hin.groupRest (by omega), groupRest_step hc (by simp only; omega)]
  rfl

end Balanced

end Text

/-! ## Terms -/

/-- Blanks and newlines. -/
structure Blanks where
  /-- The characters. -/
  chars : List Char
  /-- There is nothing else. -/
  blank : ∀ c ∈ chars, c = ' ' ∨ c = '\n'

/-- What stands between two terms: at least one blank or newline. -/
structure Gap extends Blanks where
  /-- There is one. -/
  nonempty : chars ≠ []

/-- A word that starts with a digit. -/
structure Digits where
  /-- The digit. -/
  first : Char
  /-- The rest of the word. -/
  rest : List Char
  /-- The word starts with a digit. -/
  digit : isWordChar first = true ∧ isDecimalDigit first = true
  /-- The rest belongs to the word. -/
  word : ∀ c ∈ rest, isNameChar c = true

/-- A point or a sign in a number, and the digits after it. -/
structure Fraction where
  /-- The point or sign. -/
  sign : Char
  /-- The digits. -/
  digits : Digits
  /-- It is a point, as in `1.5`, or a sign, as in `1e-5`. -/
  isSign : sign = '.' ∨ sign = '+' ∨ sign = '-'

/-- A number: digits, with points and signs between them, and perhaps a minus before them. -/
structure Numeral where
  /-- Whether there is a minus. -/
  negative : Bool
  /-- The first digits. -/
  whole : Digits
  /-- The points and signs and the other digits. -/
  parts : List Fraction

/-- A run of signs that has no two dashes in it. -/
structure Operator where
  /-- The signs. -/
  signs : List Char
  /-- There is one. -/
  nonempty : signs ≠ []
  /-- All of them are signs of operators. -/
  isSigns : ∀ c ∈ signs, isOperatorChar c = true
  /-- No two dashes stand side by side. -/
  undashed : ¬ Text.dashes <:+: signs

/-- A term without brackets. -/
inductive Atom where
  | name (first : Char) (rest : List Char) (hfirst : isNameStart first = true)
    (hrest : ∀ c ∈ rest, isNameChar c = true)
  | number (n : Numeral)
  | string (units : List StringUnit)
  | character (c : Char) (h : Text.insideQuotes c = true ∧ c ≠ '\\')
  /-- A character literal with a backslash. -/
  | escape (c : Char) (rest : List Char) (hc : c ≠ '\n')
    (hrest : ∀ c ∈ rest, Text.insideQuotes c = true)
  | operator (o : Operator)

mutual

/-- A term. -/
inductive Term where
  | atom (a : Atom)
  /-- Terms in brackets, with blanks after the first bracket. -/
  | group (opening closing : Char) (hopening : isOpening opening = true)
    (hclosing : isClosing closing = true)
      (lead : Blanks) (body : Terms)

/-- Terms in brackets: between any two there is a gap. -/
inductive Terms where
  | none
  | last (term : Term) (trail : Blanks)
  | more (term : Term) (gap : Gap) (rest : Terms)

end

/-- How digits are written. -/
def Digits.write (n : Digits) : List Char := n.first :: n.rest

/-- How a number is written. -/
def Numeral.write (n : Numeral) : List Char :=
  (if n.negative then ['-'] else []) ++ n.whole.write ++ n.parts.flatMap fun p =>
    p.sign :: p.digits.write

/-- How a term without brackets is written. -/
def Atom.write : Atom → List Char
  | .name first rest _ _ => first :: rest
  | .number n => n.write
  | .string units => '"' :: (units.flatMap StringUnit.write ++ ['"'])
  | .character c _ => ['\'', c, '\'']
  | .escape c rest _ _ => '\'' :: '\\' :: c :: (rest ++ ['\''])
  | .operator o => o.signs

mutual

/-- How a term is written. -/
def Term.write : Term → List Char
  | .atom a => a.write
  | .group opening closing _ _ lead body => opening :: (lead.chars ++ body.write ++ [closing])

/-- How terms in brackets are written. -/
def Terms.write : Terms → List Char
  | .none => []
  | .last term trail => term.write ++ trail.chars
  | .more term gap rest => term.write ++ gap.chars ++ rest.write

end

mutual

/-- No bracket of the term starts a comment: a dash does not stand right behind a brace. -/
def Term.Fits : Term → Prop
  | .atom _ => True
  | .group opening _ _ _ lead body =>
    (opening = '\x7b' → (lead.chars ++ body.write).head? ≠ some '-') ∧ body.Fits

/-- No bracket of the terms starts a comment. -/
def Terms.Fits : Terms → Prop
  | .none => True
  | .last term _ => term.Fits
  | .more term _ rest => term.Fits ∧ rest.Fits

end

/-! ## Scanning terms -/

/-- What may stand right behind a term. -/
def isEdge (c : Char) : Bool := c == ' ' || c == '\n' || isClosing c

/-- What may stand right behind a term: a blank, a newline or a closing bracket. -/
theorem isEdge_cases {c : Char} (h : isEdge c = true) :
    c = ' ' ∨ c = '\n' ∨ c = ')' ∨ c = ']' ∨ c = '\x7d' := by
  simpa [isEdge, isClosing, or_assoc] using h

/-- A blank or a newline may stand right behind a term. -/
theorem isEdge_of_blank {c : Char} (h : c = ' ' ∨ c = '\n') : isEdge c = true := by
  rcases h with rfl | rfl <;> decide

/-- No character of an operator is one of a name. -/
theorem not_isNameChar_of_isOperatorChar {c : Char} (h : isOperatorChar c = true) :
    isNameChar c = false := by
  have hall : operatorChars.all (fun c => !isNameChar c) = true := by decide +kernel
  simpa using List.all_eq_true.mp hall c (List.contains_iff_mem.mp h)

/-- An opening bracket is no character of a name. -/
theorem not_isNameChar_of_isOpening {c : Char} (h : isOpening c = true) : isNameChar c = false := by
  have hcases : c = '(' ∨ c = '[' ∨ c = '\x7b' := by simpa [isOpening, or_assoc] using h
  rcases hcases with rfl | rfl | rfl <;> decide

/-- Behind a dash of an operator without two dashes stands no dash. -/
theorem head_ne_dash_of_undashed {l after : List Char} (h : ¬ Text.dashes <:+: '-' :: l)
    (hafter : after.head? ≠ some '-') : (l ++ after).head? ≠ some '-' := by
  cases l with
  | nil => exact hafter
  | cons c l =>
    intro hc
    cases hc
    exact h ⟨[], l, rfl⟩

/-- The text `l` behind `before` is balanced. -/
def Text.Spans (t : Text) (before l : List Char) : Prop :=
  t.Balanced false before.length (before ++ l).length

namespace Text.Spans

variable {t : Text} {before a b : List Char} {c : Char}

/-- The empty text is balanced. -/
theorem nil : t.Spans before [] := by
  unfold Spans
  rw [List.append_nil]
  exact .refl _

/-- Balanced texts in a row are balanced. -/
theorem append (h : t.Spans before a) (h' : t.Spans (before ++ a) b) : t.Spans before (a ++ b) := by
  unfold Spans at h' ⊢
  rw [← List.append_assoc]
  exact h.trans h'

/-- A balanced character and a balanced text behind it are balanced. -/
theorem cons (h : t.Spans before [c]) (h' : t.Spans (before ++ [c]) b) : t.Spans before (c :: b) :=
  h.append h'

end Text.Spans

namespace Text.Reads

variable {t : Text} {before after l : List Char} {c : Char}

/-- No comment starts before a character other than a dash. -/
theorem commentAt_undashed (h : t.Reads before (c :: after))
    (hdash : c = '-' ∨ c = '\x7b' → after.head? ≠ some '-') :
    t.commentAt before.length t.length = .ok false := by
  have hword : ∀ x, (x = '-' ∨ x = '\x7b') → t.hasWord [x, '-'] before.length t.length = false := by
    intro x hx
    rw [h.hasWord, ← Bool.not_eq_true, List.isPrefixOf_iff_prefix]
    rintro ⟨rest, hrest⟩
    cases hrest
    exact hdash hx rfl
  have hlength := h.length
  rw [commentAt_eq (Int.natCast_nonneg _) (by omega),
    show t.hasWord blockOpen before.length t.length = false from
    hword _ (.inr rfl), show t.hasWord dashes before.length t.length = false
      from hword _ (.inl rfl)]
  rfl

/-- A character that starts no longer piece and is no bracket. -/
theorem spans_inert (h : t.Reads before (c :: after)) (hinert : isInert c = true)
    (hdash : c = '-' → after.head? ≠ some '-')
    (hchar : c = '\'' → ∃ c', before.getLast? = some c' ∧ isNameChar c' = true) :
    t.Spans before [c] := by
  have hlength := h.length
  rw [List.length_cons] at hlength
  simp only [isInert, Bool.and_eq_true, bne_iff_ne, Bool.not_eq_true'] at hinert
  obtain ⟨⟨hquote, hopening⟩, hclosing⟩ := hinert
  have hcomment := h.commentAt_undashed fun hc => hc.elim hdash fun hbrace => by
    subst hbrace; cases hopening
  have hp := h.pieceAt_single hcomment hquote hchar
  unfold singlePiece at hp
  rw [hopening, hclosing, if_neg Bool.false_ne_true, if_neg Bool.false_ne_true] at hp
  refine .piece hp (.inr (.inr rfl)) (by simp only; omega) ?_
  rw [List.length_append]
  exact .refl _

/-- The rest of a name. -/
theorem spans_name (h : t.Reads before (l ++ after)) (hl : ∀ c ∈ l, isNameChar c = true)
    (hlast : ∃ c, before.getLast? = some c ∧ isNameChar c = true) :
    t.Spans before l := by
  induction l generalizing before with
  | nil => exact .nil
  | cons c l ih =>
    have hname := hl c List.mem_cons_self
    have hdash : c ≠ '-' := by rintro rfl; revert hname; decide
    refine (spans_inert h (isInert_of_isNameChar hname) (absurd · hdash) fun _ => hlast).cons ?_
    exact ih h.step (fun c hc => hl c (List.mem_cons_of_mem _ hc)) ⟨c, List.getLast?_concat, hname⟩

/-- A word that does not start with a prime. -/
theorem spans_word (h : t.Reads before (c :: l ++ after)) (hc : isWordChar c = true)
    (hl : ∀ c ∈ l, isNameChar c = true) : t.Spans before (c :: l) := by
  have hname : isNameChar c = true := by rw [isNameChar, hc, Bool.true_or]
  have hdash : c ≠ '-' := by rintro rfl; revert hc; decide
  have hprime : c ≠ '\'' := by rintro rfl; revert hc; decide
  exact (spans_inert h (isInert_of_isNameChar hname) (absurd · hdash) (absurd · hprime)).cons
    (spans_name h.step hl ⟨c, List.getLast?_concat, hname⟩)

/-- A run of signs, unless two of its dashes start a comment. -/
theorem spans_operator (h : t.Reads before (l ++ after)) (hl : ∀ c ∈ l, isOperatorChar c = true)
    (hdashes : ¬ dashes <:+: l) (hafter : after.head? ≠ some '-') :
    t.Spans before l := by
  induction l generalizing before with
  | nil => exact .nil
  | cons c l ih =>
    have hsign := hl c List.mem_cons_self
    have hprime : c ≠ '\'' := by rintro rfl; revert hsign; decide
    have hnext : c = '-' → (l ++ after).head? ≠ some '-' := by
      rintro rfl
      exact head_ne_dash_of_undashed hdashes hafter
    refine (spans_inert h (isInert_of_isOperatorChar hsign) hnext (absurd · hprime)).cons ?_
    exact ih h.step (fun c hc => hl c (List.mem_cons_of_mem _ hc)) fun hin =>
      hdashes (hin.trans (List.suffix_cons c l).isInfix)

/-- Blanks and newlines are balanced. -/
theorem spans_blanks (h : t.Reads before (l ++ after)) (hl : ∀ c ∈ l, c = ' ' ∨ c = '\n') :
    t.Spans before l := by
  induction l generalizing before with
  | nil => exact .nil
  | cons c l ih =>
    have hc := hl c List.mem_cons_self
    have hno : c ≠ '-' ∧ c ≠ '\'' := by rcases hc with rfl | rfl <;> decide
    exact (spans_inert h (isInert_of_blank hc) (absurd · hno.1) (absurd · hno.2)).cons
      (ih h.step fun c hc => hl c (List.mem_cons_of_mem _ hc))

/-- The piece at a literal. -/
theorem spans_piece {kind : PieceKind} (h : t.Reads before (l ++ after))
    (hkind : kind = .string ∨ kind = .character)
    (hp : t.pieceAt false before.length t.length = .ok ⟨kind, (before ++ l).length⟩) :
    t.Spans before l := by
  have hlength := h.append.length
  exact .piece hp (hkind.imp id .inl) (by simp only; omega) (.refl _)

/-- An opening bracket, unless it starts a comment. -/
theorem pieceAt_opening (h : t.Reads before (c :: after)) (hc : isOpening c = true)
    (hdash : c = '\x7b' → after.head? ≠ some '-') :
    t.pieceAt false before.length t.length = .ok ⟨.opening, (before.length : Int) + 1⟩ := by
  have hcases : c = '(' ∨ c = '[' ∨ c = '\x7b' := by simpa [isOpening, or_assoc] using hc
  have hno : c ≠ '-' ∧ c ≠ '"' ∧ c ≠ '\'' := by rcases hcases with rfl | rfl | rfl <;> decide
  have hp :=
    h.pieceAt_single (h.commentAt_undashed fun h' => h'.elim (absurd · hno.1) hdash) hno.2.1
      (absurd · hno.2.2)
  rwa [singlePiece, if_pos hc] at hp

/-- A closing bracket is a piece of its own, whatever stands around it. -/
theorem pieceAt_closing (h : t.Reads before (c :: after)) (hc : isClosing c = true) :
    t.pieceAt false before.length t.length = .ok ⟨.closing, (before.length : Int) + 1⟩ := by
  have hcases : c = ')' ∨ c = ']' ∨ c = '\x7d' := by simpa [isClosing, or_assoc] using hc
  have hno : c ≠ '-' ∧ c ≠ '\x7b' ∧ c ≠ '"' ∧ c ≠ '\'' ∧ isOpening c = false := by
    rcases hcases with rfl | rfl | rfl <;> decide
  have hp := h.pieceAt_single (h.commentAt_eq_false hno.1 hno.2.1) hno.2.2.1 (absurd · hno.2.2.2.1)
  rwa [singlePiece, hno.2.2.2.2, if_neg Bool.false_ne_true, if_pos hc] at hp

/-- Brackets around a balanced text make a balanced text, and the group ends with the second one. -/
theorem spans_group {opening closing : Char}
    (h : t.Reads before (opening :: (l ++ [closing]) ++ after))
    (hopening : isOpening opening = true) (hclosing : isClosing closing = true)
    (hdash : opening = '\x7b' → l.head? ≠ some '-') (hl : t.Spans (before ++ [opening]) l) :
    t.Spans before (opening :: (l ++ [closing])) ∧
      t.groupStop false before.length = .ok (before ++ opening :: (l ++ [closing])).length := by
  have hnext : t.Reads (before ++ [opening]) (l ++ closing :: after) := by
    have hstep : t.Reads (before ++ [opening]) (l ++ [closing] ++ after) := h.step
    rwa [List.append_assoc] at hstep
  have hfirst : (l ++ [closing] ++ after).head? = some '-' → l.head? = some '-' := by
    cases l with
    | nil =>
      intro hclose
      cases hclose
      exact absurd hclosing (by decide)
    | cons c l => exact id
  have ho := pieceAt_opening h hopening fun hbrace hnext => hdash hbrace (hfirst hnext)
  have hc := hnext.append.pieceAt_closing hclosing
  have hin : t.Balanced false ((before.length : Int) + 1) (before ++ [opening] ++ l).length := by
    unfold Spans at hl
    rwa [List.length_append] at hl
  have hstop : ((before ++ [opening] ++ l).length : Int) + 1 =
      (before ++ opening :: (l ++ [closing])).length := by
    simp only [List.length_append, List.length_cons, List.length_nil]
    omega
  constructor
  · refine .group ho hin hc ?_
    rw [hstop]
    exact .refl _
  · rw [hin.groupStop ho hc, hstop]

end Text.Reads

namespace Digits

variable {t : Text} {before after : List Char}

/-- Digits are balanced. -/
theorem spans (n : Digits) (h : t.Reads before (n.write ++ after)) : t.Spans before n.write :=
  h.spans_word n.digit.1 n.word

/-- Digits do not start with a dash. -/
theorem head_ne_dash (n : Digits) : (n.write ++ after).head? ≠ some '-' := by
  intro hdash
  have hfirst : n.first = '-' := Option.some.inj hdash
  have hdigit := n.digit.1
  rw [hfirst] at hdigit
  exact absurd hdigit (by decide)

/-- A sign right before digits. -/
theorem spans_sign (n : Digits) {c : Char} (hc : c = '.' ∨ c = '+' ∨ c = '-')
    (h : t.Reads before (c :: (n.write ++ after))) : t.Spans before [c] := by
  have hinert : isInert c = true ∧ c ≠ '\'' := by rcases hc with rfl | rfl | rfl <;> decide
  exact h.spans_inert hinert.1 (fun _ => n.head_ne_dash) (absurd · hinert.2)

end Digits

namespace Numeral

variable {t : Text} {before after : List Char}

/-- How the points and signs of a number are written, with the digits after them. -/
def writeParts (parts : List Fraction) : List Char :=
  parts.flatMap fun p => p.sign :: p.digits.write

/-- The parts of a number behind its first digits are balanced: points, signs and digits are pieces
of one character. -/
theorem spans_parts {parts : List Fraction} (h : t.Reads before (writeParts parts ++ after)) :
    t.Spans before (writeParts parts) := by
  induction parts generalizing before with
  | nil => exact .nil
  | cons p parts ih =>
    have h : t.Reads before (p.sign :: (p.digits.write ++ (writeParts parts ++ after))) := by
      simpa [writeParts] using h
    have hdigits := h.step
    exact (p.digits.spans_sign p.isSign h).cons
      ((p.digits.spans hdigits).append (ih hdigits.append))

/-- A number is balanced. -/
theorem spans (n : Numeral) (h : t.Reads before (n.write ++ after)) : t.Spans before n.write := by
  obtain ⟨negative, whole, parts⟩ := n
  have hrest : ∀ {before}, t.Reads before (whole.write ++ (writeParts parts ++ after)) →
      t.Spans before (whole.write ++ writeParts parts) :=
        fun h => (whole.spans h).append (spans_parts h.append)
  cases negative with
  | false =>
    have hwrite : (⟨false, whole, parts⟩ : Numeral).write = whole.write ++ writeParts parts := by
      simp [write, writeParts]
    rw [hwrite, List.append_assoc] at h
    rw [hwrite]
    exact hrest h
  | true =>
    have hwrite : (⟨true, whole, parts⟩ : Numeral).write =
        '-' :: (whole.write ++ writeParts parts) := by
      simp [write, writeParts]
    rw [hwrite, List.cons_append, List.append_assoc] at h
    rw [hwrite]
    exact (whole.spans_sign (.inr (.inr rfl)) h).cons (hrest h.step)

end Numeral

/-- The scanner goes over a term without brackets. -/
theorem Atom.spans {t : Text} {before after : List Char} (a : Atom)
    (h : t.Reads before (a.write ++ after)) (hbefore : ∀ c ∈ before.getLast?, isNameChar c = false)
    (hafter : ∀ c ∈ after.head?, isEdge c = true) : t.Spans before a.write := by
  cases a with
  | name first rest hfirst hrest =>
    rw [isNameStart, Bool.and_eq_true] at hfirst
    exact h.spans_word hfirst.1 hrest
  | number n => exact n.spans h
  | string units => exact h.spans_piece (.inl rfl) h.pieceAt_string
  | character c hc =>
    exact h.spans_piece (.inr rfl) (h.pieceAt_literal hbefore (h.charLiteralStop?_plain hc.1 hc.2))
  | escape c rest hc hrest =>
    exact h.spans_piece (.inr rfl) (h.pieceAt_literal hbefore (h.charLiteralStop?_escape hc hrest))
  | operator o =>
    refine h.spans_operator o.isSigns o.undashed fun hdash => ?_
    exact absurd (hafter _ hdash) (by decide)

/-- With blanks in front, a text still starts with what may stand right behind a term. -/
theorem Blanks.head_isEdge {l after : List Char} (hl : ∀ c ∈ l, c = ' ' ∨ c = '\n')
    (hafter : ∀ c ∈ after.head?, isEdge c = true) : ∀ c ∈ (l ++ after).head?, isEdge c = true := by
  cases l with
  | nil => exact hafter
  | cons c l =>
    intro c' hc'
    cases hc'
    exact isEdge_of_blank (hl c List.mem_cons_self)

/-- Behind blanks, or behind what is no name, no name ends. -/
theorem Blanks.getLast_not_isNameChar {l before : List Char} (hl : ∀ c ∈ l, c = ' ' ∨ c = '\n')
    (hbefore : ∀ c ∈ before.getLast?, isNameChar c = false) :
    ∀ c ∈ (before ++ l).getLast?, isNameChar c = false := by
  intro c hc
  rw [List.getLast?_append] at hc
  cases hlast : l.getLast? with
  | none =>
    rw [hlast] at hc
    exact hbefore c hc
  | some x =>
    rw [hlast] at hc
    cases hc
    rcases hl c (List.mem_of_getLast? hlast) with rfl | rfl <;> decide

/-- Right behind a term with a gap stands a blank. -/
theorem Gap.head_isEdge (gap : Gap) (after : List Char) :
    ∀ c ∈ (gap.chars ++ after).head?, isEdge c = true := by
  obtain ⟨c, l, hl⟩ := List.exists_cons_of_ne_nil gap.nonempty
  intro c' hc'
  rw [hl] at hc'
  cases hc'
  exact isEdge_of_blank (gap.blank c (by rw [hl]; exact List.mem_cons_self))

/-- Behind a gap no name ends. -/
theorem Gap.getLast_not_isNameChar (gap : Gap) (before : List Char) :
    ∀ c ∈ (before ++ gap.chars).getLast?, isNameChar c = false := by
  intro c hc
  rw [List.getLast?_append_of_ne_nil _ gap.nonempty] at hc
  rcases gap.blank c (List.mem_of_getLast? hc) with rfl | rfl <;> decide

/-- A group whose terms the scanner goes over. -/
theorem Term.spans_group {t : Text} {before after : List Char} {opening closing : Char}
    {lead : Blanks} {body : Terms} (hopening : isOpening opening = true)
    (hclosing : isClosing closing = true)
    (hdash : opening = '\x7b' → (lead.chars ++ body.write).head? ≠ some '-')
    (hbody : ∀ {before after : List Char}, t.Reads before (body.write ++ after) →
      (∀ c ∈ before.getLast?, isNameChar c = false) → (∀ c ∈ after.head?, isEdge c = true) →
      t.Spans before body.write)
    (h : t.Reads before (opening :: (lead.chars ++ body.write ++ [closing]) ++ after)) :
    t.Spans before (opening :: (lead.chars ++ body.write ++ [closing])) ∧
      t.groupStop false before.length =
        .ok (before ++ opening :: (lead.chars ++ body.write ++ [closing])).length := by
  have hnext : t.Reads (before ++ [opening]) (lead.chars ++ (body.write ++ closing :: after)) := by
    simpa using h.step
  have hbracket : ∀ c ∈ (before ++ [opening]).getLast?, isNameChar c = false := by
    intro c hc
    rw [List.getLast?_concat] at hc
    cases hc
    exact not_isNameChar_of_isOpening hopening
  have hedge : ∀ c ∈ (closing :: after).head?, isEdge c = true := by
    intro c hc
    cases hc
    simp [isEdge, hclosing]
  have hterms := hbody hnext.append (Blanks.getLast_not_isNameChar lead.blank hbracket) hedge
  exact h.spans_group hopening hclosing hdash ((hnext.spans_blanks lead.blank).append hterms)

mutual

/-- The scanner goes over a term. -/
theorem Term.spans {t : Text} {before after : List Char} : (term : Term) → term.Fits →
    t.Reads before (term.write ++ after) → (∀ c ∈ before.getLast?, isNameChar c = false) →
    (∀ c ∈ after.head?, isEdge c = true) → t.Spans before term.write
  | .atom a, _, h, hbefore, hafter => a.spans h hbefore hafter
  | .group _ _ hopening hclosing _ body, hfits, h, _, _ =>
    (Term.spans_group hopening hclosing hfits.1 (Terms.spans body hfits.2) h).1

/-- The scanner goes over terms in brackets. -/
theorem Terms.spans {t : Text} {before after : List Char} : (terms : Terms) → terms.Fits →
    t.Reads before (terms.write ++ after) → (∀ c ∈ before.getLast?, isNameChar c = false) →
    (∀ c ∈ after.head?, isEdge c = true) → t.Spans before terms.write
  | .none, _, _, _, _ => .nil
  | .last term trail, hfits, h, hbefore, hafter => by
    rw [Terms.write, List.append_assoc] at h
    exact (Term.spans term hfits h hbefore (Blanks.head_isEdge trail.blank hafter)).append
      (h.append.spans_blanks trail.blank)
  | .more term gap rest, hfits, h, hbefore, hafter => by
    rw [Terms.write, List.append_assoc, List.append_assoc] at h
    have hgap := h.append
    have hrest := hgap.append
    have hterm := Term.spans term hfits.1 h hbefore (gap.head_isEdge (rest.write ++ after))
    have hrest' := Terms.spans rest hfits.2 hrest
      (gap.getLast_not_isNameChar (before ++ term.write)) hafter
    exact (hterm.append (hgap.spans_blanks gap.blank)).append (by rwa [← List.append_assoc])

end

/-! ## Terms as expressions -/

namespace Text.Reads

variable {t : Text} {before after l : List Char} {c : Char}

/-- An expression that is no group ends with its literal, or with its word or run of signs. -/
theorem expressionStop_eq {p : Piece} (h : t.Reads before (c :: after))
    (hopening : isOpening c = false) (hclosing : isClosing c = false)
    (hp : t.pieceAt false before.length t.length = .ok p) (hstop : p.stop ≤ t.length) :
    t.expressionStop false before.length =
      .ok (if p.kind = .string ∨ p.kind = .character then p.stop
        else t.plainStop before.length) := by
  have hlt := h.lt_length
  unfold expressionStop
  rw [if_neg (by omega), h.read, Document.ok_bind, hclosing, if_neg Bool.false_ne_true, hopening,
    if_neg Bool.false_ne_true, hp, Document.ok_bind]
  by_cases hkind : p.kind = .string ∨ p.kind = .character
  · rw [if_pos hkind, if_pos hkind, if_neg (by omega)]
    rfl
  · rw [if_neg hkind, if_neg hkind]
    rfl

/-- The place behind what was read is a position of the text. -/
theorem clamp_eq (h : t.Reads before after) : t.clamp before.length = before.length := by
  have hlength := h.length
  have := clamp_of_mem (t := t) (Int.natCast_nonneg before.length) (by omega)
  omega

/-- A single character that is no bracket is the start of a word, of a run of signs, or stands
alone. -/
theorem expressionStop_inert (h : t.Reads before (c :: after)) (hinert : isInert c = true)
    (hdash : c = '-' → after.head? ≠ some '-') (hprime : c ≠ '\'') :
    t.expressionStop false before.length = .ok (t.plainStop before.length) := by
  have hlt := h.lt_length
  simp only [isInert, Bool.and_eq_true, bne_iff_ne, Bool.not_eq_true'] at hinert
  obtain ⟨⟨hquote, hopening⟩, hclosing⟩ := hinert
  have hcomment := h.commentAt_undashed fun hc => hc.elim hdash fun hbrace => by
    subst hbrace; cases hopening
  have hp := h.pieceAt_single hcomment hquote (absurd · hprime)
  have hkind : (singlePiece c before.length).kind = .other := by
    unfold singlePiece
    rw [hopening, hclosing, if_neg Bool.false_ne_true, if_neg Bool.false_ne_true]
  rw [expressionStop_eq h hopening hclosing hp (by rw [singlePiece_stop]; omega), hkind,
    if_neg (by decide)]

/-- A word is an expression. -/
theorem expressionStop_word (h : t.Reads before (c :: l ++ after)) (hc : isWordChar c = true)
    (hl : ∀ c ∈ l, isNameChar c = true) (hafter : ∀ c ∈ after.head?, isNameChar c = false) :
    t.expressionStop false before.length = .ok (before ++ c :: l).length := by
  have hname : isNameChar c = true := by rw [isNameChar, hc, Bool.true_or]
  have hdash : c ≠ '-' := by rintro rfl; revert hc; decide
  have hprime : c ≠ '\'' := by rintro rfl; revert hc; decide
  rw [expressionStop_inert h (isInert_of_isNameChar hname) (absurd · hdash) hprime]
  have hrun := runStop (p := isNameChar) h (List.forall_mem_cons.mpr ⟨hname, hl⟩) hafter
  have hword : t.wordStop? before.length = some ((before ++ c :: l).length : Int) := by
    unfold wordStop?
    simp only [h.clamp_eq, hrun]
    rw [if_pos (by simp)]
  unfold plainStop
  rw [hword]

/-- A run of signs is an expression, unless a comment starts with it. -/
theorem expressionStop_operator (h : t.Reads before (c :: l ++ after))
    (hl : ∀ x ∈ c :: l, isOperatorChar x = true) (hdash : c = '-' → (l ++ after).head? ≠ some '-')
    (hafter : ∀ c ∈ after.head?, isOperatorChar c = false) :
    t.expressionStop false before.length = .ok (before ++ c :: l).length := by
  have hsign := hl c List.mem_cons_self
  have hprime : c ≠ '\'' := by rintro rfl; revert hsign; decide
  rw [expressionStop_inert h (isInert_of_isOperatorChar hsign) hdash hprime]
  have hrun := runStop (p := isOperatorChar) h hl hafter
  have hnone : t.runStop isNameChar before.length = before.length := by
    have hnil : t.Reads before ([] ++ (c :: l ++ after)) := h
    have hrun := runStop (p := isNameChar) hnil (by simp) fun x hx => by
      cases hx
      exact not_isNameChar_of_isOperatorChar hsign
    rwa [List.append_nil] at hrun
  have hword : t.wordStop? before.length = none := by
    unfold wordStop?
    simp only [h.clamp_eq, hnone]
    rw [if_neg (Nat.lt_irrefl _)]
  have hoperator : t.operatorStop? before.length = some ((before ++ c :: l).length : Int) := by
    unfold operatorStop?
    simp only [h.clamp_eq, hrun]
    rw [if_pos (by simp)]
  unfold plainStop
  rw [hword, hoperator]

/-- A literal is an expression. -/
theorem expressionStop_literal {kind : PieceKind} (h : t.Reads before (c :: l ++ after))
    (hc : c = '"' ∨ c = '\'') (hkind : kind = .string ∨ kind = .character)
    (hp : t.pieceAt false before.length t.length = .ok ⟨kind, (before ++ c :: l).length⟩) :
    t.expressionStop false before.length = .ok (before ++ c :: l).length := by
  have hlength := h.append.length
  have hbrackets : isOpening c = false ∧ isClosing c = false := by
    rcases hc with rfl | rfl <;> decide
  rw [expressionStop_eq h hbrackets.1 hbrackets.2 hp (by simp only; omega), if_pos hkind]

end Text.Reads

/-- What may stand right behind a term does not go on with a name. -/
theorem not_isNameChar_of_isEdge {c : Char} (h : isEdge c = true) : isNameChar c = false := by
  rcases isEdge_cases h with rfl | rfl | rfl | rfl | rfl <;> decide

/-- What may stand right behind a term does not go on with an operator. -/
theorem not_isOperatorChar_of_isEdge {c : Char} (h : isEdge c = true) :
    isOperatorChar c = false := by
  rcases isEdge_cases h with rfl | rfl | rfl | rfl | rfl <;> decide

/-- Whether a term is one expression: a number is, when it has no sign and no point. -/
def Term.IsSimple : Term → Prop
  | .atom (.number n) => n.negative = false ∧ n.parts = []
  | _ => True

/-- A term is one expression, a number with a sign or a point apart. -/
theorem Term.expressionStop_write {t : Text} {before after : List Char} (term : Term)
    (hfits : term.Fits) (hsimple : term.IsSimple) (h : t.Reads before (term.write ++ after))
    (hbefore : ∀ c ∈ before.getLast?, isNameChar c = false)
    (hafter : ∀ c ∈ after.head?, isEdge c = true) :
    t.expressionStop false before.length = .ok (before ++ term.write).length := by
  have hname : ∀ c ∈ after.head?, isNameChar c = false :=
    fun c hc => not_isNameChar_of_isEdge (hafter c hc)
  cases term with
  | group opening closing hopening hclosing lead body =>
    have hgroup := (Term.spans_group hopening hclosing hfits.1 (Terms.spans body hfits.2) h).2
    have hlt := Text.Reads.lt_length h
    have hclose : isClosing opening = false := by
      have hcases : opening = '(' ∨ opening = '[' ∨ opening = '\x7b' := by
        simpa [isOpening, or_assoc] using hopening
      rcases hcases with rfl | rfl | rfl <;> decide
    unfold Text.expressionStop
    rw [if_neg (by omega), Text.Reads.read h, Document.ok_bind, hclose, if_neg Bool.false_ne_true,
      if_pos hopening]
    exact hgroup
  | atom a =>
    cases a with
    | name first rest hfirst hrest =>
      rw [isNameStart, Bool.and_eq_true] at hfirst
      exact h.expressionStop_word hfirst.1 hrest hname
    | number n =>
      obtain ⟨negative, whole, parts⟩ := n
      obtain ⟨rfl, rfl⟩ := hsimple
      have hwrite : (Term.atom (.number ⟨false, whole, []⟩)).write = whole.write := by
        simp [Term.write, Atom.write, Numeral.write]
      rw [hwrite] at h ⊢
      exact h.expressionStop_word whole.digit.1 whole.word hname
    | string units => exact h.expressionStop_literal (.inl rfl) (.inl rfl) h.pieceAt_string
    | character c hc =>
      exact h.expressionStop_literal (.inr rfl) (.inr rfl)
        (h.pieceAt_literal hbefore (h.charLiteralStop?_plain hc.1 hc.2))
    | escape c rest hc hrest =>
      exact h.expressionStop_literal (.inr rfl) (.inr rfl)
        (h.pieceAt_literal hbefore (h.charLiteralStop?_escape hc hrest))
    | operator o =>
      obtain ⟨signs, hne, hsigns, hdashes⟩ := o
      obtain ⟨c, l, rfl⟩ := List.exists_cons_of_ne_nil hne
      refine h.expressionStop_operator hsigns ?_ fun c hc =>
        not_isOperatorChar_of_isEdge (hafter c hc)
      rintro rfl
      exact head_ne_dash_of_undashed hdashes fun hdash => absurd (hafter _ hdash) (by decide)

end LayoutRule
