import LayoutRule.Proofs.Layout.Clauses
import LayoutRule.Proofs.Lexical.Terms
import LayoutRule.Proofs.Parallel.Gaps

/-!
# Taking a written clause apart

A clause is written as a head and arguments, perhaps a guard with its condition, and perhaps the
sign of a right-hand side with its body (`ClauseText`); between any two terms there is a gap. Taking
the text apart gives back the places of the parts (`clauseAt_write`). The proof follows the cursor:
it stands at the end of the stretch or at the first code after the gap (`landing`), and over a list
of terms it goes from one to the next (`stepWhile_phrases`).
-/

namespace LayoutRule

/-! ## Clauses in writing -/

/-- The operator does not start with the bar of a guard or the sign of a right-hand side, when a
blank follows it. -/
def Operator.Unmarked (o : Operator) : Prop :=
  (⟨(o.signs ++ [' ']).toArray⟩ : Text).markerStop? 0 = none

/-- The term does not start with the bar of a guard or the sign of a right-hand side. -/
def Term.Unmarked : Term → Prop
  | .atom (.operator o) => o.Unmarked
  | _ => True

/-- A term outside of brackets. -/
structure Phrase where
  /-- The term. -/
  term : Term
  /-- No bracket in it starts a comment. -/
  fits : term.Fits
  /-- It is no guard and no right-hand side. -/
  unmarked : term.Unmarked

/-- How the sign of a right-hand side is written. -/
inductive RhsSign where
  | equals
  | colons
  | arrow
  | backArrow
  /-- One of the signs of one character. -/
  | single (c : Char) (h : c ∈ Text.rhsSigns)

/-- How the sign of a right-hand side is written. -/
def RhsSign.write : RhsSign → List Char
  | .equals => ['=']
  | .colons => [':', ':']
  | .arrow => ['-', '>']
  | .backArrow => ['<', '-']
  | .single c _ => [c]

/-- How terms are written, each behind its gap. -/
def writePhrases (l : List (Gap × Phrase)) : List Char :=
  l.flatMap fun x => x.1.chars ++ x.2.term.write

/-- A written clause. -/
structure ClauseText where
  /-- The head. -/
  head : Phrase
  /-- The head is one expression. -/
  simple : head.term.IsSimple
  /-- The arguments. -/
  arguments : List (Gap × Phrase)
  /-- The gap before the bar of the guard, and the condition. -/
  guard : Option (Gap × List (Gap × Phrase))
  /-- The gap before the sign of the right-hand side, the sign, and the body. -/
  rhs : Option (Gap × RhsSign × List (Gap × Phrase))

namespace ClauseText

/-- How the guard is written. -/
def writeGuard : Option (Gap × List (Gap × Phrase)) → List Char
  | none => []
  | some (gap, condition) => gap.chars ++ '|' :: writePhrases condition

/-- How the right-hand side is written. -/
def writeRhs : Option (Gap × RhsSign × List (Gap × Phrase)) → List Char
  | none => []
  | some (gap, sign, body) => gap.chars ++ sign.write ++ writePhrases body

/-- How the clause is written. -/
def write (c : ClauseText) : List Char :=
  c.head.term.write ++ writePhrases c.arguments ++ writeGuard c.guard ++ writeRhs c.rhs

end ClauseText

/-- Where the first of some terms is, when they are written behind `before`. -/
def firstPlace (before : List Char) (l : List (Gap × Phrase)) : Option Int :=
  l.head?.map fun x => ((before ++ x.1.chars).length : Int)

/-- The text of a name; other terms have none. -/
def Term.nameText : Term → Option String
  | .atom (.name first rest _ _) => some (String.ofList (first :: rest))
  | _ => none

namespace ClauseText

/-- The text before the guard. -/
def beforeGuard (c : ClauseText) : List Char := c.head.term.write ++ writePhrases c.arguments

/-- The text before the right-hand side. -/
def beforeRhs (c : ClauseText) : List Char := c.beforeGuard ++ writeGuard c.guard

/-- Where the parts of the clause are. -/
def parts (c : ClauseText) : Clause where
  name := some 0
  nameText := c.head.term.nameText
  afterName := firstPlace c.head.term.write c.arguments
  guard := c.guard.map fun (gap, _) => ((c.beforeGuard ++ gap.chars).length : Int)
  afterGuard := c.guard.bind fun (gap, condition) =>
    firstPlace (c.beforeGuard ++ gap.chars ++ ['|']) condition
  rhs := c.rhs.map fun (gap, _, _) => ((c.beforeRhs ++ gap.chars).length : Int)
  afterRhs := c.rhs.bind fun (gap, sign, body) =>
    firstPlace (c.beforeRhs ++ gap.chars ++ sign.write) body

end ClauseText

/-! ## Where the cursor goes -/

/-- Blanks and newlines. -/
def isGapChar (c : Char) : Bool := Document.isBlank c || c == '\n'

/-- The end of the stretch, or the first code after the gap behind `before`, when `after` and a
newline follow. -/
def landing (before after : List Char) (stop : Int) : Int :=
  min (before.length + ((after ++ ['\n']).takeWhile isGapChar).length) stop

namespace Document

open Text

variable {d : Document} {rest before after l : List Char} {stop : Int} {x : Char}

/-- Whether a gap goes on at a place. -/
theorem isGapAt_eq (hplain : d.bird = false) (h : d.text.Reads before (x :: after)) :
    d.isGapAt before.length = .ok (isGapChar x) := by
  unfold isGapAt isMarker
  rw [h.read, ok_bind, hplain, show (isBlank x || x == '\n') = isGapChar x from rfl]
  cases isGapChar x <;> rfl

/-- Skipping a gap leads to the first code after it, or to the limit. -/
theorem skipBlanks_eq (hplain : d.bird = false) (h : d.text.Reads before (l ++ rest))
    (hle : (before.length : Int) ≤ stop) (hge : stop ≤ before.length + l.length) :
    d.skipBlanks before.length stop =
      .ok (min (before.length + (l.takeWhile isGapChar).length) stop) := by
  induction l generalizing before with
  | nil =>
    rw [List.length_nil] at hge
    unfold skipBlanks
    rw [advance, if_neg (by omega), List.takeWhile_nil, List.length_nil, Int.min_eq_left (by omega),
      Int.natCast_zero, Int.add_zero]
  | cons c l ih =>
    rw [List.length_cons] at hge
    rcases Int.lt_or_eq_of_le hle with hlt | heq
    · have hgap := isGapAt_eq hplain h
      unfold skipBlanks at ih ⊢
      rw [advance, if_pos hlt, hgap]
      cases hc : isGapChar c with
      | true =>
        have hnext := ih h.step (by rw [List.length_append, List.length_singleton]; omega)
          (by rw [List.length_append, List.length_singleton]; omega)
        rw [List.takeWhile_cons_of_pos hc, List.length_cons]
        rw [List.length_append, List.length_singleton] at hnext
        simp only
        rw [show (before.length : Int) + 1 = (before.length + 1 : Nat) from rfl, hnext]
        congr 1
        omega
      | false =>
        rw [List.takeWhile_cons_of_neg (by rw [hc]; exact Bool.false_ne_true), List.length_nil,
          Int.natCast_zero, Int.add_zero, Int.min_eq_left hle]
    · unfold skipBlanks
      rw [advance, if_neg (by omega), Int.min_eq_right (by omega), heq]

/-- The cursor is behind `before`, with `after` and a newline before it, and the stretch ends with
`after` or the newline. -/
structure Scanned (d : Document) (rest : List Char) (stop : Int) (before after : List Char) :
    Prop where
  /-- The document has no markers. -/
  plain : d.bird = false
  /-- What the text is. -/
  reads : d.text.Reads before (after ++ '\n' :: rest)
  /-- The stretch does not end earlier. -/
  le_stop : ((before ++ after).length : Int) ≤ stop
  /-- The stretch does not end later. -/
  stop_le : stop ≤ (before ++ after).length + 1
  /-- No comment and no bracket is open. -/
  balanced : d.text.Balanced false 0 before.length

namespace Scanned

/-- The stretch that is scanned ends inside the text. -/
theorem stop_le_length (h : d.Scanned rest stop before after) : stop ≤ d.text.length := by
  have hlength := h.reads.length
  have hstop := h.stop_le
  simp only [List.length_append, List.length_cons] at hlength hstop
  omega

/-- The cursor goes over a balanced text. -/
theorem advance (h : d.Scanned rest stop before (l ++ after)) (hl : d.text.Spans before l) :
    d.Scanned rest stop (before ++ l) after := by
  obtain ⟨hplain, hreads, hle, hge, hbalanced⟩ := h
  rw [List.append_assoc] at hreads
  rw [← List.append_assoc] at hle hge
  exact ⟨hplain, hreads.append, hle, hge, hbalanced.trans hl⟩

/-- A cursor with a character of the clause before it has not come to the end of the stretch. -/
theorem lt_stop (h : d.Scanned rest stop before (x :: after)) : (before.length : Int) < stop := by
  have := h.le_stop
  simp only [List.length_append, List.length_cons] at this
  omega

/-- Skipping the gap behind `before`. -/
theorem skipBlanks_landing (h : d.Scanned rest stop before after) :
    d.skipBlanks before.length stop = .ok (landing before after stop) := by
  have hreads : d.text.Reads before (after ++ ['\n'] ++ rest) := by
    rw [List.append_assoc]
    exact h.reads
  have hle := h.le_stop
  have hge := h.stop_le
  simp only [List.length_append] at hle hge
  exact Document.skipBlanks_eq h.plain hreads (by omega)
    (by rw [List.length_append, List.length_singleton]; omega)

/-- Behind a gap the cursor stands at the code. -/
theorem landing_gap (h : d.Scanned rest stop before (l ++ x :: after))
    (hl : ∀ c ∈ l, c = ' ' ∨ c = '\n') (hx : isGapChar x = false) :
    landing before (l ++ x :: after) stop = (before ++ l).length := by
  have htake : (l ++ x :: after ++ ['\n']).takeWhile isGapChar = l := by
    rw [List.append_assoc, List.takeWhile_append_of_pos, List.cons_append,
      List.takeWhile_cons_of_neg, List.append_nil]
    · rw [hx]
      exact Bool.false_ne_true
    · intro c hc
      rcases hl c hc with rfl | rfl <;> decide
  have hle := h.le_stop
  unfold landing
  rw [htake]
  simp only [List.length_append, List.length_cons] at hle ⊢
  omega

/-- Behind the last term the cursor stands at the end of the stretch. -/
theorem landing_nil (h : d.Scanned rest stop before []) : landing before [] stop = stop := by
  have hge := h.stop_le
  rw [List.append_nil] at hge
  exact Int.min_eq_right hge

/-- The cursor never lands behind the end of the stretch. -/
theorem landing_le (before after : List Char) (stop : Int) : landing before after stop ≤ stop :=
  Int.min_le_right _ _

/-! ## Markers -/

/-- What starts a balanced text starts no comment. -/
theorem commentAt_eq (hl : d.text.Spans before (x :: l)) :
    d.commentAt before.length = .ok false := by
  have hpiece : ∃ p, d.text.pieceAt false before.length d.text.length = .ok p ∧
      p.kind ≠ .comment ∧ p.kind ≠ .marker := by
    generalize hj : ((before ++ x :: l).length : Int) = j at hl
    unfold Spans at hl
    rw [hj] at hl
    cases hl with
    | refl =>
      rw [List.length_append, List.length_cons] at hj
      omega
    | piece hp hkind => exact ⟨_, hp, by rcases hkind with h | h | h <;> simp [h]⟩
    | group ho => exact ⟨_, ho, by simp⟩
  obtain ⟨p, hp, hcomment, hmarker⟩ := hpiece
  obtain ⟨c, hc, hcases⟩ := pieceAt_cases hp
  cases hcases with
  | comment => exact absurd rfl hcomment
  | marker => exact absurd rfl hmarker
  | string hno => exact hno
  | character hno => exact hno
  | single hno => exact hno

/-- At code outside of comments the marker is read off the text. -/
theorem markerAt_eq (h : d.Scanned rest stop before (x :: l ++ after))
    (hl : d.text.Spans before (x :: l)) (hx : isGapChar x = false) :
    d.markerAt before.length 0 stop =
      match d.text.markerStop? before.length with
      | some (kind, k) => do
        return ⟨kind, before.length, ← d.skipBlanks k stop,
          String.ofList (d.text.chars.extract before.length k).toList⟩
      | none => .ok ⟨.other, before.length, before.length, ""⟩ := by
  have hlt := h.reads.lt_length
  have hgap := isGapAt_eq h.plain h.reads
  have hblank : d.isBlankLine before.length = false := by
    rw [← Bool.not_eq_true]
    intro hblank
    rw [isGapAt_of_isBlankLine (Int.natCast_nonneg _) hlt hblank, hx] at hgap
    cases hgap
  have hcomment : d.openComment? 0 before.length = .ok none := by
    unfold openComment?
    split
    · rw [commentAt_eq hl]
      rfl
    · obtain ⟨s, hs, -, hstring, hopen⟩ :=
        h.balanced.walk.nestingFrom_cut (s := {}) (Int.le_refl 0) (Int.le_of_lt hlt)
      have hnesting : d.nesting 0 before.length = .ok s := by
        unfold Document.nesting
        rw [h.plain]
        exact hs
      rw [hnesting, ok_bind, hopen, hstring, commentAt_eq hl]
      rfl
  unfold markerAt
  rw [hblank, if_neg Bool.false_ne_true, Int.min_eq_left (Int.natCast_nonneg _), hcomment, ok_bind,
    if_neg (by simp), checkStart_of_mem (Int.natCast_nonneg _) (Int.le_of_lt hlt), ok_bind,
    h.reads.clamp_eq]
  dsimp only
  cases d.text.markerStop? before.length <;> rfl

/-! ## Steps -/

/-- A step over one expression leads to the code behind the gap after it. -/
theorem stepOver_eq (h : d.Scanned rest stop before (x :: l ++ after))
    (hl : d.text.Spans before (x :: l)) (hx : isGapChar x = false) (hclosing : isClosing x = false)
    (hstop : d.text.expressionStop false before.length = .ok (before ++ x :: l).length) :
    d.stepOver before.length stop = .ok (landing (before ++ x :: l) after stop) := by
  have hlt := h.lt_stop
  have hlength := h.reads.lt_length
  have hpass : d.passOver isClosing stop before.length = before.length :=
    passOver_eq h.reads.charAt? hclosing
  have hstart : d.skipBlanks before.length d.text.length = .ok before.length := by
    unfold skipBlanks
    rw [LayoutRule.advance, if_pos hlength, isGapAt_eq h.plain h.reads, hx]
  have hgap : d.skipGap before.length d.text.length = .ok before.length := by
    have hcomment : d.text.commentAt before.length d.text.length = .ok false := commentAt_eq hl
    rw [Parallel.skipGap_step hstart hcomment, if_pos hlength]
    rfl
  have hafter : d.expressionAfter before.length d.text.length = .ok (before ++ x :: l).length := by
    unfold expressionAfter
    rw [hgap, ok_bind, if_neg (by omega), h.plain, hstop]
  have hnext := (h.advance hl).skipBlanks_landing
  have hsymbol : d.nextSymbol before.length stop = .ok (landing (before ++ x :: l) after stop) := by
    unfold nextSymbol
    simp only [hpass]
    rw [if_pos hlt, hafter, ok_bind, hnext, ok_bind, Int.min_eq_left (landing_le _ _ _)]
    rfl
  unfold stepOver
  rw [hsymbol]

end Scanned

/-- One step over a symbol that passes the test. -/
theorem stepWhile_step {origin : Int} {test : LineKind → Bool} {c : Cursor} {m : Marker} {j : Int}
    (hlt : c.pos < stop) (hm : d.markerAt c.pos origin stop = .ok m) (ht : test m.kind = true)
    (hj : d.stepOver c.pos stop = .ok j) :
    d.stepWhile origin stop test c = d.stepWhile origin stop test
      ⟨j, m, c.first <|> some c.pos⟩ := by
  rw [stepWhile, if_pos hlt, hm]
  simp only [ht, if_true]
  split
  · next he => cases hj.symm.trans he
  · next j' hj' =>
    cases hj.symm.trans hj'
    rfl

/-- A test that names and other symbols pass. -/
structure PassesCode (test : LineKind → Bool) : Prop where
  name : test .name = true
  other : test .other = true

/-- The head of a clause goes on over names and other symbols. -/
theorem passesCode_inHead : PassesCode inHead := ⟨rfl, rfl⟩

/-- The condition of a guard goes on over names and other symbols. -/
theorem passesCode_condition : PassesCode (· != .rhs) := ⟨rfl, rfl⟩

/-- The cursor goes over one expression that starts no guard and no right-hand side. -/
theorem Scanned.stepWhile_symbol {test : LineKind → Bool} (htest : PassesCode test)
    (h : d.Scanned rest stop before (x :: l ++ after)) (hl : d.text.Spans before (x :: l))
    (hx : isGapChar x = false) (hclosing : isClosing x = false)
    (hstop : d.text.expressionStop false before.length = .ok (before ++ x :: l).length)
    (hkind : ∀ kind k, d.text.markerStop? before.length = some (kind, k) → kind = .name)
    (m : Marker) (first : Option Int) :
    ∃ m', d.stepWhile 0 stop test ⟨before.length, m, first⟩ =
      d.stepWhile 0 stop test
        ⟨landing (before ++ x :: l) after stop, m', first <|> some (before.length : Int)⟩ := by
  have hlt := h.lt_stop
  have hlength := h.stop_le_length
  obtain ⟨m', hm', -⟩ :=
    markerAt_yields (Int.natCast_nonneg before.length) (by omega) (Int.le_refl 0) hlength
  have hpass : test m'.kind = true := by
    have heq := h.markerAt_eq hl hx
    rw [hm'] at heq
    cases hmarker : d.text.markerStop? before.length with
    | none =>
      rw [hmarker] at heq
      cases heq
      exact htest.other
    | some marker =>
      obtain ⟨kind, k⟩ := marker
      obtain rfl := hkind kind k hmarker
      rw [hmarker] at heq
      obtain ⟨j, -, hj⟩ := bind_eq_ok.1 heq.symm
      cases hj
      exact htest.name
  exact ⟨m', stepWhile_step hlt hm' hpass (h.stepOver_eq hl hx hclosing hstop)⟩

end Document

/-! ## What stands at the start of a term -/

/-- A character that may be the first of a term. -/
structure IsFirst (x : Char) : Prop where
  notGap : isGapChar x = false
  notClosing : isClosing x = false

/-- A character of a word may be the first of a term, and it is none of an operator. -/
theorem isFirst_of_isWordChar {x : Char} (h : isWordChar x = true) :
    IsFirst x ∧ isOperatorChar x = false := by
  have hname : isNameChar x = true := by rw [isNameChar, h, Bool.true_or]
  refine ⟨⟨?_, ?_⟩, ?_⟩ <;> rw [← Bool.not_eq_true] <;> intro hclass
  · have hcases : x = ' ' ∨ x = '\t' ∨ x = '\n' := by
      simpa [isGapChar, Document.isBlank, or_assoc] using hclass
    rcases hcases with rfl | rfl | rfl <;> revert h <;> decide
  · have hcases : x = ')' ∨ x = ']' ∨ x = '\x7d' := by simpa [isClosing, or_assoc] using hclass
    rcases hcases with rfl | rfl | rfl <;> revert h <;> decide
  · rw [not_isNameChar_of_isOperatorChar hclass] at hname
    cases hname

/-- A character of an operator may be the first of a term. -/
theorem isFirst_of_isOperatorChar {x : Char} (h : isOperatorChar x = true) : IsFirst x := by
  have hall : operatorChars.all (fun x => !isGapChar x && !isClosing x) = true := by decide
  have hx := List.all_eq_true.mp hall x (List.contains_iff_mem.mp h)
  rw [Bool.and_eq_true, Bool.not_eq_true', Bool.not_eq_true'] at hx
  exact ⟨hx.1, hx.2⟩

namespace Text

variable {t : Text} {k : Nat} {x y : Char}

/-- Only a sign of an operator starts a guard or a right-hand side. -/
theorem markerStop?_eq_nameStop? (hx : t.chars[k]? = some x) (hsign : isOperatorChar x = false) :
    t.markerStop? k = (t.nameStop? k).map (LineKind.name, ·) := by
  have hno : ∀ y, isOperatorChar y = true → x ≠ y := by
    rintro y hy rfl
    rw [hy] at hsign
    cases hsign
  have hguard : t.guardStop? k = none := by
    unfold guardStop?
    rw [hx]
    split
    · next heq _ => exact absurd (Option.some.inj heq) (hno '|' (by decide))
    · rfl
  have hrhs : t.rhsStop? k = none := by
    have hall : rhsSigns.all isOperatorChar = true ∧
        rhsPairs.all (fun p => isOperatorChar p.1) = true := by decide
    have hsingle : x ∉ rhsSigns := fun hmem => hno x (List.all_eq_true.mp hall.1 x hmem) rfl
    have hpair : ∀ y, (x, y) ∉ rhsPairs :=
      fun y hmem => hno x (List.all_eq_true.mp hall.2 (x, y) hmem) rfl
    unfold rhsStop?
    rw [hx]
    simp only [if_neg hsingle, if_neg (hno '=' (by decide)), if_neg (hpair _)]
    split <;> rfl
  unfold markerStop?
  rw [hguard, hrhs]
  cases t.nameStop? k <;> rfl

/-- No marker starts with a character that starts no name and is no sign. -/
theorem markerStop?_eq_none (hx : t.chars[k]? = some x) (hsign : isOperatorChar x = false)
    (hstart : isNameStart x = false) : t.markerStop? k = none := by
  rw [markerStop?_eq_nameStop? hx hsign, nameStop?, hx]
  simp [hstart]

/-- The kind and the length of the marker that starts with the sign `x` before `y`. -/
def signMarker? (x y : Char) : Option (LineKind × Nat) :=
  if x = '|' then if y = '|' then none else some (.guard, 1)
  else if x ∈ rhsSigns then some (.rhs, 1)
  else if x = '=' then if y = '>' ∨ y = '=' then none else some (.rhs, 1)
  else if rhsPairs.contains (x, y) then some (.rhs, 2)
  else none

/-- A marker is the same whether a newline or a blank follows its first sign. -/
theorem signMarker?_newline (x : Char) : signMarker? x '\n' = signMarker? x ' ' := by
  simp [signMarker?, rhsPairs]

/-- At a sign the marker depends on two characters only. -/
theorem markerStop?_sign (hx : t.chars[k]? = some x) (hy : t.chars[k + 1]? = some y)
    (hsign : isOperatorChar x = true) :
    t.markerStop? k = (signMarker? x y).map fun m => (m.1, k + m.2) := by
  have hstart : isNameStart x = false := by
    have hname := not_isNameChar_of_isOperatorChar hsign
    rw [isNameChar, Bool.or_eq_false_iff] at hname
    rw [isNameStart, hname.1, Bool.false_and]
  have hname : t.nameStop? k = none := by
    unfold nameStop?
    rw [hx]
    simp only [hstart, Bool.false_eq_true, if_false]
  unfold markerStop? guardStop? rhsStop? signMarker?
  rw [hname, hx, hy]
  by_cases hbar : x = '|'
  · subst hbar
    by_cases hdouble : y = '|' <;> simp [hdouble, rhsSigns, rhsPairs]
  · simp only [if_neg hbar]
    simp only [List.contains_iff_mem]
    split_ifs <;> simp [*]

/-- No marker starts with the sign of a number. -/
theorem signMarker?_digit (hx : x = '.' ∨ x = '+' ∨ x = '-') (hy : isWordChar y = true) :
    signMarker? x y = none := by
  have hne : y ≠ '>' := by rintro rfl; revert hy; decide
  rcases hx with rfl | rfl | rfl <;> simp [signMarker?, rhsSigns, rhsPairs, hne]

end Text

/-! ## Stepping over terms -/

/-- A blank or a newline follows, or there is only the newline at the end. -/
def GapNext (after : List Char) : Prop := ∀ c ∈ after.head?, c = ' ' ∨ c = '\n'

/-- At the end of the clause only the newline follows. -/
theorem gapNext_nil : GapNext [] := by
  intro c hc
  cases hc

/-- A gap starts with a blank or a newline. -/
theorem Gap.gapNext (gap : Gap) (after : List Char) : GapNext (gap.chars ++ after) := by
  obtain ⟨c, l, hl⟩ := List.exists_cons_of_ne_nil gap.nonempty
  intro c' hc'
  rw [hl] at hc'
  cases hc'
  exact gap.blank c (by rw [hl]; exact List.mem_cons_self)

namespace GapNext

variable {after rest : List Char}

/-- Where a gap is next, a blank or a newline is the next character, the newline at the end of the
clause included. -/
theorem exists_head (h : GapNext after) (rest : List Char) :
    ∃ y l, after ++ '\n' :: rest = y :: l ∧ (y = ' ' ∨ y = '\n') := by
  cases after with
  | nil => exact ⟨'\n', rest, rfl, .inr rfl⟩
  | cons y after => exact ⟨y, _, rfl, h y rfl⟩

/-- Where a gap is next, the next character is an edge: no word, operator or literal goes on with
it. -/
theorem isEdge (h : GapNext after) : ∀ c ∈ (after ++ '\n' :: rest).head?, isEdge c = true := by
  obtain ⟨y, l, hl, hy⟩ := h.exists_head rest
  intro c hc
  rw [hl] at hc
  cases hc
  exact isEdge_of_blank hy

end GapNext

/-- Phrases are written one after the other, each with its gap in front. -/
theorem writePhrases_cons (gap : Gap) (phrase : Phrase) (l : List (Gap × Phrase))
    (after : List Char) :
    writePhrases ((gap, phrase) :: l) ++ after =
      gap.chars ++ (phrase.term.write ++ (writePhrases l ++ after)) := by
  simp [writePhrases]

/-- Before phrases there is a gap, or what follows them when there are none. -/
theorem gapNext_writePhrases {after : List Char} (l : List (Gap × Phrase))
    (hafter : GapNext after) : GapNext (writePhrases l ++ after) := by
  cases l with
  | nil => exact hafter
  | cons x l =>
    rw [writePhrases_cons]
    exact x.1.gapNext _

/-- Before a right-hand side there is a gap, or the end of the clause when there is none. -/
theorem gapNext_writeRhs (rhs : Option (Gap × RhsSign × List (Gap × Phrase))) :
    GapNext (ClauseText.writeRhs rhs) := by
  cases rhs with
  | none => exact gapNext_nil
  | some rhs =>
    rw [ClauseText.writeRhs, List.append_assoc]
    exact rhs.1.gapNext _

/-- Before a guard there is a gap, or what follows it when there is none. -/
theorem gapNext_writeGuard {after : List Char} (guard : Option (Gap × List (Gap × Phrase)))
    (hafter : GapNext after) : GapNext (ClauseText.writeGuard guard ++ after) := by
  cases guard with
  | none => exact hafter
  | some guard =>
    rw [ClauseText.writeGuard, List.append_assoc]
    exact guard.1.gapNext _

/-- The text that is read between two places. -/
theorem Text.Reads.extract_eq {t : Text} {before l after : List Char}
    (h : t.Reads before (l ++ after)) :
    (t.chars.extract before.length (before ++ l).length).toList = l := by
  unfold Text.Reads at h
  simp [h]

/-- A term starts with a character that is no gap and no closing bracket. -/
theorem Term.exists_first (term : Term) : ∃ x l, term.write = x :: l ∧ IsFirst x := by
  cases term with
  | group opening closing hopening hclosing lead body =>
    have hcases : opening = '(' ∨ opening = '[' ∨ opening = '\x7b' := by
      simpa [isOpening, or_assoc] using hopening
    refine ⟨opening, _, rfl, ?_⟩
    rcases hcases with rfl | rfl | rfl <;> exact ⟨by decide, by decide⟩
  | atom a =>
    cases a with
    | name first rest hfirst hrest =>
      rw [isNameStart, Bool.and_eq_true] at hfirst
      exact ⟨first, rest, rfl, (isFirst_of_isWordChar hfirst.1).1⟩
    | number n =>
      obtain ⟨negative, whole, parts⟩ := n
      cases negative with
      | true => exact ⟨'-', _, rfl, by decide, by decide⟩
      | false => exact ⟨whole.first, _, rfl, (isFirst_of_isWordChar whole.digit.1).1⟩
    | string units => exact ⟨'"', _, rfl, by decide, by decide⟩
    | character c hc => exact ⟨'\'', _, rfl, by decide, by decide⟩
    | escape c rest hc hrest => exact ⟨'\'', _, rfl, by decide, by decide⟩
    | operator o =>
      obtain ⟨x, l, hl⟩ := List.exists_cons_of_ne_nil o.nonempty
      exact ⟨x, l, hl, isFirst_of_isOperatorChar
        (o.isSigns x (by rw [hl]; exact List.mem_cons_self))⟩

/-- The text of a name is what the term is written as. -/
theorem Term.eq_of_nameText {term : Term} {name : String} (h : term.nameText = some name) :
    String.ofList term.write = name := by
  unfold Term.nameText at h
  split at h
  · cases h
    rfl
  · cases h

/-! ## Markers of terms -/

section

open Text

variable {t : Text} {rest before after : List Char}

/-- A name is a marker. -/
theorem markerStop?_name {first : Char} {l : List Char} (hfirst : isNameStart first = true)
    (hl : ∀ c ∈ l, isNameChar c = true) (h : t.Reads before (first :: l ++ after))
    (hafter : ∀ c ∈ after.head?, isNameChar c = false) :
    t.markerStop? before.length = some (.name, (before ++ first :: l).length) := by
  have hword : isWordChar first = true := by
    rw [isNameStart, Bool.and_eq_true] at hfirst
    exact hfirst.1
  have hx : t.chars[before.length]? = some first := h.getElem? 0
  have hnext : t.Reads (before ++ [first]) (l ++ after) := h.step
  have hrun := hnext.runStop hl hafter
  rw [markerStop?_eq_nameStop? hx (isFirst_of_isWordChar hword).2, nameStop?, hx]
  rw [List.append_assoc, List.length_append, List.length_singleton] at hrun
  simp only [hfirst, if_true, hrun, Option.map_some]
  rfl

/-- Digits are no marker. -/
theorem Digits.markerStop?_eq (n : Digits) (h : t.Reads before (n.write ++ after)) :
    t.markerStop? before.length = none := by
  refine markerStop?_eq_none (h.getElem? 0) (isFirst_of_isWordChar n.digit.1).2 ?_
  rw [isNameStart, n.digit.2, Bool.not_true, Bool.and_false]

/-- An operator that starts no marker before a blank starts none before a newline. -/
theorem Operator.markerStop?_eq {o : Operator} (hmark : o.Unmarked)
    (h : t.Reads before (o.signs ++ (after ++ '\n' :: rest))) (hafter : GapNext after) :
    t.markerStop? before.length = none := by
  obtain ⟨signs, hne, hsigns, _⟩ := o
  obtain ⟨x, l, rfl⟩ := List.exists_cons_of_ne_nil hne
  have hx : t.chars[before.length]? = some x := h.getElem? 0
  have hsign := hsigns x List.mem_cons_self
  have hnone : ∀ y, t.chars[before.length + 1]? = some y → signMarker? x y = none →
      t.markerStop? before.length = none := by
    intro y hy hnone
    rw [markerStop?_sign hx hy hsign, hnone, Option.map_none]
  have hmark' : ∀ y, ((x :: l ++ [' ']).toArray)[1]? = some y → signMarker? x y = none := by
    intro y hy
    have h' : (⟨(x :: l ++ [' ']).toArray⟩ : Text).markerStop? 0 = none := hmark
    rw [markerStop?_sign (x := x) (y := y) (by simp) hy hsign, Option.map_eq_none_iff] at h'
    exact h'
  cases l with
  | cons y l => exact hnone y (h.getElem? 1) (hmark' y (by simp))
  | nil =>
    obtain ⟨y, tail, htail, hy⟩ := hafter.exists_head rest
    rw [htail] at h
    refine hnone y (h.getElem? 1) ?_
    have hblank := hmark' ' ' (by simp)
    rcases hy with rfl | rfl
    · exact hblank
    · rw [signMarker?_newline]
      exact hblank

/-- A term that is one expression is a marker when it is a name, and none otherwise. -/
theorem Phrase.markerStop?_eq (phrase : Phrase) (hsimple : phrase.term.IsSimple)
    (h : t.Reads before (phrase.term.write ++ (after ++ '\n' :: rest))) (hafter : GapNext after) :
    t.markerStop? before.length = phrase.term.nameText.map fun _ =>
      (.name, (before ++ phrase.term.write).length) := by
  obtain ⟨term, _, hunmarked⟩ := phrase
  have hplain : ∀ x, x = '"' ∨ x = '\'' ∨ isOpening x = true → t.chars[before.length]? = some x →
      t.markerStop? before.length = none := by
    intro x hx hread
    have hcases : x = '"' ∨ x = '\'' ∨ x = '(' ∨ x = '[' ∨ x = '\x7b' := by
      simpa [isOpening, or_assoc] using hx
    refine markerStop?_eq_none hread ?_ ?_
    · rcases hcases with rfl | rfl | rfl | rfl | rfl <;> decide
    · rcases hcases with rfl | rfl | rfl | rfl | rfl <;> decide
  cases term with
  | group opening closing hopening hclosing lead body =>
    exact hplain opening (.inr (.inr hopening)) (h.getElem? 0)
  | atom a =>
    cases a with
    | name first rest hfirst hrest =>
      exact markerStop?_name hfirst hrest h fun c hc =>
        not_isNameChar_of_isEdge (hafter.isEdge c hc)
    | number n =>
      obtain ⟨negative, whole, parts⟩ := n
      obtain ⟨rfl, rfl⟩ := hsimple
      have hwrite : (Term.atom (.number ⟨false, whole, []⟩)).write = whole.write :=
        List.append_nil _
      rw [hwrite] at h
      exact whole.markerStop?_eq h
    | string units => exact hplain '"' (.inl rfl) (h.getElem? 0)
    | character c hc => exact hplain '\'' (.inr (.inl rfl)) (h.getElem? 0)
    | escape c rest hc hrest => exact hplain '\'' (.inr (.inl rfl)) (h.getElem? 0)
    | operator o => exact Operator.markerStop?_eq hunmarked h hafter

end

namespace Document

open Text

variable {d : Document} {rest before after : List Char} {stop : Int} {test : LineKind → Bool}

namespace Scanned

/-- A term that is one expression is stepped over. -/
theorem stepWhile_simple (htest : PassesCode test) (phrase : Phrase)
    (hsimple : phrase.term.IsSimple) (h : d.Scanned rest stop before (phrase.term.write ++ after))
    (hbefore : ∀ c ∈ before.getLast?, isNameChar c = false) (hafter : GapNext after) (m : Marker)
    (first : Option Int) :
    ∃ m', d.stepWhile 0 stop test ⟨before.length, m, first⟩ =
      d.stepWhile 0 stop test
        ⟨landing (before ++ phrase.term.write) after stop, m',
          first <|> some (before.length : Int)⟩ := by
  have hreads : d.text.Reads before (phrase.term.write ++ (after ++ '\n' :: rest)) := by
    rw [← List.append_assoc]
    exact h.reads
  have hspans := phrase.term.spans phrase.fits hreads hbefore hafter.isEdge
  have hstop := phrase.term.expressionStop_write phrase.fits hsimple hreads hbefore hafter.isEdge
  have hkind : ∀ kind k, d.text.markerStop? before.length = some (kind, k) → kind = .name := by
    intro kind k hmarker
    rw [phrase.markerStop?_eq hsimple hreads hafter] at hmarker
    obtain ⟨name, -, hname⟩ := Option.map_eq_some_iff.mp hmarker
    cases hname
    rfl
  obtain ⟨x, l, hwrite, hx⟩ := phrase.term.exists_first
  rw [hwrite] at h hspans hstop ⊢
  exact h.stepWhile_symbol htest hspans hx.notGap hx.notClosing hstop hkind m first

/-- A point or a sign before digits is stepped over. -/
theorem stepWhile_sign (htest : PassesCode test) {c : Char} (hc : c = '.' ∨ c = '+' ∨ c = '-')
    (n : Digits) (h : d.Scanned rest stop before (c :: (n.write ++ after))) (m : Marker)
    (first : Option Int) :
    d.Scanned rest stop (before ++ [c]) (n.write ++ after) ∧
      ∃ m', d.stepWhile 0 stop test ⟨before.length, m, first⟩ =
        d.stepWhile 0 stop test
          ⟨(before ++ [c]).length, m', first <|> some (before.length : Int)⟩ := by
  have hreads : d.text.Reads before (c :: (n.write ++ (after ++ '\n' :: rest))) := by
    rw [← List.append_assoc]
    exact h.reads
  have hspans := n.spans_sign hc hreads
  have hnext := h.advance (l := [c]) hspans
  obtain ⟨hfirst, hno⟩ := isFirst_of_isWordChar n.digit.1
  have hsign : isOperatorChar c = true := by rcases hc with rfl | rfl | rfl <;> decide
  have hstop := Text.Reads.expressionStop_operator (l := []) hreads (by simpa using hsign)
    (fun _ => n.head_ne_dash) (by
      intro x hx
      cases hx
      exact hno)
  have hkind : ∀ kind k, d.text.markerStop? before.length = some (kind, k) → kind = .name := by
    intro kind k hmarker
    have hx : d.text.chars[before.length]? = some c := hreads.getElem? 0
    rw [markerStop?_sign hx (hreads.getElem? 1) hsign, signMarker?_digit hc n.digit.1] at hmarker
    cases hmarker
  have hland : landing (before ++ [c]) (n.write ++ after) stop = (before ++ [c]).length := by
    have := landing_gap (l := []) hnext (by simp) hfirst.notGap
    rwa [List.append_nil] at this
  have hscan : d.Scanned rest stop before ([c] ++ (n.write ++ after)) := h
  have hsymbol := hscan.stepWhile_symbol htest hspans (isFirst_of_isOperatorChar hsign).notGap
    (isFirst_of_isOperatorChar hsign).notClosing hstop hkind m first
  rw [hland] at hsymbol
  exact ⟨hnext, hsymbol⟩

/-- Digits are stepped over. -/
theorem stepWhile_digits (htest : PassesCode test) (n : Digits)
    (h : d.Scanned rest stop before (n.write ++ after))
    (hafter : ∀ c ∈ (after ++ '\n' :: rest).head?, isNameChar c = false) (m : Marker)
    (first : Option Int) :
    d.Scanned rest stop (before ++ n.write) after ∧
      ∃ m', d.stepWhile 0 stop test ⟨before.length, m, first⟩ =
        d.stepWhile 0 stop test
          ⟨landing (before ++ n.write) after stop, m', first <|> some (before.length : Int)⟩ := by
  have hreads : d.text.Reads before (n.write ++ (after ++ '\n' :: rest)) := by
    rw [← List.append_assoc]
    exact h.reads
  have hspans := n.spans hreads
  have hfirst := (isFirst_of_isWordChar n.digit.1).1
  have hstop := hreads.expressionStop_word n.digit.1 n.word hafter
  have hkind : ∀ kind k, d.text.markerStop? before.length = some (kind, k) → kind = .name := by
    intro kind k hmarker
    rw [n.markerStop?_eq hreads] at hmarker
    cases hmarker
  exact ⟨h.advance hspans,
    h.stepWhile_symbol htest hspans hfirst.notGap hfirst.notClosing hstop hkind m first⟩

/-- A number without a minus is stepped over, part by part. -/
theorem stepWhile_parts (htest : PassesCode test) (n : Digits) (parts : List Fraction)
    (h : d.Scanned rest stop before (n.write ++ (Numeral.writeParts parts ++ after)))
    (hafter : GapNext after) (m : Marker) (first : Option Int) :
    ∃ m', d.stepWhile 0 stop test ⟨before.length, m, first⟩ =
      d.stepWhile 0 stop test
        ⟨landing (before ++ (n.write ++ Numeral.writeParts parts)) after stop, m',
          first <|> some (before.length : Int)⟩ := by
  induction parts generalizing before n m first with
  | nil =>
    have hnil : n.write ++ Numeral.writeParts [] = n.write := List.append_nil _
    rw [hnil]
    exact (stepWhile_digits htest n h (fun c hc => not_isNameChar_of_isEdge (hafter.isEdge c hc)) m
      first).2
  | cons p parts ih =>
    have hparts : Numeral.writeParts (p :: parts) =
        p.sign :: (p.digits.write ++ Numeral.writeParts parts) := rfl
    have hsign : isOperatorChar p.sign = true := by
      rcases p.isSign with h | h | h <;> rw [h] <;> decide
    rw [hparts, List.cons_append, List.append_assoc] at h
    obtain ⟨hrest, m₁, hdigits⟩ := stepWhile_digits htest n h
      (by
        intro c hc
        cases hc
        exact not_isNameChar_of_isOperatorChar hsign) m first
    have hland := landing_gap (l := []) hrest (by simp) (isFirst_of_isOperatorChar hsign).notGap
    rw [List.nil_append, List.append_nil] at hland
    obtain ⟨hnext, m₂, hpoint⟩ :=
      stepWhile_sign htest p.isSign p.digits hrest m₁ (first <|> some (before.length : Int))
    obtain ⟨m₃, htail⟩ := ih p.digits hnext m₂ _
    refine ⟨m₃, ?_⟩
    rw [hdigits, hland, hpoint, htail, hparts]
    have hplace : before ++ n.write ++ [p.sign] ++ (p.digits.write ++ Numeral.writeParts parts) =
        before ++ (n.write ++ p.sign :: (p.digits.write ++ Numeral.writeParts parts)) := by simp
    rw [hplace]
    cases first <;> rfl

/-- A term is stepped over. -/
theorem stepWhile_phrase (htest : PassesCode test) (phrase : Phrase)
    (h : d.Scanned rest stop before (phrase.term.write ++ after))
    (hbefore : ∀ c ∈ before.getLast?, isNameChar c = false) (hafter : GapNext after) (m : Marker)
    (first : Option Int) :
    ∃ m', d.stepWhile 0 stop test ⟨before.length, m, first⟩ =
      d.stepWhile 0 stop test
        ⟨landing (before ++ phrase.term.write) after stop, m',
          first <|> some (before.length : Int)⟩ := by
  by_cases hnumber : ∃ n, phrase.term = .atom (.number n)
  · obtain ⟨⟨negative, whole, parts⟩, hn⟩ := hnumber
    rw [hn] at h ⊢
    cases negative with
    | false =>
      have hwrite : (Term.atom (.number ⟨false, whole, parts⟩)).write =
          whole.write ++ Numeral.writeParts parts := rfl
      rw [hwrite] at h ⊢
      rw [List.append_assoc] at h
      exact stepWhile_parts htest whole parts h hafter m first
    | true =>
      have hwrite : (Term.atom (.number ⟨true, whole, parts⟩)).write =
          '-' :: (whole.write ++ Numeral.writeParts parts) := rfl
      rw [hwrite] at h ⊢
      rw [List.cons_append, List.append_assoc] at h
      obtain ⟨hnext, m₁, hminus⟩ := stepWhile_sign htest (.inr (.inr rfl)) whole h m first
      obtain ⟨m₂, hparts⟩ :=
        stepWhile_parts htest whole parts hnext hafter m₁ (first <|> some (before.length : Int))
      refine ⟨m₂, ?_⟩
      rw [hminus, hparts, List.append_assoc]
      cases first <;> rfl
  · have hsimple : phrase.term.IsSimple := by
      unfold Term.IsSimple
      split
      · next n heq => exact absurd ⟨n, heq⟩ hnumber
      · trivial
    exact stepWhile_simple htest phrase hsimple h hbefore hafter m first

/-- The cursor goes over a gap. -/
theorem advance_gap (gap : Gap) (h : d.Scanned rest stop before (gap.chars ++ after)) :
    d.Scanned rest stop (before ++ gap.chars) after := by
  have hreads : d.text.Reads before (gap.chars ++ (after ++ '\n' :: rest)) := by
    rw [← List.append_assoc]
    exact h.reads
  exact h.advance (hreads.spans_blanks gap.blank)

/-- The cursor goes over a phrase that does not follow on a name and has a gap behind it. -/
theorem advance_phrase (phrase : Phrase)
    (h : d.Scanned rest stop before (phrase.term.write ++ after))
    (hbefore : ∀ c ∈ before.getLast?, isNameChar c = false) (hafter : GapNext after) :
    d.Scanned rest stop (before ++ phrase.term.write) after := by
  have hreads : d.text.Reads before (phrase.term.write ++ (after ++ '\n' :: rest)) := by
    rw [← List.append_assoc]
    exact h.reads
  exact h.advance (phrase.term.spans phrase.fits hreads hbefore hafter.isEdge)

/-- Behind a gap the cursor stands at the term. -/
theorem landing_phrase (gap : Gap) (phrase : Phrase)
    (h : d.Scanned rest stop before (gap.chars ++ (phrase.term.write ++ after))) :
    landing before (gap.chars ++ (phrase.term.write ++ after)) stop =
      (before ++ gap.chars).length := by
  obtain ⟨x, l, hwrite, hx⟩ := phrase.term.exists_first
  rw [hwrite] at h ⊢
  exact h.landing_gap gap.blank hx.notGap

/-- The cursor goes from the end of `before` over all terms behind it. -/
theorem stepWhile_phrases (htest : PassesCode test) (l : List (Gap × Phrase))
    (h : d.Scanned rest stop before (writePhrases l ++ after)) (hafter : GapNext after) (m : Marker)
    (first : Option Int) :
    d.Scanned rest stop (before ++ writePhrases l) after ∧
      ∃ m', d.stepWhile 0 stop test ⟨landing before (writePhrases l ++ after) stop, m, first⟩ =
        d.stepWhile 0 stop test
          ⟨landing (before ++ writePhrases l) after stop, m', first <|> firstPlace before l⟩ := by
  induction l generalizing before m first with
  | nil =>
    have hnil : before ++ writePhrases [] = before := List.append_nil _
    rw [hnil]
    refine ⟨h, m, ?_⟩
    cases first <;> rfl
  | cons x l ih =>
    obtain ⟨gap, phrase⟩ := x
    rw [writePhrases_cons] at h ⊢
    have hafter' := gapNext_writePhrases l hafter
    have hgap := gap.getLast_not_isNameChar before
    have hterm := h.advance_gap gap
    obtain ⟨m₁, hstep⟩ := hterm.stepWhile_phrase htest phrase hgap hafter' m first
    obtain ⟨hend, m₂, hrest⟩ := ih (hterm.advance_phrase phrase hgap hafter') m₁
      (first <|> some ((before ++ gap.chars).length : Int))
    have hplace : before ++ writePhrases ((gap, phrase) :: l) =
        before ++ gap.chars ++ phrase.term.write ++ writePhrases l := by
      have hcons := writePhrases_cons gap phrase l []
      rw [List.append_nil, List.append_nil] at hcons
      rw [hcons, List.append_assoc, List.append_assoc]
    rw [hplace, h.landing_phrase, hstep, hrest]
    refine ⟨hend, m₂, ?_⟩
    cases first <;> rfl

end Scanned

end Document

/-! ## Bars and signs -/

/-- The signs `w` are a marker of the kind `kind` when a gap follows them. -/
structure IsMark (kind : LineKind) (w : List Char) : Prop where
  isSigns : ∀ c ∈ w, isOperatorChar c = true
  undashed : ¬ Text.dashes <:+: w
  marker : ∃ x l, w = x :: l ∧ ∀ y, y = ' ' ∨ y = '\n' →
    Text.signMarker? x (l.headD y) = some (kind, w.length)

/-- A bar is the marker of a guard when a gap follows it. -/
theorem isMark_bar : IsMark .guard ['|'] :=
  ⟨List.all_eq_true.mp rfl, by decide, '|', [], rfl, by rintro y (rfl | rfl) <;> decide⟩

/-- Every sign of a right-hand side is a marker of one when a gap follows it. -/
theorem RhsSign.isMark (sign : RhsSign) : IsMark .rhs sign.write := by
  cases sign with
  | equals =>
    exact ⟨List.all_eq_true.mp rfl, by decide, '=', [], rfl, by rintro y (rfl | rfl) <;> decide⟩
  | colons =>
    exact ⟨List.all_eq_true.mp rfl, by decide, ':', [':'], rfl, by rintro y (rfl | rfl) <;> decide⟩
  | arrow =>
    exact ⟨List.all_eq_true.mp rfl, by decide, '-', ['>'], rfl, by rintro y (rfl | rfl) <;> decide⟩
  | backArrow =>
    exact ⟨List.all_eq_true.mp rfl, by decide, '<', ['-'], rfl, by rintro y (rfl | rfl) <;> decide⟩
  | single c h =>
    have hcases : c = '∷' ∨ c = '→' ∨ c = '←' := by simpa [Text.rhsSigns] using h
    change IsMark .rhs [c]
    rcases hcases with rfl | rfl | rfl <;>
      exact ⟨List.all_eq_true.mp rfl, by decide, _, [], rfl, by rintro y (rfl | rfl) <;> decide⟩

/-- A marker is read off the text. -/
theorem IsMark.markerStop?_eq {kind : LineKind} {w before after rest : List Char} {t : Text}
    (hw : IsMark kind w) (h : t.Reads before (w ++ (after ++ '\n' :: rest)))
    (hafter : GapNext after) : t.markerStop? before.length = some (kind, (before ++ w).length) := by
  obtain ⟨hsigns, -, x, l, rfl, hmarker⟩ := hw
  obtain ⟨y, tail, htail, hy⟩ := hafter.exists_head rest
  rw [htail] at h
  have hx : t.chars[before.length]? = some x := h.getElem? 0
  have hnext : t.chars[before.length + 1]? = some (l.headD y) := by
    rw [h.getElem? 1]
    cases l <;> rfl
  rw [Text.markerStop?_sign hx hnext (hsigns x List.mem_cons_self), hmarker y hy, Option.map_some,
    List.length_append]

namespace Document.Scanned

open Text

variable {d : Document} {rest before after w : List Char} {stop : Int} {test : LineKind → Bool}
  {kind : LineKind}

/-- At a marker that fails the test the cursor stays, and knows the marker. -/
theorem stepWhile_mark (test : LineKind → Bool) (gap : Gap) (hw : IsMark kind w)
    (hkind : test kind = false) (h : d.Scanned rest stop before (gap.chars ++ (w ++ after)))
    (hafter : GapNext after) (m : Marker) (first : Option Int) :
    d.Scanned rest stop (before ++ gap.chars ++ w) after ∧
      ∃ m', d.stepWhile 0 stop test ⟨landing before (gap.chars ++ (w ++ after)) stop, m, first⟩ =
          .ok ⟨(before ++ gap.chars).length, m', first⟩ ∧
        ((before ++ gap.chars).length : Int) < stop ∧ m'.kind = kind ∧
          m'.start = (before ++ gap.chars).length ∧
          m'.stop = landing (before ++ gap.chars ++ w) after stop := by
  have hmark := h.advance_gap gap
  have hreads : d.text.Reads (before ++ gap.chars) (w ++ (after ++ '\n' :: rest)) := by
    rw [← List.append_assoc]
    exact hmark.reads
  have hspans := hreads.spans_operator hw.isSigns hw.undashed fun hdash =>
    absurd (hafter.isEdge _ hdash) (by decide)
  have hmarker := hw.markerStop?_eq hreads hafter
  obtain ⟨x, l, rfl, -⟩ := hw.marker
  have hx := (isFirst_of_isOperatorChar (hw.isSigns x List.mem_cons_self)).notGap
  have hnext := hmark.advance hspans
  have hm := hmark.markerAt_eq hspans hx
  rw [hmarker] at hm
  simp only at hm
  rw [hnext.skipBlanks_landing, ok_bind] at hm
  rw [List.cons_append] at h ⊢
  rw [h.landing_gap gap.blank hx]
  obtain ⟨m', hm', hfacts⟩ : ∃ m', d.markerAt (before ++ gap.chars).length 0 stop = .ok m' ∧
      m'.kind = kind ∧ m'.start = (before ++ gap.chars).length ∧
      m'.stop = landing (before ++ gap.chars ++ x :: l) after stop := ⟨_, hm, rfl, rfl, rfl⟩
  refine ⟨hnext, m', ?_, hmark.lt_stop, hfacts⟩
  rw [stepWhile, if_pos hmark.lt_stop, hm']
  simp only [hfacts.1, hkind, Bool.false_eq_true, if_false]

/-- At the end of the stretch the cursor stays. -/
theorem stepWhile_stop (h : d.Scanned rest stop before []) (m : Marker) (first : Option Int) :
    d.stepWhile 0 stop test ⟨landing before [] stop, m, first⟩ = .ok ⟨stop, m, first⟩ := by
  rw [h.landing_nil, stepWhile, if_neg (Int.lt_irrefl _)]

/-! ## The parts of a clause -/

/-- Where the code behind a sign starts. -/
theorem landing_phrases (l : List (Gap × Phrase))
    (h : d.Scanned rest stop before (writePhrases l)) :
    (if landing before (writePhrases l) stop < stop then some (landing before (writePhrases l) stop)
      else none) = firstPlace before l := by
  cases l with
  | nil =>
    have hland : landing before (writePhrases []) stop = stop := h.landing_nil
    rw [hland, if_neg (Int.lt_irrefl _)]
    rfl
  | cons x l =>
    obtain ⟨gap, phrase⟩ := x
    have hcons := writePhrases_cons gap phrase l []
    rw [List.append_nil, List.append_nil] at hcons
    rw [hcons] at h ⊢
    rw [h.landing_phrase gap phrase, if_pos]
    · rfl
    · have hterm := h.advance_gap gap
      obtain ⟨x, tail, hwrite, -⟩ := phrase.term.exists_first
      rw [hwrite] at hterm
      exact hterm.lt_stop

/-- From the end of what is before it the cursor comes to the right-hand side, or to the end of the
stretch. -/
theorem stepWhile_rhs (test : LineKind → Bool) (htest : test .rhs = false)
    (rhs : Option (Gap × RhsSign × List (Gap × Phrase)))
    (h : d.Scanned rest stop before (ClauseText.writeRhs rhs)) (m : Marker) (first : Option Int) :
    ∃ c, d.stepWhile 0 stop test ⟨landing before (ClauseText.writeRhs rhs) stop, m, first⟩ = .ok c ∧
      c.first = first ∧
      ¬ (c.pos < stop ∧ c.marker.kind = .guard) ∧
      ∀ clause : Clause, clause.rhs = none → clause.afterRhs = none →
        rhsPart stop clause c = { clause with
          rhs := rhs.map fun (gap, _, _) => ((before ++ gap.chars).length : Int)
          afterRhs := rhs.bind fun (gap, sign, body) =>
            firstPlace (before ++ gap.chars ++ sign.write) body } := by
  cases rhs with
  | none =>
    refine ⟨_, h.stepWhile_stop m first, rfl, fun hc => Int.lt_irrefl _ hc.1, ?_⟩
    intro clause hrhs hafter
    rw [rhsPart, if_neg fun hc => Int.lt_irrefl _ hc.1]
    cases clause
    cases hrhs
    cases hafter
    rfl
  | some rhs =>
    obtain ⟨gap, sign, body⟩ := rhs
    have hwrite : ClauseText.writeRhs (some (gap, sign, body)) =
        gap.chars ++ (sign.write ++ writePhrases body) := List.append_assoc _ _ _
    have hgap : GapNext (writePhrases body) := by
      have := gapNext_writePhrases body gapNext_nil
      rwa [List.append_nil] at this
    rw [hwrite] at h ⊢
    obtain ⟨hnext, m', hm', hlt, hkind, hstart, hstop⟩ :=
      h.stepWhile_mark test gap sign.isMark htest hgap m first
    refine ⟨_, hm', rfl, ?_, ?_⟩
    · rintro ⟨-, hguard⟩
      rw [hkind] at hguard
      cases hguard
    · intro clause _ _
      rw [rhsPart, if_pos ⟨hlt, hkind⟩]
      simp only [hstart, hstop, Int.min_eq_left (landing_le _ _ _), hnext.landing_phrases body]
      rfl

/-- The guard, when there is one, and the right-hand side. -/
theorem guardPart_eq (guard : Option (Gap × List (Gap × Phrase)))
    (rhs : Option (Gap × RhsSign × List (Gap × Phrase)))
    (h : d.Scanned rest stop before (ClauseText.writeGuard guard ++ ClauseText.writeRhs rhs))
    (m : Marker) (first : Option Int) :
    ∃ c, d.stepWhile 0 stop inHead
        ⟨landing before (ClauseText.writeGuard guard ++ ClauseText.writeRhs rhs) stop, m, first⟩ =
          .ok c ∧ c.first = first ∧
      ∀ clause : Clause, clause.guard = none → clause.afterGuard = none → clause.rhs = none →
        clause.afterRhs = none →
        (d.guardPart stop 0 clause c >>= fun (clause, c) => pure (rhsPart stop clause c)) =
          .ok { clause with
            guard := guard.map fun (gap, _) => ((before ++ gap.chars).length : Int)
            afterGuard := guard.bind fun (gap, condition) =>
              firstPlace (before ++ gap.chars ++ ['|']) condition
            rhs := rhs.map fun (gap, _, _) =>
              ((before ++ ClauseText.writeGuard guard ++ gap.chars).length : Int)
            afterRhs := rhs.bind fun (gap, sign, body) =>
              firstPlace (before ++ ClauseText.writeGuard guard ++ gap.chars ++ sign.write)
                body } := by
  cases guard with
  | none =>
    obtain ⟨c, hc, hfirst, hguard, hpart⟩ := h.stepWhile_rhs inHead rfl rhs m first
    refine ⟨c, hc, hfirst, fun clause h₁ h₂ h₃ h₄ => ?_⟩
    have hnil : before ++ ClauseText.writeGuard none = before := List.append_nil _
    rw [guardPart, if_neg hguard, hnil]
    change Except.ok (rhsPart stop clause c) = _
    rw [hpart clause h₃ h₄]
    simp only [Option.map_none, Option.bind_none, h₁, h₂]
  | some guard =>
    obtain ⟨gap, condition⟩ := guard
    have hwrite : ClauseText.writeGuard (some (gap, condition)) ++ ClauseText.writeRhs rhs =
        gap.chars ++ (['|'] ++ (writePhrases condition ++ ClauseText.writeRhs rhs)) := by
      simp [ClauseText.writeGuard]
    have hbefore : before ++ ClauseText.writeGuard (some (gap, condition)) =
        before ++ gap.chars ++ ['|'] ++ writePhrases condition := by
      simp [ClauseText.writeGuard]
    have hgap := gapNext_writeRhs rhs
    rw [hwrite] at h ⊢
    obtain ⟨hnext, m', hm', hlt, hkind, hstart, hstop⟩ :=
      h.stepWhile_mark inHead gap isMark_bar rfl (gapNext_writePhrases condition hgap) m first
    refine ⟨_, hm', rfl, fun clause _ _ h₃ h₄ => ?_⟩
    obtain ⟨hend, m₁, hcondition⟩ :=
      hnext.stepWhile_phrases passesCode_condition condition hgap m' none
    obtain ⟨c, hc, hfirst, -, hpart⟩ :=
      hend.stepWhile_rhs (· != .rhs) rfl rhs m₁
        (none <|> firstPlace (before ++ gap.chars ++ ['|']) condition)
    rw [guardPart, if_pos ⟨hlt, hkind⟩]
    simp only [hstop, hstart, Int.min_eq_left (landing_le _ _ _)]
    rw [hcondition, hc]
    refine (congrArg Except.ok (hpart { clause with guard := _, afterGuard := c.first } h₃
      h₄)).trans ?_
    rw [hfirst, hbefore]
    rfl

/-- The head of the clause; what follows is found by going on behind it. -/
theorem headPart_eq (head : Phrase) (hsimple : head.term.IsSimple)
    (h : d.Scanned rest stop [] (head.term.write ++ after)) (hafter : GapNext after) :
    ∃ m, d.markerAt 0 0 stop = .ok m ∧
      d.headPart 0 stop 0 m = (do
        let c ← d.stepWhile 0 stop inHead ⟨landing head.term.write after stop, m, none⟩
        return (⟨some 0, head.term.nameText, c.first, none, none, none, none⟩, c)) := by
  have hreads : d.text.Reads [] (head.term.write ++ (after ++ '\n' :: rest)) := by
    rw [← List.append_assoc]
    exact h.reads
  have hnone : ∀ c ∈ ([] : List Char).getLast?, isNameChar c = false := by
    intro c hc
    cases hc
  have hspans := head.term.spans head.fits hreads hnone hafter.isEdge
  have hstop := head.term.expressionStop_write head.fits hsimple hreads hnone hafter.isEdge
  have hmarker := head.markerStop?_eq hsimple hreads hafter
  have hnext := h.advance hspans
  obtain ⟨x, l, hwrite, hx⟩ := head.term.exists_first
  have hscan : d.Scanned rest stop [] (x :: l ++ after) := hwrite ▸ h
  have hspans' : d.text.Spans [] (x :: l) := hwrite ▸ hspans
  have hm := hscan.markerAt_eq hspans' hx.notGap
  rw [hmarker] at hm
  cases hname : head.term.nameText with
  | none =>
    rw [hname] at hm
    refine ⟨_, hm, ?_⟩
    have hpass : d.passOver isBlank stop 0 = 0 :=
      passOver_eq hscan.reads.charAt? (Bool.or_eq_false_iff.mp hx.notGap).1
    have hstep : d.stepOver 0 stop = .ok (landing head.term.write after stop) := by
      rw [hwrite] at hstop ⊢
      exact hscan.stepOver_eq hspans' hx.notGap hx.notClosing hstop
    simp only [headPart, hpass, hstep]
    rfl
  | some name =>
    have htext : String.ofList (d.text.chars.extract 0 head.term.write.length).toList = name := by
      have hextract := hreads.extract_eq
      rw [List.nil_append, List.length_nil] at hextract
      rw [hextract, Term.eq_of_nameText hname]
    rw [hname] at hm
    simp only [Option.map_some] at hm
    rw [hnext.skipBlanks_landing, ok_bind] at hm
    refine ⟨_, hm, ?_⟩
    simp only [headPart, Int.min_eq_left (landing_le _ _ _)]
    rw [List.nil_append, List.length_nil, htext]
    rfl

end Document.Scanned

/-! ## Written clauses are taken apart -/

namespace Document

/-- Taking a written clause apart gives the places of its parts. -/
theorem clauseAt_write (c : ClauseText) (rest : List Char) (d : Document) (stop : Int)
    (hplain : d.bird = false) (htext : d.text.chars.toList = c.write ++ '\n' :: rest)
    (hstop : stop = c.write.length ∨ stop = (c.write.length : Int) + 1) :
    d.clauseAt 0 stop 0 = .ok c.parts := by
  obtain ⟨head, hsimple, arguments, guard, rhs⟩ := c
  have hwrite : (⟨head, hsimple, arguments, guard, rhs⟩ : ClauseText).write =
      head.term.write ++
        (writePhrases arguments ++ (ClauseText.writeGuard guard ++ ClauseText.writeRhs rhs)) := by
    simp [ClauseText.write]
  rw [hwrite] at htext hstop
  have hscan : d.Scanned rest stop []
      (head.term.write ++
        (writePhrases arguments ++ (ClauseText.writeGuard guard ++ ClauseText.writeRhs rhs))) :=
    ⟨hplain, htext, by rw [List.nil_append]; omega, by rw [List.nil_append]; omega, .refl _⟩
  have hgap := gapNext_writeGuard guard (gapNext_writeRhs rhs)
  have hgap' := gapNext_writePhrases arguments hgap
  obtain ⟨m, hm, hhead⟩ := hscan.headPart_eq head hsimple hgap'
  have harguments : d.Scanned rest stop head.term.write _ :=
    hscan.advance_phrase head (by simp) hgap'
  obtain ⟨hnext, m₁, hsteps⟩ := harguments.stepWhile_phrases passesCode_inHead arguments hgap m none
  obtain ⟨c, hc, hfirst, hparts⟩ :=
    hnext.guardPart_eq guard rhs m₁ (none <|> firstPlace head.term.write arguments)
  unfold clauseAt
  rw [hm, ok_bind, hhead, hsteps, hc]
  refine (hparts ⟨some 0, head.term.nameText, c.first, none, none, none, none⟩ rfl rfl rfl
    rfl).trans ?_
  rw [hfirst]
  rfl

end Document

/-- A list that passes the test for blanks and newlines has nothing else in it. -/
theorem isBlanks_of_all {l : List Char} (h : (l.all fun c => c == ' ' || c == '\n') = true) :
    ∀ c ∈ l, c = ' ' ∨ c = '\n' := by
  simpa using h

/-- One blank. -/
def Gap.single : Gap := ⟨⟨[' '], isBlanks_of_all rfl⟩, by decide⟩

/-- A clause with an equals sign in brackets, a number of four expressions, and its guard on the
next line. -/
def guardedClause : ClauseText where
  head := ⟨.atom (.name 'f' [] (by decide) (List.all_eq_true.mp rfl)), trivial, trivial⟩
  simple := trivial
  arguments :=
    [(.single, ⟨.group '(' ')' (by decide) (by decide) ⟨[], isBlanks_of_all rfl⟩
        (.more (.atom (.name 'a' [] (by decide) (List.all_eq_true.mp rfl))) .single
          (.more (.atom (.operator ⟨['='], by decide, List.all_eq_true.mp rfl, by decide⟩)) .single
            (.last (.atom (.character 'b' (by decide))) ⟨[], isBlanks_of_all rfl⟩))),
        ⟨fun h => absurd h (by decide), trivial, trivial, trivial⟩, trivial⟩),
     (.single, ⟨.atom (.number ⟨true, ⟨'1', [], by decide, List.all_eq_true.mp rfl⟩,
        [⟨'.', ⟨'5', [], by decide, List.all_eq_true.mp rfl⟩, .inl rfl⟩]⟩),
        trivial, trivial⟩)]
  guard := some (⟨⟨['\n', ' '], isBlanks_of_all rfl⟩, by decide⟩,
    [(.single, ⟨.atom (.operator ⟨['<', '='], by decide, List.all_eq_true.mp rfl, by decide⟩),
      trivial, rfl⟩)])
  rhs := some (.single, .equals, [(.single, ⟨.atom (.string []), trivial, trivial⟩)])

namespace Document

/-- A clause whose arguments hold an equals sign in brackets and a quoted letter, and whose guard
stands on a line of its own, is taken apart into the parts it was written from. -/
theorem clauseAt_write_guardedClause :
    guardedClause.write = "f (a = 'b') -1.5\n | <= = \"\"".toList ∧
      (Document.new (Text.ofString "f (a = 'b') -1.5\n | <= = \"\"\n") .plain 8).clauseAt 0 27 0 =
        .ok ⟨some 0, some "f", some 2, some 18, some 20, some 23, some 25⟩ := by
  have hwrite : guardedClause.write = "f (a = 'b') -1.5\n | <= = \"\"".toList := by decide +kernel
  have hparts : guardedClause.parts =
      ⟨some 0, some "f", some 2, some 18, some 20, some 23, some 25⟩ := by decide +kernel
  refine ⟨hwrite, ?_⟩
  rw [← hparts]
  exact clauseAt_write guardedClause [] _ 27 rfl (by rw [hwrite]; decide +kernel)
    (.inl (by rw [hwrite]; decide +kernel))

/-- A head with a point in it is more than one expression, and a dash right behind a brace starts a
comment. -/
theorem clauseAt_pointed_or_braced :
    (Document.new (Text.ofString "1.5 x = 2\n") .plain 8).clauseAt 0 9 0 =
        .ok ⟨some 0, none, some 1, none, none, some 6, some 8⟩ ∧
      (Document.new (Text.ofString "f \x7b- x\x7d = 1\n") .plain 8).clauseAt 0 11 0 =
        .ok ⟨some 0, some "f", none, none, none, none, none⟩ := by
  decide +kernel

end Document

end LayoutRule
