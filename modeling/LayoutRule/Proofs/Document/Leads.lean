import LayoutRule.Request.KeywordPair
import LayoutRule.Proofs.Document.Gaps

/-!
# Scanning over indentation

The *lead* of a line is its indentation, with the marker of a literate line. Nothing in a lead is
code: a scan that reaches the start of a line goes on as it would from the indentation point,
whether it is inside a string or a comment or outside of both. The character before an indentation
point neither ends a name nor an operator, and no position of the code of a line is a marker.
-/

namespace LayoutRule

namespace Document

open Text

variable {d : Document} {x i pos limit : Int} {c : Char}

/-! ## The characters of a lead -/

/-- A character of a lead is a blank, or the marker at the start of the line. -/
theorem char_lead (hx : d.text.lineStart x = x) (h₁ : x ≤ i) (h₂ : i < d.indentationPoint x) :
    ∃ c, d.text.charAt? i = some c ∧ (isBlank c = true ∨ (c = '>' ∧ i = x ∧ d.bird = true)) := by
  have h₀ : 0 ≤ x := hx ▸ d.text.lineStart_nonneg x
  unfold indentationPoint at h₂
  rw [hx] at h₂
  unfold codeOrigin at h₂
  split at h₂
  · next hmark =>
    simp only [Bool.and_eq_true, beq_iff_eq] at hmark
    rcases Int.lt_or_eq_of_le h₁ with hlt | rfl
    · obtain ⟨c, hc, hb⟩ :=
        char_of_lt_runStop (t := d.text) (p := isBlank) (k := (x + 1).toNat) (i := i.toNat)
          (by omega) (by omega)
      exact ⟨c, (charAt?_eq (by omega)).trans hc, .inl hb⟩
    · exact ⟨'>', hmark.2, .inr ⟨rfl, rfl, hmark.1⟩⟩
  · obtain ⟨c, hc, hb⟩ :=
      char_of_lt_runStop (t := d.text) (p := isBlank) (k := x.toNat) (i := i.toNat) (by omega)
        (by omega)
    exact ⟨c, (charAt?_eq (by omega)).trans hc, .inl hb⟩

/-- Before an indentation point stands nothing, a newline, a blank or a marker. -/
theorem char_before_point (d : Document) (pos : Int) :
    d.text.charAt? (d.indentationPoint pos - 1) = none ∨
      ∃ c, d.text.charAt? (d.indentationPoint pos - 1) = some c ∧
        (c = '\n' ∨ isBlank c = true ∨ c = '>') := by
  have hle := d.lineStart_le_indentationPoint pos
  have h₀ := d.text.lineStart_nonneg pos
  have hpoint := indentationPoint_eq_of_lineStart_eq (d := d) (d.text.lineStart_lineStart pos)
  rcases Int.lt_or_eq_of_le hle with hlt | heq
  · obtain ⟨c, hc, hlead⟩ :=
      char_lead (d.text.lineStart_lineStart pos) (i := d.indentationPoint pos - 1) (by omega)
        (by omega)
    refine .inr ⟨c, hc, ?_⟩
    rcases hlead with hb | ⟨hc, -⟩
    · exact .inr (.inl hb)
    · exact .inr (.inr hc)
  · rcases Int.lt_or_eq_of_le h₀ with hpos | hzero
    · right
      refine ⟨'\n', ?_, .inl rfl⟩
      rw [charAt?_eq (by omega), ← heq,
        show (d.text.lineStart pos - 1).toNat = (d.text.lineStart pos).toNat - 1 by omega]
      exact newline_before_lineStart pos hpos
    · left
      unfold charAt?
      rw [if_neg (by omega)]

/-- A blank is no character of an operator. -/
theorem not_isOperatorChar_of_isBlank (h : isBlank c = true) : isOperatorChar c = false := by
  unfold isBlank at h
  rw [Bool.or_eq_true, beq_iff_eq, beq_iff_eq] at h
  rcases h with rfl | rfl <;> decide

/-- A blank is no character of a name. -/
theorem not_isNameChar_of_isBlank (h : isBlank c = true) : isNameChar c = false := by
  unfold isBlank at h
  rw [Bool.or_eq_true, beq_iff_eq, beq_iff_eq] at h
  rcases h with rfl | rfl <;> decide

/-- No operator ends right before an indentation point, a marker apart. -/
theorem afterOperator_point (d : Document) (pos : Int) :
    d.text.afterOperator (d.indentationPoint pos) = false := by
  unfold afterOperator
  rcases d.char_before_point pos with hnone | ⟨c, hc, rfl | hb | rfl⟩
  · rw [hnone]
  · rw [hc]
    decide
  · rw [hc]
    simp [not_isOperatorChar_of_isBlank hb]
  · rw [hc]
    decide

/-- No name ends right before an indentation point. -/
theorem not_isNameChar_before_point (d : Document) (pos : Int)
    (hc : d.text.charAt? (d.indentationPoint pos - 1) = some c) : isNameChar c = false := by
  rcases d.char_before_point pos with hnone | ⟨c', hc', hlead⟩
  · rw [hc] at hnone
    cases hnone
  · rw [hc] at hc'
    cases hc'
    rcases hlead with rfl | hb | rfl
    · decide
    · exact not_isNameChar_of_isBlank hb
    · decide

/-! ## Markers -/

/-- A position that starts a line is the start of its line. -/
theorem lineStart_of_startsLine (h₀ : 0 ≤ pos) (h₁ : pos ≤ d.text.length)
    (h : d.text.startsLine pos = .ok true) : d.text.lineStart pos = pos := by
  have hrun : d.text.runStart notNewline pos.toNat = pos.toNat := by
    unfold startsLine at h
    split at h
    · next hzero =>
      rw [hzero]
      rfl
    · obtain ⟨c, hread, hc⟩ := read_yields (t := d.text) (i := pos - 1) (by omega) (by omega)
      rw [hread] at h
      have hnl : c = '\n' := by simpa [Except.map] using h
      subst hnl
      have := runStart_of_newline hc
      rw [show (pos - 1).toNat + 1 = pos.toNat by omega] at this
      exact this
  unfold lineStart
  rw [bound_toNat h₀ h₁, hrun]
  omega

/-- No position of the code of a line is a marker. -/
theorem isMarker_code (hcode : d.indentationPoint pos ≤ pos) (h₁ : pos < d.text.length)
    (hc : d.text.charAt? pos = some c) : d.text.isMarker d.bird c pos = .ok false := by
  have h₀ : 0 ≤ pos := Int.le_trans (d.indentationPoint_nonneg pos) hcode
  unfold isMarker
  split
  · next hmark =>
    simp only [Bool.and_eq_true, beq_iff_eq] at hmark
    obtain ⟨b, hb, -⟩ := startsLine_yields (t := d.text) (i := pos) h₀ (by omega)
    cases b with
    | false => exact hb
    | true =>
      have hstart := lineStart_of_startsLine h₀ (by omega) hb
      have horigin := (d.indentationPoint_bounds pos).1
      unfold codeOrigin at horigin
      rw [hstart, hc, hmark.1, hmark.2] at horigin
      simp only [Bool.true_and, beq_self_eq_true, if_true] at horigin
      omega
  · rfl

/-- Reading a place with a character gives this character. -/
theorem read_eq {t : Text} (h₀ : 0 ≤ i) (hc : t.charAt? i = some c) : t.read i = .ok c := by
  rw [charAt?_eq h₀] at hc
  unfold Text.read read?
  rw [if_pos h₀, hc]

/-- A place with a character lies inside the text. -/
theorem lt_length_of_charAt? {t : Text} (h₀ : 0 ≤ i) (hc : t.charAt? i = some c) :
    i < t.length := by
  rw [charAt?_eq h₀] at hc
  have := (Array.getElem?_eq_some_iff.mp hc).1
  unfold length
  omega

/-- In the code of a line the gaps are blanks, up to the newline. -/
theorem isGapAt_code (hcode : d.indentationPoint pos ≤ pos) (hc : d.text.charAt? pos = some c) :
    d.isGapAt pos = .ok (isBlank c || c == '\n') := by
  have h₀ : 0 ≤ pos := Int.le_trans (d.indentationPoint_nonneg pos) hcode
  unfold isGapAt
  rw [read_eq h₀ hc]
  show (if (isBlank c || c == '\n') = true then pure true else d.text.isMarker d.bird c pos) = _
  rw [isMarker_code hcode (lt_length_of_charAt? h₀ hc) hc]
  cases isBlank c || c == '\n' <;> rfl

/-- A lead is a gap. -/
theorem isGapAt_lead (hx : d.text.lineStart x = x) (h₁ : x ≤ i) (h₂ : i < d.indentationPoint x) :
    d.isGapAt i = .ok true := by
  have h₀ : 0 ≤ x := hx ▸ d.text.lineStart_nonneg x
  obtain ⟨c, hc, hlead⟩ := char_lead hx h₁ h₂
  unfold isGapAt
  rw [read_eq (by omega) hc]
  show (if (isBlank c || c == '\n') = true then pure true else d.text.isMarker d.bird c i) =
    .ok true
  rcases hlead with hb | ⟨rfl, rfl, hbird⟩
  · rw [hb]
    rfl
  · have hlen := lt_length_of_charAt? h₀ hc
    have hstarts := startsLine_lineStart (d := d) h₀ hlen
    rw [hx] at hstarts
    unfold isMarker
    rw [hbird, hstarts]
    rfl

/-! ## Words -/

/-- A word does not start where another character than its first one stands. -/
theorem hasWord_eq_false {t : Text} {w : List Char} {c' : Char} (h₀ : 0 ≤ i)
    (hc : t.charAt? i = some c) (hne : c ≠ c') : t.hasWord (c' :: w) i limit = false := by
  have hlen := lt_length_of_charAt? h₀ hc
  rw [charAt?_eq h₀] at hc
  unfold hasWord holdsAt
  rw [bound_toNat h₀ (by omega), hc, beq_eq_false_iff_ne.mpr fun h => hne (Option.some.inj h)]
  simp

/-- The characters of a lead start none of the pieces that are longer than one character. -/
theorem ne_of_lead {c' : Char} (hlead : isBlank c = true ∨ (c = '>' ∧ i = x ∧ d.bird = true))
    (hblank : isBlank c' = false) (hmark : c' ≠ '>') : c ≠ c' := by
  rintro rfl
  rcases hlead with hb | ⟨hc, -⟩
  · rw [hblank] at hb
    cases hb
  · exact hmark hc

/-! ## Scans -/

/-- What does not change from one position of a lead to the next is the same at both of its ends. -/
theorem eq_point_of_lead {α : Type} (f : Int → α) (hx : d.text.lineStart x = x)
    (hstep : ∀ i, x ≤ i → i < d.indentationPoint x → f i = f (i + 1)) :
    f x = f (d.indentationPoint x) := by
  have hle : x ≤ d.indentationPoint x := by
    have := d.lineStart_le_indentationPoint x
    omega
  have hall : ∀ n : Nat, x + n ≤ d.indentationPoint x → f x = f (x + n) := by
    intro n
    induction n with
    | zero => simp
    | succ n ih =>
      intro hn
      rw [ih (by omega), hstep (x + n) (by omega) (by omega),
        show x + (n + 1 : Nat) = x + n + 1 by omega]
  have := hall (d.indentationPoint x - x).toNat (by omega)
  rw [show x + ((d.indentationPoint x - x).toNat : Int) = d.indentationPoint x by omega] at this
  exact this

/-- A computation that has a value goes on with it. -/
theorem ok_bind {α β : Type} (a : α) (f : α → Except Fault β) : (Except.ok a >>= f) = f a := rfl

/-- Every character of a lead is a piece of its own. -/
theorem pieceAt_lead (hx : d.text.lineStart x = x) (h₁ : x ≤ i) (h₂ : i < d.indentationPoint x)
    (limit : Int) :
    ∃ p, d.text.pieceAt d.bird i limit = .ok p ∧ p.stop = i + 1 ∧
      (p.kind = .other ∨ p.kind = .marker) := by
  have h₀ : 0 ≤ x := hx ▸ d.text.lineStart_nonneg x
  obtain ⟨c, hc, hlead⟩ := char_lead hx h₁ h₂
  have hopen : d.text.hasWord blockOpen i limit = false :=
    hasWord_eq_false (by omega) hc (ne_of_lead hlead (by decide) (by decide))
  have hdash : d.text.hasWord dashes i limit = false :=
    hasWord_eq_false (by omega) hc (ne_of_lead hlead (by decide) (by decide))
  have hcomment : d.text.commentAt i limit = .ok false := by
    unfold Text.commentAt blockCommentAt lineCommentAt
    rw [hopen, hdash]
    rfl
  unfold pieceAt
  rw [read_eq (by omega) hc, ok_bind, hcomment]
  rcases hlead with hb | ⟨rfl, rfl, hbird⟩
  · have hmark : d.text.isMarker d.bird c i = .ok false := by
      unfold isMarker
      rw [beq_eq_false_iff_ne.mpr (by rintro rfl; exact absurd hb (by decide)), Bool.and_false]
      rfl
    have hquote : c ≠ '"' := by rintro rfl; exact absurd hb (by decide)
    have hprime : c ≠ '\'' := by rintro rfl; exact absurd hb (by decide)
    have hsingle : singlePiece c i = ⟨.other, i + 1⟩ := by
      unfold isBlank at hb
      rw [Bool.or_eq_true, beq_iff_eq, beq_iff_eq] at hb
      rcases hb with rfl | rfl <;> rfl
    refine ⟨singlePiece c i, ?_, by rw [hsingle], by rw [hsingle]; exact .inl rfl⟩
    unfold characterAt?
    rw [hmark, ok_bind, if_neg Bool.false_ne_true, ok_bind, if_neg Bool.false_ne_true,
      if_neg hquote, if_neg hprime]
    rfl
  · have hlen := lt_length_of_charAt? h₀ hc
    have hstarts := startsLine_lineStart (d := d) h₀ hlen
    rw [hx] at hstarts
    refine ⟨⟨.marker, i + 1⟩, ?_, rfl, .inr rfl⟩
    unfold isMarker
    rw [hbird, hstarts]
    rfl

/-- A block comment that is open at the start of a line ends where it would if the scan went on from
the indentation point: a lead neither opens nor closes a comment. -/
theorem blockStop_lead (hx : d.text.lineStart x = x) (depth : Nat) :
    d.text.blockStop depth x = d.text.blockStop depth (d.indentationPoint x) := by
  have h₀ : 0 ≤ x := hx ▸ d.text.lineStart_nonneg x
  refine eq_point_of_lead (fun i => d.text.blockStop depth i) hx fun i h₁ h₂ => ?_
  obtain ⟨c, hc, hlead⟩ := char_lead hx h₁ h₂
  have hopen : d.text.hasWord blockOpen i d.text.length = false :=
    hasWord_eq_false (by omega) hc (ne_of_lead hlead (by decide) (by decide))
  have hclose : d.text.hasWord blockClose i d.text.length = false :=
    hasWord_eq_false (by omega) hc (ne_of_lead hlead (by decide) (by decide))
  rw [blockStop, if_pos (lt_length_of_charAt? (by omega) hc), hopen, hclose]
  rfl

/-- A string that is open at the start of a line ends where it would from the indentation point:
there is no quote and no backslash in a lead. -/
theorem stringRest_lead (hx : d.text.lineStart x = x) :
    d.text.stringRest x = d.text.stringRest (d.indentationPoint x) := by
  have h₀ : 0 ≤ x := hx ▸ d.text.lineStart_nonneg x
  refine eq_point_of_lead (fun i => d.text.stringRest i) hx fun i h₁ h₂ => ?_
  obtain ⟨c, hc, hlead⟩ := char_lead hx h₁ h₂
  rw [stringRest, if_pos (lt_length_of_charAt? (by omega) hc), read_eq (by omega) hc]
  simp only
  rw [if_neg (ne_of_lead hlead (by decide) (by decide)),
    if_neg (ne_of_lead hlead (by decide) (by decide)),
    if_neg (ne_of_lead hlead (by decide) (by decide))]

/-- One step of the walk over the pieces of a stretch. -/
theorem nestingFrom_step {t : Text} {bird : Bool} {s : Nesting} {p : Piece} (hlt : i < limit)
    (hp : t.pieceAt bird i limit = .ok p) :
    t.nestingFrom bird limit s i =
      match s.within? i limit p with
      | some final => .ok final
      | none => t.nestingFrom bird limit (s.record i p) p.stop := by
  rw [nestingFrom, if_pos hlt]
  split
  · next he =>
    rw [hp] at he
    cases he
  · next p' hp' =>
    rw [hp] at hp'
    cases hp'
    rfl

/-- The brackets that a scan finds open do not depend on whether it goes through a lead or goes on
behind it. -/
theorem nestingFrom_lead (hx : d.text.lineStart x = x) (hlimit : d.indentationPoint x ≤ limit)
    (s : Nesting) :
    d.text.nestingFrom d.bird limit s x =
      d.text.nestingFrom d.bird limit s (d.indentationPoint x) := by
  refine eq_point_of_lead (fun i => d.text.nestingFrom d.bird limit s i) hx fun i h₁ h₂ => ?_
  obtain ⟨p, hp, hstop, hkind⟩ := pieceAt_lead hx h₁ h₂ limit
  have hwithin : s.within? i limit p = none := by
    unfold Nesting.within?
    rw [if_neg (by omega)]
  have hrecord : s.record i p = s := by
    unfold Nesting.record
    rcases hkind with hk | hk <;> rw [hk]
  show d.text.nestingFrom d.bird limit s i = d.text.nestingFrom d.bird limit s (i + 1)
  rw [nestingFrom_step (by omega) hp, hwithin, hrecord, hstop]

/-- One step of the walk to the end of a bracketed group. -/
theorem groupRest_step {t : Text} {bird : Bool} {depth : Int} {p : Piece} (hlt : i < t.length)
    (hp : t.pieceAt bird i t.length = .ok p) :
    t.groupRest bird depth i =
      if t.length < p.stop then .error (.scan (.openInside p.kind.unclosed i))
      else
        match p.kind with
        | .opening => t.groupRest bird (depth + 1) p.stop
        | .closing => if depth = 1 then .ok p.stop else t.groupRest bird (depth - 1) p.stop
        | _ => t.groupRest bird depth p.stop := by
  rw [groupRest, if_pos hlt]
  split
  · next he =>
    rw [hp] at he
    cases he
  · next p' hp' =>
    rw [hp] at hp'
    cases hp'
    rfl

/-- A group that is open at the start of a line is closed where it would be from the indentation
point. -/
theorem groupRest_lead (hx : d.text.lineStart x = x) (depth : Int) :
    d.text.groupRest d.bird depth x = d.text.groupRest d.bird depth (d.indentationPoint x) := by
  refine eq_point_of_lead (fun i => d.text.groupRest d.bird depth i) hx fun i h₁ h₂ => ?_
  obtain ⟨p, hp, hstop, hkind⟩ := pieceAt_lead hx h₁ h₂ d.text.length
  have hlen := d.indentationPoint_le_length x
  show d.text.groupRest d.bird depth i = d.text.groupRest d.bird depth (i + 1)
  rw [groupRest_step (by omega) hp, if_neg (by omega), hstop]
  rcases hkind with hk | hk <;> rw [hk]

/-- Skipping blanks from the start of a line passes its lead first. -/
theorem skipBlanks_lead (hx : d.text.lineStart x = x) (hlimit : d.indentationPoint x ≤ limit) :
    d.skipBlanks x limit = d.skipBlanks (d.indentationPoint x) limit := by
  refine eq_point_of_lead (fun i => d.skipBlanks i limit) hx fun i h₁ h₂ => ?_
  unfold skipBlanks
  rw [advance, if_pos (by omega), isGapAt_lead hx h₁ h₂]

/-- Skipping blanks and comments from the start of a line passes its lead first. -/
theorem skipGap_lead (hx : d.text.lineStart x = x) (hlimit : d.indentationPoint x ≤ limit) :
    d.skipGap x limit = d.skipGap (d.indentationPoint x) limit := by
  rw [skipGap, skipGap, skipBlanks_lead hx hlimit]

/-- Skipping back over a lead. -/
theorem skipBlanksBack_lead (hx : d.text.lineStart x = x) (hlimit : limit ≤ x) {i : Int}
    (h₁ : x ≤ i) (h₂ : i ≤ d.indentationPoint x) :
    d.skipBlanksBack i limit = d.skipBlanksBack x limit := by
  rcases Int.lt_or_eq_of_le h₁ with hlt | rfl
  · have ih := skipBlanksBack_lead hx hlimit (i := i - 1) (by omega) (by omega)
    unfold skipBlanksBack at ih ⊢
    rw [retreat, if_pos (by omega), isGapAt_lead hx (by omega) (by omega)]
    exact ih
  · rfl
termination_by (i - x).toNat

/-- No word of a pair starts in a lead. -/
theorem pairWords_lead {pair : WordPair} {stop k : Nat} {w₁ w₂ : List Char} {c₁ c₂ : Char}
    (hopener : pair.opener = c₁ :: w₁) (hcloser : pair.closer = c₂ :: w₂)
    (hc₁ : isBlank c₁ = false ∧ c₁ ≠ '>') (hc₂ : isBlank c₂ = false ∧ c₂ ≠ '>')
    (hx : d.text.lineStart x = x) (h₁ : x ≤ k) (h₂ : (k : Int) ≤ d.indentationPoint x)
    (hstop : d.indentationPoint x ≤ stop) :
    d.text.pairWords pair stop k = d.text.pairWords pair stop (d.indentationPoint x).toNat := by
  rcases Int.lt_or_eq_of_le h₂ with hlt | heq
  · obtain ⟨c, hc, hlead⟩ := char_lead hx h₁ hlt
    have hget : d.text.chars[k]? = some c := by
      rw [charAt?_eq (by omega)] at hc
      exact hc
    have hno : ∀ (w : List Char) (c' : Char), isBlank c' = false ∧ c' ≠ '>' →
        d.text.wordWithin (c' :: w) stop k = false := by
      intro w c' hc'
      unfold wordWithin holdsAt
      rw [hget, beq_eq_false_iff_ne.mpr fun h => ne_of_lead hlead hc'.1 hc'.2 (Option.some.inj h)]
      simp
    have hnone : d.text.pairWordAt? pair stop k = none := by
      unfold pairWordAt?
      rw [hopener, hcloser, hno w₁ c₁ hc₁, hno w₂ c₂ hc₂]
      rfl
    rw [pairWords, if_pos (by omega), hnone]
    exact pairWords_lead hopener hcloser hc₁ hc₂ hx (by omega) (by omega) hstop
  · rw [← heq]
    rfl
termination_by (d.indentationPoint x - k).toNat

end Document

end LayoutRule
