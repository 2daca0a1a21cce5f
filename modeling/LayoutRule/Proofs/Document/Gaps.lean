import LayoutRule.Document.Gap
import LayoutRule.Proofs.Document.Indentation

/-!
# Skipping gaps inside the text succeeds

Blanks and comments can be skipped from every position of the text, forward and backward, and the
walk stays between the position and its limit. Forward it stops at the limit or at code: no gap and
no comment starts there (`skipGap_yields`). What a place lies in can be told from every earlier
place.
-/

namespace LayoutRule

namespace Document

open Text

variable {d : Document} {pos limit start stop : Int}

/-- Whether a character belongs to a gap can be told at every position of the text. -/
theorem isGapAt_yields (h₀ : 0 ≤ pos) (h₁ : pos < d.text.length) :
    Yields (d.isGapAt pos) fun _ => True := by
  unfold isGapAt
  refine (read_yields h₀ h₁).bind fun c _ => ?_
  split
  · exact .pure trivial
  · exact isMarker_yields c h₀ (by omega)

/-- A line starts where it starts. -/
theorem startsLine_lineStart (h₀ : 0 ≤ pos) (h₁ : pos < d.text.length) :
    d.text.startsLine (d.text.lineStart pos) = .ok true := by
  have hstart := lineStart_le (t := d.text) h₀
  have hnonneg := d.text.lineStart_nonneg pos
  unfold startsLine
  split
  · rfl
  · have hnl := newline_before_lineStart (t := d.text) pos (by omega)
    obtain ⟨c, hread, hc⟩ :=
      read_yields (t := d.text) (i := d.text.lineStart pos - 1) (by omega) (by omega)
    rw [show (d.text.lineStart pos - 1).toNat = (d.text.lineStart pos).toNat - 1 by omega, hnl]
      at hc
    cases hc
    rw [hread]
    rfl

/-- On a blank line there is nothing but a gap. -/
theorem isGapAt_of_isBlankLine (h₀ : 0 ≤ pos) (h₁ : pos < d.text.length)
    (hb : d.isBlankLine pos = true) : d.isGapAt pos = .ok true := by
  have hstart := lineStart_le (t := d.text) h₀
  have hstop := le_lineStop (t := d.text) h₀ (by omega)
  have hpoint : d.indentationPoint pos = d.text.lineStop pos := by simpa [isBlankLine] using hb
  obtain ⟨c, hread, hc⟩ := read_yields h₀ h₁
  unfold isGapAt
  rw [hread]
  show (if (isBlank c || c == '\n') = true then pure true else d.text.isMarker d.bird c pos) =
    .ok true
  by_cases hcode : d.codeOrigin (d.text.lineStart pos) ≤ pos
  · -- after the marker: indentation, or the newline that ends it
    rw [if_pos]
    · rfl
    rcases Int.lt_or_le pos (d.text.lineStop pos) with hlt | hge
    · have horigin := (d.codeOrigin_bounds pos).1
      have hnonneg := d.text.lineStart_nonneg pos
      obtain ⟨c', hc', hblank⟩ := char_of_lt_runStop (t := d.text) (p := isBlank)
        (k := (d.codeOrigin (d.text.lineStart pos)).toNat) (i := pos.toNat) (by omega)
        (by unfold indentationPoint at hpoint; omega)
      rw [hc] at hc'
      cases hc'
      simp [hblank]
    · have hnl := newline_at_lineStop (t := d.text) pos (by omega)
      rw [show d.text.lineStop pos = pos by omega, hc] at hnl
      cases hnl
      simp
  · -- the marker itself
    unfold codeOrigin at hcode
    split at hcode
    · next hmark =>
      simp only [Bool.and_eq_true, beq_iff_eq] at hmark
      have hpos : d.text.lineStart pos = pos := by omega
      rw [hpos, charAt?_eq h₀, hc] at hmark
      obtain ⟨hbird, hmark⟩ := hmark
      cases hmark
      rw [if_neg (by decide)]
      unfold isMarker
      rw [hbird, ← hpos]
      exact startsLine_lineStart h₀ h₁
    · omega

/-- Skipping blanks forward succeeds inside the text. It stops between its start and its limit,
everything that it passes is a gap, and it stops before the limit only where there is no gap. -/
theorem skipBlanks_yields (h₀ : 0 ≤ pos) (h₁ : limit ≤ d.text.length) :
    Yields (d.skipBlanks pos limit) fun i =>
      pos ≤ i ∧ i ≤ max pos limit ∧ (∀ k, pos ≤ k → k < i → d.isGapAt k = .ok true) ∧
        (i < limit → d.isGapAt i = .ok false) :=
  advance_yields fun _ hk hlt => isGapAt_yields (by omega) (by omega)

/-- Skipping blanks backward succeeds inside the text. It stops between its limit and its start,
everything that it passes is a gap, and it stops behind the limit only where there is no gap. -/
theorem skipBlanksBack_yields (h₀ : 0 ≤ limit) (h₁ : pos ≤ d.text.length) :
    Yields (d.skipBlanksBack pos limit) fun i =>
      i ≤ pos ∧ min pos limit ≤ i ∧ (∀ k, i ≤ k → k < pos → d.isGapAt k = .ok true) ∧
        (limit < i → d.isGapAt (i - 1) = .ok false) :=
  retreat_yields fun _ hk hlt => isGapAt_yields (by omega) (by omega)

/-- Skipping a gap forward ends at the limit or at code. -/
theorem skipGap_yields (h₀ : 0 ≤ pos) (h₁ : limit ≤ d.text.length) :
    Yields (d.skipGap pos limit) fun i =>
      pos ≤ i ∧ i ≤ max pos limit ∧
      (i < limit → d.isGapAt i = .ok false ∧ d.commentAt i = .ok false) := by
  fun_induction skipGap d pos limit with
  | case1 pos e he =>
    obtain ⟨i, hi, -⟩ := skipBlanks_yields h₀ h₁
    rw [he] at hi
    cases hi
  | case2 pos i hi hlt e he =>
    have hle := le_of_skipBlanks hi
    obtain ⟨b, hb, -⟩ := commentAt_yields (t := d.text) (i := i) d.text.length (by omega)
    rw [he] at hb
    cases hb
  | case3 pos i hi hlt hc ih =>
    have hle := le_of_skipBlanks hi
    have hstop := lt_commentStop (lt_length_of_commentAt hc)
    refine (ih (by omega)).mono ?_
    rintro j ⟨h₂, h₃, h₄⟩
    exact ⟨by omega, by omega, h₄⟩
  | case4 pos i hi hlt hc =>
    obtain ⟨h₂, h₃, -, h₄⟩ := (skipBlanks_yields h₀ h₁).of_eq hi
    exact ⟨i, rfl, h₂, h₃, fun _ => ⟨h₄ hlt, hc⟩⟩
  | case5 pos i hi hlt =>
    obtain ⟨h₂, h₃, -⟩ := (skipBlanks_yields h₀ h₁).of_eq hi
    exact ⟨i, rfl, h₂, h₃, fun h => absurd h hlt⟩

/-- What is open can be told after every stretch of the document. -/
theorem nesting_yields (h₀ : 0 ≤ start) (h₁ : stop ≤ d.text.length) :
    Yields (d.nesting start stop) fun s => s.Inside start stop :=
  Text.nesting_yields h₀ h₁

/-- Skipping comments backward needs them to start after the limit. -/
theorem skipBackOver_yields {spans : List Span} (h₀ : 0 ≤ limit) (h₁ : pos ≤ d.text.length)
    (hs : ∀ s ∈ spans, limit ≤ s.start) :
    Yields (d.skipBackOver limit spans pos) fun i => i ≤ pos ∧ min pos limit ≤ i := by
  induction spans generalizing pos with
  | nil => exact (skipBlanksBack_yields h₀ h₁).mono fun i ⟨h₂, h₃, _⟩ => ⟨h₂, h₃⟩
  | cons s rest ih =>
    have hrest : ∀ r ∈ rest, limit ≤ r.start := fun r hr => hs r (List.mem_cons_of_mem s hr)
    have hhead := hs s List.mem_cons_self
    refine (skipBlanksBack_yields h₀ h₁).bind fun i ⟨h₂, h₃, _⟩ => ?_
    split
    · next hin =>
      refine (ih (by omega) hrest).mono ?_
      rintro j ⟨h₄, h₅⟩
      exact ⟨by omega, by omega⟩
    · refine (ih (by omega) hrest).mono ?_
      rintro j ⟨h₄, h₅⟩
      exact ⟨by omega, by omega⟩

/-- Skipping a gap backward stays between the limit and the position. -/
theorem skipGapBack_yields (h₀ : 0 ≤ limit) (h₁ : pos ≤ d.text.length) :
    Yields (d.skipGapBack pos limit) fun i => i ≤ pos ∧ min pos limit ≤ i := by
  unfold skipGapBack
  refine (nesting_yields h₀ h₁).bind fun s hs => skipBackOver_yields h₀ h₁ ?_
  intro c hc
  rw [List.mem_reverse] at hc
  unfold Nesting.commentsBefore at hc
  split at hc
  · next i hi =>
    rcases List.mem_append.mp hc with hc | hc
    · exact (hs.comments c hc).1
    · rw [List.mem_singleton] at hc
      subst hc
      exact (hs.comment i hi).1
  · exact (hs.comments c hc).1

/-! ## Where a place lies -/

/-- The innermost open bracket of a stretch can be told, and it lies in the stretch. -/
theorem openBracket?_yields (h₀ : 0 ≤ start) (h₁ : stop ≤ d.text.length) :
    Yields (d.openBracket? start stop) fun r => ∀ b ∈ r, start ≤ b ∧ b < stop := by
  unfold openBracket?
  refine (nesting_yields h₀ h₁).bind fun s hs => .pure fun b hb => ?_
  exact hs.openers b (List.mem_of_mem_head? hb)

/-- The string that is open at the end of a stretch can be told, and it starts in the stretch. -/
theorem openString?_yields (h₀ : 0 ≤ start) (h₁ : stop ≤ d.text.length) :
    Yields (d.openString? start stop) fun r => ∀ b ∈ r, start ≤ b ∧ b < stop := by
  unfold openString?
  exact (nesting_yields h₀ h₁).bind fun s hs => .pure fun b hb => hs.string b hb

/-- Whether a comment starts somewhere can be told for every position that is not negative. -/
theorem commentAt_yields (h₀ : 0 ≤ pos) : Yields (d.commentAt pos) fun _ => True :=
  Text.commentAt_yields d.text.length h₀

/-- The comment at a place starts there or holds it. -/
theorem openComment?_yields (h₀ : 0 ≤ start) (h₁ : 0 ≤ stop) (h₂ : stop ≤ d.text.length) :
    Yields (d.openComment? start stop) fun r =>
      ∀ c ∈ r, (c = stop ∧ d.commentAt stop = .ok true) ∨ (start ≤ c ∧ c < stop) := by
  have hhere : Yields (do if ← d.commentAt stop then return some stop else return none) fun r =>
      ∀ c ∈ r, (c = stop ∧ d.commentAt stop = .ok true) ∨ (start ≤ c ∧ c < stop) := by
    obtain ⟨b, hb, -⟩ := commentAt_yields (d := d) h₁
    rw [hb]
    cases b with
    | true => exact ⟨some stop, rfl, fun c hc => .inl ⟨(Option.some.inj hc).symm, rfl⟩⟩
    | false => exact ⟨none, rfl, by simp⟩
  unfold openComment?
  split
  · exact hhere
  · refine (nesting_yields h₀ h₂).bind fun s hs => ?_
    split
    · next i hi => exact .pure fun c hc => .inr (hs.comment c (hi.trans hc))
    · exact .pure (by simp)
    · exact hhere

/-- A move over a gap and one expression gives a later position of the text or a `ScanFailure`. -/
theorem expressionAfter_cases (h₀ : 0 ≤ pos) (h₁ : limit ≤ d.text.length) :
    d.text.MovesOn pos (d.expressionAfter pos limit) := by
  unfold expressionAfter
  obtain ⟨i, hi, hle, -⟩ := skipGap_yields h₀ h₁
  rw [hi]
  show d.text.MovesOn pos
    (if d.text.length ≤ i then .error (.scan .endOfText) else d.text.expressionStop d.bird i)
  split
  · exact .inl ⟨_, rfl⟩
  · rcases expressionStop_cases (t := d.text) (i := i) d.bird (by omega) with h | ⟨j, hj, h₂, h₃⟩
    · exact .inl h
    · exact .inr ⟨j, hj, by omega, h₃⟩

end Document

end LayoutRule
