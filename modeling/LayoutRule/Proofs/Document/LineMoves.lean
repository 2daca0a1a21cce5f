import LayoutRule.Proofs.Document.Numbering

/-!
# Moves by lines

Moving by lines adds to the number of a line. Above a line there is one line for each newline before
it (`Cut.above`), so going up stops at the first line and falls short by what is missing above it
(`Cut.exists_linesUp`), as going down stops at the last line (`Cut.exists_linesDown`). Hence a move
leads to the line whose number is nearest to the sum, and the lines that are missing are those by
which the move was cut short (`moveLines_eq_nearestLine`).
-/

namespace LayoutRule

namespace Text

variable {t before line after : Text}

/-- The last line. -/
theorem cut_last (t : Text) : ∃ before line, t.Cut before line (ofString "") := by
  have hstop : t.lineStop t.length = t.length :=
    Int.le_antisymm (t.lineStop_le_length _) (le_lineStop t.length_nonneg (Int.le_refl _))
  have hback : t.dropTo t.length = ofString "" := by
    have hbound : t.bound t.length = t.chars.size := bound_natCast (Nat.le_refl _)
    exact ext_chars (by simp [dropTo, hbound, ofString])
  have hcut := t.cut_line t.length
  rw [hstop, hback] at hcut
  exact ⟨_, _, hcut⟩

namespace Cut

/-- The line above a line that is not the first. -/
theorem above (h : t.Cut before line after) (hbefore : before.chars ≠ #[]) :
    ∃ before' line', t.Cut before' line' (ofString "\n" ++ (line ++ after)) ∧
      before = before' ++ line' ++ ofString "\n" := by
  obtain ⟨init, c, hchars⟩ := Array.exists_push_of_ne_empty hbefore
  obtain rfl : c = '\n' := h.before c (by rw [hchars, Array.back?_push])
  obtain ⟨before', line', hlast⟩ := cut_last ⟨init⟩
  have heq : before = before' ++ line' ++ ofString "\n" := by
    rw [← append_ofString_empty (before' ++ line'), ← hlast.eq]
    exact ext_chars (hchars.trans Array.push_eq_append)
  refine ⟨before', line', ⟨?_, hlast.before, hlast.line, ?_⟩, heq⟩
  · rw [h.eq, heq]
    simp only [append_assoc]
  · intro c hc
    rw [getElem?_append_left _ _ (by decide)] at hc
    simpa [ofString, eq_comm] using hc

/-- Going up by lines meets a line for each newline before the first one, stops at the first line,
and falls short by the lines that are missing above it. -/
theorem exists_linesUp (h : t.Cut before line after) (n : Nat) :
    ∃ before' line' after', t.Cut before' line' after' ∧
      t.linesUp n before.length = (before'.length, n - before.chars.count '\n') ∧
      before'.chars.count '\n' = before.chars.count '\n' - n := by
  induction n generalizing before line after with
  | zero => exact ⟨before, line, after, h, by simp [linesUp], by simp⟩
  | succ n ih =>
    unfold linesUp
    by_cases hbefore : before.chars = #[]
    · rw [if_pos (by simp [length, hbefore])]
      exact ⟨before, line, after, h, by simp [hbefore], by simp [hbefore]⟩
    · obtain ⟨before₁, line₁, habove, heq⟩ := h.above hbefore
      have hnewline : (ofString "\n").length = 1 := rfl
      have hlen : before.length = before₁.length + line₁.length + 1 := by
        rw [heq, length_append, length_append, hnewline]
      have hcount : before.chars.count '\n' = before₁.chars.count '\n' + 1 := by
        rw [heq, chars_append, chars_append, Array.count_append, Array.count_append,
          habove.count_line, count_newline]
      have hstart : t.lineStart (before.length - 1) = before₁.length := by
        apply habove.lineStart_of_between
        · have := line₁.length_nonneg
          omega
        · omega
      have hnonneg := before₁.length_nonneg
      have hnonneg' := line₁.length_nonneg
      obtain ⟨before', line', after', hcut, hup, hnumber⟩ := ih habove
      rw [if_neg (by omega), hstart, hcount, Nat.add_sub_add_right]
      exact ⟨before', line', after', hcut, hup, by omega⟩

end Cut

/-- The number of a line that is nearest to a number: one before the first line is moved to the
first, and one after the last to the last. -/
def nearestLine (t : Text) (number : Int) : Int := max 0 (min number (t.lineCount - 1))

/-- A move by lines leads to the line nearest to the sum, and tells how much shorter than asked for
it was. -/
theorem Cut.exists_moveLines {pos : Int} (h : t.Cut before line after)
    (hpos : t.lineStart pos = before.length) (n : Int) :
    ∃ before' line' after', t.Cut before' line' after' ∧ (t.moveLines pos n).1 = before'.length ∧
      (before'.chars.count '\n' : Int) = t.nearestLine (before.chars.count '\n' + n) ∧
      ((t.moveLines pos n).2 : Int) =
        n.natAbs - (before'.chars.count '\n' - before.chars.count '\n' : Int).natAbs := by
  have hcount := h.lineCount_eq
  unfold moveLines nearestLine
  rw [hpos]
  split
  · obtain ⟨before', line', after', hcut, hdown, hnumber⟩ := h.exists_linesDown n.toNat
    rw [hdown]
    exact ⟨before', line', after', hcut, rfl, by omega, by simp only; omega⟩
  · obtain ⟨before', line', after', hcut, hup, hnumber⟩ := h.exists_linesUp n.natAbs
    rw [hup]
    exact ⟨before', line', after', hcut, rfl, by omega, by simp only; omega⟩

end Text

namespace Document

open Text

/-- Moving by lines is clamped arithmetic with the numbers of lines: the move leads to the start of
the line nearest to the sum, and falls short by the lines between the sum and that line. -/
theorem moveLines_eq_nearestLine {d : Document} {pos : Int} (h₀ : 0 ≤ pos)
    (h₁ : pos ≤ d.text.length) (n : Int) :
    d.positionOf (d.text.nearestLine ((d.lineColumn pos).1 + n)) 0 =
      .ok (d.text.moveLines pos n).1 ∧
      ((d.text.moveLines pos n).2 : Int) = n.natAbs -
        (d.text.nearestLine ((d.lineColumn pos).1 + n) - (d.lineColumn pos).1).natAbs := by
  have hcut := d.text.cut_line pos
  have hstart := length_takeTo (d.text.lineStart_nonneg pos) (d.text.lineStart_le_length pos)
  have hnumber : (d.lineColumn pos).1 =
      ((d.text.takeTo (d.text.lineStart pos)).chars.count '\n' : Int) := by
    rw [lineColumn, hcut.newlinesBefore_eq h₀ h₁ hstart.symm]
  obtain ⟨before, line, after, hland, hposition, hnearest, hshort⟩ :=
    hcut.exists_moveLines hstart.symm n
  rw [hnumber, ← hnearest]
  refine ⟨?_, hshort⟩
  rw [hposition]
  exact positionOf_of_cut hland

/-- A text of three lines. -/
def threeLines : Document := .new (ofString "a\nb\nc") .plain 8

/-- From the line in the middle, going up by five lines leads to the first line and is four lines
short. -/
theorem moveLines_eq_nearestLine_threeLines :
    (0 : Int) ≤ 2 ∧ 2 ≤ threeLines.text.length ∧ (threeLines.lineColumn 2).1 = 1 ∧
      threeLines.text.nearestLine (1 + -5) = 0 ∧
      threeLines.positionOf 0 0 = .ok (threeLines.text.moveLines 2 (-5)).1 ∧
      ((threeLines.text.moveLines 2 (-5)).2 : Int) = 5 - 1 := by
  have h₁ : 2 ≤ threeLines.text.length := by decide
  have hnumber : (threeLines.lineColumn 2).1 = 1 := by decide +kernel
  have hnearest : threeLines.text.nearestLine (1 + -5) = 0 := by decide +kernel
  obtain ⟨hposition, hshort⟩ := moveLines_eq_nearestLine (by decide : (0 : Int) ≤ 2) h₁ (-5)
  rw [hnumber, hnearest] at hposition hshort
  exact ⟨by decide, h₁, hnumber, hnearest, hposition, hshort⟩

end Document

end LayoutRule
