import LayoutRule.Proofs.Lexical.Walks
import LayoutRule.Proofs.Text.Splitting

/-!
# Lines by their numbers

The number of a line is the number of newlines before it, and two lines of a text with one number
are the same (`Cut.before_eq`). Going down from the front of a text, newline by newline, reaches
every number below the number of lines (`exists_cut_of_lt`), and reaches the line with as many
newlines before it (`Cut.linesDown_eq`). So a document has a position for each of its lines
(`positionOf_of_cut`).
-/

namespace LayoutRule

namespace Text

variable {t before line after before' line' after' : Text}

/-- The first line. -/
theorem cut_first (t : Text) : ∃ line after, t.Cut (ofString "") line after := by
  have hzero : t.lineStart 0 = 0 :=
    lineStart_eq_self (k := 0) (Nat.zero_le _) fun h => absurd h (by omega)
  have hfront : t.takeTo 0 = ofString "" := ext_chars (by simp [takeTo, bound, ofString])
  have hcut := t.cut_line 0
  rw [hzero, hfront] at hcut
  exact ⟨_, _, hcut⟩

/-- The text of a newline holds one newline. -/
theorem count_newline : (ofString "\n").chars.count '\n' = 1 := by decide

namespace Cut

/-- A line of a cut text holds no newline. -/
theorem count_line (h : t.Cut before line after) : line.chars.count '\n' = 0 :=
  Array.count_eq_zero.mpr fun hmem => h.line _ hmem rfl

/-- A line that is not the last ends with the first newline from its start on. -/
theorem newlineFrom?_eq (h : t.Cut before line after) (hafter : after.chars ≠ #[]) :
    t.newlineFrom? before.length = some (before.length + line.length) := by
  have hlen : t.length = before.length + line.length + after.length := by
    rw [h.eq, length_append, length_append]
  have hpos : 0 < after.length := by
    have := Array.size_pos_iff.mpr hafter
    unfold length
    omega
  rw [Text.newlineFrom?_eq, h.lineStop_eq h.lineStart_eq, if_pos (by omega)]

/-- The line below a line that is not the last. -/
theorem below (h : t.Cut before line after) (hafter : after.chars ≠ #[]) :
    ∃ line' after', t.Cut (before ++ line ++ ofString "\n") line' after' ∧
      after.chars.count '\n' = after'.chars.count '\n' + 1 := by
  obtain ⟨c, rest, hchars⟩ := List.exists_cons_of_ne_nil (mt Array.toList_eq_nil_iff.mp hafter)
  obtain rfl : c = '\n' := h.after c (by simp [← Array.getElem?_toList, hchars])
  obtain ⟨line', after', hfirst⟩ := cut_first ⟨rest.toArray⟩
  have heq : after = ofString "\n" ++ (line' ++ after') := by
    rw [← ofString_empty_append line', ← hfirst.eq]
    exact ext_chars (Array.toList_inj.mp (by simp [ofString, hchars]))
  refine ⟨line', after', ⟨?_, back_newline _, hfirst.line, hfirst.after⟩, ?_⟩
  · rw [h.eq, heq]
    simp only [append_assoc]
  · rw [heq]
    simp only [chars_append, Array.count_append, count_newline, hfirst.count_line]
    omega

/-- Behind the start of the last line there is no newline. -/
theorem newlineFrom?_eq_none (h : t.Cut before line after) (hafter : after.chars = #[]) :
    t.newlineFrom? before.length = none := by
  have hlen : t.length = before.length + line.length + after.length := by
    rw [h.eq, length_append, length_append]
  have hzero : after.length = 0 := by simp [length, hafter]
  rw [Text.newlineFrom?_eq, h.lineStop_eq h.lineStart_eq, if_neg (by omega)]

/-- Going down by lines meets a line for each newline after the first one, stops at the last line,
and falls short by the lines that are missing below it. -/
theorem exists_linesDown (h : t.Cut before line after) (n : Nat) :
    ∃ before' line' after', t.Cut before' line' after' ∧
      t.linesDown n before.length = (before'.length, n - after.chars.count '\n') ∧
      before'.chars.count '\n' = before.chars.count '\n' + min n (after.chars.count '\n') := by
  induction n generalizing before line after with
  | zero => exact ⟨before, line, after, h, by simp [linesDown], by simp⟩
  | succ n ih =>
    unfold linesDown
    by_cases hafter : after.chars = #[]
    · rw [h.newlineFrom?_eq_none hafter]
      exact ⟨before, line, after, h, by simp [hafter], by simp [hafter]⟩
    · obtain ⟨line₁, after₁, hbelow, hcount⟩ := h.below hafter
      obtain ⟨before', line', after', hcut, hdown, hnumber⟩ := ih hbelow
      rw [h.newlineFrom?_eq hafter, hcount]
      refine ⟨before', line', after', hcut, ?_, ?_⟩
      · rw [Nat.add_sub_add_right]
        rwa [length_append, length_append] at hdown
      · rw [hnumber]
        simp only [chars_append, Array.count_append, h.count_line, count_newline]
        omega

/-- Of two starts of lines, the later one has more newlines before it. -/
theorem count_lt {rest : Text} (h : t.Cut before line after) (heq : before = before' ++ rest)
    (hrest : rest.chars ≠ #[]) : before'.chars.count '\n' < before.chars.count '\n' := by
  obtain ⟨c, hlast⟩ := Option.ne_none_iff_exists'.mp (mt Array.back?_eq_none_iff.mp hrest)
  have hnewline : c = '\n' :=
    h.before c (by rw [heq, chars_append, Array.back?_append, hlast, Option.some_or])
  have hpos := Array.count_pos_iff.mpr (hnewline ▸ Array.mem_of_back? hlast)
  rw [heq, chars_append, Array.count_append]
  omega

/-- A line is determined by its number. -/
theorem before_eq (h : t.Cut before line after) (h' : t.Cut before' line' after')
    (hnumber : before.chars.count '\n' = before'.chars.count '\n') : before = before' := by
  have hprefix : before.chars.toList <+: t.chars.toList := by simp [h.eq]
  have hprefix' : before'.chars.toList <+: t.chars.toList := by simp [h'.eq]
  rcases List.prefix_or_prefix_of_prefix hprefix hprefix' with ⟨rest, hrest⟩ | ⟨rest, hrest⟩
  · have heq : before' = before ++ ⟨rest.toArray⟩ :=
      ext_chars (Array.toList_inj.mp (by simp [hrest]))
    cases rest with
    | nil => exact (heq.trans (append_ofString_empty before)).symm
    | cons c rest => exact absurd hnumber (Nat.ne_of_lt (h'.count_lt heq (by simp)))
  · have heq : before = before' ++ ⟨rest.toArray⟩ :=
      ext_chars (Array.toList_inj.mp (by simp [hrest]))
    cases rest with
    | nil => exact heq.trans (append_ofString_empty before')
    | cons c rest => exact absurd hnumber (Nat.ne_of_gt (h.count_lt heq (by simp)))

end Cut

/-- Every number below the number of lines is that of a line, and going down from the front leads to
it. -/
theorem exists_cut_of_lt (t : Text) {n : Nat} (h : n < t.lineCount) :
    ∃ before line after, t.Cut before line after ∧ t.linesDown n 0 = (before.length, 0) ∧
      before.chars.count '\n' = n := by
  obtain ⟨line, after, hfirst⟩ := t.cut_first
  have hempty : (ofString "").chars.count '\n' = 0 := rfl
  have hcount := hfirst.lineCount_eq
  obtain ⟨before, line', after', hcut, hdown, hnumber⟩ := hfirst.exists_linesDown n
  refine ⟨before, line', after', hcut, ?_, by omega⟩
  rwa [Nat.sub_eq_zero_of_le (by omega)] at hdown

/-- Going down from the front leads to the line with as many newlines before it. -/
theorem Cut.linesDown_eq (h : t.Cut before line after) :
    t.linesDown (before.chars.count '\n') 0 = (before.length, 0) := by
  have hcount := h.lineCount_eq
  obtain ⟨before', line', after', hcut, hdown, hnumber⟩ :=
    t.exists_cut_of_lt (n := before.chars.count '\n') (by omega)
  rwa [← h.before_eq hcut hnumber.symm] at hdown

end Text

namespace Document

open Text

/-- Moving to column zero leads to the start of the line. -/
theorem moveToColumn_zero (d : Document) (pos : Int) :
    d.moveToColumn pos 0 = d.text.lineStart pos := by
  have := d.text.lineStart_nonneg pos
  unfold moveToColumn seekColumn
  rw [if_neg (by omega)]
  omega

/-- A line of a document has the position of its start. -/
theorem positionOf_of_cut {d : Document} {before line after : Text}
    (h : d.text.Cut before line after) :
    d.positionOf (before.chars.count '\n') 0 = .ok before.length := by
  unfold positionOf
  rw [if_neg (by omega), Int.toNat_natCast, h.linesDown_eq]
  simp only [moveToColumn_zero, h.lineStart_eq]

end Document

end LayoutRule
