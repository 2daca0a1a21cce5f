import LayoutRule.Proofs.Document.Numbering
import Mathlib.Order.Bounds.Basic

/-!
# Lines and columns as coordinates

A position can be given by the number of its line and its column. Columns jump at tabs, so not every
column of a line is that of a position; the search for a column then stops at the first position
that is not left of it (`moveToColumn_least`), or at the end of the line. A column that a position
has leads back to that position (`moveToColumn_column`), because the columns of a line grow.

Going down by lines falls short by exactly the lines that the text does not have
(`Cut.exists_linesDown`). So every number below the number of lines is the coordinate of a line, and
no other one is (`positionOf_faithful`).
-/

namespace LayoutRule

namespace Text

variable {t before line after : Text}

namespace Cut

/-- The positions of a line are those with as many newlines before them as the line has. -/
theorem newlinesBefore_eq_iff {pos : Int} (h : t.Cut before line after) (h₀ : 0 ≤ pos)
    (h₁ : pos ≤ t.length) :
    t.newlinesBefore pos = before.chars.count '\n' ↔ t.lineStart pos = before.length := by
  have hcut := t.cut_line pos
  have hstart := length_takeTo (t.lineStart_nonneg pos) (t.lineStart_le_length pos)
  constructor
  · intro hnumber
    rw [hcut.newlinesBefore_eq h₀ h₁ hstart.symm] at hnumber
    rw [← hcut.before_eq h hnumber, hstart]
  · exact h.newlinesBefore_eq h₀ h₁

end Cut

end Text

namespace Document

open Text

variable {d : Document} {pos column : Int}

/-! ## Columns of a line -/

/-- The search for a column ends at the end of the line, or at a position that is not left of the
column. -/
theorem le_column_moveToColumn (h : d.moveToColumn pos column < d.text.lineStop pos) :
    column ≤ d.column (d.moveToColumn pos column) := by
  obtain ⟨hstart, hstop, -⟩ := d.moveToColumn_bounds pos column
  have hnonneg := d.text.lineStart_nonneg pos
  have hline : d.text.lineStart (d.moveToColumn pos column) = d.text.lineStart pos :=
    lineStart_eq_of_between hstart hstop
  rcases Int.lt_or_le (d.column (d.moveToColumn pos column)) column with hlt | hle
  · -- the search would have gone on
    have hstop' := lineStop_eq_of_lineStart_eq (d := d) hline
    have hpast := lt_moveToColumn (d := d) (by omega) (hstop' ▸ h) hlt
    rw [moveToColumn_eq_of_lineStart_eq hline] at hpast
    omega
  · exact hle

/-- The column of a position leads back to the position. -/
theorem moveToColumn_column (h₀ : 0 ≤ pos) (h₁ : pos ≤ d.text.length) :
    d.moveToColumn pos (d.column pos) = pos := by
  obtain ⟨hstart, hstop, hleft⟩ := d.moveToColumn_bounds pos (d.column pos)
  have hnonneg := d.text.lineStart_nonneg pos
  have hend := le_lineStop h₀ h₁
  rcases Int.lt_trichotomy (d.moveToColumn pos (d.column pos)) pos with hlt | heq | hgt
  · have hcolumn := le_column_moveToColumn (d := d)
      (by omega : d.moveToColumn pos (d.column pos) < _)
    have := column_lt_column (by omega) hlt h₁ (lineStart_eq_of_between hstart hstop)
    omega
  · exact heq
  · exact absurd (hleft pos rfl h₀ hgt) (Int.lt_irrefl _)

/-! ## Coordinates -/

/-- The positions of a line, counted from zero. -/
def linePositions (d : Document) (line : Int) : Set Int :=
  {k | 0 ≤ k ∧ k ≤ d.text.length ∧ (d.lineColumn k).1 = line}

variable {before line after : Text}

/-- The positions of the line with a number are those of the text that lie on this line. -/
theorem mem_linePositions (h : d.text.Cut before line after) :
    pos ∈ d.linePositions (before.chars.count '\n') ↔
      0 ≤ pos ∧ pos ≤ d.text.length ∧ d.text.lineStart pos = before.length := by
  unfold linePositions lineColumn
  simp only [Set.mem_ofPred_eq, Int.natCast_inj]
  constructor
  · rintro ⟨h₀, h₁, hnumber⟩
    exact ⟨h₀, h₁, (h.newlinesBefore_eq_iff h₀ h₁).mp hnumber⟩
  · rintro ⟨h₀, h₁, hstart⟩
    exact ⟨h₀, h₁, (h.newlinesBefore_eq_iff h₀ h₁).mpr hstart⟩

/-- The search for a column stops at the first position of the line that is not left of it, or at
the end of the line. -/
theorem moveToColumn_least (h : d.text.Cut before line after) (column : Int) :
    d.moveToColumn before.length column ∈ d.linePositions (before.chars.count '\n') ∧
      (IsLeast {k ∈ d.linePositions (before.chars.count '\n') | column ≤ d.column k}
        (d.moveToColumn before.length column) ∨
        (d.moveToColumn before.length column = d.text.lineStop before.length ∧
          ∀ k ∈ d.linePositions (before.chars.count '\n'), d.column k < column)) := by
  obtain ⟨hstart, hstop, hleft⟩ := d.moveToColumn_bounds before.length column
  have hlen := d.text.lineStop_le_length before.length
  have hnonneg := before.length_nonneg
  rw [h.lineStart_eq] at hstart hleft
  have hmem : d.moveToColumn before.length column ∈ d.linePositions (before.chars.count '\n') := by
    refine (mem_linePositions h).mpr ⟨by omega, by omega, ?_⟩
    exact (lineStart_eq_of_between (by rwa [h.lineStart_eq]) hstop).trans h.lineStart_eq
  refine ⟨hmem, ?_⟩
  by_cases hcolumn : column ≤ d.column (d.moveToColumn before.length column)
  · refine .inl ⟨⟨hmem, hcolumn⟩, ?_⟩
    rintro k ⟨hk, hright⟩
    obtain ⟨hk₀, -, hline⟩ := (mem_linePositions h).mp hk
    rcases Int.lt_or_le k (d.moveToColumn before.length column) with hlt | hle
    · have := hleft k hline hk₀ hlt
      omega
    · exact hle
  · have hend : d.moveToColumn before.length column = d.text.lineStop before.length := by
      rcases Int.lt_or_eq_of_le hstop with hlt | heq
      · exact absurd (le_column_moveToColumn hlt) hcolumn
      · exact heq
    refine .inr ⟨hend, fun k hk => ?_⟩
    obtain ⟨hk₀, hk₁, hline⟩ := (mem_linePositions h).mp hk
    have hle := le_lineStop hk₀ hk₁
    rw [lineStop_eq_of_lineStart_eq (d := d) (hline.trans h.lineStart_eq.symm), ← hend] at hle
    rcases Int.lt_or_eq_of_le hle with hlt | heq
    · exact hleft k hline hk₀ hlt
    · rw [heq]
      omega

/-- A line of a document, and a column, have the position that the search for the column finds. -/
theorem positionOf_eq (h : d.text.Cut before line after) (column : Int) :
    d.positionOf (before.chars.count '\n') column = .ok (d.moveToColumn before.length column) := by
  unfold positionOf
  rw [if_neg (by omega), Int.toNat_natCast, h.linesDown_eq]
  rfl

/-- Other numbers belong to no line. -/
theorem positionOf_eq_error {number : Int} (h : number < 0 ∨ d.text.lineCount ≤ number)
    (column : Int) : d.positionOf number column = .error (.noSuchLine number) := by
  unfold positionOf
  split
  · rfl
  · obtain ⟨line, after, hfirst⟩ := d.text.cut_first
    obtain ⟨before, line', after', -, hmissing, -⟩ := hfirst.exists_linesDown number.toNat
    have hcount := hfirst.lineCount_eq
    have hempty : (ofString "").chars.count '\n' = 0 := rfl
    have hzero : (ofString "").length = 0 := rfl
    rw [hzero] at hmissing
    split
    · next hdown =>
      have hshort := congrArg Prod.snd (hmissing.symm.trans hdown)
      simp only at hshort
      omega
    · rfl

/-- The coordinates of a position lead back to it. The coordinates of an existing line and a column
lead to the first position of the line that is not left of the column, or to the end of the line
when there is none; the line is the one that was given. There is a fault exactly when no line has
the number. -/
theorem positionOf_faithful (d : Document) :
    (∀ p, 0 ≤ p → p ≤ d.text.length → d.positionOf (d.lineColumn p).1 (d.lineColumn p).2 = .ok p) ∧
    (∀ number column : Int, 0 ≤ number → number < d.text.lineCount →
      ∃ q, d.positionOf number column = .ok q ∧ (d.lineColumn q).1 = number ∧
        (IsLeast {k ∈ d.linePositions number | column ≤ d.column k} q ∨
          (q = d.text.lineStop q ∧ ∀ k ∈ d.linePositions number, d.column k < column))) ∧
    ∀ number column : Int, (∃ e, d.positionOf number column = .error e) ↔
      number < 0 ∨ d.text.lineCount ≤ number := by
  have hexists : ∀ number column : Int, 0 ≤ number → number < d.text.lineCount →
      ∃ q, d.positionOf number column = .ok q ∧ (d.lineColumn q).1 = number ∧
        (IsLeast {k ∈ d.linePositions number | column ≤ d.column k} q ∨
          (q = d.text.lineStop q ∧ ∀ k ∈ d.linePositions number, d.column k < column)) := by
    intro number column h₀ hlt
    obtain ⟨n, rfl⟩ := Int.eq_ofNat_of_zero_le h₀
    obtain ⟨before, line, after, hcut, -, rfl⟩ := d.text.exists_cut_of_lt (Int.ofNat_lt.mp hlt)
    obtain ⟨hmem, hleast⟩ := moveToColumn_least hcut column
    refine ⟨_, positionOf_eq hcut column, hmem.2.2,
      hleast.imp_right fun ⟨hend, hleft⟩ => ⟨?_, hleft⟩⟩
    have hline := ((mem_linePositions hcut).mp hmem).2.2
    rw [lineStop_eq_of_lineStart_eq (hline.trans hcut.lineStart_eq.symm)]
    exact hend
  refine ⟨fun p h₀ h₁ => ?_, hexists,
    fun number column => ⟨?_, fun h => ⟨_, positionOf_eq_error h column⟩⟩⟩
  · have hcut := d.text.cut_line p
    have hstart := length_takeTo (d.text.lineStart_nonneg p) (d.text.lineStart_le_length p)
    have hposition := positionOf_eq hcut (d.column p)
    rw [hstart, moveToColumn_eq_of_lineStart_eq (d.text.lineStart_lineStart p),
      moveToColumn_column h₀ h₁] at hposition
    rw [lineColumn, hcut.newlinesBefore_eq h₀ h₁ hstart.symm]
    exact hposition
  · rintro ⟨e, he⟩
    by_cases hline : 0 ≤ number ∧ number < d.text.lineCount
    · obtain ⟨q, hq, -⟩ := hexists number column hline.1 hline.2
      cases hq.symm.trans he
    · omega

/-- A line with a tab between two others. -/
def tabbedLine : Document := .new (ofString "f x\n a\tb\n c") .plain 4

/-- The tab of the second line jumps from column two to column four, so column three leads behind
it. -/
theorem positionOf_faithful_tabbedLine :
    tabbedLine.lineColumn 7 = (1, 4) ∧ tabbedLine.positionOf 1 4 = .ok 7 ∧
      (∃ q, tabbedLine.positionOf 1 3 = .ok q ∧ (tabbedLine.lineColumn q).1 = 1) ∧
      ∃ e, tabbedLine.positionOf 3 0 = .error e := by
  have hcoordinates : tabbedLine.lineColumn 7 = (1, 4) := by decide +kernel
  have hback := (positionOf_faithful tabbedLine).1 7 (by decide) (by decide)
  rw [hcoordinates] at hback
  obtain ⟨q, hq, hline, -⟩ := (positionOf_faithful tabbedLine).2.1 1 3 (by decide) (by decide)
  exact ⟨hcoordinates, hback, ⟨q, hq, hline⟩,
    ((positionOf_faithful tabbedLine).2.2 3 0).mpr (.inr (by decide))⟩

end Document

end LayoutRule
