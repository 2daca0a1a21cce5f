import LayoutRule.Document.Basic
import LayoutRule.Proofs.Lexical.Success

/-!
# Indentation points and columns

The indentation point of a line lies on the line, after its marker, and depends on nothing but the
line (`indentationPoint_eq_of_lineStart_eq`). Along a line the columns grow (`column_lt_column`), so
that a place left of a column stays left of it when one moves to that column (`lt_moveToColumn`).
-/

namespace LayoutRule

namespace Document

open Text

variable {d : Document}

/-! ## Indentation points -/

/-- A marker stands before the end of its line. -/
theorem lt_lineStop_of_char {pos : Int} {c : Char}
    (h : d.text.charAt? (d.text.lineStart pos) = some c) (hc : c ≠ '\n') :
    d.text.lineStart pos < d.text.lineStop pos := by
  have hle := d.text.lineStart_le_lineStop pos
  have h₀ := d.text.lineStart_nonneg pos
  rw [charAt?_eq h₀] at h
  have hlt := (Array.getElem?_eq_some_iff.mp h).1
  rcases Int.lt_or_eq_of_le hle with h₁ | h₁
  · exact h₁
  · have hnl := newline_at_lineStop (t := d.text) pos (by unfold length; omega)
    rw [← h₁, h] at hnl
    cases hnl
    exact absurd rfl hc

/-- The place where the code of a line may start lies on the line: behind the marker of a literate
line, and at its start otherwise. -/
theorem codeOrigin_bounds (d : Document) (pos : Int) :
    d.text.lineStart pos ≤ d.codeOrigin (d.text.lineStart pos) ∧
      d.codeOrigin (d.text.lineStart pos) ≤ d.text.lineStop pos := by
  have hle := d.text.lineStart_le_lineStop pos
  unfold codeOrigin
  split
  · next h =>
    simp only [Bool.and_eq_true, beq_iff_eq] at h
    have := lt_lineStop_of_char h.2 (by decide)
    omega
  · omega

/-- The indentation point lies on its line, not before the code may start. -/
theorem indentationPoint_bounds (d : Document) (pos : Int) :
    d.codeOrigin (d.text.lineStart pos) ≤ d.indentationPoint pos ∧
    d.indentationPoint pos ≤ d.text.lineStop pos := by
  have h₀ := d.text.lineStart_nonneg pos
  obtain ⟨h₁, h₂⟩ := d.codeOrigin_bounds pos
  have hge := d.text.le_runStop isBlank (d.codeOrigin (d.text.lineStart pos)).toNat
  refine ⟨by unfold indentationPoint; omega, ?_⟩
  rcases Int.lt_or_le (d.text.lineStop pos) (d.indentationPoint pos) with hlt | hle
  · unfold indentationPoint at hlt
    obtain ⟨c, hc, hb⟩ := char_of_lt_runStop (t := d.text) (p := isBlank)
      (k := (d.codeOrigin (d.text.lineStart pos)).toNat) (i := (d.text.lineStop pos).toNat)
      (by omega) (by omega)
    have hsize := (Array.getElem?_eq_some_iff.mp hc).1
    have hnl := newline_at_lineStop (t := d.text) pos (by unfold length; omega)
    rw [hc] at hnl
    cases hnl
    exact absurd hb (by decide)
  · exact hle

/-- The indentation point of a line does not lie before the line. -/
theorem lineStart_le_indentationPoint (d : Document) (pos : Int) :
    d.text.lineStart pos ≤ d.indentationPoint pos := by
  have h₁ := (d.codeOrigin_bounds pos).1
  have h₂ := (d.indentationPoint_bounds pos).1
  omega

/-- An indentation point is a position of the text, so never negative. -/
theorem indentationPoint_nonneg (d : Document) (pos : Int) : 0 ≤ d.indentationPoint pos :=
  Int.natCast_nonneg _

/-- An indentation point lies inside the text, or at its end when the last line is blank. -/
theorem indentationPoint_le_length (d : Document) (pos : Int) :
    d.indentationPoint pos ≤ d.text.length := by
  have h₁ := (d.indentationPoint_bounds pos).2
  have h₂ := d.text.lineStop_le_length pos
  omega

/-- The indentation point lies on the line that it belongs to. -/
theorem lineStart_indentationPoint (d : Document) (pos : Int) :
    d.text.lineStart (d.indentationPoint pos) = d.text.lineStart pos :=
  lineStart_eq_of_between (d.lineStart_le_indentationPoint pos) (d.indentationPoint_bounds pos).2

/-- Positions of one line have one indentation point. -/
theorem indentationPoint_eq_of_lineStart_eq {p q : Int}
    (h : d.text.lineStart p = d.text.lineStart q) :
    d.indentationPoint p = d.indentationPoint q := by
  unfold indentationPoint
  rw [h]

/-- Positions of one line end with one line end. -/
theorem lineStop_eq_of_lineStart_eq {p q : Int} (h : d.text.lineStart p = d.text.lineStart q) :
    d.text.lineStop p = d.text.lineStop q := by
  rw [← d.text.lineStop_lineStart p, ← d.text.lineStop_lineStart q, h]

/-- An indentation point is the indentation point of its own line. -/
theorem indentationPoint_indentationPoint (d : Document) (pos : Int) :
    d.indentationPoint (d.indentationPoint pos) = d.indentationPoint pos :=
  indentationPoint_eq_of_lineStart_eq (d.lineStart_indentationPoint pos)

/-- Whether a line is blank depends on the line alone. -/
theorem isBlankLine_eq_of_lineStart_eq {p q : Int} (h : d.text.lineStart p = d.text.lineStart q) :
    d.isBlankLine p = d.isBlankLine q := by
  unfold isBlankLine
  rw [indentationPoint_eq_of_lineStart_eq h, lineStop_eq_of_lineStart_eq h]

/-- A line is blank or not, whichever of its places is asked about: here its indentation point. -/
theorem isBlankLine_indentationPoint (d : Document) (pos : Int) :
    d.isBlankLine (d.indentationPoint pos) = d.isBlankLine pos :=
  isBlankLine_eq_of_lineStart_eq (d.lineStart_indentationPoint pos)

/-- A line that is not blank has code after its indentation. -/
theorem indentationPoint_lt_lineStop {pos : Int} (h : d.isBlankLine pos = false) :
    d.indentationPoint pos < d.text.lineStop pos := by
  have hle := (d.indentationPoint_bounds pos).2
  have hne : d.indentationPoint pos ≠ d.text.lineStop pos := by
    intro heq
    simp [isBlankLine, heq] at h
  omega

/-- What stands at the indentation point, before the end of the text, is not a blank. -/
theorem exists_char_indentationPoint (pos : Int) (h : d.indentationPoint pos < d.text.length) :
    ∃ c, d.text.charAt? (d.indentationPoint pos) = some c ∧ isBlank c = false := by
  rw [Text.charAt?_eq (d.indentationPoint_nonneg pos)]
  exact runStop_stops (by unfold indentationPoint Text.length at h; omega)

/-! ## Columns -/

/-- Every character takes at least one column, also a tab. -/
theorem lt_nextColumn {tabWidth : Nat} (h : 0 < tabWidth) (col : Nat) (c : Char) :
    col < nextColumn tabWidth col c := by
  unfold nextColumn
  split
  · have := Nat.lt_mul_div_succ col h
    rw [Nat.mul_comm] at this
    exact this
  · exact Nat.lt_succ_self col

/-- Without tabs every character is one column wide. -/
theorem foldl_nextColumn {tabWidth : Nat} {l : List Char} (h : '\t' ∉ l) (col : Nat) :
    l.foldl (nextColumn tabWidth) col = col + l.length := by
  induction l generalizing col with
  | nil => rfl
  | cons c l ih =>
    have hc : c ≠ '\t' := fun hc => h (by simp [hc])
    rw [List.foldl_cons, ih fun hmem => h (List.mem_cons_of_mem c hmem), nextColumn, if_neg hc,
      List.length_cons]
    omega

/-- The width of the text from index `b` to index `k`. -/
def width (d : Document) (b k : Nat) : Nat :=
  (d.text.chars.extract b k).foldl (nextColumn d.tabWidth) 0

/-- The width of a stretch grows with each character to the column behind that character. -/
theorem width_succ {b k : Nat} {c : Char} (hb : b ≤ k) (hc : d.text.chars[k]? = some c) :
    d.width b (k + 1) = nextColumn d.tabWidth (d.width b k) c := by
  obtain ⟨hk, rfl⟩ := Array.getElem?_eq_some_iff.mp hc
  have hpush : d.text.chars.extract b (k + 1) =
      (d.text.chars.extract b k).push d.text.chars[k] := by
    rw [Array.push_extract_getElem hk, Nat.min_eq_left hb]
  unfold width
  rw [hpush, Array.foldl_push]

/-- A longer stretch from the same start is wider. -/
theorem width_lt_width {b k m : Nat} (hb : b ≤ k) (hkm : k < m) (hm : m ≤ d.text.chars.size) :
    d.width b k < d.width b m := by
  induction m with
  | zero => omega
  | succ m ih =>
    have hget : d.text.chars[m]? = some d.text.chars[m] := Array.getElem?_eq_getElem (by omega)
    have hstep : d.width b m < d.width b (m + 1) := by
      rw [width_succ (by omega) hget]
      exact lt_nextColumn d.tabWidth_pos _ _
    rcases Nat.eq_or_lt_of_le (Nat.le_of_lt_succ hkm) with rfl | hlt
    · exact hstep
    · have := ih hlt (by omega)
      omega

/-- The column of a position is the width of its line before it. -/
theorem column_eq_width {pos : Int} (h₀ : 0 ≤ pos) (h₁ : pos ≤ d.text.length) :
    d.column pos = d.width (d.text.lineStart pos).toNat pos.toNat := by
  have hb := bound_toNat (d.text.lineStart_nonneg pos) (d.text.lineStart_le_length pos)
  unfold column slice width
  rw [bound_toNat h₀ h₁, hb]

/-- Along a line the columns grow. -/
theorem column_lt_column {p q : Int} (h₀ : 0 ≤ p) (hpq : p < q) (h₁ : q ≤ d.text.length)
    (h : d.text.lineStart p = d.text.lineStart q) : d.column p < d.column q := by
  have hle := lineStart_le (t := d.text) h₀
  have hsize : q.toNat ≤ d.text.chars.size := by unfold length at h₁; omega
  rw [column_eq_width h₀ (by omega), column_eq_width (by omega) h₁, h]
  exact Int.ofNat_lt.mpr (width_lt_width (by omega) (by omega) hsize)

/-- A place of a line in a smaller column stands earlier. -/
theorem lt_of_column_lt {p q : Int} (h₀ : 0 ≤ q) (h₁ : p ≤ d.text.length)
    (h : d.text.lineStart p = d.text.lineStart q) (hcol : d.column p < d.column q) : p < q := by
  rcases Int.lt_trichotomy p q with hlt | rfl | hgt
  · exact hlt
  · omega
  · have := column_lt_column h₀ hgt h₁ h.symm
    omega

/-- The search for a column goes forward. -/
theorem le_seekColumn (d : Document) (column : Int) (stop i col : Nat) :
    i ≤ d.seekColumn column stop i col := by
  fun_induction seekColumn d column stop i col <;> omega

/-- The search for a column passes every place left of the column. -/
theorem lt_seekColumn {column : Int} {stop b i k : Nat} (hb : b ≤ i) (hik : i ≤ k) (hk : k < stop)
    (hstop : stop ≤ d.text.chars.size) (hcol : (d.width b k : Int) < column) :
    k < d.seekColumn column stop i (d.width b i) := by
  unfold seekColumn
  have hget : d.text.chars[i]? = some d.text.chars[i] := Array.getElem?_eq_getElem (by omega)
  have hmono : d.width b i ≤ d.width b k := by
    rcases Nat.eq_or_lt_of_le hik with rfl | hlt
    · exact Nat.le_refl _
    · exact Nat.le_of_lt (width_lt_width hb hlt (by omega))
  rw [if_pos ⟨by omega, by omega⟩, hget]
  simp only
  rw [← width_succ hb hget]
  rcases Nat.eq_or_lt_of_le hik with rfl | hlt
  · have := d.le_seekColumn column stop (i + 1) (d.width b (i + 1))
    omega
  · exact lt_seekColumn (by omega) hlt hk hstop hcol
termination_by k - i

/-- The search for a column ends on the line it is made on. -/
theorem seekColumn_le {column : Int} {stop i col : Nat} (h : i ≤ stop) :
    d.seekColumn column stop i col ≤ stop := by
  fun_induction seekColumn d column stop i col with
  | case1 i col hlt c hc ih => exact ih hlt.1
  | case2 => exact h
  | case3 => exact h

/-- The search for a column stops before it passes a place right of the column. -/
theorem width_lt_of_lt_seekColumn {column : Int} {stop b i k : Nat} (hb : b ≤ i) (hik : i ≤ k)
    (hk : k < d.seekColumn column stop i (d.width b i)) : (d.width b k : Int) < column := by
  unfold seekColumn at hk
  split at hk
  · next hlt =>
    split at hk
    · next c hc =>
      rw [← width_succ hb hc] at hk
      rcases Nat.eq_or_lt_of_le hik with rfl | hlt'
      · exact hlt.2
      · exact width_lt_of_lt_seekColumn (by omega) hlt' hk
    · omega
  · omega
termination_by k - i

/-- Moving to a column depends on the line only, and not on the place on it. -/
theorem moveToColumn_eq_of_lineStart_eq {p q : Int} (h : d.text.lineStart p = d.text.lineStart q)
    (column : Int) : d.moveToColumn p column = d.moveToColumn q column := by
  unfold moveToColumn
  rw [h, lineStop_eq_of_lineStart_eq h]

/-- An empty stretch has no width. -/
theorem width_self (d : Document) (b : Nat) : d.width b b = 0 := by
  unfold width
  rw [Array.extract_empty_of_stop_le_start (Nat.le_refl _)]
  rfl

/-- Moving along a line to a column stays on the line and before every place that is not left of the
column. -/
theorem moveToColumn_bounds (d : Document) (pos column : Int) :
    d.text.lineStart pos ≤ d.moveToColumn pos column ∧
      d.moveToColumn pos column ≤ d.text.lineStop pos ∧
      ∀ k, d.text.lineStart k = d.text.lineStart pos → 0 ≤ k → k < d.moveToColumn pos column →
        d.column k < column := by
  have h₀ := d.text.lineStart_nonneg pos
  have h₁ := d.text.lineStart_le_lineStop pos
  have h₂ := d.text.lineStop_le_length pos
  have hge := d.le_seekColumn column (d.text.lineStop pos).toNat (d.text.lineStart pos).toNat 0
  have hle : d.seekColumn column (d.text.lineStop pos).toNat (d.text.lineStart pos).toNat 0 ≤ _ :=
    seekColumn_le (by omega)
  refine ⟨by unfold moveToColumn; omega, by unfold moveToColumn; omega, fun k hline hk hlt => ?_⟩
  have hstart := lineStart_le (t := d.text) hk
  unfold moveToColumn at hlt
  rw [column_eq_width hk (by omega), hline]
  have hseek : k.toNat < d.seekColumn column (d.text.lineStop pos).toNat
      (d.text.lineStart pos).toNat
      (d.width (d.text.lineStart pos).toNat (d.text.lineStart pos).toNat) := by
    rw [width_self]
    omega
  exact width_lt_of_lt_seekColumn (Nat.le_refl _) (by omega) hseek

/-- Moving along a line to a column right of a place leads past that place. -/
theorem lt_moveToColumn {pos column : Int} (h₀ : 0 ≤ pos) (h₁ : pos < d.text.lineStop pos)
    (hcol : d.column pos < column) : pos < d.moveToColumn pos column := by
  have hle := d.text.lineStop_le_length pos
  have hstart := lineStart_le (t := d.text) h₀
  have hnonneg := d.text.lineStart_nonneg pos
  rw [column_eq_width h₀ (by omega)] at hcol
  have hseek := lt_seekColumn (d := d) (b := (d.text.lineStart pos).toNat)
    (i := (d.text.lineStart pos).toNat) (k := pos.toNat) (Nat.le_refl _) (by omega)
    (by omega : pos.toNat < (d.text.lineStop pos).toNat) (by unfold length at hle; omega) hcol
  rw [width_self] at hseek
  unfold moveToColumn
  omega

end Document

end LayoutRule
