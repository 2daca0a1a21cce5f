import LayoutRule.Proofs.Request.CommentLines

/-!
# Indenting a line of code

Indenting a line of code to a column exchanges what stands before its code and leaves everything
else as it was. The code then stands in that column, or as far to the left as it can when there is
no room: at the margin, or right behind the marker of a literate line. `Reindented` says what
becomes of the document; `tryIndentLine_reindents` says that it holds whenever the blanks can be
made at all.

Indenting the line once more does nothing. The line has to be named by one of its positions after
the edit, though: a line that became shorter may end before the position that named it first, and
the same request then indents the line below (`indent_twice_below`).
-/

namespace LayoutRule

namespace Document

open Text

variable {d : Document} {pos column : Int}

/-- Code is no prose. -/
theorem isProse_of_isCodeLine (hcode : d.isCodeLine pos = true) : d.isProse pos = false := by
  simp [isProse, hcode]

/-- The line of `pos` can be indented to a column exactly when its blanks can be made. -/
theorem tryIndentLine_eq_ok [Platform] {r : Document × Int} :
    d.tryIndentLine pos column = .ok r ↔
      (if d.isMarked (d.text.lineStart pos) then column - 1 else column) < Platform.runLimit ∧
      r = d.indentLine pos column := by
  unfold tryIndentLine checkIndent
  rw [bind_eq_ok]
  constructor
  · rintro ⟨_, hcheck, hr⟩
    exact ⟨checkRun_eq_ok.mp hcheck, (Except.ok.inj hr).symm⟩
  · rintro ⟨hlt, rfl⟩
    exact ⟨(), checkRun_eq_ok.mpr hlt, rfl⟩

/-- Indenting depends on the line alone, not on the position that names it. -/
theorem indentLine_eq_of_lineStart_eq {p q : Int} (h : d.text.lineStart p = d.text.lineStart q)
    (column : Int) : d.indentLine p column = d.indentLine q column := by
  unfold indentLine
  rw [h, indentationPoint_eq_of_lineStart_eq h]

/-- The leftmost column of code on the line that starts at `bol`. -/
def leastColumn (d : Document) (bol : Int) : Int := if d.isMarked bol then 1 else 0

/-- There is no room left of the leftmost column. -/
theorem indentLine_max (d : Document) (pos column : Int) :
    d.indentLine pos (max column (d.leastColumn (d.text.lineStart pos))) =
      d.indentLine pos column := by
  have hlead : ∀ bol, d.leadFor bol (max column (d.leastColumn bol)) = d.leadFor bol column := by
    intro bol
    unfold leadFor leastColumn
    cases d.isMarked bol with
    | true =>
      rw [if_pos rfl, if_pos rfl, if_pos rfl,
        show (max column 1 - 1).toNat = (column - 1).toNat by omega]
    | false =>
      rw [if_neg Bool.false_ne_true, if_neg Bool.false_ne_true, if_neg Bool.false_ne_true,
        show (max column 0).toNat = column.toNat by omega]
  simp only [indentLine, hlead]

/-- A line is edited, and the version counted up, exactly when its text changes. -/
theorem version_indentLine (d : Document) (pos column : Int) :
    (d.indentLine pos column).1.version =
      if (d.indentLine pos column).1.text = d.text then d.version else d.version + 1 := by
  have hstart := d.text.bound_lineStart pos
  have hpoint := bound_of_mem (d.indentationPoint_nonneg pos) (d.indentationPoint_le_length pos)
  have hle := d.lineStart_le_indentationPoint pos
  have hparts : d.text = d.text.takeTo (d.text.lineStart pos) ++
      d.text.slice (d.text.lineStart pos) (d.indentationPoint pos) ++ d.text.dropTo
        (d.indentationPoint pos) := by
    rw [takeTo_append_slice (by omega), takeTo_append_dropTo]
  have htext := d.indentLine_text pos column
  unfold indentLine at htext ⊢
  simp only at htext ⊢
  split
  · exact (if_pos rfl).symm
  · next hdiffers =>
    rw [if_neg]
    · rfl
    · intro hsame
      rw [if_neg hdiffers, hsame] at htext
      have hchars := congrArg Text.chars (hparts.symm.trans htext)
      simp only [chars_append] at hchars
      exact hdiffers
        (ext_chars ((Array.append_right_inj _).mp ((Array.append_left_inj _).mp hchars)))

/-- What indenting the line of `pos` to a column makes of a document. -/
structure Reindented [Platform] (d : Document) (pos column : Int) (e : Document) (point : Int) :
    Prop where
  /-- The new point lies on the line, which starts where it did. -/
  line : e.text.lineStart point = d.text.lineStart pos
  /-- It is the indentation point of the line. -/
  indentationPoint : ∀ q, e.text.lineStart q = d.text.lineStart pos → e.indentationPoint q = point
  /-- The line is indented to the column, or to its leftmost one. -/
  indentation : ∀ q, e.text.lineStart q = d.text.lineStart pos →
    e.indentation q = max column (d.leastColumn (d.text.lineStart pos))
  /-- The line is marked as it was. -/
  marker : e.isMarked (d.text.lineStart pos) = d.isMarked (d.text.lineStart pos)
  /-- The lines above are the same. -/
  above : e.text.takeTo (d.text.lineStart pos) = d.text.takeTo (d.text.lineStart pos)
  /-- So are the code of the line and the lines below. -/
  below : e.text.dropTo point = d.text.dropTo (d.indentationPoint pos)
  /-- A change of the text is one new version. -/
  version : e.version = if e.text = d.text then d.version else d.version + 1
  /-- Indenting the line once more does nothing. -/
  again : ∀ q, e.text.lineStart q = d.text.lineStart pos → e.tryIndentLine q column = .ok (e, point)

/-- Indenting a line of code, in terms of the parts of the text. -/
theorem parts_indentLine (d : Document) (pos column : Int) :
    (d.indentLine pos column).1.text.takeTo (d.text.lineStart pos) =
      d.text.takeTo (d.text.lineStart pos) ∧
      (d.indentLine pos column).1.text.dropTo (d.indentLine pos column).2 =
        d.text.dropTo (d.indentationPoint pos) := by
  have hstart := length_takeTo (d.text.lineStart_nonneg pos) (d.text.lineStart_le_length pos)
  have hpoint : (d.indentLine pos column).2 =
      (d.text.takeTo (d.text.lineStart pos) ++ d.leadFor (d.text.lineStart pos) column).length := by
    rw [indentLine_point, length_append, hstart]
  constructor
  · have htake := takeTo_append (d.text.takeTo (d.text.lineStart pos))
      (d.leadFor (d.text.lineStart pos) column ++ d.text.dropTo (d.indentationPoint pos))
    rw [hstart, ← append_assoc, ← indentLine_text] at htake
    exact htake
  · rw [hpoint, indentLine_text, dropTo_append_self]

/-- Indenting a line of code to a column does all that `Reindented` says, when the blanks can be
made. -/
theorem reindented_indentLine [Platform] (hcode : d.isProse pos = false)
    (hwide : d.checkIndent pos column = .ok ()) :
    d.Reindented pos column (d.indentLine pos column).1 (d.indentLine pos column).2 := by
  obtain ⟨hline, hpoint⟩ := lineStart_indentLine hcode column
  obtain ⟨habove, hbelow⟩ := d.parts_indentLine pos column
  have hbol := (d.indentLine pos column).1.text.lineStart_lineStart (d.indentLine pos column).2
  have hmarked := isMarked_of_code hcode
  have hmarker : (d.indentLine pos column).1.isMarked (d.text.lineStart pos) =
      d.isMarked (d.text.lineStart pos) := by
    obtain ⟨blanks, code, after, h⟩ := respaced_indentLine hcode column
    have hmarked' := h.second.isMarked_eq
    rw [length_takeTo (d.text.lineStart_nonneg pos) (d.text.lineStart_le_length pos)] at hmarked'
    rw [hmarked', hmarked, h.shares.bird]
  have hall : ∀ q, (d.indentLine pos column).1.text.lineStart q = d.text.lineStart pos →
      (d.indentLine pos column).1.indentationPoint q = (d.indentLine pos column).2 := by
    intro q hq
    rw [hline] at hbol
    rw [indentationPoint_eq_of_lineStart_eq (hq.trans hbol.symm), hpoint]
  refine ⟨hline, hall, fun q hq => ?_, hmarker, habove, hbelow, d.version_indentLine pos column,
    fun q hq => ?_⟩
  · unfold indentation
    rw [hall q hq, ← indentLine_max]
    refine column_indentLine hcode ?_ fun hbird => ?_
    · unfold leastColumn
      split <;> omega
    · rw [leastColumn, hmarked, if_pos hbird]
      omega
  · refine tryIndentLine_eq_ok.mpr ⟨?_, ?_⟩
    · rw [hq, hmarker]
      exact checkRun_eq_ok.mp hwide
    · rw [indentLine_eq_of_lineStart_eq (hq.trans hline.symm), indentLine_again hcode]

/-- Indenting a line of code to any column succeeds whenever its blanks can be made, and no other
way. It gives the new indentation point of the line: the code of the line stands there in the column
that was asked for, or in the leftmost one when that lies further left; the marker, the code and the
other lines are as before, the version has been counted up exactly when the text has changed, and
indenting the line once more does nothing. -/
theorem tryIndentLine_reindents [Platform] (hcode : d.isCodeLine pos = true) (column : Int) :
    ((∃ r, d.tryIndentLine pos column = .ok r) ↔
      (if d.isMarked (d.text.lineStart pos) then column - 1 else column) < Platform.runLimit) ∧
    ∀ e point, d.tryIndentLine pos column = .ok (e, point) → d.Reindented pos column e point := by
  constructor
  · constructor
    · rintro ⟨r, hr⟩
      exact (tryIndentLine_eq_ok.mp hr).1
    · intro hlt
      exact ⟨_, tryIndentLine_eq_ok.mpr ⟨hlt, rfl⟩⟩
  · intro e point h
    obtain ⟨hlt, hr⟩ := tryIndentLine_eq_ok.mp h
    obtain ⟨rfl, rfl⟩ : e = (d.indentLine pos column).1 ∧ point = (d.indentLine pos column).2 :=
      Prod.ext_iff.mp hr
    exact reindented_indentLine (isProse_of_isCodeLine hcode) (checkRun_eq_ok.mpr hlt)

/-- The last line of the script, indented by tabs, asked to go left of its marker. -/
theorem tryIndentLine_reindents_driftedLine :
    driftedLine.isCodeLine 19 = true ∧ (driftedLine.tryIndentLine 19 (-3)).map (·.2) = .ok 18 ∧
      ∃ e, driftedLine.tryIndentLine 19 (-3) = .ok (e, 18) ∧ e.indentation 18 = 1 ∧
        e.tryIndentLine 18 (-3) = .ok (e, 18) := by
  have hcode : driftedLine.isCodeLine 19 = true := by decide +kernel
  have hpoint : (driftedLine.tryIndentLine 19 (-3)).map (·.2) = .ok 18 := by decide +kernel
  refine ⟨hcode, hpoint, ?_⟩
  obtain ⟨hiff, hall⟩ := tryIndentLine_reindents hcode (-3)
  obtain ⟨⟨e, point⟩, he⟩ := hiff.mpr (by decide +kernel)
  obtain rfl : point = 18 := by
    rw [he] at hpoint
    exact Except.ok.inj hpoint
  have h := hall e 18 he
  exact ⟨e, he, h.indentation 18 h.line, h.again 18 h.line⟩

/-- A line that is indented deeper than it is long, and another one below. -/
def deepLine : Document := .new (ofString "   x\n y") .plain 8

/-- The place that names the first line lies on the second one when the first has gone to the
margin, so the same request indents the second line as well. -/
theorem indent_twice_below :
    deepLine.isCodeLine 3 = true ∧
      (deepLine.tryIndentLine 3 0).map (fun r => (r.1.text, r.1.version, r.2)) =
        .ok (ofString "x\n y", 1, 0) ∧
      ((deepLine.tryIndentLine 3 0).bind fun r => r.1.tryIndentLine 3 0).map
        (fun r => (r.1.text, r.1.version, r.2)) =
        .ok (ofString "x\ny", 2, 2) := by
  decide +kernel

end Document

end LayoutRule
