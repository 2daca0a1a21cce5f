import LayoutRule.Proofs.Layout.Contours
import LayoutRule.Proofs.Parallel.Clauses

/-!
# Definitions and contours of parallel documents

Counterparts lie in definitions that start at counterparts (`Parallel.Place.definitionStart`), and
the contour before them consists of the same lines (`Parallel.Place.contour`). Where columns are
shifted to the right the walk up may go on in the second document after it has come to the margin in
the first; it finds no more lines there, because no line of the second document starts left of the
shifted margin.
-/

namespace LayoutRule

namespace Text

variable {t : Text} {x : Int}

/-- Above the first line there is none. -/
theorem lineAbove?_eq_none (h : t.lineStart x = 0) : t.lineAbove? x = none := by
  unfold lineAbove?
  rw [moveLines_neg_one, if_pos h, h]
  rfl

/-- The line above the one below a line is the line itself. -/
theorem lineAbove?_below (hx : t.lineStart x = x) (h : t.lineStop x < t.length) :
    t.lineAbove? (t.lineStop x + 1) = some x := by
  have h₀ := t.lineStart_nonneg x
  have hle := t.lineStart_le_lineStop x
  have hstart := Parallel.lineStart_succ_lineStop h
  have hsame : t.lineStart (t.lineStop x) = t.lineStart x :=
    lineStart_eq_of_between hle (Int.le_refl _)
  unfold lineAbove?
  rw [moveLines_neg_one, if_neg (by omega), hstart, Int.add_sub_cancel, hsame, hx]
  rfl

/-- One line further down is the line behind the newline. -/
theorem moveLines_below (hx : t.lineStart x = x) (h : t.lineStop x < t.length) :
    (t.moveLines x 1).1 = t.lineStop x + 1 := by
  rw [moveLines_one, hx, newlineFrom?_eq, if_pos h]

end Text

namespace Document

variable {d : Document}

/-- One step of the way up to the start of a definition. -/
theorem climb_above {s : Settings} {codeStart bol above : Int}
    (h : d.text.lineAbove? bol = some above) :
    d.climb s codeStart bol =
      if codeStart < bol ∧ d.continuesAbove s bol then d.climb s codeStart above else bol := by
  rw [climb]
  split
  · split
    · next above' h' =>
      rw [h] at h'
      cases h'
      rfl
    · next h' =>
      rw [h] at h'
      cases h'
  · rfl

/-- Blocks of code start in the text. -/
theorem codeStart_nonneg (d : Document) (pos : Int) : 0 ≤ d.codeStart pos := by
  have hlen := d.text.length_nonneg
  unfold codeStart
  split
  · exact Int.le_refl 0
  · exact Int.natCast_nonneg _
  · split
    · next opened _ =>
      have := d.text.lineStart_nonneg opened
      have := d.text.lineStart_le_lineStop opened
      omega
    · exact Int.le_refl 0

/-- The start of a block of code depends on the line only. -/
theorem codeStart_lineStart (d : Document) (pos : Int) :
    d.codeStart (d.text.lineStart pos) = d.codeStart pos := by
  unfold codeStart
  rw [d.text.lineStart_lineStart]

/-- The way up ends here. -/
theorem contourFrom_stop {s : Settings} {start bol bound : Int} {found : List Int}
    (h : bound ≤ 0 ∨ d.isProse bol = true ∨ d.indentationPoint bol < start ∨
      (d.isBlankLine bol && !s.lookPastEmptyLines) = true) :
    d.contourFrom s start bol bound found = .ok found := by
  rw [contourFrom]
  split
  · rfl
  split
  · rfl
  simp only
  split
  · rfl
  split
  · rfl
  next hbound hprose hpoint hblank =>
  rcases h with h | h | h | h
  · exact absurd h hbound
  · exact absurd h hprose
  · exact absurd h hpoint
  · exact absurd h hblank

/-- One line on the way up, when the way does not end there. -/
theorem contourFrom_step {s : Settings} {start bol bound : Int} {found : List Int} {passed : Bool}
    (hbound : 0 < bound) (hcode : d.isProse bol = false) (hstart : start ≤ d.indentationPoint bol)
    (hblank : (d.isBlankLine bol && !s.lookPastEmptyLines) = false)
    (hpassed : (if d.isBlankLine bol then pure true
      else d.isCommentLine (d.indentationPoint bol) start) = .ok passed) :
    d.contourFrom s start bol bound found =
      match d.text.lineAbove? bol with
      | some above =>
        if !passed && decide (d.column (d.indentationPoint bol) < bound) then
          d.contourFrom s start above (d.column (d.indentationPoint bol))
            (d.indentationPoint bol :: found)
        else d.contourFrom s start above bound found
      | none =>
        .ok (if !passed && decide (d.column (d.indentationPoint bol) < bound)
          then d.indentationPoint bol :: found
          else found) := by
  have hprose : (d.style != .plain && !d.isCodeLine bol) = false := hcode
  have hrun : ∀ f : Bool → Except Fault (List Int),
      (if d.isBlankLine bol = true then pure true >>= f
        else d.isCommentLine (d.indentationPoint bol) start >>= f) = f passed := by
    intro f
    split at hpassed
    · next hb =>
      cases hpassed
      rw [if_pos hb]
      rfl
    · next hb =>
      rw [if_neg hb, hpassed]
      rfl
  rw [contourFrom, if_neg (by omega), hprose, if_neg Bool.false_ne_true]
  simp only
  rw [if_neg (by omega), hblank, if_neg Bool.false_ne_true, hrun]
  split
  · next above h => rw [h]
  · next h =>
    rw [h]
    rfl

/-- Columns are not negative. -/
theorem column_nonneg (d : Document) (pos : Int) : 0 ≤ d.column pos := Int.natCast_nonneg _

end Document

namespace Parallel

open Text Document

variable {s : Settings} {d e : Document} {C : Parallel s d e} {n : Nat} {x y a b l m : Int}

/-! ## Lines above -/

/-- Corresponding lines have corresponding lines above them, or are the first. -/
theorem Line.lineAbove? (h : C.Line n x y) :
    (n = 0 ∧ x = 0 ∧ y = 0 ∧ d.text.lineAbove? x = none ∧ e.text.lineAbove? y = none) ∨
      ∃ n' x' y', n = n' + 1 ∧ x' < x ∧ C.Line n' x' y' ∧ d.text.lineAbove? x = some x' ∧
        e.text.lineAbove? y = some y' := by
  have hstart := h.starts
  have hend := C.end_le
  cases h with
  | first => exact .inl ⟨rfl, rfl, rfl, lineAbove?_eq_none hstart.1, lineAbove?_eq_none hstart.2⟩
  | @next n' x' y' h' hx hy =>
    have hstart' := Line.starts (C := C) h'
    have hle := Line.le_lineStop (C := C) h'
    exact .inr ⟨n', x', y', rfl, by omega, h', lineAbove?_below hstart'.1 (by omega),
      lineAbove?_below hstart'.2 (by omega)⟩

/-- Corresponding lines come in the same order. -/
theorem Line.le {n' : Nat} {x' y' : Int} (h : C.Line n x y) (h' : C.Line n' x' y') (hle : n ≤ n') :
    x ≤ x' ∧ y ≤ y' := by
  rcases Nat.eq_or_lt_of_le hle with rfl | hlt
  · obtain ⟨rfl, rfl⟩ := h.unique h'
    exact ⟨Int.le_refl x, Int.le_refl y⟩
  · have hlt' := h.lt h' hlt
    have hstop := h.le_lineStop
    omega

/-- Corresponding lines are both blank or both not. -/
theorem Line.isBlankLine (h : C.Line n x y) : e.isBlankLine y = d.isBlankLine x := by
  have hblank := h.point.isBlankLine
  rw [d.isBlankLine_indentationPoint, e.isBlankLine_indentationPoint] at hblank
  exact hblank

/-- Where columns correspond, the indentations of corresponding lines differ by the common shift. -/
theorem Line.column (h : C.Line n x y) (hfree : x < C.free) :
    e.column (e.indentationPoint y) = d.column (d.indentationPoint x) + C.shift := by
  refine h.point.column ?_
  rw [d.lineStart_indentationPoint, h.starts.1]
  exact hfree

/-- Corresponding lines both go on with a definition from above or both do not, where columns
correspond: the column of the top level is shifted like all others. -/
theorem Line.continuesAbove (h : C.Line n x y) (hfree : x < C.free) :
    e.continuesAbove s y = d.continuesAbove s x := by
  have hdeeper : decide (s.topColumn e < e.indentation y) =
      decide (s.topColumn d < d.indentation x) := by
    unfold indentation
    rw [h.column hfree, C.top]
    exact decide_eq_decide.mpr (by omega)
  unfold Document.continuesAbove
  rw [h.isBlankLine, hdeeper]

/-! ## The enclosing definition -/

/-- The ways up from corresponding lines end on corresponding lines. -/
theorem Line.climb {c c' : Int} (h : C.Line n x y) (hfree : x < C.free ∨ n = 0) (hc : 0 ≤ c)
    (hc' : 0 ≤ c') (hcode : ∀ {n' x' y'}, C.Line n' x' y' → n' ≤ n → (c' < y' ↔ c < x')) :
    ∃ n', n' ≤ n ∧ C.Line n' (d.climb s c x) (e.climb s c' y) := by
  induction n generalizing x y with
  | zero =>
    cases h
    rw [climb, climb, if_neg (by omega), if_neg (by omega)]
    exact ⟨0, Nat.le_refl 0, .first⟩
  | succ n ih =>
    have hx : x < C.free := hfree.resolve_right (Nat.succ_ne_zero n)
    rcases h.lineAbove? with ⟨hn, -⟩ | ⟨n', x', y', hn, hlt, hline, habove, habove'⟩
    · cases hn
    · cases hn
      have hiff := hcode h (Nat.le_refl _)
      rw [climb_above habove, climb_above habove', h.continuesAbove hx]
      by_cases hup : c < x ∧ d.continuesAbove s x = true
      · rw [if_pos hup, if_pos ⟨hiff.mpr hup.1, hup.2⟩]
        obtain ⟨n', hle, hline⟩ :=
          ih hline (.inl (by omega)) fun hline hle => hcode hline (by omega)
        exact ⟨n', by omega, hline⟩
      · rw [if_neg hup, if_neg fun h => hup ⟨hiff.mp h.1, h.2⟩]
        exact ⟨n + 1, Nat.le_refl _, h⟩

/-- Definitions start on corresponding lines, not below the place. -/
theorem Line.definitionLine (hline : C.Line n (d.text.lineStart a) (e.text.lineStart b))
    (hhere : d.text.lineStart a ≤ C.free)
    (hfree : ∀ {n' x' y'}, C.Line n' x' y' → n' < n → x' < C.free) :
    ∃ n', n' ≤ n ∧ C.Line n' (d.definitionLine s a) (e.definitionLine s b) := by
  have hcode : ∀ {n' x' y'}, C.Line n' x' y' → n' ≤ n →
      (e.codeStart b < y' ↔ d.codeStart a < x') := by
    intro n' x' y' hline' hle
    rw [← d.codeStart_lineStart, ← e.codeStart_lineStart]
    exact C.codeStart hline hhere hline' hle
  have hstart := hline.starts
  have htop : ∃ n', n' ≤ n ∧ C.Line n'
      (d.climb s (d.codeStart a)
        ((d.text.lineAbove? (d.text.lineStart a)).getD (d.text.lineStart a)))
      (e.climb s (e.codeStart b)
        ((e.text.lineAbove? (e.text.lineStart b)).getD (e.text.lineStart b))) := by
    rcases hline.lineAbove? with ⟨hn, -, -, habove, habove'⟩ |
      ⟨n', x', y', hn, hlt, hline', habove, habove'⟩
    · rw [habove, habove']
      exact hline.climb (.inr hn) (d.codeStart_nonneg a) (e.codeStart_nonneg b) hcode
    · rw [habove, habove']
      obtain ⟨m, hle, hclimb⟩ :=
        hline'.climb (.inl (hfree hline' (by omega))) (codeStart_nonneg d a) (codeStart_nonneg e b)
          fun hline hle => hcode hline (by omega)
      exact ⟨m, by omega, hclimb⟩
  obtain ⟨n', hle, htop⟩ := htop
  unfold Document.definitionLine
  simp only
  rw [htop.isBlankLine]
  rcases Nat.eq_or_lt_of_le hle with rfl | hlt
  · obtain ⟨hx, hy⟩ := htop.unique hline
    rw [hx, hy, if_neg (by omega), if_neg (by omega)]
    exact ⟨n', hle, hline⟩
  · have hlow := htop.lt hline hlt
    have hle' := htop.le_lineStop
    have hlast := hline.lineStop_le
    have hend := C.end_le
    have hnext := htop.below (by have := hline.le_lineStop; omega)
    split
    · next hblank =>
      rw [if_pos ⟨hblank.1, by omega⟩, moveLines_below htop.starts.1
        (by have := hline.le_lineStop; omega),
        moveLines_below htop.starts.2 (by have := hline.le_lineStop; omega)]
      exact ⟨n' + 1, hlt, hnext⟩
    · next hblank =>
      rw [if_neg fun h => hblank ⟨h.1, by omega⟩]
      exact ⟨n', hle, htop⟩

/-- Definitions start at counterparts, not behind the place. -/
theorem Place.definitionStart (h : C.Place a b) (hhere : d.text.lineStart a ≤ C.free)
    (hfree : ∀ {n x y}, C.Line n x y → x < d.text.lineStart a → x < C.free) :
    Both (fun i j => C.Place i j ∧ i ≤ a) (d.definitionStart s a) (e.definitionStart s b) := by
  obtain ⟨n, hline⟩ := h.line
  obtain ⟨n', hle, hdefinition⟩ := hline.definitionLine hhere fun hline' hlt => hfree hline' (by
    have := hline'.lt hline hlt
    have := hline'.le_lineStop
    omega)
  have horigin := hdefinition.point
  have hbefore := (hdefinition.point_le_place h (by
    have hfirst := (hdefinition.le hline hle).1
    have := h.point_le
    have := d.lineStart_le_indentationPoint a
    omega)).1
  unfold Document.definitionStart
  refine (horigin.skipGap C.limit_length).bind fun first first' hlands => ⟨_, _, rfl, rfl, ?_⟩
  have hend := h.le_end
  have hiff : b < first' ↔ a < first := by
    rcases hlands with hplace | hbeyond
    · exact h.lt_iff hplace
    · unfold Beyond at hbeyond
      omega
  by_cases hlt : a < first
  · rw [if_pos hlt, if_pos (hiff.mpr hlt)]
    exact ⟨horigin, hbefore⟩
  · rw [if_neg hlt, if_neg fun h => hlt (hiff.mp h)]
    rcases hlands with hplace | hbeyond
    · exact ⟨hplace, by omega⟩
    · unfold Beyond at hbeyond
      omega

/-! ## Contours -/

/-- Corresponding lines both start with a comment or both do not. -/
theorem Line.isCommentLine (h : C.Line n x y) (hl : C.Place l m) :
    ∃ comment, d.isCommentLine (d.indentationPoint x) l = .ok comment ∧
      e.isCommentLine (e.indentationPoint y) m = .ok comment := by
  have hhere : e.commentAt (e.indentationPoint y) = d.commentAt (d.indentationPoint x) :=
    h.point.commentAt C.limit_length
  obtain ⟨comment, hcomment, -⟩ := Document.commentAt_yields (d := d) h.point.bounds.1
  obtain ⟨i, j, hi, hj, hfound⟩ := hl.openComment? h.point
  unfold Document.isCommentLine
  rw [hhere, hcomment, hi, hj]
  cases comment with
  | true => exact ⟨true, rfl, rfl⟩
  | false => exact ⟨i.isSome, rfl, by rw [← rel_isSome hfound]; rfl⟩

/-- Whether a line is passed over on the way up. -/
theorem Line.passed (h : C.Line n x y) (hl : C.Place l m) :
    ∃ passed, (if d.isBlankLine x then pure true else d.isCommentLine (d.indentationPoint x) l) =
      .ok passed ∧
      (if e.isBlankLine y then pure true else e.isCommentLine (e.indentationPoint y) m) =
        .ok passed := by
  rw [h.isBlankLine]
  split
  · exact ⟨true, rfl, rfl⟩
  · exact h.isCommentLine hl

/-- Where the margin of the shifted columns has been reached no more lines are found. -/
theorem Line.contourFrom_margin {n : Nat} {x y bound : Int} {found : List Int} (h : C.Line n x y)
    (hfree : x < C.free) (hl : C.Place l m) (hbound : bound ≤ C.shift) :
    e.contourFrom s m y bound found = .ok found := by
  by_cases hstop : bound ≤ 0 ∨ e.isProse y = true ∨ e.indentationPoint y < m ∨
      (e.isBlankLine y && !s.lookPastEmptyLines) = true
  · exact contourFrom_stop hstop
  · simp only [not_or, Bool.not_eq_true] at hstop
    obtain ⟨passed, -, hpassed⟩ := h.passed hl
    have hcolumn := h.column hfree
    have hnonneg := d.column_nonneg (d.indentationPoint x)
    have hcounts : (!passed && decide (e.column (e.indentationPoint y) < bound)) = false := by
      rw [decide_eq_false (by omega), Bool.and_false]
    rw [contourFrom_step (by omega) hstop.2.1 (by omega) hstop.2.2.2 hpassed, hcounts]
    rcases h.lineAbove? with ⟨-, -, -, -, habove⟩ | ⟨n', x', y', hn, hlt, hline, -, habove⟩
    · rw [habove]
      rfl
    · rw [habove]
      exact hline.contourFrom_margin (by omega) hl hbound
termination_by n

/-- Columns are shifted to the right only. -/
theorem shift_nonneg (C : Parallel s d e) : 0 ≤ C.shift := by
  rcases C.style with ⟨h, -⟩ | ⟨h, -⟩ <;> omega

/-- The way up meets the same lines. -/
theorem Line.contourFrom {n : Nat} {x y bound bound' : Int} {found found' : List Int}
    (h : C.Line n x y) (hfree : x < C.free) (hl : C.Place l m) (hbound : bound' = bound + C.shift)
    (hfound : List.Forall₂ C.Fixed found found') :
    Both (List.Forall₂ C.Fixed) (d.contourFrom s l x bound found)
      (e.contourFrom s m y bound' found') := by
  have hshift := C.shift_nonneg
  rcases Int.lt_or_le 0 bound with hpos | hmargin
  · have hpoint := h.point.lt_iff hl
    have hblank := h.isBlankLine
    have hprose : e.isProse y = d.isProse x := C.prose h (Int.le_of_lt hfree)
    by_cases hstop : d.isProse x = true ∨ d.indentationPoint x < l ∨
        (d.isBlankLine x && !s.lookPastEmptyLines) = true
    · rw [contourFrom_stop (.inr hstop),
        contourFrom_stop (.inr (by rw [hprose, hblank, hpoint]; exact hstop))]
      exact ⟨_, _, rfl, rfl, hfound⟩
    · simp only [not_or, Bool.not_eq_true] at hstop
      obtain ⟨passed, hpassed, hpassed'⟩ := h.passed hl
      have hcolumn := h.column hfree
      have hcounts : (!passed && decide (e.column (e.indentationPoint y) < bound')) =
          (!passed && decide (d.column (d.indentationPoint x) < bound)) := by
        rw [hcolumn, hbound]
        exact congrArg _ (decide_eq_decide.mpr (by omega))
      have hfixed : C.Fixed (d.indentationPoint x) (e.indentationPoint y) :=
        ⟨h.point, by rw [d.lineStart_indentationPoint, h.starts.1]; exact hfree⟩
      rw [contourFrom_step hpos hstop.1 (by omega) hstop.2.2 hpassed,
        contourFrom_step (by omega) (hprose.trans hstop.1) (by omega)
          (by rw [hblank]; exact hstop.2.2) hpassed', hcounts]
      rcases h.lineAbove? with ⟨-, -, -, habove, habove'⟩ |
        ⟨n', x', y', hn, hlt, hline, habove, habove'⟩
      · rw [habove, habove']
        refine ⟨_, _, rfl, rfl, ?_⟩
        split
        · exact .cons hfixed hfound
        · exact hfound
      · rw [habove, habove']
        simp only
        split
        · exact hline.contourFrom (by omega) hl hcolumn (.cons hfixed hfound)
        · exact hline.contourFrom (by omega) hl hbound hfound
  · rw [contourFrom_stop (.inl hmargin), h.contourFrom_margin hfree hl (by omega)]
    exact ⟨_, _, rfl, rfl, hfound⟩
termination_by n

/-- The contours before counterparts consist of the same lines, when columns correspond where the
last code before them ends. -/
theorem Place.contour (h : C.Place a b) (hl : C.Place l m)
    (hback : ∀ {p}, d.skipGapBack a l = .ok p → l < p → d.text.lineStart p < C.free) :
    Both (List.Forall₂ C.Fixed) (d.contour s l a) (e.contour s m b) := by
  have hiff := h.le_iff hl
  unfold Document.contour
  rcases Int.lt_or_le l a with hlt | hge
  · obtain ⟨p, q, hp, hq, hplace, hle, -⟩ := h.skipGapBack hl (by omega)
    have hpl := hplace.le_iff hl
    rw [if_neg (by omega), if_neg (by omega), hp, hq, ok_bind, ok_bind]
    rcases Int.lt_or_eq_of_le hle with hlp | rfl
    · have hline := hback hp hlp
      obtain ⟨n, hn⟩ := hplace.line
      rw [if_neg (by omega), if_neg (by omega)]
      exact hn.contourFrom hline hl (hplace.column hline) .nil
    · rw [if_pos (Int.le_refl _), if_pos (by omega)]
      exact ⟨_, _, rfl, rfl, .nil⟩
  · rw [if_pos hge, if_pos (by omega)]
    exact ⟨_, _, rfl, rfl, .nil⟩

/-! ## Columns of a line -/

/-- Moving along corresponding lines to corresponding columns right of their code's start leads to
counterparts. -/
theorem Fixed.moveToColumn {col col' : Int} (h : C.Fixed a b) (hstop : a < d.text.lineStop a)
    (hcol : col' = col + C.shift) (hlt : d.column a < col) :
    C.Place (d.moveToColumn a col) (e.moveToColumn b col') := by
  obtain ⟨hplace, hfree⟩ := h
  have hb := hplace.bounds
  have hcolumn := hplace.column hfree
  obtain ⟨-, hle, hleft⟩ := d.moveToColumn_bounds a col
  obtain ⟨-, hle', hleft'⟩ := e.moveToColumn_bounds b col'
  have hpast := lt_moveToColumn hb.1 hstop hlt
  have hpast' := lt_moveToColumn hb.2.2.1 ((hplace.lt_iff hplace.stop).mpr hstop)
    (by omega : e.column b < col')
  -- every place of the line from here on has its counterpart on the other line, in the
  -- corresponding column
  have hon : ∀ k, a ≤ k → k ≤ d.text.lineStop a → C.Place k (b + (k - a)) ∧
      d.text.lineStart k = d.text.lineStart a ∧
      e.text.lineStart (b + (k - a)) = e.text.lineStart b ∧
      e.column (b + (k - a)) = d.column k + C.shift := by
    intro k hk hkstop
    have hpoint := hplace.point_le
    have hk' := hplace.move (by omega) hkstop
    have hline : d.text.lineStart k = d.text.lineStart a :=
      lineStart_eq_of_between (by have := d.lineStart_le_indentationPoint a; omega) hkstop
    have hline' : e.text.lineStart (b + (k - a)) = e.text.lineStart b :=
      lineStart_eq_of_between (by have := e.lineStart_le_indentationPoint b; omega)
        ((hk'.le_iff hplace.stop).mpr hkstop)
    exact ⟨hk', hline, hline', hk'.column (by omega)⟩
  obtain ⟨hi, hline, hline', hcoli⟩ := hon (d.moveToColumn a col) (by omega) hle
  suffices heq : e.moveToColumn b col' = b + (d.moveToColumn a col - a) by
    rw [heq]
    exact hi
  have hlow : b + (d.moveToColumn a col - a) - 1 < e.moveToColumn b col' := by
    obtain ⟨hk, hlinek, hlinek', hcolk⟩ := hon (d.moveToColumn a col - 1) (by omega) (by omega)
    have hcolk' := hleft _ hlinek hk.bounds.1 (by omega)
    have := lt_moveToColumn hk.bounds.2.2.1
      ((hk.lt_iff hk.stop).mpr (by rw [lineStop_eq_of_lineStart_eq hlinek]; omega))
      (by omega : e.column (b + (d.moveToColumn a col - 1 - a)) < col')
    rw [moveToColumn_eq_of_lineStart_eq hlinek'] at this
    omega
  have hhigh : e.moveToColumn b col' ≤ b + (d.moveToColumn a col - a) := by
    rcases Int.lt_or_le (b + (d.moveToColumn a col - a)) (e.moveToColumn b col') with hgt | hle
    · exfalso
      have hcolk := hleft' _ hline' hi.bounds.2.2.1 hgt
      have hlast := (hi.lt_iff hi.stop).mp (by rw [lineStop_eq_of_lineStart_eq hline']; omega)
      have := lt_moveToColumn hi.bounds.1 hlast (by omega : d.column (d.moveToColumn a col) < col)
      rw [moveToColumn_eq_of_lineStart_eq hline] at this
      omega
    · exact hle
  omega

end Parallel

end LayoutRule
