import LayoutRule.Proofs.Request.Independence

/-!
# Whole documents that differ in the indentation of one line

Indenting a line anew moves the lines below it, and changes nothing else about them: from the end of
the line on, the text is the same (`Text.SameRest`). So the documents before and after are parallel
to their ends (`Document.Respaced.whole`). Columns correspond on the lines above the one that was
moved; on the lines below they are the same (`Document.Respaced.column_below`).
-/

namespace LayoutRule

namespace Text

variable {t u : Text} {k m : Int}

/-- The texts are the same from `k` and `m` on. -/
structure SameRest (t : Text) (k : Int) (u : Text) (m : Int) : Prop where
  mem₁ : 0 ≤ k ∧ k ≤ t.length
  mem₂ : 0 ≤ m ∧ m ≤ u.length
  char : ∀ i : Nat, u.charAt? (m + i) = t.charAt? (k + i)

namespace SameRest

/-- As much follows in both texts. -/
theorem length (h : t.SameRest k u m) : u.length - m = t.length - k := by
  have h₁ := h.mem₁
  have h₂ := h.mem₂
  have hd := h.char (t.length - k).toNat
  have he := h.char (u.length - m).toNat
  rw [charAt?_eq (by omega), charAt?_eq (by omega)] at hd he
  have hnone : t.chars[(k + (t.length - k).toNat).toNat]? = none := by
    rw [Array.getElem?_eq_none_iff]
    unfold Text.length at *
    omega
  have hnone' : u.chars[(m + (u.length - m).toNat).toNat]? = none := by
    rw [Array.getElem?_eq_none_iff]
    unfold Text.length at *
    omega
  have hd' := Array.getElem?_eq_none_iff.mp (hd.trans hnone)
  have he' := Array.getElem?_eq_none_iff.mp (he.symm.trans hnone')
  unfold Text.length at *
  omega

/-- Further on, the texts are the same as well. -/
theorem move (h : t.SameRest k u m) {j : Int} (hle : k ≤ j) (hj : j ≤ t.length) :
    t.SameRest j u (m + (j - k)) where
  mem₁ := ⟨by have := h.mem₁; omega, hj⟩
  mem₂ := ⟨by have := h.mem₂; omega, by have := h.length; omega⟩
  char i := by
    have hchar := h.char ((j - k).toNat + i)
    rw [show m + (((j - k).toNat + i : Nat) : Int) = m + (j - k) + i by omega,
      show k + (((j - k).toNat + i : Nat) : Int) = j + i by omega] at hchar
    exact hchar

/-- Both texts hold the same to the ends of their lines, as they do to the ends of the texts. -/
theorem agree (h : t.SameRest k u m) : t.Agree k.toNat u m.toNat := by
  intro i _
  have h₁ := h.mem₁
  have h₂ := h.mem₂
  have hchar := h.char i
  rw [charAt?_eq (by omega), charAt?_eq (by omega), show (m + i).toNat = m.toNat + i by omega,
    show (k + i).toNat = k.toNat + i by omega] at hchar
  exact hchar.symm

/-- Lines end equally far from the places. -/
theorem lineStop (h : t.SameRest k u m) : u.lineStop m = t.lineStop k + (m - k) := by
  have h₁ := h.mem₁
  have h₂ := h.mem₂
  have hrun := h.agree.runStop (p := notNewline) (by decide)
  have hle := t.le_runStop notNewline k.toNat
  unfold Text.lineStop
  rw [bound_toNat h₁.1 h₁.2, bound_toNat h₂.1 h₂.2, hrun]
  omega

/-- A window behind the places is the same in both texts. -/
theorem slice (h : t.SameRest k u m) {j : Int} (hle : k ≤ j) (hj : j ≤ t.length) :
    u.slice m (m + (j - k)) = t.slice k j := by
  have h₁ := h.mem₁
  have h₂ := h.mem₂
  have hlength := h.length
  refine ext_chars (Array.ext_getElem? fun i => ?_)
  simp only [Text.slice]
  rw [bound_toNat h₁.1 h₁.2, bound_toNat h₂.1 h₂.2, bound_toNat (by omega) hj,
    bound_toNat (by omega) (by omega), Array.getElem?_extract, Array.getElem?_extract]
  have hchar := h.char i
  rw [charAt?_eq (by omega), charAt?_eq (by omega), show (m + i).toNat = m.toNat + i by omega,
    show (k + i).toNat = k.toNat + i by omega] at hchar
  unfold Text.length at *
  by_cases hi : k + i < j
  · rw [if_pos (by omega), if_pos (by omega)]
    exact hchar
  · rw [if_neg (by omega), if_neg (by omega)]

end SameRest

end Text

namespace Document

open Text

variable {d e : Document} {s : Settings} {before blanks blanks' code after : Text} {x y : Int}

/-! ## Lines that are the same from their starts on -/

/-- The code of the lines starts equally far in. -/
theorem indentationPoint_of_sameRest (hbird : e.bird = d.bird) (h : d.text.SameRest x e.text y)
    (hx : d.text.lineStart x = x) (hy : e.text.lineStart y = y) :
    e.indentationPoint y = d.indentationPoint x + (y - x) := by
  have h₁ := h.mem₁
  have h₂ := h.mem₂
  have hfirst := h.char 0
  rw [Int.natCast_zero, Int.add_zero, Int.add_zero] at hfirst
  unfold indentationPoint
  rw [hx, hy]
  unfold codeOrigin
  rw [hbird, hfirst]
  split
  · next hmark =>
    simp only [Bool.and_eq_true, beq_iff_eq] at hmark
    have hlen := lt_length_of_charAt? h₁.1 hmark.2
    have hmoved := h.move (j := x + 1) (by omega) (by omega)
    have hrun := hmoved.agree.runStop (p := isBlank) (by decide)
    have hle := d.text.le_runStop isBlank (x + 1).toNat
    rw [show y + (x + 1 - x) = y + 1 by omega] at hrun
    omega
  · have hrun := h.agree.runStop (p := isBlank) (by decide)
    have hle := d.text.le_runStop isBlank x.toNat
    omega

/-- The columns on the lines are the same. -/
theorem column_of_sameRest (htab : e.tabWidth = d.tabWidth) (h : d.text.SameRest x e.text y)
    (hx : d.text.lineStart x = x) (hy : e.text.lineStart y = y) {pos : Int} (hle : x ≤ pos)
    (hstop : pos ≤ d.text.lineStop x) : e.column (pos + (y - x)) = d.column pos := by
  have h₁ := h.mem₁
  have hlines := h.lineStop
  have hlen := d.text.lineStop_le_length x
  have hstart : d.text.lineStart pos = x := (lineStart_eq_of_between (by omega) hstop).trans hx
  have hstart' : e.text.lineStart (pos + (y - x)) = y :=
    (lineStart_eq_of_between (by omega) (by omega)).trans hy
  have hslice := h.slice hle (by omega)
  unfold column
  rw [hstart, hstart', htab, show pos + (y - x) = y + (pos - x) by omega, hslice]

namespace Respaced

/-- Behind the line the texts are the same. -/
theorem sameRest (h : d.Respaced e before blanks blanks' code after after) :
    d.text.SameRest (d.text.lineStop before.length) e.text (e.text.lineStop before.length) where
  mem₁ := by
    have := d.text.lineStart_le_lineStop before.length
    have := d.text.lineStart_nonneg before.length
    exact ⟨by omega, d.text.lineStop_le_length _⟩
  mem₂ := by
    have := e.text.lineStart_le_lineStop before.length
    have := e.text.lineStart_nonneg before.length
    exact ⟨by omega, e.text.lineStop_le_length _⟩
  char i := by rw [h.first.charAt?_behind, h.second.charAt?_behind]

/-- Lines with the same number: the lines down to the one that is moved start at the same position,
the lines below it are the same from their starts on. -/
theorem sameLine_whole (h : d.Respaced e before blanks blanks' code after after) {n : Nat}
    (hline : SameLine d.text e.text d.text.length e.text.length n x y) :
    (x = y ∧ 0 ≤ x ∧ (x = before.length ∨ d.text.lineStop x < before.length)) ∨
      (before.length < x ∧ d.text.lineStart x = x ∧ e.text.lineStart y = y ∧
        d.text.SameRest x e.text y) := by
  have hstart := h.first.cut.lineStart_eq
  induction hline with
  | first =>
    exact .inl ⟨rfl, Int.le_refl _, h.first.cut.eq_or_lineStop_lt
      (Int.le_refl _) before.length_nonneg⟩
  | @next n x y _ hx hy ih =>
    have hle := d.text.lineStart_le_lineStop x
    have hbelow : d.text.SameRest (d.text.lineStop x) e.text (e.text.lineStop y) →
        before.length ≤ d.text.lineStop x → before.length < d.text.lineStop x + 1 ∧
        d.text.lineStart (d.text.lineStop x + 1) = d.text.lineStop x + 1 ∧
        e.text.lineStart (e.text.lineStop y + 1) = e.text.lineStop y + 1 ∧
        d.text.SameRest (d.text.lineStop x + 1) e.text (e.text.lineStop y + 1) := by
      intro hrest hbefore
      have hmoved := hrest.move (j := d.text.lineStop x + 1) (by omega) (by omega)
      rw [show e.text.lineStop y + (d.text.lineStop x + 1 - d.text.lineStop x) =
        e.text.lineStop y + 1 by omega] at hmoved
      exact ⟨by omega, Parallel.lineStart_succ_lineStop hx, Parallel.lineStart_succ_lineStop hy,
        hmoved⟩
    rcases ih with ⟨rfl, h₀, rfl | hlt⟩ | ⟨hbefore, hxs, -, hrest⟩
    · exact .inr (hbelow h.sameRest (by omega))
    · have hnonneg := d.text.lineStart_nonneg x
      rw [h.shares.text.lineStop h₀ hlt]
      exact .inl ⟨rfl, by omega, h.first.cut.eq_or_lineStop_lt (by omega) (by omega)⟩
    · have hmoved := hrest.move (j := d.text.lineStop x) (by omega) (by omega)
      have hstop := hrest.lineStop
      rw [show y + (d.text.lineStop x - x) = e.text.lineStop y by omega] at hmoved
      exact .inr (hbelow hmoved (by omega))

/-- Lines with the same number end their texts both or not. -/
theorem lineStop_lt_iff (h : d.Respaced e before blanks blanks' code after after) {n : Nat}
    (hline : SameLine d.text e.text d.text.length e.text.length n x y) :
    d.text.lineStop x < d.text.length ↔ e.text.lineStop y < e.text.length := by
  rcases h.sameLine_whole hline with ⟨rfl, h₀, rfl | habove⟩ | ⟨-, -, -, hrest⟩
  · have := h.sameRest.length
    omega
  · have hstart := d.text.lineStart_le_length before.length
    have hstart' := e.text.lineStart_le_length before.length
    rw [h.first.cut.lineStart_eq] at hstart
    rw [h.second.cut.lineStart_eq] at hstart'
    rw [h.shares.text.lineStop h₀ habove]
    omega
  · have := hrest.length
    have := hrest.lineStop
    omega

/-- The last lines have the same number. -/
theorem exists_lastLine (h : d.Respaced e before blanks blanks' code after after) :
    ∃ n x y, SameLine d.text e.text d.text.length e.text.length n x y ∧
      d.text.lineStop x = d.text.length ∧
      e.text.lineStop y = e.text.length := by
  obtain ⟨n, y, hline⟩ := exists_sameLine (fun hline => (h.lineStop_lt_iff hline).mp)
    (d.text.lineStart_lineStart d.text.length) (d.text.lineStart_le_length d.text.length)
  have hstop := le_lineStop d.text.length_nonneg (Int.le_refl d.text.length)
  have hlen := d.text.lineStop_le_length (d.text.lineStart d.text.length)
  have hlen' := e.text.lineStop_le_length y
  have hiff := h.lineStop_lt_iff hline
  rw [d.text.lineStop_lineStart] at hlen hiff
  refine ⟨n, _, y, hline, ?_, by omega⟩
  rw [d.text.lineStop_lineStart]
  omega

/-- The code of a line is as long in both documents. -/
theorem width_whole (h : d.Respaced e before blanks blanks' code after after) {n : Nat}
    (hline : SameLine d.text e.text d.text.length e.text.length n x y) :
    e.text.lineStop y - e.indentationPoint y = d.text.lineStop x - d.indentationPoint x := by
  rcases h.sameLine_whole hline with ⟨rfl, h₀, rfl | habove⟩ | ⟨-, hx, hy, hrest⟩
  · rw [h.first.lineStop_eq, h.second.lineStop_eq]
    omega
  · rw [h.shares.text.lineStop h₀ habove, h.shares.indentationPoint h₀ habove]
  · rw [hrest.lineStop, indentationPoint_of_sameRest h.shares.bird hrest hx hy]
    omega

/-- The code of a line has the same characters in both documents. -/
theorem char_whole (h : d.Respaced e before blanks blanks' code after after) {n : Nat}
    (hline : SameLine d.text e.text d.text.length e.text.length n x y) (o : Nat)
    (ho : d.indentationPoint x + o < d.text.lineStop x) :
    d.text.charAt? (d.indentationPoint x + o) = e.text.charAt? (e.indentationPoint y + o) := by
  rcases h.sameLine_whole hline with ⟨rfl, h₀, rfl | habove⟩ | ⟨-, hx, hy, hrest⟩
  · rw [h.first.charAt?_point, h.second.charAt?_point]
  · have hpoint := d.indentationPoint_nonneg x
    rw [h.shares.indentationPoint h₀ habove,
      h.shares.text.charAt? (by omega) (Int.lt_trans ho habove)]
  · have hpoint := d.lineStart_le_indentationPoint x
    have hchar := hrest.char ((d.indentationPoint x - x).toNat + o)
    rw [indentationPoint_of_sameRest h.shares.bird hrest hx hy,
      show d.indentationPoint x + (y - x) + o =
        y + (((d.indentationPoint x - x).toNat + o : Nat) : Int) by omega, hchar]
    congr 1
    omega

/-- On the lines above the one that was moved, the same code has the same columns. -/
theorem column_whole (h : d.Respaced e before blanks blanks' code after after) {n : Nat}
    (hline : SameLine d.text e.text d.text.length e.text.length n x y) (hlt : x < before.length)
    (o : Nat) (ho : d.indentationPoint x + o ≤ d.text.lineStop x) :
    e.column (e.indentationPoint y + o) = d.column (d.indentationPoint x + o) + 0 := by
  rcases h.sameLine_whole hline with ⟨rfl, h₀, rfl | habove⟩ | ⟨hbefore, -⟩
  · omega
  · have hpoint := d.indentationPoint_nonneg x
    rw [h.shares.indentationPoint h₀ habove,
      h.shares.column (by omega) (Int.le_of_lt (Int.lt_of_le_of_lt ho habove)), Int.add_zero]
  · omega

/-- Down to the line that was moved, the same lines are prose. -/
theorem isProse_whole (h : d.Respaced e before blanks blanks' code after after) {n : Nat}
    (hline : SameLine d.text e.text d.text.length e.text.length n x y) (hle : x ≤ before.length) :
    e.isProse y = d.isProse x := by
  rcases h.sameLine_whole hline with ⟨rfl, h₀, rfl | habove⟩ | ⟨hbefore, -⟩
  · exact h.first.isProse_eq h.second h.style
  · exact h.shares.isProse h₀ (h.shares.text.lt_of_lineStop_lt h₀ habove)
  · omega

/-- Down to the line that was moved, blocks of code start with the same lines. -/
theorem codeStart_whole (h : d.Respaced e before blanks blanks' code after after) {n n' : Nat}
    {x' y' : Int} (hline : SameLine d.text e.text d.text.length e.text.length n x y)
    (hle : x ≤ before.length) (hline' : SameLine d.text e.text d.text.length e.text.length n' x' y')
    (hn : n' ≤ n) : e.codeStart y < y' ↔ d.codeStart x < x' := by
  have hx := hline.le (Int.le_refl _) hline' hn
  rcases h.sameLine_whole hline with ⟨rfl, h₀, -⟩ | ⟨hbefore, -⟩
  · rcases h.sameLine_whole hline' with ⟨rfl, -⟩ | ⟨hbefore, -⟩
    · rw [h.shares.codeStart h₀ hle]
    · omega
  · omega

variable (s) in
/-- The documents are parallel to their ends. Columns correspond above the line. -/
def whole (h : d.Respaced e before blanks blanks' code after after) : Parallel s d e where
  end₁ := d.text.length
  end₂ := e.text.length
  shift := 0
  free := before.length
  last := h.exists_lastLine
  ends := .inl ⟨rfl, rfl⟩
  width := h.width_whole
  char := h.char_whole
  column := h.column_whole
  prose := h.isProse_whole
  codeStart := h.codeStart_whole
  top := h.topColumn_eq s
  style := .inl ⟨rfl, h.shares.bird⟩
  rightward := unshifted s

/-- The line that is moved corresponds to itself. -/
theorem line_whole (h : d.Respaced e before blanks blanks' code after after) :
    ∃ n, (h.whole s).Line n before.length before.length := by
  have hstart := h.first.cut.lineStart_eq
  have hlen := d.text.lineStart_le_length before.length
  rw [hstart] at hlen
  obtain ⟨n, y, hline⟩ :=
    exists_sameLine (fun hline => (Parallel.Line.lineStop_le (C := h.whole s) hline).2.2.mp)
      hstart hlen
  rcases h.sameLine_whole hline with ⟨rfl, -⟩ | ⟨hlt, -⟩
  · exact ⟨n, hline⟩
  · omega

/-- On the lines below the columns are the same. -/
theorem column_below (h : d.Respaced e before blanks blanks' code after after) {a b : Int}
    (hplace : (h.whole s).Place a b) (hbelow : before.length < d.text.lineStart a) :
    e.column b = d.column a := by
  obtain ⟨n, hline⟩ := hplace.line
  rcases h.sameLine_whole hline with ⟨heq, -, hx | habove⟩ | ⟨-, hx, hy, hrest⟩
  · omega
  · have hle := d.text.lineStart_le_lineStop (d.text.lineStart a)
    rw [d.text.lineStart_lineStart] at hle
    omega
  · have hstart := lineStart_le (t := d.text) hplace.bounds.1
    have hstop := hplace.le_stop
    have hpoint := indentationPoint_of_sameRest h.shares.bird hrest hx hy
    rw [indentationPoint_eq_of_lineStart_eq hx, indentationPoint_eq_of_lineStart_eq hy] at hpoint
    have hoffset := hplace.offset
    have hcolumn := column_of_sameRest h.tabWidth hrest hx hy hstart
      (by rw [d.text.lineStop_lineStart]; exact hstop)
    rwa [show a + (e.text.lineStart b - d.text.lineStart a) = b by omega] at hcolumn

end Respaced

end Document

end LayoutRule
