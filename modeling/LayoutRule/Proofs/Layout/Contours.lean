import LayoutRule.Layout.Contour
import LayoutRule.Layout.Definition
import LayoutRule.Proofs.Document.Gaps

/-!
# Lines of a contour

A contour can be found before every place of the text (`contour_yields`). Its lines are lines of
code: not blank, not inside a comment and not starting with one, each before the place; and their
columns grow from the outermost line to the innermost. The start of the enclosing definition can be
found for every place as well (`definitionStart_yields`).
-/

namespace LayoutRule

namespace Document

open Text

variable {d : Document} {s : Settings} {start stop bol bound pos : Int}

/-- The indentation point of a line of code after `start`. -/
structure CodeLine (d : Document) (start p : Int) : Prop where
  /-- It is the indentation point of its line. -/
  point : d.indentationPoint p = p
  /-- It is not before the start. -/
  start_le : start ≤ p
  /-- The line is not blank. -/
  notBlank : d.isBlankLine p = false
  /-- No comment starts there. -/
  noComment : d.commentAt p = .ok false
  /-- No comment from the start on holds it. -/
  outside : d.openComment? start p = .ok none

/-- Places whose columns grow. -/
def Widening (d : Document) (l : List Int) : Prop := l.Pairwise fun p q => d.column p < d.column q

/-- A line is a comment line when a comment starts at its indentation point or holds it. -/
theorem isCommentLine_yields {point : Int} (h₀ : 0 ≤ start) (h₁ : 0 ≤ point)
    (h₂ : point ≤ d.text.length) :
    Yields (d.isCommentLine point start) fun b =>
      b = false → d.commentAt point = .ok false ∧ d.openComment? start point = .ok none := by
  unfold isCommentLine
  obtain ⟨b, hb, -⟩ := commentAt_yields (d := d) h₁
  rw [hb]
  cases b with
  | true => exact ⟨true, rfl, by simp⟩
  | false =>
    obtain ⟨r, hr, -⟩ := openComment?_yields h₀ h₁ h₂
    refine ⟨r.isSome, by simp [hr, bind, Except.bind, pure, Except.pure], ?_⟩
    intro hs
    cases r with
    | none => exact ⟨rfl, hr⟩
    | some c => cases hs

/-- What the walk up has found so far. -/
structure Counted (d : Document) (start pos bound : Int) (found : List Int) : Prop where
  /-- The lines found so far are lines of code before `pos`, none left of the bound. -/
  lines : ∀ p ∈ found, d.CodeLine start p ∧ p < pos ∧ bound ≤ d.column p
  /-- Their columns grow. -/
  widening : d.Widening found

/-- A line of code further to the left is counted in front of the lines found so far, and its column
is the new bound. -/
theorem Counted.cons {found : List Int} {p : Int} (h : Counted d start pos bound found)
    (hp : d.CodeLine start p) (hpos : p < pos) (hcol : d.column p < bound) :
    Counted d start pos (d.column p) (p :: found) := by
  constructor
  · intro q hq
    rcases List.mem_cons.mp hq with rfl | hq
    · exact ⟨hp, hpos, Int.le_refl _⟩
    · obtain ⟨h₁, h₂, h₃⟩ := h.lines q hq
      exact ⟨h₁, h₂, by omega⟩
  · refine List.pairwise_cons.mpr ⟨fun q hq => ?_, h.widening⟩
    have := (h.lines q hq).2.2
    omega

/-- The walk up has come to the line of `pos`, where the bound is at most the column of `pos`, or
above it. -/
def Climbed (d : Document) (pos bol bound : Int) : Prop :=
  (d.text.lineStart pos = bol ∧ bound ≤ d.column pos) ∨ d.text.lineStop bol < pos

/-- Going up from a line stays above `pos`. -/
theorem Climbed.above {above : Int} (h : d.Climbed pos bol bound) (h₀ : 0 ≤ pos)
    (hbol : d.text.lineStart bol = bol) (ha : d.text.lineAbove? bol = some above) (bound' : Int) :
    d.Climbed pos above bound' := by
  right
  rw [lineStop_of_lineAbove? ha, hbol]
  rcases h with ⟨h, -⟩ | h
  · have := lineStart_le (t := d.text) h₀
    omega
  · have := d.text.lineStart_le_lineStop bol
    omega

/-- A point of the line that counts stands before `pos`. -/
theorem Climbed.lt (h : d.Climbed pos bol bound) (h₀ : 0 ≤ pos) (hbol : d.text.lineStart bol = bol)
    (hcol : d.column (d.indentationPoint bol) < bound) : d.indentationPoint bol < pos := by
  rcases h with ⟨h, hle⟩ | h
  · refine lt_of_column_lt h₀ (d.indentationPoint_le_length bol) ?_ (by omega)
    rw [d.lineStart_indentationPoint, hbol, h]
  · have := (d.indentationPoint_bounds bol).2
    omega

/-- Whether a line is passed over: one that is not is a line of code. -/
theorem passed_yields (h₀ : 0 ≤ start) (hstart : start ≤ d.indentationPoint bol) :
    Yields (if d.isBlankLine bol then pure true else d.isCommentLine (d.indentationPoint bol) start)
      fun passed =>
      passed = false → d.CodeLine start (d.indentationPoint bol) := by
  split
  · exact .pure (by simp)
  · next hb =>
    refine (isCommentLine_yields h₀ (d.indentationPoint_nonneg bol)
      (d.indentationPoint_le_length bol)).mono ?_
    intro b hfacts hfalse
    obtain ⟨h₁, h₂⟩ := hfacts hfalse
    refine ⟨d.indentationPoint_indentationPoint bol, hstart, ?_, h₁, h₂⟩
    rw [d.isBlankLine_indentationPoint]
    simpa using hb

/-- The walk up finds its lines from the start of every line on. What it gives has been counted line
by line, so the lines are lines of code and their columns grow. -/
theorem contourFrom_yields {bol bound : Int} {found : List Int} (h₀ : 0 ≤ start) (hpos : 0 ≤ pos)
    (hbol : d.text.lineStart bol = bol)
    (hclimbed : d.Climbed pos bol bound) (hfound : Counted d start pos bound found) :
    Yields (d.contourFrom s start bol bound found) fun l => ∃ b, Counted d start pos b l := by
  have hdone : Yields (Except.ok found) fun l => ∃ b, Counted d start pos b l :=
    ⟨found, rfl, bound, hfound⟩
  unfold contourFrom
  split
  · exact hdone
  split
  · exact hdone
  simp only
  split
  · exact hdone
  next hstart =>
  split
  · exact hdone
  refine (passed_yields h₀ (by omega)).ite_bind fun passed hpassed => ?_
  -- when the line counts, it is a line of code before `pos` and left of all lines found below it
  have hcounts : (!passed && decide (d.column (d.indentationPoint bol) < bound)) = true →
      Counted d start pos (d.column (d.indentationPoint bol))
        (d.indentationPoint bol :: found) := by
    intro hc
    simp only [Bool.and_eq_true, Bool.not_eq_true', decide_eq_true_eq] at hc
    exact hfound.cons (hpassed hc.1) (hclimbed.lt hpos hbol hc.2) hc.2
  split
  · next above ha =>
    have hlt := lineAbove?_lt ha
    have habove := lineStart_of_lineAbove? ha
    split
    · next hc =>
        exact contourFrom_yields h₀ hpos habove (hclimbed.above hpos hbol ha _) (hcounts hc)
    · exact contourFrom_yields h₀ hpos habove (hclimbed.above hpos hbol ha _) hfound
  · split
    · next hc => exact ⟨_, rfl, _, hcounts hc⟩
    · exact hdone
termination_by (d.text.lineStart bol).toNat
decreasing_by all_goals omega

/-- The contour before a place of the text. -/
theorem contour_yields (s : Settings) (h₀ : 0 ≤ start) (h₁ : stop ≤ d.text.length) :
    Yields (d.contour s start stop) fun l => (∀ p ∈ l, d.CodeLine start p ∧ p < stop) ∧
      d.Widening l := by
  unfold contour
  split
  · exact .pure ⟨by simp, .nil⟩
  next hlt =>
  refine (skipGapBack_yields h₀ h₁).bind ?_
  rintro pos ⟨hle, -⟩
  split
  · exact .pure ⟨by simp, .nil⟩
  refine (contourFrom_yields h₀ (by omega) (d.text.lineStart_lineStart pos)
    (.inl ⟨rfl, Int.le_refl _⟩) ⟨by simp, .nil⟩).mono ?_
  rintro l ⟨b, hcounted⟩
  refine ⟨fun p hp => ?_, hcounted.widening⟩
  obtain ⟨hcode, hpos, -⟩ := hcounted.lines p hp
  exact ⟨hcode, by omega⟩

/-! ## The enclosing definition -/

/-- The start of the enclosing definition lies in the text. -/
theorem definitionStart_yields (d : Document) (s : Settings) (pos : Int) :
    Yields (d.definitionStart s pos) fun i => 0 ≤ i ∧ i ≤ d.text.length := by
  unfold definitionStart
  have h₀ := d.indentationPoint_nonneg (d.definitionLine s pos)
  have h₁ := d.indentationPoint_le_length (d.definitionLine s pos)
  refine (skipGap_yields h₀ (Int.le_refl _)).bind ?_
  rintro first ⟨h₂, h₃, -⟩
  refine .pure ?_
  split <;> omega

end Document

end LayoutRule
