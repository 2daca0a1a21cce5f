import LayoutRule.Proofs.Parallel.Contours

/-!
# A contour is the strict minima of the way up

The way up from a place goes over the lines of code from the line of the place on, and stops before
the first line that is prose, starts its code before the stretch, or is blank where blank lines are
not looked past (`Document.Walked`). The contour is exactly the list of those lines of code on the
way that are indented less than the place and less than every line of code on the way below them
(`contour_eq_minima`), from the first to the last.

The walk keeps one bound instead of all lines below. `Swept` says what the bound and the lines found
so far stand for when all lines after a position have been gone over: a column is left of the bound
exactly when it is left of the place and of every line of code so far.
-/

namespace LayoutRule

namespace Document

open Text

variable {d : Document} {s : Settings} {start stop pos bol k bound : Int} {found : List Int}

/-! ## The way up -/

/-- Everything but code is prose. -/
theorem isProse_eq_not_isCodeLine (d : Document) (pos : Int) :
    d.isProse pos = !d.isCodeLine pos := by
  cases hstyle : d.style <;> simp [isProse, isCodeLine, hstyle]

/-- The way up does not stop before the line at `bol`. -/
structure Passable (d : Document) (s : Settings) (start bol : Int) : Prop where
  /-- The line is code. -/
  code : d.isCodeLine bol = true
  /-- What stands on it starts in the stretch. -/
  start_le : start ≤ d.indentationPoint bol
  /-- If it is blank, blank lines are looked past. -/
  blank : d.isBlankLine bol = true → s.lookPastEmptyLines = true

/-- The line at `bol` is on the way up from the line of `pos`: the way stops neither before it nor
before a line in between. -/
structure Walked (d : Document) (s : Settings) (start pos bol : Int) : Prop where
  /-- A line starts there. -/
  line : d.text.lineStart bol = bol
  /-- It is not below the line of the place. -/
  le : bol ≤ d.text.lineStart pos
  /-- The way does not stop before. -/
  passable : ∀ b, d.text.lineStart b = b → bol ≤ b → b ≤ d.text.lineStart pos → d.Passable s start b

/-- A line on the way up that is neither blank nor a comment. -/
structure WalkedCode (d : Document) (s : Settings) (start pos bol : Int) :
    Prop extends d.Walked s start pos bol where
  /-- The line is not blank. -/
  notBlank : d.isBlankLine bol = false
  /-- It does not start with a comment, and does not lie in one that starts in the stretch. -/
  notComment : d.isCommentLine (d.indentationPoint bol) start = .ok false

/-- A line of code on the way up that is indented less than the place and than every line of code on
the way below it. -/
structure StrictMinimum (d : Document) (s : Settings) (start pos bol : Int) : Prop
    extends d.WalkedCode s start pos bol where
  /-- It is indented less than the place. -/
  lt_column : d.indentation bol < d.column pos
  /-- It is indented less than the lines below. -/
  lt_below : ∀ b, bol < b → d.WalkedCode s start pos b → d.indentation bol < d.indentation b

/-- What a bound and a list of lines stand for after all lines behind `k` have been gone over. -/
structure Swept (d : Document) (s : Settings) (start pos k bound : Int) (found : List Int) :
    Prop where
  /-- The way does not stop before one of these lines. -/
  passable : ∀ b, d.text.lineStart b = b → k < b → b ≤ d.text.lineStart pos → d.Passable s start b
  /-- Left of the bound is left of the place and of every line of code so far. -/
  lt_bound_iff : ∀ column, column < bound ↔
    column < d.column pos ∧ ∀ b, k < b → d.WalkedCode s start pos b → column < d.indentation b
  /-- The strict minima so far were found. -/
  mem_found_iff : ∀ p, p ∈ found ↔ ∃ b, k < b ∧ d.StrictMinimum s start pos b ∧
    p = d.indentationPoint b
  /-- They are in order. -/
  sorted : found.Pairwise (· < ·)

/-- At the start of the walk no line has been gone over. -/
theorem swept_start (d : Document) (s : Settings) (start pos : Int) :
    d.Swept s start pos (d.text.lineStart pos) (d.column pos) [] := by
  refine ⟨?_, ?_, ?_, .nil⟩
  · intro b _ hlt hle
    omega
  · intro column
    refine ⟨fun h => ⟨h, ?_⟩, fun h => h.1⟩
    intro b hlt hb
    have := hb.le
    omega
  · intro p
    simp only [List.not_mem_nil, false_iff]
    rintro ⟨b, hlt, hb, -⟩
    have := hb.le
    omega

namespace Swept

/-- A line before the bound that the way reaches is on the way. -/
theorem walked (h : d.Swept s start pos bol bound found) (hbol : d.text.lineStart bol = bol)
    (hle : bol ≤ d.text.lineStart pos) (hpass : d.Passable s start bol) :
    d.Walked s start pos bol := by
  refine ⟨hbol, hle, ?_⟩
  intro b hb hge hle'
  rcases Int.lt_or_eq_of_le hge with hlt | rfl
  · exact h.passable b hb hlt hle'
  · exact hpass

/-- The next line of code is a strict minimum exactly when it is left of the bound. -/
theorem strictMinimum_iff (h : d.Swept s start pos bol bound found)
    (hcode : d.WalkedCode s start pos bol) :
    d.StrictMinimum s start pos bol ↔ d.indentation bol < bound := by
  rw [h.lt_bound_iff]
  constructor
  · intro hmin
    exact ⟨hmin.lt_column, hmin.lt_below⟩
  · rintro ⟨hcolumn, hbelow⟩
    exact ⟨hcode, hcolumn, hbelow⟩

/-- A strict minimum that has not been gone over is left of the bound. -/
theorem lt_bound_of_le (h : d.Swept s start pos k bound found)
    (hmin : d.StrictMinimum s start pos bol) (hle : bol ≤ k) : d.indentation bol < bound := by
  rw [h.lt_bound_iff]
  refine ⟨hmin.lt_column, ?_⟩
  intro b hlt hb
  exact hmin.lt_below b (by omega) hb

/-- When no strict minimum is left, those found are all. -/
theorem mem_iff_of_rest (h : d.Swept s start pos k bound found)
    (hrest : ∀ b ≤ k, ¬ d.StrictMinimum s start pos b) (p : Int) :
    p ∈ found ↔ ∃ b, d.StrictMinimum s start pos b ∧ p = d.indentationPoint b := by
  rw [h.mem_found_iff]
  constructor
  · rintro ⟨b, -, hb, rfl⟩
    exact ⟨b, hb, rfl⟩
  · rintro ⟨b, hb, rfl⟩
    rcases Int.lt_or_le k b with hlt | hle
    · exact ⟨b, hlt, hb, rfl⟩
    · exact absurd hb (hrest b hle)

/-- Between two positions without a line nothing changes. -/
theorem up {k' : Int} (h : d.Swept s start pos k bound found) (hle : k' ≤ k)
    (hnone : ∀ b, d.text.lineStart b = b → k' < b → k < b) :
    d.Swept s start pos k' bound found := by
  refine ⟨?_, ?_, ?_, h.sorted⟩
  · intro b hb hlt
    exact h.passable b hb (hnone b hb hlt)
  · intro column
    rw [h.lt_bound_iff]
    refine and_congr_right fun _ => ?_
    constructor
    · intro hall b hlt hb
      exact hall b (hnone b hb.line hlt) hb
    · intro hall b hlt hb
      exact hall b (by omega) hb
  · intro p
    rw [h.mem_found_iff]
    constructor
    · rintro ⟨b, hlt, hb⟩
      exact ⟨b, by omega, hb⟩
    · rintro ⟨b, hlt, hb⟩
      exact ⟨b, hnone b hb.1.line hlt, hb⟩

/-- A line found so far stands behind the end of the next line. -/
theorem lt_of_mem (h : d.Swept s start pos bol bound found) (hbol : d.text.lineStart bol = bol)
    {p : Int} (hp : p ∈ found) : d.indentationPoint bol < p := by
  obtain ⟨b, hlt, hb, rfl⟩ := (h.mem_found_iff p).mp hp
  have hnonneg := d.text.lineStart_nonneg bol
  have hstop := lineStop_lt_lineStart (t := d.text) (p := bol) (q := b) (by omega)
    (by rw [hb.line]; exact hlt)
  have hpoint := (d.indentationPoint_bounds bol).2
  have hstart := d.lineStart_le_indentationPoint b
  omega

/-- One more line is gone over: the bound is moved left to the line, and the line is found if it is
a strict minimum. -/
theorem extend {bound' : Int} {found' : List Int} (h : d.Swept s start pos bol bound found)
    (hpass : d.Passable s start bol)
    (hbound : ∀ column, column < bound' ↔
      column < bound ∧ (d.WalkedCode s start pos bol → column < d.indentation bol))
    (hfound : ∀ p, p ∈ found' ↔ (d.StrictMinimum s start pos bol ∧ p = d.indentationPoint bol) ∨
      p ∈ found)
    (hsorted : found'.Pairwise (· < ·)) : d.Swept s start pos (bol - 1) bound' found' := by
  have hsplit : ∀ b, bol - 1 < b → b = bol ∨ bol < b := fun b hb => by omega
  refine ⟨?_, ?_, ?_, hsorted⟩
  · intro b hb hlt hle
    rcases hsplit b hlt with rfl | hlt
    · exact hpass
    · exact h.passable b hb hlt hle
  · intro column
    rw [hbound, h.lt_bound_iff]
    constructor
    · rintro ⟨⟨hcolumn, hall⟩, hline⟩
      refine ⟨hcolumn, fun b hlt hb => ?_⟩
      rcases hsplit b hlt with rfl | hlt
      · exact hline hb
      · exact hall b hlt hb
    · rintro ⟨hcolumn, hall⟩
      exact ⟨⟨hcolumn, fun b hlt => hall b (by omega)⟩, hall bol (by omega)⟩
  · intro p
    rw [hfound, h.mem_found_iff]
    constructor
    · rintro (⟨hmin, rfl⟩ | ⟨b, hlt, hb⟩)
      · exact ⟨bol, by omega, hmin, rfl⟩
      · exact ⟨b, by omega, hb⟩
    · rintro ⟨b, hlt, hb, rfl⟩
      rcases hsplit b hlt with rfl | hlt
      · exact .inl ⟨hb, rfl⟩
      · exact .inr ⟨b, hlt, hb, rfl⟩

/-- A line that is not code, or not left of the bound, changes nothing. -/
theorem skip (h : d.Swept s start pos bol bound found) (hpass : d.Passable s start bol)
    (hskip : d.WalkedCode s start pos bol → bound ≤ d.indentation bol) :
    d.Swept s start pos (bol - 1) bound found := by
  refine h.extend hpass ?_ ?_ h.sorted
  · intro column
    refine ⟨fun hlt => ⟨hlt, fun hcode => ?_⟩, fun hlt => hlt.1⟩
    have := hskip hcode
    omega
  · intro p
    refine ⟨.inr, ?_⟩
    rintro (⟨hmin, -⟩ | hp)
    · have hlt := (h.strictMinimum_iff hmin.toWalkedCode).mp hmin
      have := hskip hmin.toWalkedCode
      omega
    · exact hp

/-- A line of code left of the bound is found, and its column is the new bound. -/
theorem record (h : d.Swept s start pos bol bound found) (hcode : d.WalkedCode s start pos bol)
    (hlt : d.indentation bol < bound) :
    d.Swept s start pos (bol - 1) (d.indentation bol) (d.indentationPoint bol :: found) := by
  have hmin := (h.strictMinimum_iff hcode).mpr hlt
  refine h.extend (hcode.passable bol hcode.line (Int.le_refl bol) hcode.le) ?_ ?_ ?_
  · intro column
    constructor
    · intro hleft
      exact ⟨by omega, fun _ => hleft⟩
    · intro hleft
      exact hleft.2 hcode
  · intro p
    simp [hmin]
  · exact List.pairwise_cons.mpr ⟨fun p hp => h.lt_of_mem hcode.line hp, h.sorted⟩

/-- One step of the walk over a line before which the way does not stop. -/
theorem next (h : d.Swept s start pos bol bound found) (h₀ : 0 ≤ start)
    (hbol : d.text.lineStart bol = bol) (hle : bol ≤ d.text.lineStart pos)
    (hpass : d.Passable s start bol) (hpos : 0 < bound) :
    ∃ bound' found', d.Swept s start pos (bol - 1) bound' found' ∧
      (∀ above, d.text.lineAbove? bol = some above →
        d.contourFrom s start bol bound found = d.contourFrom s start above bound' found') ∧
      (d.text.lineAbove? bol = none → d.contourFrom s start bol bound found = .ok found') := by
  have hprose : d.isProse bol = false := by
    rw [isProse_eq_not_isCodeLine, hpass.code, Bool.not_true]
  have hblank : (d.isBlankLine bol && !s.lookPastEmptyLines) = false := by
    cases hb : d.isBlankLine bol with
    | false => rfl
    | true => simp [hpass.blank hb]
  obtain ⟨passed, hpassed, -⟩ := passed_yields (d := d) h₀ hpass.start_le
  have hstep :=
    @contourFrom_step d s start bol bound found passed hpos hprose hpass.start_le hblank hpassed
  cases hcounts : !passed && decide (d.column (d.indentationPoint bol) < bound) with
  | false =>
    refine ⟨bound, found, h.skip hpass fun hcode => ?_, fun above ha => ?_, fun ha => ?_⟩
    · -- a line of code is passed by only when it is not left of the bound
      rw [if_neg (by simp [hcode.notBlank]), hcode.notComment] at hpassed
      cases hpassed
      simpa [indentation] using hcounts
    · simpa [ha, hcounts] using hstep
    · simpa [ha, hcounts] using hstep
  | true =>
    simp only [Bool.and_eq_true, Bool.not_eq_true', decide_eq_true_eq] at hcounts
    obtain ⟨rfl, hlt⟩ := hcounts
    have hcode : d.WalkedCode s start pos bol := by
      refine ⟨h.walked hbol hle hpass, ?_, ?_⟩
      · cases hb : d.isBlankLine bol with
        | false => rfl
        | true =>
          rw [hb] at hpassed
          cases hpassed
      · split at hpassed
        · cases hpassed
        · exact hpassed
    refine ⟨_, _, h.record hcode hlt, fun above ha => ?_, fun ha => ?_⟩
    · simpa [ha, hlt, indentation] using hstep
    · simpa [ha, hlt] using hstep

end Swept

/-! ## The walk -/

/-- Above the first line there is none. -/
theorem eq_zero_of_lineAbove? {t : Text} (h : t.lineAbove? bol = none) : t.lineStart bol = 0 := by
  unfold lineAbove? at h
  rw [moveLines_neg_one] at h
  by_contra hne
  simp [hne] at h

/-- The walk up finds the strict minima. -/
theorem contourFrom_minima {bol bound : Int} {found : List Int} (h₀ : 0 ≤ start)
    (hbol : d.text.lineStart bol = bol) (hle : bol ≤ d.text.lineStart pos)
    (h : d.Swept s start pos bol bound found) :
    Yields (d.contourFrom s start bol bound found) fun l =>
      l.Pairwise (· < ·) ∧ ∀ p, p ∈ l ↔
        ∃ b, d.StrictMinimum s start pos b ∧ p = d.indentationPoint b := by
  rcases Int.lt_or_le 0 bound with hpos | hnonpos
  · by_cases hpass : d.Passable s start bol
    · obtain ⟨bound', found', hnext, hstep, hlast⟩ := h.next h₀ hbol hle hpass hpos
      cases habove : d.text.lineAbove? bol with
      | none =>
        rw [hlast habove]
        have hzero := eq_zero_of_lineAbove? habove
        refine ⟨found', rfl, hnext.sorted, hnext.mem_iff_of_rest fun b hb hmin => ?_⟩
        have hline := hmin.line
        have := d.text.lineStart_nonneg b
        omega
      | some above =>
        have hlt := lineAbove?_lt habove
        have hline := lineStart_of_lineAbove? habove
        rw [hstep above habove]
        refine contourFrom_minima h₀ hline (by omega) (hnext.up (by omega) fun b hb hb' => ?_)
        -- between a line and the line above it no line starts
        have hstop := lineStop_lt_lineStart (t := d.text) (p := above) (q := b) (by omega)
          (by omega)
        have := lineStop_of_lineAbove? habove
        omega
    · refine ⟨found, contourFrom_stop (.inr ?_), h.sorted, h.mem_iff_of_rest fun b hb hmin => ?_⟩
      · by_contra hstops
        rw [not_or, not_or] at hstops
        obtain ⟨hprose, hstart, hblank⟩ := hstops
        refine hpass ⟨?_, by omega, fun hb => ?_⟩
        · simpa [isProse_eq_not_isCodeLine] using hprose
        · simpa [hb] using hblank
      · exact hpass (hmin.passable bol hbol hb hle)
  · refine ⟨found, contourFrom_stop (.inl hnonpos), h.sorted, h.mem_iff_of_rest fun b hb hmin => ?_⟩
    have hleft := h.lt_bound_of_le hmin hb
    have := d.column_nonneg (d.indentationPoint b)
    unfold indentation at hleft
    omega
termination_by bol.toNat
decreasing_by omega

/-- The contour of a stretch is the list of the strict minima on the way up from the place where its
code ends, in the order of their positions. So both the positions and the columns grow along a
contour, and every line of it starts its code in the stretch and before that place. -/
theorem contour_eq_minima (s : Settings) (h₀ : 0 ≤ start) (h₁ : stop ≤ d.text.length)
    (hpos : d.skipGapBack stop start = .ok pos) (hlt : start < pos) :
    ∃ l, d.contour s start stop = .ok l ∧ l.Pairwise (· < ·) ∧
      (∀ p, p ∈ l ↔ ∃ bol, d.StrictMinimum s start pos bol ∧ p = d.indentationPoint bol) ∧
      l.Pairwise (fun p q => d.column p < d.column q) ∧ ∀ p ∈ l, start ≤ p ∧ p < pos := by
  have hle := ((skipGapBack_yields h₀ h₁).of_eq hpos).1
  have hcontour : d.contour s start stop =
      d.contourFrom s start (d.text.lineStart pos) (d.column pos) [] := by
    unfold contour
    rw [if_neg (by omega), hpos]
    show (if pos ≤ start then _ else _) = _
    rw [if_neg (by omega)]
  have hline := d.text.lineStart_lineStart pos
  obtain ⟨l, hl, hsorted, hmem⟩ :=
    contourFrom_minima h₀ hline (Int.le_refl _) (d.swept_start s start pos)
  obtain ⟨_, hcounted⟩ :=
    (contourFrom_yields h₀ (by omega) hline (.inl ⟨rfl, Int.le_refl _⟩) ⟨by simp, .nil⟩).of_eq hl
  refine ⟨l, hcontour.trans hl, hsorted, hmem, hcounted.widening, fun p hp => ?_⟩
  obtain ⟨hcode, hbefore, -⟩ := hcounted.lines p hp
  exact ⟨hcode.start_le, hbefore⟩

/-- A block with a comment, a blank line and a tab in it. -/
def steppedBlock : Document :=
  .new (Text.ofString "f = do\n  -- note\n    x\n\n\ty\n   z\n") .plain 8

/-- The contour before its end goes over the comment, which is indented less than the line below
it. -/
theorem contour_eq_minima_steppedBlock : steppedBlock.contour {} 0 32 = .ok [0, 30] ∧
    (∃ bol, steppedBlock.StrictMinimum {} 0 31 bol ∧ 30 = steppedBlock.indentationPoint bol) ∧
    ¬ ∃ bol, steppedBlock.StrictMinimum {} 0 31 bol ∧ 9 = steppedBlock.indentationPoint bol := by
  have hend : steppedBlock.skipGapBack 32 0 = .ok 31 := by decide +kernel
  obtain ⟨l, hl, -, hmem, -⟩ :=
    contour_eq_minima {} (Int.le_refl 0) (by decide +kernel) hend (by decide)
  have hcontour : steppedBlock.contour {} 0 32 = .ok [0, 30] := by decide +kernel
  cases hcontour.symm.trans hl
  exact ⟨hcontour, (hmem 30).mp (by decide), fun h => absurd ((hmem 9).mpr h) (by decide)⟩

end Document

end LayoutRule
