import LayoutRule.Proofs.Document.Shared
import LayoutRule.Proofs.Request.Depth

/-!
# Where the scan of a literate script starts

The scan for a line of code starts with the definition that encloses the line, and that should lie
in the block of code that holds the line. The search for it starts on the line above, and only from
there on it is kept from leaving the block: a line below the first one of its block finds a
definition of the block (`le_definitionLine`), but the first line of a block finds the line above
the block, which is prose or the delimiter of the block, unless that line is blank.

`le_definitionStart_iff` says exactly when the definition starts in the block. The line above the
block does no harm when it is blank, or when nothing but comments stands between it and code of the
line itself.
-/

namespace LayoutRule

namespace Text

variable {t : Text} {pos above c : Int}

/-- The line above a line ends right before it, and above the first line there is none. -/
theorem lineAbove?_eq (t : Text) (pos : Int) :
    t.lineAbove? pos = if t.lineStart pos = 0 then none
      else some (t.lineStart (t.lineStart pos - 1)) := by
  unfold lineAbove?
  rw [moveLines_neg_one]
  by_cases h : t.lineStart pos = 0
  · simp [h]
  · simp [h]

/-- The line above depends on the line only, and not on the place on it. -/
theorem lineAbove?_lineStart (t : Text) (pos : Int) :
    t.lineAbove? (t.lineStart pos) = t.lineAbove? pos := by
  rw [lineAbove?_eq, lineAbove?_eq, t.lineStart_lineStart]

/-- Of the lines above a line, the one right above it starts last. -/
theorem le_lineAbove (hc : t.lineStart c = c) (hlt : c < t.lineStart pos)
    (h : t.lineAbove? pos = some above) : c ≤ above := by
  have h₀ := t.lineStart_nonneg c
  have hstop := lineStop_of_lineAbove? h
  have hsame : t.lineStart (t.lineStop above) = t.lineStart above :=
    lineStart_eq_of_between (t.lineStart_le_lineStop above) (Int.le_refl _)
  calc
    c = t.lineStart c := hc.symm
    _ ≤ t.lineStart (t.lineStop above) :=
      lineStart_le_lineStart (by omega) (by omega) (t.lineStop_le_length above)
    _ = above := hsame.trans (lineStart_of_lineAbove? h)

end Text

namespace Document

open Text

variable {d : Document} {s : Settings} {pos : Int}

/-! ## Blocks start with a line -/

/-- A block of marked lines starts with a line, and no later than the line it is looked for from. -/
theorem markedBlockStart_spec {t : Text} {bol : Nat} (h : t.lineStart bol = bol) :
    markedBlockStart t bol ≤ bol ∧
      t.lineStart (markedBlockStart t bol) = markedBlockStart t bol := by
  induction bol using Nat.strongRecOn with
  | _ bol ih =>
    rw [markedBlockStart]
    split
    · next hpos =>
      split
      · have hle := t.runStart_le notNewline (bol - 1)
        have hsize := t.lineStart_le_length bol
        have hstart : t.lineStart (bol - 1 : Nat) = t.runStart notNewline (bol - 1) := by
          unfold lineStart
          rw [bound_natCast (by unfold length at hsize; omega)]
        have hrest := ih (t.runStart notNewline (bol - 1)) (by omega)
          (by rw [← hstart, t.lineStart_lineStart])
        exact ⟨by omega, hrest.2⟩
      · exact ⟨Nat.le_refl _, h⟩
    · exact ⟨Nat.le_refl _, h⟩

/-- The block that holds a line of code starts with a line, with that one or above it. -/
theorem codeStart_spec (hcode : d.isCodeLine pos = true) :
    d.codeStart pos ≤ d.text.lineStart pos ∧
    d.text.lineStart (d.codeStart pos) = d.codeStart pos := by
  have h₀ := d.text.lineStart_nonneg pos
  unfold isCodeLine at hcode
  unfold codeStart
  cases hstyle : d.style with
  | plain => exact ⟨h₀, Int.le_antisymm (lineStart_le (Int.le_refl 0)) (d.text.lineStart_nonneg 0)⟩
  | bird =>
    have hline := d.text.lineStart_lineStart pos
    rw [← Int.toNat_of_nonneg h₀] at hline
    obtain ⟨hle, hstart⟩ := markedBlockStart_spec hline
    exact ⟨by simp only; omega, hstart⟩
  | latex =>
    simp only [hstyle] at hcode
    cases hopened : d.text.lastWord? codeBegin (d.text.lineStart pos) with
    | none => simp [hopened] at hcode
    | some opened =>
      -- the environment is opened on a line above
      obtain ⟨hnonneg, hle⟩ := mem_of_lastWord? hopened
      have hbound := d.text.bound_lineStart pos
      have hlength : (codeBegin.length : Int) = 12 := rfl
      have hlen := d.text.lineStart_le_length pos
      have hstop := lineStop_lt_lineStart (t := d.text) (p := opened) (q := pos) hnonneg (by omega)
      simp only
      rw [Int.min_eq_left (by omega)]
      exact ⟨by omega, Parallel.lineStart_succ_lineStop (by omega)⟩

/-! ## The line of the definition -/

/-- From a line of the block the search for a definition does not leave the block. -/
theorem le_climb {codeStart bol : Int} (hstart : d.text.lineStart codeStart = codeStart)
    (hbol : d.text.lineStart bol = bol) (hle : codeStart ≤ bol) :
    codeStart ≤ d.climb s codeStart bol ∧
    d.text.lineStart (d.climb s codeStart bol) = d.climb s codeStart bol := by
  fun_induction d.climb s codeStart bol with
  | case1 bol hup above habove ih =>
    exact ih (lineStart_of_lineAbove? habove) (le_lineAbove hstart (by omega) habove)
  | case2 bol => exact ⟨hle, hbol⟩
  | case3 bol => exact ⟨hle, hbol⟩

/-- Above the block there is no search. -/
theorem climb_above_block {codeStart bol : Int} (hle : bol ≤ codeStart) :
    d.climb s codeStart bol = bol := by
  rw [climb, if_neg (by omega)]

/-- The line on which a definition starts is looked for from the line above upward, and a blank line
that is found so is left for the next one below. -/
theorem definitionLine_eq (d : Document) (s : Settings) (pos : Int) :
    d.definitionLine s pos =
      let top := d.climb s (d.codeStart pos) ((d.text.lineAbove? pos).getD (d.text.lineStart pos))
      if d.isBlankLine top = true ∧ top < d.text.lineStart pos then (d.text.moveLines top 1).1
        else top := by
  unfold definitionLine
  simp only [d.text.lineAbove?_lineStart]

/-- Below the first line of its block a line belongs to a definition of the block. -/
theorem le_definitionLine (hcode : d.isCodeLine pos = true)
    (hlt : d.codeStart pos < d.text.lineStart pos) : d.codeStart pos ≤ d.definitionLine s pos := by
  obtain ⟨-, hstart⟩ := codeStart_spec hcode
  have h₀ := d.codeStart_nonneg pos
  obtain ⟨above, habove⟩ : ∃ above, d.text.lineAbove? pos = some above := by
    rw [lineAbove?_eq, if_neg (by omega)]
    exact ⟨_, rfl⟩
  obtain ⟨hle, hline⟩ :=
    le_climb (s := s) hstart (lineStart_of_lineAbove? habove) (le_lineAbove hstart hlt habove)
  simp only [definitionLine_eq, habove, Option.getD_some]
  generalize d.climb s (d.codeStart pos) above = top at hle hline
  split
  · next hblank =>
    have hstop := lineStop_lt_lineStart (t := d.text) (p := top) (q := pos) (by omega) hblank.2
    have hlen := d.text.lineStart_le_length pos
    have hge := d.text.lineStart_le_lineStop top
    rw [moveLines_below hline (by omega)]
    omega
  · exact hle

/-- The first line of a block belongs to a definition that starts on the line above, unless that
line is blank. -/
theorem definitionLine_first {above : Int} (hfirst : d.text.lineStart pos = d.codeStart pos)
    (habove : d.text.lineAbove? pos = some above) :
    d.definitionLine s pos = if d.isBlankLine above = true then d.text.lineStart pos
      else above := by
  have hlt := lineAbove?_lt habove
  have hline := lineStart_of_lineAbove? habove
  have hstop := lineStop_of_lineAbove? habove
  have hlen := d.text.lineStart_le_length pos
  simp only [definitionLine_eq, habove, Option.getD_some]
  rw [climb_above_block (by omega)]
  by_cases hblank : d.isBlankLine above = true
  · rw [if_pos ⟨hblank, hlt.2⟩, if_pos hblank, moveLines_below hline (by omega)]
    omega
  · rw [if_neg fun h => hblank h.1, if_neg hblank]

/-- The first line of the text belongs to the definition that it starts. -/
theorem definitionLine_top (hfirst : d.text.lineStart pos = d.codeStart pos)
    (htop : d.text.lineAbove? pos = none) : d.definitionLine s pos = d.text.lineStart pos := by
  simp only [definitionLine_eq, htop, Option.getD_none]
  rw [climb_above_block (by omega), if_neg (by omega)]

/-! ## The place of the definition -/

/-- The line of `pos` is the first one of its block, the line above it is not blank, and the first
code from there on stands above the block or behind `pos`. -/
def StartsOutside (d : Document) (pos : Int) : Prop :=
  d.text.lineStart pos = d.codeStart pos ∧ ∃ above, d.text.lineAbove? pos = some above ∧
    d.isBlankLine above = false ∧
    Yields (d.skipGap (d.indentationPoint above) d.text.length) fun first =>
      first < d.codeStart pos ∨ pos < first

/-- The definition starts with the first code of its line, or with a comment before it when that
code stands behind `pos`. -/
theorem definitionStart_cases (d : Document) (s : Settings) (pos : Int) :
    Yields (d.skipGap (d.indentationPoint (d.definitionLine s pos)) d.text.length) fun first =>
      d.indentationPoint (d.definitionLine s pos) ≤ first ∧
      d.definitionStart s pos =
        .ok (if pos < first then d.indentationPoint (d.definitionLine s pos) else first) := by
  have h₀ := d.indentationPoint_nonneg (d.definitionLine s pos)
  obtain ⟨first, hfirst, -⟩ := skipGap_yields (d := d) h₀ (Int.le_refl d.text.length)
  refine ⟨first, hfirst, le_of_skipGap hfirst, ?_⟩
  unfold definitionStart
  simp only [hfirst, ok_bind]
  rfl

/-- A definition on a line of the block starts in the block. -/
theorem le_definitionStart {start : Int} (hcode : d.isCodeLine pos = true)
    (hline : d.codeStart pos ≤ d.definitionLine s pos) (h : d.definitionStart s pos = .ok start) :
    d.codeStart pos ≤ start := by
  obtain ⟨first, -, hle, hstart⟩ := d.definitionStart_cases s pos
  have hbounds := d.definitionLine_bounds s pos
  have hlen := d.text.lineStart_le_length pos
  have hpoint : d.codeStart pos ≤ d.indentationPoint (d.definitionLine s pos) := by
    calc
      d.codeStart pos = d.text.lineStart (d.codeStart pos) := (codeStart_spec hcode).2.symm
      _ ≤ d.text.lineStart (d.definitionLine s pos) :=
        lineStart_le_lineStart (d.codeStart_nonneg pos) hline (by omega)
      _ ≤ d.indentationPoint (d.definitionLine s pos) := d.lineStart_le_indentationPoint _
  cases h.symm.trans hstart
  split <;> omega

/-- The definition that encloses a place of a line of code starts before it or there; and it starts
in the block of code that holds the line, unless the line is the first one of the block and what
stands above the block starts the definition. -/
theorem le_definitionStart_iff (hcode : d.isCodeLine pos = true)
    (hpoint : d.indentationPoint pos ≤ pos) :
    Yields (d.definitionStart s pos) fun start => start ≤ pos ∧
      (d.codeStart pos ≤ start ↔ ¬d.StartsOutside pos) := by
  obtain ⟨first, hfirst, hle, hstart⟩ := d.definitionStart_cases s pos
  refine ⟨_, hstart, definitionStart_le_of_code hpoint hstart, ?_⟩
  rcases Int.lt_or_eq_of_le (codeStart_spec hcode).1 with hbelow | hblock
  · exact iff_of_true (le_definitionStart hcode (le_definitionLine hcode hbelow) hstart) fun h => by
      have := h.1; omega
  cases habove : d.text.lineAbove? pos with
  | none =>
    have hline := definitionLine_top (s := s) hblock.symm habove
    refine iff_of_true (le_definitionStart hcode (by omega) hstart) ?_
    rintro ⟨-, above, h, -⟩
    cases habove.symm.trans h
  | some above =>
    have hline := definitionLine_first (s := s) hblock.symm habove
    by_cases hblank : d.isBlankLine above = true
    · rw [if_pos hblank] at hline
      refine iff_of_true (le_definitionStart hcode (by omega) hstart) ?_
      rintro ⟨-, above', h, hnot, -⟩
      cases habove.symm.trans h
      exact absurd hblank (by simp [hnot])
    · -- the line above the block is not blank: its indentation point starts the definition, or the
      -- first code behind it
      rw [if_neg hblank] at hline
      rw [hline] at hfirst ⊢
      have hup := (d.indentationPoint_bounds above).2
      have hstop := lineStop_of_lineAbove? habove
      have houtside : d.StartsOutside pos ↔ first < d.codeStart pos ∨ pos < first := by
        constructor
        · rintro ⟨-, above', h, -, hyields⟩
          cases habove.symm.trans h
          exact hyields.of_eq hfirst
        · exact fun h => ⟨hblock.symm, above, habove, by simpa using hblank, first, hfirst, h⟩
      rw [houtside]
      split <;> omega

/-- A literate script with an open bracket in the prose above its code. -/
def openProse : Document := .new (ofString "note (\n> f x = 1\n") .bird 8

/-- The code starts at 7, its definition at the start of the prose. -/
theorem le_definitionStart_iff_openProse :
    (openProse.isCodeLine 9 = true ∧ openProse.indentationPoint 9 ≤ 9) ∧ openProse.codeStart 9 = 7 ∧
      openProse.definitionStart {} 9 = .ok 0 ∧ openProse.StartsOutside 9 := by
  have hcode : openProse.isCodeLine 9 = true := by decide +kernel
  have hpoint : openProse.indentationPoint 9 ≤ 9 := by decide +kernel
  have hblock : openProse.codeStart 9 = 7 := by decide +kernel
  have hstart : openProse.definitionStart {} 9 = .ok 0 := by decide +kernel
  have hiff := ((le_definitionStart_iff hcode hpoint).of_eq hstart).2
  rw [hblock] at hiff
  exact ⟨⟨hcode, hpoint⟩, hblock, hstart, by simpa using hiff⟩

/-- A block of code that starts the script. -/
def openingBlock : Document :=
  .new (ofString "\\begin\x7bcode\x7d\nf = 1\n\\end\x7bcode\x7d\n") .latex 8

/-- So the definition does not always start in the block: that of `f` starts with the delimiter
above the block. -/
theorem not_definitionStart_in_block :
    ¬∀ (d : Document) (s : Settings) (pos : Int), d.style ≠ .plain →
      d.isCodeLine pos = true → d.indentationPoint pos ≤ pos → pos ≤ d.text.length →
      Yields (d.definitionStart s pos) fun start => d.codeStart pos ≤ start ∧ start ≤ pos := by
  intro h
  have hstart : openingBlock.definitionStart {} 13 = .ok 0 := by decide +kernel
  have hblock : openingBlock.codeStart 13 = 13 := by decide +kernel
  have hle :=
    ((h openingBlock {} 13 (by decide) (by decide +kernel) (by decide +kernel)
      (by decide +kernel)).of_eq hstart).1
  rw [hblock] at hle
  exact absurd hle (by decide)

end Document

end LayoutRule
