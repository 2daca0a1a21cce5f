import LayoutRule.Text.Basic

/-!
# Lines of a text

Only the newline ends a line. Moving by lines stops at the edge of the text and tells by how many
lines it fell short.
-/

namespace LayoutRule

namespace Text

/-- The start of the line that holds a position. -/
def lineStart (t : Text) (pos : Int) : Int := t.runStart notNewline (t.bound pos)

/-- The end of the line that holds a position, before its newline. -/
def lineStop (t : Text) (pos : Int) : Int := t.runStop notNewline (t.bound pos)

/-- The number of lines: one more than the newlines. -/
def lineCount (t : Text) : Nat := t.chars.count '\n' + 1

/-- The start of the line `count` lines further down, and the number of lines that were missing. -/
def linesDown (t : Text) : Nat → Int → Int × Nat
  | 0, bol => (bol, 0)
  | count + 1, bol =>
    match t.newlineFrom? bol with
    | none => (bol, count + 1)
    | some k => t.linesDown count (k + 1)

/-- The start of the line `count` lines further up, and the number of lines that were missing. -/
def linesUp (t : Text) : Nat → Int → Int × Nat
  | 0, bol => (bol, 0)
  | count + 1, bol =>
    if bol = 0 then (bol, count + 1) else t.linesUp count (t.lineStart (bol - 1))

/-- The start of the line `count` lines after that of `pos`, before it for a negative number, and
the number of lines that were missing. -/
def moveLines (t : Text) (pos count : Int) : Int × Nat :=
  if 0 < count then t.linesDown count.toNat (t.lineStart pos)
  else t.linesUp count.natAbs (t.lineStart pos)

/-- The start of the line above, if there is one. -/
def lineAbove? (t : Text) (pos : Int) : Option Int :=
  match t.moveLines pos (-1) with
  | (bol, 0) => some bol
  | _ => none

/-- The start of the line below, if there is one. -/
def lineBelow? (t : Text) (pos : Int) : Option Int :=
  match t.moveLines pos 1 with
  | (bol, 0) => some bol
  | _ => none

/-! ## Bounds -/

/-- A line starts at a position of the text, so never before the first one. -/
theorem lineStart_nonneg (t : Text) (pos : Int) : 0 ≤ t.lineStart pos := Int.natCast_nonneg _

/-- A line starts no later than the place it is looked up for, once that place is bounded. -/
theorem lineStart_le_bound (t : Text) (pos : Int) : t.lineStart pos ≤ t.bound pos :=
  Int.ofNat_le.mpr (t.runStart_le notNewline (t.bound pos))

/-- A line ends no earlier than the place it is looked up for, once that place is bounded. -/
theorem bound_le_lineStop (t : Text) (pos : Int) : t.bound pos ≤ t.lineStop pos :=
  Int.ofNat_le.mpr (t.le_runStop notNewline (t.bound pos))

/-- The last line ends with the text, and all others before that. -/
theorem lineStop_le_length (t : Text) (pos : Int) : t.lineStop pos ≤ t.length :=
  Int.ofNat_le.mpr (t.runStop_le notNewline (t.bound pos) (t.bound_le_size pos))

/-- A line starts inside the text or, when it is empty and the last one, right behind it. -/
theorem lineStart_le_length (t : Text) (pos : Int) : t.lineStart pos ≤ t.length :=
  Int.le_trans (t.lineStart_le_bound pos) (Int.ofNat_le.mpr (t.bound_le_size pos))

/-- A position of the text is not before its line. -/
theorem lineStart_le {t : Text} {pos : Int} (h : 0 ≤ pos) : t.lineStart pos ≤ pos := by
  have h₁ := t.lineStart_le_bound pos
  have h₂ : (t.bound pos : Int) ≤ pos := by unfold bound; rw [if_pos h]; omega
  omega

/-- Going up by one line leads to the line before, or falls short by one on the first line. -/
theorem moveLines_neg_one (t : Text) (pos : Int) :
    t.moveLines pos (-1) =
      if t.lineStart pos = 0 then (t.lineStart pos, 1)
        else (t.lineStart (t.lineStart pos - 1), 0) := by
  simp [moveLines, linesUp]

/-- Going down by one line leads behind the next newline, or falls short by one on the last line. -/
theorem moveLines_one (t : Text) (pos : Int) :
    t.moveLines pos 1 =
      match t.newlineFrom? (t.lineStart pos) with
      | none => (t.lineStart pos, 1)
      | some k => (k + 1, 0) := by
  simp [moveLines, linesDown]

/-- The line above starts earlier. -/
theorem lineAbove?_lt {t : Text} {pos bol : Int} (h : t.lineAbove? pos = some bol) :
    0 ≤ bol ∧ bol < t.lineStart pos := by
  have h₀ := t.lineStart_nonneg pos
  unfold lineAbove? at h
  rw [moveLines_neg_one] at h
  by_cases hz : t.lineStart pos = 0
  · simp [hz] at h
  · simp only [if_neg hz, Option.some.injEq] at h
    subst h
    have := t.lineStart_nonneg (t.lineStart pos - 1)
    have := @lineStart_le t (t.lineStart pos - 1) (by omega)
    omega

/-- The line below starts later. -/
theorem lineBelow?_gt {t : Text} {pos bol : Int} (h : t.lineBelow? pos = some bol) :
    t.lineStart pos < bol ∧ bol ≤ t.length := by
  unfold lineBelow? at h
  rw [moveLines_one] at h
  have hb := bound_of_mem (t.lineStart_nonneg pos) (t.lineStart_le_length pos)
  have hr := t.le_runStop notNewline (t.bound (t.lineStart pos))
  cases hk : t.newlineFrom? (t.lineStart pos) with
  | none => simp [hk] at h
  | some k =>
    simp only [hk, Option.some.injEq] at h
    subst h
    unfold newlineFrom? at hk
    simp only at hk
    split at hk
    · cases hk; unfold length; omega
    · cases hk

/-- A position right after a newline starts a line. -/
theorem runStart_of_newline {t : Text} {k : Nat} (h : t.chars[k]? = some '\n') :
    t.runStart notNewline (k + 1) = k + 1 := by
  simp [runStart, h, notNewline]

/-- What is found below a line is the start of a line, not a place inside one. -/
theorem lineStart_of_lineBelow? {t : Text} {pos bol : Int} (h : t.lineBelow? pos = some bol) :
    t.lineStart bol = bol := by
  have hb := lineBelow?_gt h
  have h₀ := t.lineStart_nonneg pos
  unfold lineBelow? at h
  rw [moveLines_one] at h
  cases hk : t.newlineFrom? (t.lineStart pos) with
  | none => simp [hk] at h
  | some k =>
    simp only [hk, Option.some.injEq] at h
    subst h
    obtain ⟨m, rfl, hm⟩ := newlineFrom?_eq_some hk
    have hbound : t.bound ((m : Int) + 1) = m + 1 := by
      have := @bound_of_mem t (m + 1) (by omega) hb.2
      omega
    unfold lineStart
    rw [hbound, runStart_of_newline hm]
    rfl

end Text

end LayoutRule
