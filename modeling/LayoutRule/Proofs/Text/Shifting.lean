import LayoutRule.Proofs.Text.Lookahead
import LayoutRule.Proofs.Text.Widening

/-!
# A line with blanks put in at one place

When blanks are put into a text, but on one line only before the character at `m` (`Lone`), that
line starts further on by the blanks put in above it (`offset`). Up to `m` it reads as before
(`Lone.getElem?_before`); then come the new blanks (`Lone.getElem?_blank`), and the rest of the line
follows them (`Lone.agree`).
-/

namespace LayoutRule

namespace Text

variable {t : Text} {pads : Nat → Nat} {k m : Nat}

/-- The blanks put in before place `m`, without those right before it. -/
def offset (pads : Nat → Nat) (m : Nat) : Nat := ((List.range m).map pads).sum

/-- The blanks before a place are those before the last one and those put in before its
character. -/
theorem offset_succ (pads : Nat → Nat) (m : Nat) :
    offset pads (m + 1) = offset pads m + pads m := by
  unfold offset
  rw [List.range_succ, List.map_append, List.sum_append, List.map_singleton, List.sum_singleton]

/-- A place is moved by the blanks put in before its character and before all earlier ones. -/
theorem moved_eq (pads : Nat → Nat) (m : Nat) : moved pads m = m + offset pads m + pads m := by
  rw [Nat.add_assoc, ← offset_succ]
  rfl

/-- Stretches without new blanks do not count. -/
theorem offset_eq (hkm : k ≤ m) (h : ∀ j, k ≤ j → j < m → pads j = 0) :
    offset pads m = offset pads k := by
  induction m with
  | zero =>
    obtain rfl : k = 0 := by omega
    rfl
  | succ m ih =>
    rcases Nat.eq_or_lt_of_le hkm with rfl | hlt
    · rfl
    · rw [offset_succ, h m (by omega) (by omega), Nat.add_zero,
        ih (by omega) fun j h₁ h₂ => h j h₁ (by omega)]

/-- The new text is longer by all blanks. -/
theorem size_widen (t : Text) (pads : Nat → Nat) :
    (t.widen pads).chars.size = t.chars.size + offset pads t.chars.size := by
  show (t.widenFrom pads 0).chars.size = _
  rw [size_widenFrom, offset, List.range_eq_range']

/-- The blanks put in before a character. -/
theorem blank_widen (hm : m < t.chars.size) (h₁ : m + offset pads m ≤ k)
    (h₂ : k < m + offset pads m + pads m) : (t.widen pads).chars[k]? = some ' ' := by
  obtain ⟨htake, hlast⟩ := takeTo_moved pads hm
  have hlt : moved pads m < (t.widen pads).chars.size := by
    rw [Array.getElem?_eq_getElem hm] at hlast
    exact (Array.getElem?_eq_some_iff.mp hlast).1
  have hmoved := moved_eq pads m
  have hfront : ((t.takeTo m).widenFrom pads 0).chars.size = m + offset pads m := by
    rw [size_widenFrom, size_takeTo (by omega), offset, List.range_eq_range']
  have hget := congrArg (fun u : Text => u.chars[k]?) htake
  simp only [takeTo, chars_append, replicate] at hget
  rw [bound_natCast (by omega), Array.getElem?_extract, if_pos (by omega), Nat.zero_add,
    Array.getElem?_append_right (by
    rw [← hfront] at h₁; exact h₁)] at hget
  rw [hget, Array.getElem?_replicate, if_pos]
  have : ((Text.mk (t.chars.extract 0 (t.bound m))).widenFrom pads 0).chars.size =
      m + offset pads m := hfront
  omega

/-- On the line of `m` blanks are put in only right before `m`. -/
structure Lone (t : Text) (pads : Nat → Nat) (m : Nat) : Prop where
  lt : (m : Int) < t.lineStop m
  alone : ∀ k : Nat, t.lineStart m ≤ k → (k : Int) ≤ t.lineStop m → k ≠ m → pads k = 0

namespace Lone

/-- The character at which blanks are put in stands inside the text, on its line. -/
theorem bounds (h : t.Lone pads m) : m < t.chars.size ∧ t.lineStart m ≤ m := by
  have hlt := h.lt
  have hlen := t.lineStop_le_length m
  unfold length at hlen
  exact ⟨by omega, lineStart_le (by omega)⟩

/-- Up to the character, all places of the line have the same blanks before them. -/
theorem offset_before (h : t.Lone pads m) (h₁ : t.lineStart m ≤ k) (h₂ : k ≤ m) :
    offset pads m = offset pads k := by
  have hlt := h.lt
  exact offset_eq h₂ fun j h₃ h₄ => h.alone j (by omega) (by omega) (by omega)

/-- Up to the character, all places of the line, and the newline before it, are moved equally
far. -/
theorem moved_before (h : t.Lone pads m) (h₁ : t.lineStart m ≤ k + 1) (h₂ : k < m) :
    moved pads k = k + offset pads m := by
  rw [h.offset_before (k := k + 1) (by omega) (by omega), offset_succ, moved_eq, Nat.add_assoc]

/-- What stands before `m` on the line, and the newline before the line. -/
theorem getElem?_before (h : t.Lone pads m) (h₁ : t.lineStart m ≤ k + 1) (h₂ : k < m) :
    (t.widen pads).chars[k + offset pads m]? = t.chars[k]? := by
  have hsize := h.bounds.1
  rw [← h.moved_before h₁ h₂]
  exact (takeTo_moved pads (by omega)).2

/-- The new blanks. -/
theorem getElem?_blank (h : t.Lone pads m) (h₁ : m + offset pads m ≤ k)
    (h₂ : k < m + offset pads m + pads m) :
    (t.widen pads).chars[k]? = some ' ' := blank_widen h.bounds.1 h₁ h₂

/-- What stands behind `m` on the line. -/
theorem getElem?_behind (h : t.Lone pads m) (h₁ : m ≤ k) (h₂ : (k : Int) ≤ t.lineStop m) :
    (t.widen pads).chars[k + offset pads m + pads m]? = t.chars[k]? := by
  have hstart := h.bounds.2
  have hoffset : offset pads (k + 1) = offset pads m + pads m := by
    rw [← offset_succ]
    exact offset_eq (by omega) fun j h₃ h₄ => h.alone j (by omega) (by omega) (by omega)
  rcases Nat.lt_or_ge k t.chars.size with hlt | hge
  · have hmoved : moved pads k = k + offset pads m + pads m := by
      rw [moved_eq, Nat.add_assoc, ← offset_succ, hoffset, Nat.add_assoc]
    rw [← hmoved]
    exact (takeTo_moved pads hlt).2
  · -- the line is the last one
    have hlen := t.lineStop_le_length m
    unfold length at hlen
    obtain rfl : k = t.chars.size := by omega
    have hend : offset pads t.chars.size = offset pads m + pads m := by
      rw [← offset_succ]
      exact offset_eq h.bounds.1 fun j h₃ h₄ => h.alone j (by omega) (by omega) (by omega)
    have hsize := t.size_widen pads
    rw [Array.getElem?_eq_none (by omega), Array.getElem?_eq_none (by omega)]

/-- From `m` on the line reads as before. -/
theorem agree (h : t.Lone pads m) : t.Agree m (t.widen pads) (m + offset pads m + pads m) := by
  intro i hi
  have hlt := h.lt
  have hlen := t.lineStop_le_length m
  unfold length at hlen
  rcases Int.lt_or_le (t.lineStop m) (m + i : Nat) with hbehind | hle
  · rcases Nat.lt_or_ge (t.lineStop m).toNat t.chars.size with hnl | hend
    · exfalso
      have hnewline := newline_at_lineStop (t := t) m (by unfold length; omega)
      refine hi ((t.lineStop m).toNat - m) (by omega) ?_
      rwa [show m + ((t.lineStop m).toNat - m) = (t.lineStop m).toNat by omega]
    · have hlast := h.getElem?_behind (k := t.chars.size) (by omega) (by omega)
      rw [Array.getElem?_eq_none (Nat.le_refl _), Array.getElem?_eq_none_iff] at hlast
      rw [Array.getElem?_eq_none (by omega), Array.getElem?_eq_none (by omega)]
  · have hbehind := h.getElem?_behind (k := m + i) (by omega) hle
    rw [← hbehind]
    congr 1
    omega

/-- The line starts further on by the blanks put in above it. -/
theorem lineStart_eq (h : t.Lone pads m) (h₁ : t.lineStart m + offset pads m ≤ k)
    (h₂ : k ≤ m + offset pads m + pads m) :
    (t.widen pads).lineStart k = t.lineStart m + offset pads m := by
  have hlt := h.lt
  have h₀ := t.lineStart_nonneg m
  have hstart := h.bounds.2
  have hsize := h.bounds.1
  have hk : k ≤ (t.widen pads).chars.size := by
    have hlast := h.getElem?_behind (Nat.le_refl m) (by omega)
    rw [Array.getElem?_eq_getElem hsize] at hlast
    have := (Array.getElem?_eq_some_iff.mp hlast).1
    omega
  have hrun : (t.widen pads).runStart notNewline k = (t.lineStart m).toNat + offset pads m := by
    refine runStart_eq_of hk (by omega) (fun i h₃ h₄ => ?_) fun hpos => ?_
    · rcases Nat.lt_or_ge i (m + offset pads m) with hbefore | hblank
      · obtain ⟨c, hc, hline⟩ :=
          char_of_between (t := t) m (i := i - offset pads m) (by omega) (by omega)
        refine ⟨c, ?_, hline⟩
        have hsame := h.getElem?_before (k := i - offset pads m) (by omega) (by omega)
        rw [show i - offset pads m + offset pads m = i by omega] at hsame
        rw [hsame, hc]
      · exact ⟨' ', h.getElem?_blank hblank (by omega), rfl⟩
    · have hpos' : 0 < t.lineStart m := by
        rcases Int.lt_or_eq_of_le h₀ with hlt | heq
        · exact hlt
        · have hnone := h.offset_before (k := 0) (by omega) (Nat.zero_le m)
          have hzero : offset pads 0 = 0 := rfl
          omega
      refine ⟨'\n', ?_, rfl⟩
      have hnl := newline_before_lineStart (t := t) m hpos'
      rw [← h.getElem?_before (k := (t.lineStart m).toNat - 1) (by omega) (by omega)] at hnl
      rwa [show (t.lineStart m).toNat + offset pads m - 1 =
        (t.lineStart m).toNat - 1 + offset pads m by omega]
  show (((t.widen pads).runStart notNewline ((t.widen pads).bound k) : Nat) : Int) = _
  rw [bound_natCast hk, hrun]
  omega

end Lone

end Text

end LayoutRule
