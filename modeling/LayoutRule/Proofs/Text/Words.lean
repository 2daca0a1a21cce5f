import LayoutRule.Proofs.Text.Splitting

/-!
# Words and lines

A word without newlines is written on one line: in a text that is cut before a line it stands before
the cut or behind it (`holdsAt_append_iff`). So the last place of a word can be followed line by
line: a line without the word leaves it where it is (`lastWord?_line`), and a line that is the word
is the new last place (`lastWord?_word`).
-/

namespace LayoutRule

namespace Text

variable {t a b line : Text} {w : List Char} {k : Nat}

/-! ## The last place of a word -/

/-- A word is written where each of its characters is. -/
theorem holdsAt_iff : t.holdsAt w k = true ↔ ∀ j, j < w.length → t.chars[k + j]? = w[j]? := by
  induction w generalizing k with
  | nil => simp [holdsAt]
  | cons c w ih =>
    simp only [holdsAt, Bool.and_eq_true, beq_iff_eq, ih, List.length_cons]
    constructor
    · rintro ⟨hc, hw⟩ j hj
      cases j with
      | zero => exact hc
      | succ j =>
        rw [List.getElem?_cons_succ, ← hw j (by omega), Nat.add_right_comm, Nat.add_assoc]
    · intro h
      refine ⟨h 0 (by omega), fun j hj => ?_⟩
      rw [← List.getElem?_cons_succ (a := c), ← h (j + 1) (by omega), Nat.add_right_comm,
        Nat.add_assoc]

/-- A word that stands somewhere ends inside the text. -/
theorem size_of_holdsAt (hne : w ≠ []) (h : t.holdsAt w k = true) :
    k + w.length ≤ t.chars.size := by
  have hpos := List.length_pos_iff.mpr hne
  have hlast := holdsAt_iff.mp h (w.length - 1) (by omega)
  rw [List.getElem?_eq_getElem (by omega)] at hlast
  obtain ⟨hlt, -⟩ := Array.getElem?_eq_some_iff.mp hlast
  omega

/-- A word that is written in a text is a part of it. -/
theorem isInfix_of_holdsAt (hne : w ≠ []) (h : t.holdsAt w k = true) : w <:+: t.chars.toList := by
  have hsize := size_of_holdsAt hne h
  have hw : w = (t.chars.toList.drop k).take w.length := by
    apply List.ext_getElem?
    intro j
    rw [List.getElem?_take, List.getElem?_drop]
    split
    · next hj => rw [← holdsAt_iff.mp h j hj, Array.getElem?_toList]
    · exact List.getElem?_eq_none (by omega)
  rw [hw]
  exact (List.take_prefix _ _).isInfix.trans (List.drop_suffix _ _).isInfix

/-- What the search for the last place of a word finds is such a place, and no later one comes up to
where the search starts. -/
theorem lastFrom?_eq_some_iff {m : Nat} : t.lastFrom? w k = some m ↔
    m ≤ k ∧ t.holdsAt w m = true ∧ ∀ j, j ≤ k → t.holdsAt w j = true → j ≤ m := by
  induction k with
  | zero =>
    unfold lastFrom?
    grind
  | succ k ih =>
    unfold lastFrom?
    grind

/-- The last place of a word lies before the end of the search. -/
theorem mem_of_lastWord? {stop i : Int} (h : t.lastWord? w stop = some i) :
    0 ≤ i ∧ i + w.length ≤ t.bound stop := by
  unfold lastWord? at h
  split at h
  · next hle =>
    cases hm : t.lastFrom? w (t.bound stop - w.length) with
    | none =>
      rw [hm] at h
      cases h
    | some m =>
      rw [hm] at h
      have hi : (m : Int) = i := Option.some.inj h
      have hmle := (lastFrom?_eq_some_iff.mp hm).1
      omega
  · cases h

/-- The last place of a word in a text is the last one where it is written. -/
theorem lastWord?_eq_some_iff (hne : w ≠ []) {i : Int} : t.lastWord? w t.length = some i ↔
    ∃ m : Nat, i = m ∧ t.holdsAt w m = true ∧ ∀ j, t.holdsAt w j = true → j ≤ m := by
  have hbound : t.bound t.length = t.chars.size := bound_natCast (Nat.le_refl _)
  unfold lastWord?
  rw [hbound]
  constructor
  · intro h
    split at h
    · cases hm : t.lastFrom? w (t.chars.size - w.length) with
      | none =>
        rw [hm] at h
        cases h
      | some m =>
        rw [hm] at h
        obtain ⟨-, hholds, hlast⟩ := lastFrom?_eq_some_iff.mp hm
        refine ⟨m, (Option.some.inj h).symm, hholds, fun j hj => hlast j ?_ hj⟩
        have := size_of_holdsAt hne hj
        omega
    · cases h
  · rintro ⟨m, rfl, hholds, hlast⟩
    have hsize := size_of_holdsAt hne hholds
    rw [if_pos (by omega), lastFrom?_eq_some_iff.mpr ⟨by omega, hholds, fun j _ => hlast j⟩]
    rfl

/-! ## Words and lines -/

/-- A word without newlines stands in what goes before a line or from there on, not on both
sides. -/
theorem holdsAt_append_iff (ha : ∀ c, a.chars.back? = some c → c = '\n') (hnewline : '\n' ∉ w)
    (hne : w ≠ []) :
    (a ++ b).holdsAt w k = true ↔ a.holdsAt w k = true ∨ ∃ j, k = a.chars.size + j ∧
      b.holdsAt w j = true := by
  constructor
  · intro h
    rcases Nat.lt_or_ge k a.chars.size with hlt | hge
    · left
      rcases Nat.lt_or_ge a.chars.size (k + w.length) with hover | hin
      · -- the newline in front of the line would be a character of the word
        exfalso
        have hlast := holdsAt_iff.mp h (a.chars.size - 1 - k) (by omega)
        rw [show k + (a.chars.size - 1 - k) =
          a.chars.size - 1 by
          omega, getElem?_append_left a b (by omega), ← Array.back?_eq_getElem?,
            List.getElem?_eq_getElem (by omega)] at hlast
        exact hnewline (ha _ hlast ▸ List.getElem_mem _)
      · rwa [holdsAt_append a b hin] at h
    · right
      refine ⟨k - a.chars.size, by omega, holdsAt_iff.mpr fun j hj => ?_⟩
      rw [← holdsAt_iff.mp h j hj, chars_append, Array.getElem?_append_right (by omega)]
      congr 1
      omega
  · rintro (h | ⟨j, rfl, h⟩)
    · rwa [holdsAt_append a b (size_of_holdsAt hne h)]
    · refine holdsAt_iff.mpr fun i hi => ?_
      rw [← holdsAt_iff.mp h i hi, chars_append, Array.getElem?_append_right (by omega)]
      congr 1
      omega

/-- The newline behind a line adds no word without newlines. -/
theorem holdsAt_newline_iff (hnewline : '\n' ∉ w) (hne : w ≠ []) :
    (line ++ ofString "\n").holdsAt w k = true ↔ line.holdsAt w k = true := by
  constructor
  · intro h
    have hpos := List.length_pos_iff.mpr hne
    have hsize := size_of_holdsAt hne h
    have hlength : (line ++ ofString "\n").chars.size = line.chars.size + 1 := by simp [ofString]
    rcases Nat.lt_or_ge line.chars.size (k + w.length) with hover | hin
    · exfalso
      have hlast := holdsAt_iff.mp h (w.length - 1) (by omega)
      rw [show k + (w.length - 1) = (line ++ ofString "\n").chars.size - 1
        by omega, ← Array.back?_eq_getElem?, List.getElem?_eq_getElem (by omega)] at hlast
      exact hnewline (back_newline line _ hlast ▸ List.getElem_mem _)
    · rwa [holdsAt_append _ _ hin] at h
  · intro h
    rwa [holdsAt_append _ _ (size_of_holdsAt hne h)]

/-- A word without newlines stands in a text with one more line above that line or on it, and never
across the newline between them. -/
theorem holdsAt_line_iff (ha : ∀ c, a.chars.back? = some c → c = '\n') (hnewline : '\n' ∉ w)
    (hne : w ≠ []) :
    (a ++ line ++ ofString "\n").holdsAt w k = true ↔
      a.holdsAt w k = true ∨ ∃ j, k = a.chars.size + j ∧ line.holdsAt w j = true := by
  rw [append_assoc, holdsAt_append_iff ha hnewline hne]
  simp only [holdsAt_newline_iff hnewline hne]

/-- A line without the word leaves its last place as it is. -/
theorem lastWord?_line (ha : ∀ c, a.chars.back? = some c → c = '\n') (hnewline : '\n' ∉ w)
    (hne : w ≠ []) (hline : ¬w <:+: line.chars.toList) :
    (a ++ line ++ ofString "\n").lastWord? w (a ++ line ++ ofString "\n").length =
      a.lastWord? w a.length := by
  have hsame : ∀ k, (a ++ line ++ ofString "\n").holdsAt w k = true ↔ a.holdsAt w k = true := by
    intro k
    rw [holdsAt_line_iff ha hnewline hne, or_iff_left]
    rintro ⟨j, -, hj⟩
    exact hline (isInfix_of_holdsAt hne hj)
  apply Option.ext
  intro i
  rw [lastWord?_eq_some_iff hne, lastWord?_eq_some_iff hne]
  simp only [hsame]

/-- A line that is the word is its last place. -/
theorem lastWord?_word (ha : ∀ c, a.chars.back? = some c → c = '\n') (hnewline : '\n' ∉ w)
    (hne : w ≠ []) (hline : line.chars.toList = w) :
    (a ++ line ++ ofString "\n").lastWord? w (a ++ line ++ ofString "\n").length =
      some a.length := by
  rw [lastWord?_eq_some_iff hne]
  refine ⟨a.chars.size, rfl, ?_, ?_⟩
  · rw [holdsAt_line_iff ha hnewline hne]
    refine .inr ⟨0, rfl, holdsAt_iff.mpr fun j _ => ?_⟩
    rw [Nat.zero_add, ← Array.getElem?_toList, hline]
  · intro j hj
    rcases (holdsAt_line_iff ha hnewline hne).mp hj with h | ⟨i, rfl, h⟩
    · have := size_of_holdsAt hne h
      omega
    · have := size_of_holdsAt hne h
      rw [← Array.length_toList, hline] at this
      omega

end Text

end LayoutRule
