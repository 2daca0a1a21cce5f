import LayoutRule.Proofs.Text.Shifting
import LayoutRule.Proofs.Text.Words
import Mathlib.Tactic.ByContra

/-!
# Every place of a widened text

When blanks are put into a text, the character at place `k` moves to `moved pads k`, and the blanks
put in before it start at `front pads k`; every place of the new text is one of these
(`exists_between_fronts`). When blanks are put in only before characters of a class, a run of
characters outside the class ends before the new blanks, and a run that takes in the class and
blanks goes on over them (`runStop_front_of_not`, `runStop_front_of`). So lines stay lines
(`lineStarts_widen`), and words without such characters stand where they stood (`lastWord?_widen`).
-/

namespace LayoutRule

namespace Text

variable {t : Text} {pads : Nat → Nat} {p : Char → Bool} {i j k m : Nat}

/-- Where the blanks that are put in before place `k` start. -/
def front (pads : Nat → Nat) (k : Nat) : Nat := k + offset pads k

/-- At the front of the text nothing was put in before. -/
theorem front_zero (pads : Nat → Nat) : front pads 0 = 0 := rfl

/-- A character comes behind the blanks that are put in before it. -/
theorem moved_eq_front (pads : Nat → Nat) (k : Nat) : moved pads k = front pads k + pads k :=
  moved_eq pads k

/-- The blanks before a character start right behind the character before. -/
theorem front_succ (pads : Nat → Nat) (k : Nat) : front pads (k + 1) = moved pads k + 1 := by
  have hmoved := moved_eq pads k
  have hoffset := offset_succ pads k
  unfold front
  omega

/-- The blanks before a character start no later than the character. -/
theorem front_le_moved (pads : Nat → Nat) (k : Nat) : front pads k ≤ moved pads k := by
  have := moved_eq_front pads k
  omega

/-- Where no blanks are put in, the character stands where they would start. -/
theorem moved_eq_of_pads (h : pads k = 0) : moved pads k = front pads k := by
  rw [moved_eq_front, h, Nat.add_zero]

/-- What stands further on is moved further on. -/
theorem moved_lt_front (pads : Nat → Nat) (h : i < j) : moved pads i < front pads j := by
  induction j with
  | zero => omega
  | succ j ih =>
    rw [front_succ]
    rcases Nat.eq_or_lt_of_le (Nat.le_of_lt_succ h) with rfl | hlt
    · omega
    · have := ih hlt
      have := front_le_moved pads j
      omega

/-- Places keep their order. -/
theorem front_le_front (pads : Nat → Nat) (h : i ≤ j) : front pads i ≤ front pads j := by
  rcases Nat.eq_or_lt_of_le h with rfl | hlt
  · exact Nat.le_refl _
  · have := moved_lt_front pads hlt
    have := front_le_moved pads i
    omega

/-- Different places stay different. -/
theorem front_lt_front (pads : Nat → Nat) (h : i < j) : front pads i < front pads j :=
  Nat.lt_of_le_of_lt (front_le_moved pads i) (moved_lt_front pads h)

/-- Places are moved to the right only. -/
theorem le_front (pads : Nat → Nat) (k : Nat) : k ≤ front pads k := Nat.le_add_right _ _

/-- Where no blanks have been put in further up. -/
theorem front_eq_self (h : ∀ j < k, pads j = 0) : front pads k = k := by
  unfold front
  rw [offset_eq (Nat.zero_le k) fun j _ hj => h j hj]
  rfl

/-- Every place is that of a character or of blanks before one. -/
theorem exists_between_fronts (pads : Nat → Nat) (h₁ : front pads k ≤ i) (h₂ : i < front pads m) :
    ∃ j, k ≤ j ∧ j < m ∧ front pads j ≤ i ∧ i ≤ moved pads j := by
  induction m with
  | zero =>
    rw [front_zero] at h₂
    omega
  | succ m ih =>
    rcases Nat.lt_or_ge i (front pads m) with hlt | hge
    · obtain ⟨j, hkj, hj, hin⟩ := ih hlt
      exact ⟨j, hkj, by omega, hin⟩
    · rw [front_succ] at h₂
      rcases Nat.lt_or_ge m k with hmk | hkm
      · have := moved_lt_front pads hmk
        omega
      · exact ⟨m, hkm, by omega, hge, by omega⟩

/-! ## Characters -/

/-- The new text ends where the end of the old one is moved to. -/
theorem size_widen_eq (t : Text) (pads : Nat → Nat) :
    (t.widen pads).chars.size = front pads t.chars.size :=
  t.size_widen pads

/-- Every character is still there. -/
theorem getElem?_moved (t : Text) (pads : Nat → Nat) (k : Nat) :
    (t.widen pads).chars[moved pads k]? = t.chars[k]? := by
  rcases Nat.lt_or_ge k t.chars.size with hlt | hge
  · exact (takeTo_moved pads hlt).2
  · have hsize := t.size_widen_eq pads
    have := front_le_front pads hge
    have := front_le_moved pads k
    rw [Array.getElem?_eq_none (by omega), Array.getElem?_eq_none hge]

/-- Where no blanks are put in, the character is found at the start of the blanks. -/
theorem getElem?_front (h : pads k = 0) : (t.widen pads).chars[front pads k]? = t.chars[k]? := by
  rw [← moved_eq_of_pads h]
  exact getElem?_moved t pads k

/-- The blanks put in before a character. -/
theorem getElem?_between (hk : k < t.chars.size) (h₁ : front pads k ≤ i) (h₂ : i < moved pads k) :
    (t.widen pads).chars[i]? = some ' ' := by
  rw [moved_eq_front] at h₂
  exact blank_widen hk h₁ h₂

/-- What follows a character: the next one, or a blank. -/
theorem getElem?_succ_moved (hk : pads (k + 1) ≠ 0 → k + 1 < t.chars.size) :
    (t.widen pads).chars[moved pads k + 1]? = if pads (k + 1) = 0 then t.chars[k + 1]?
      else some ' ' := by
  rw [← front_succ]
  split
  · next h => exact getElem?_front h
  · next h =>
    refine getElem?_between (hk h) (Nat.le_refl _) ?_
    rw [moved_eq_front]
    omega

/-! ## Runs -/

/-- A run takes in the blanks that are put into it. -/
theorem char_between_fronts (hm : m ≤ t.chars.size)
    (hin : ∀ j, k ≤ j → j < m → ∃ c, t.chars[j]? = some c ∧ p c = true)
    (hblank : ∀ j, k ≤ j → j < m → pads j ≠ 0 → p ' ' = true) (h₁ : front pads k ≤ i)
    (h₂ : i < front pads m) : ∃ c, (t.widen pads).chars[i]? = some c ∧ p c = true := by
  obtain ⟨j, hkj, hjm, hj₁, hj₂⟩ := exists_between_fronts pads h₁ h₂
  rcases Nat.eq_or_lt_of_le hj₂ with rfl | hlt
  · rw [getElem?_moved]
    exact hin j hkj hjm
  · refine ⟨' ', getElem?_between (by omega) hj₁ hlt, hblank j hkj hjm ?_⟩
    rw [moved_eq_front] at hlt
    omega

section Runs

variable (hk : k ≤ t.chars.size)
include hk

/-- A run without new blanks in it. -/
theorem runStop_front_of_pads (h : ∀ j, k ≤ j → j ≤ t.runStop p k → pads j = 0) :
    (t.widen pads).runStop p (front pads k) = front pads (t.runStop p k) := by
  have hle := t.le_runStop p k
  refine runStop_eq_of (front_le_front pads hle) (fun i h₁ h₂ => ?_) fun c hc => ?_
  · exact char_between_fronts (t.runStop_le p k hk) (fun j => char_of_lt_runStop)
      (fun j h₃ h₄ h₅ => absurd (h j h₃ (Nat.le_of_lt h₄)) h₅) h₁ h₂
  · rw [getElem?_front (h _ hle (Nat.le_refl _))] at hc
    exact not_of_runStop hc

/-- Blanks are put in only before characters outside a class: its runs end before them. -/
theorem runStop_front_of_not (hblank : p ' ' = false)
    (h : ∀ j c, pads j ≠ 0 → t.chars[j]? = some c → p c = false) :
    (t.widen pads).runStop p (front pads k) = front pads (t.runStop p k) := by
  have hle := t.le_runStop p k
  have hsize := t.runStop_le p k hk
  refine runStop_eq_of (front_le_front pads hle) (fun i h₁ h₂ => ?_) fun c hc => ?_
  · refine char_between_fronts hsize (fun j => char_of_lt_runStop) (fun j h₃ h₄ h₅ => ?_) h₁ h₂
    obtain ⟨c, hc, hpc⟩ := char_of_lt_runStop h₃ h₄
    rw [h j c h₅ hc] at hpc
    cases hpc
  · by_cases hpads : pads (t.runStop p k) = 0
    · rw [getElem?_front hpads] at hc
      exact not_of_runStop hc
    · rcases Nat.eq_or_lt_of_le hsize with hend | hlt
      · have := (Array.getElem?_eq_some_iff.mp hc).1
        rw [hend, size_widen_eq] at this
        omega
      · rw [getElem?_between hlt (Nat.le_refl _) (by rw [moved_eq_front]; omega)] at hc
        cases hc
        exact hblank

/-- Blanks are put in only before characters of a class that blanks belong to: its runs go on over
them. -/
theorem runStop_front_of (hblank : p ' ' = true)
    (h : ∀ j, pads j ≠ 0 → ∃ c, t.chars[j]? = some c ∧ p c = true) :
    (t.widen pads).runStop p (front pads k) = front pads (t.runStop p k) := by
  have hle := t.le_runStop p k
  refine runStop_eq_of (front_le_front pads hle) (fun i h₁ h₂ => ?_) fun c hc => ?_
  · exact char_between_fronts (t.runStop_le p k hk) (fun j => char_of_lt_runStop)
      (fun _ _ _ _ => hblank) h₁ h₂
  · have hpads : pads (t.runStop p k) = 0 := by
      by_contra hne
      obtain ⟨c', hc', hpc⟩ := h _ hne
      cases hpc.symm.trans (not_of_runStop hc')
    rw [getElem?_front hpads] at hc
    exact not_of_runStop hc

/-- Blanks are put in before characters that are none: a run of blanks goes on to the character
behind it. -/
theorem runStop_front_blank (hblank : p ' ' = true)
    (h : ∀ j, pads j ≠ 0 → ∃ c, t.chars[j]? = some c ∧ p c = false) :
    (t.widen pads).runStop p (front pads k) = moved pads (t.runStop p k) := by
  have hle := t.le_runStop p k
  have hsize := t.runStop_le p k hk
  have hfront := front_le_moved pads (t.runStop p k)
  refine runStop_eq_of (Nat.le_trans (front_le_front pads hle) hfront) (fun i h₁ h₂ => ?_)
    fun c hc => ?_
  · rcases Nat.lt_or_ge i (front pads (t.runStop p k)) with hlt | hge
    · exact char_between_fronts hsize (fun j => char_of_lt_runStop) (fun _ _ _ _ => hblank) h₁ hlt
    · obtain ⟨c, hc, -⟩ := h (t.runStop p k) (by rw [moved_eq_front] at h₂; omega)
      exact ⟨' ', getElem?_between (Array.getElem?_eq_some_iff.mp hc).1 hge h₂, hblank⟩
  · rw [getElem?_moved] at hc
    exact not_of_runStop hc

end Runs

/-! ## Lines -/

/-- A line starts where what stands above it ends. -/
theorem lineStart_front (hk : k ≤ t.chars.size) :
    (t.widen pads).lineStart (front pads k) = front pads (t.lineStart k).toNat := by
  have hsize := t.size_widen_eq pads
  have hfront := front_le_front pads hk
  have h₀ := t.lineStart_nonneg k
  have hle : (t.lineStart k).toNat ≤ k := by
    have := lineStart_le (t := t) (Int.natCast_nonneg k)
    omega
  have hstop := le_lineStop (t := t) (Int.natCast_nonneg k) (by unfold length; omega)
  have hrun : (t.widen pads).runStart notNewline (front pads k) =
      front pads (t.lineStart k).toNat := by
    refine runStart_eq_of (by omega) (front_le_front pads hle) (fun i h₁ h₂ => ?_) fun hpos => ?_
    · exact char_between_fronts hk (fun j h₃ h₄ => char_of_between k (by omega) (by omega))
        (fun _ _ _ _ => rfl) h₁ h₂
    · obtain ⟨b, hb⟩ : ∃ b, (t.lineStart k).toNat = b + 1 := by
        refine Nat.exists_eq_succ_of_ne_zero fun hzero => ?_
        rw [hzero, front_zero] at hpos
        omega
      have hnl := newline_before_lineStart (t := t) k (by omega)
      rw [hb, Nat.add_sub_cancel] at hnl
      refine ⟨'\n', ?_, rfl⟩
      rw [hb, front_succ, Nat.add_sub_cancel, getElem?_moved]
      exact hnl
  show ((t.widen pads).runStart notNewline ((t.widen pads).bound (front pads k)) : Int) = _
  rw [bound_natCast (by omega), hrun]

/-- No newline is moved apart from what stands before it. -/
def KeepsLines (t : Text) (pads : Nat → Nat) : Prop :=
  ∀ j, pads j ≠ 0 → ∃ c, t.chars[j]? = some c ∧ notNewline c = true

namespace KeepsLines

variable (h : t.KeepsLines pads)
include h

/-- Blanks are put in before characters only. -/
theorem lt_size (hk : pads k ≠ 0) : k < t.chars.size := by
  obtain ⟨c, hc, -⟩ := h k hk
  exact (Array.getElem?_eq_some_iff.mp hc).1

/-- Before a newline no blanks are put in. -/
theorem pads_eq_zero (hk : t.chars[k]? = some '\n') : pads k = 0 := by
  by_contra hne
  obtain ⟨c, hc, hline⟩ := h k hne
  cases hk.symm.trans hc
  cases hline

/-- At the end of a line no blanks are put in. -/
theorem pads_lineStop (pos : Int) : pads (t.lineStop pos).toNat = 0 := by
  rcases Int.lt_or_eq_of_le (t.lineStop_le_length pos) with hlt | heq
  · exact h.pads_eq_zero (newline_at_lineStop pos hlt)
  · by_contra hne
    have := h.lt_size hne
    unfold length at heq
    omega

/-- A line ends at the moved end, seen from the blanks before one of its places. -/
theorem lineStop_front (hk : k ≤ t.chars.size) :
    (t.widen pads).lineStop (front pads k) = front pads (t.lineStop k).toNat := by
  have hsize := t.size_widen_eq pads
  have hfront := front_le_front pads hk
  have hrun := runStop_front_of hk rfl h
  show ((t.widen pads).runStop notNewline ((t.widen pads).bound (front pads k)) : Int) = _
  rw [bound_natCast (by omega), hrun]
  show _ = (front pads (t.runStop notNewline (t.bound k)) : Int)
  rw [bound_natCast hk]

/-- A character and the blanks before it are on one line. -/
theorem moved_le_lineStop (hk : k ≤ t.chars.size) :
    moved pads k ≤ front pads (t.lineStop k).toNat := by
  have hstop := le_lineStop (t := t) (Int.natCast_nonneg k) (by unfold length; omega)
  rcases Nat.eq_or_lt_of_le (show k ≤ (t.lineStop k).toNat by omega) with heq | hlt
  · have hpads := h.pads_lineStop k
    rw [← heq] at hpads ⊢
    exact Nat.le_of_eq (moved_eq_of_pads hpads)
  · exact Nat.le_of_lt (moved_lt_front pads hlt)

/-- A line starts at the moved start, seen from one of its moved places. -/
theorem lineStart_moved (hk : k ≤ t.chars.size) :
    (t.widen pads).lineStart (moved pads k) = front pads (t.lineStart k).toNat := by
  have hfront := front_le_moved pads k
  have hmoved := h.moved_le_lineStop hk
  have hle := lineStart_le (t := t.widen pads) (Int.natCast_nonneg (front pads k))
  rw [← lineStart_front hk]
  refine lineStart_eq_of_between (by omega) ?_
  rw [h.lineStop_front hk]
  omega

/-- A line ends at the moved end, seen from one of its moved places. -/
theorem lineStop_moved (hk : k ≤ t.chars.size) :
    (t.widen pads).lineStop (moved pads k) = front pads (t.lineStop k).toNat := by
  have hfront := front_le_moved pads k
  have hmoved := h.moved_le_lineStop hk
  have hle := lineStart_le (t := t.widen pads) (Int.natCast_nonneg (front pads k))
  rw [← h.lineStop_front hk]
  refine lineStop_eq_of_between (by omega) ?_
  rw [h.lineStop_front hk]
  omega

end KeepsLines

/-! ## Words -/

/-- A word that is written has a last place. -/
theorem lastWord?_ne_none {w : List Char} (hne : w ≠ []) (h : t.holdsAt w k = true) :
    t.lastWord? w t.length ≠ none := by
  have hlast : ∀ n, k ≤ n → t.lastFrom? w n ≠ none := by
    intro n
    induction n with
    | zero =>
      intro hk
      obtain rfl : k = 0 := by omega
      rw [lastFrom?, if_pos h]
      exact Option.some_ne_none 0
    | succ n ih =>
      intro hk
      rw [lastFrom?]
      split
      · exact Option.some_ne_none _
      · next hno =>
        refine ih (Nat.le_of_lt_succ (Nat.lt_of_le_of_ne hk ?_))
        rintro rfl
        exact hno h
  have hsize := size_of_holdsAt hne h
  unfold lastWord?
  rw [show t.bound t.length = t.chars.size from bound_natCast (Nat.le_refl _), if_pos (by omega)]
  cases hfrom : t.lastFrom? w (t.chars.size - w.length) with
  | none => exact absurd hfrom (hlast _ (by omega))
  | some m => exact Option.some_ne_none _

section Words

variable {w : List Char} (h : ∀ j c, pads j ≠ 0 → t.chars[j]? = some c → c ∉ w)
include h

/-- No blanks are put into a word. -/
theorem holdsAt_front (hw : t.holdsAt w k = true) :
    (t.widen pads).holdsAt w (front pads k) = true := by
  rw [holdsAt_iff] at hw ⊢
  have hpads : ∀ j, j < w.length → pads (k + j) = 0 := by
    intro j hj
    by_contra hne
    have hc := hw j hj
    rw [List.getElem?_eq_getElem hj] at hc
    exact h _ _ hne hc (List.getElem_mem hj)
  intro j hj
  have hplace : front pads (k + j) = front pads k + j := by
    unfold front
    rw [offset_eq (Nat.le_add_right k j) fun n h₁ h₂ => ?_]
    · omega
    · have := hpads (n - k) (by omega)
      rwa [show k + (n - k) = n by omega] at this
  rw [← hplace, getElem?_front (hpads j hj)]
  exact hw j hj

/-- Every word was there before. -/
theorem exists_of_holdsAt (hblank : ' ' ∉ w) (hne : w ≠ [])
    (hw : (t.widen pads).holdsAt w i = true) : ∃ k, i = front pads k ∧ t.holdsAt w k = true := by
  have hsize := size_of_holdsAt hne hw
  have hpos := List.length_pos_iff.mpr hne
  rw [size_widen_eq] at hsize
  rw [holdsAt_iff] at hw
  have hchar : ∀ j, j < w.length → ∃ c, (t.widen pads).chars[i + j]? = some c ∧ w[j]? = some c ∧
      c ∈ w := by
    intro j hj
    rw [hw j hj]
    exact ⟨w[j], List.getElem?_eq_getElem hj, List.getElem?_eq_getElem hj, List.getElem_mem hj⟩
  obtain ⟨k, -, hk, h₁, h₂⟩ := exists_between_fronts pads (k := 0) (by rw [front_zero]; omega)
    (show i < front pads t.chars.size by omega)
  -- the characters of the word follow each other in both texts
  have hplace : ∀ j, j < w.length → i + j = moved pads (k + j) := by
    intro j
    induction j with
    | zero =>
      intro hj
      rcases Nat.eq_or_lt_of_le h₂ with heq | hlt
      · exact heq
      · obtain ⟨c, hc, -, hmem⟩ := hchar 0 hj
        cases (getElem?_between hk h₁ hlt).symm.trans hc
        exact absurd hmem hblank
    | succ j ih =>
      intro hj
      have hprev := ih (by omega)
      obtain ⟨c, hc, -, hmem⟩ := hchar (j + 1) hj
      rw [← Nat.add_assoc, hprev, ← front_succ] at hc
      rw [← Nat.add_assoc, hprev, ← front_succ, ← Nat.add_assoc]
      by_contra hne
      have hpads : front pads (k + j + 1) < moved pads (k + j + 1) := by
        have := front_le_moved pads (k + j + 1)
        omega
      have hlt : k + j + 1 < t.chars.size := by
        by_contra hge
        have := front_le_front pads (Nat.le_of_not_lt hge)
        have := (Array.getElem?_eq_some_iff.mp hc).1
        rw [size_widen_eq] at this
        omega
      cases (getElem?_between hlt (Nat.le_refl _) hpads).symm.trans hc
      exact hblank hmem
  have hget : ∀ j, j < w.length → t.chars[k + j]? = w[j]? := by
    intro j hj
    rw [← hw j hj, hplace j hj, getElem?_moved]
  refine ⟨k, ?_, holdsAt_iff.mpr hget⟩
  rw [← moved_eq_of_pads]
  · exact hplace 0 hpos
  · by_contra hpads
    have hc := hget 0 hpos
    rw [List.getElem?_eq_getElem hpos] at hc
    exact h k _ hpads hc (List.getElem_mem hpos)

/-- The last place of a word moves along. -/
theorem lastWord?_widen (hblank : ' ' ∉ w) (hne : w ≠ []) :
    (t.widen pads).lastWord? w (t.widen pads).length =
      (t.lastWord? w t.length).map fun i => (front pads i.toNat : Int) := by
  cases hlast : t.lastWord? w t.length with
  | some i =>
    obtain ⟨m, rfl, hm, hmax⟩ := (lastWord?_eq_some_iff hne).mp hlast
    rw [Option.map_some, Int.toNat_natCast]
    refine (lastWord?_eq_some_iff hne).mpr ⟨_, rfl, holdsAt_front h hm, fun j hj => ?_⟩
    obtain ⟨k, rfl, hk⟩ := exists_of_holdsAt h hblank hne hj
    exact front_le_front pads (hmax k hk)
  | none =>
    rw [Option.map_none]
    cases hlast' : (t.widen pads).lastWord? w (t.widen pads).length with
    | none => rfl
    | some i =>
      exfalso
      obtain ⟨m, -, hm, -⟩ := (lastWord?_eq_some_iff hne).mp hlast'
      obtain ⟨k, -, hk⟩ := exists_of_holdsAt h hblank hne hm
      exact lastWord?_ne_none hne hk hlast

end Words

end Text

end LayoutRule
