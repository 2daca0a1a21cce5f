import LayoutRule.Text.Line

/-!
# Runs and lines

What the two ends of a run say about the characters between them, and the converse: a run is
determined by its ends. A line is the run of characters around a position that are no newlines, so
two positions between the same ends lie on the same line (`lineStart_eq_of_between`,
`lineStop_eq_of_between`).
-/

namespace LayoutRule

namespace Text

variable {t : Text} {p : Char → Bool}

/-! ## Runs -/

/-- Inside a run every character satisfies the predicate. -/
theorem char_of_lt_runStop {k i : Nat} (hk : k ≤ i) (hi : i < t.runStop p k) :
    ∃ c, t.chars[i]? = some c ∧ p c = true := by
  fun_induction runStop t p k with
  | case1 k hlt hp ih =>
    rcases Nat.eq_or_lt_of_le hk with rfl | hlt'
    · exact ⟨_, Array.getElem?_eq_getElem hlt, hp⟩
    · exact ih hlt' hi
  | case2 k hlt hp => omega
  | case3 k hlt => omega

/-- The character behind a run does not satisfy the predicate. -/
theorem not_of_runStop {k : Nat} {c : Char} (hc : t.chars[t.runStop p k]? = some c) :
    p c = false := by
  obtain ⟨c', hc', hnot⟩ := runStop_stops (Array.getElem?_eq_some_iff.mp hc).1
  cases hc.symm.trans hc'
  exact hnot

/-- A run that starts at `k` is determined by its end. -/
theorem runStop_eq_of {k m : Nat} (hkm : k ≤ m)
    (hin : ∀ i, k ≤ i → i < m → ∃ c, t.chars[i]? = some c ∧ p c = true)
    (hout : ∀ c, t.chars[m]? = some c → p c = false) : t.runStop p k = m := by
  have hle : m ≤ t.runStop p k := by
    rcases Nat.lt_or_ge (t.runStop p k) m with hlt | hge
    · have hk := t.le_runStop p k
      obtain ⟨c, hc, hpc⟩ := hin _ hk hlt
      cases hpc.symm.trans (not_of_runStop hc)
    · exact hge
  rcases Nat.eq_or_lt_of_le hle with heq | hlt
  · exact heq.symm
  · obtain ⟨c, hc, hpc⟩ := char_of_lt_runStop hkm hlt
    rw [hout c hc] at hpc
    cases hpc

/-- Inside a run that ends at `k` every character satisfies the predicate. -/
theorem char_of_runStart_le {k i : Nat} (hk : k ≤ t.chars.size) (hi : t.runStart p k ≤ i)
    (hik : i < k) : ∃ c, t.chars[i]? = some c ∧ p c = true := by
  induction k with
  | zero => omega
  | succ k ih =>
    have hget : t.chars[k]? = some t.chars[k] := Array.getElem?_eq_getElem (by omega)
    unfold runStart at hi
    rw [hget] at hi
    simp only at hi
    by_cases hp : p t.chars[k] = true
    · rw [if_pos hp] at hi
      rcases Nat.eq_or_lt_of_le (Nat.le_of_lt_succ hik) with rfl | hlt
      · exact ⟨_, hget, hp⟩
      · exact ih (by omega) hi hlt
    · rw [if_neg hp] at hi
      omega

/-- Before a run that does not start at the start of the text stands a character outside the
class. -/
theorem runStart_stops {k : Nat} (hk : k ≤ t.chars.size) (h : 0 < t.runStart p k) :
    ∃ c, t.chars[t.runStart p k - 1]? = some c ∧ p c = false := by
  induction k with
  | zero => simp [runStart] at h
  | succ k ih =>
    have hget : t.chars[k]? = some t.chars[k] := Array.getElem?_eq_getElem (by omega)
    have hstep : t.runStart p (k + 1) = if p t.chars[k] then t.runStart p k else k + 1 := by
      rw [runStart, hget]
    rw [hstep] at h ⊢
    by_cases hp : p t.chars[k] = true
    · rw [if_pos hp] at h ⊢
      exact ih (by omega) h
    · rw [if_neg hp]
      exact ⟨_, hget, by simpa using hp⟩

/-- A run that ends at `k` is determined by its start. -/
theorem runStart_eq_of {k m : Nat} (hk : k ≤ t.chars.size) (hmk : m ≤ k)
    (hin : ∀ i, m ≤ i → i < k → ∃ c, t.chars[i]? = some c ∧ p c = true)
    (hout : 0 < m → ∃ c, t.chars[m - 1]? = some c ∧ p c = false) : t.runStart p k = m := by
  have hle := t.runStart_le p k
  rcases Nat.lt_trichotomy (t.runStart p k) m with hlt | heq | hgt
  · obtain ⟨c, hc, hpc⟩ := hout (by omega)
    obtain ⟨c', hc', hpc'⟩ := char_of_runStart_le (p := p) (i := m - 1) hk (by omega) (by omega)
    rw [hc] at hc'
    cases hc'
    rw [hpc] at hpc'
    cases hpc'
  · exact heq
  · obtain ⟨c, hc, hpc⟩ := runStart_stops (p := p) hk (by omega)
    obtain ⟨c', hc', hpc'⟩ := hin (t.runStart p k - 1) (by omega) (by omega)
    rw [hc] at hc'
    cases hc'
    rw [hpc] at hpc'
    cases hpc'

/-! ## Lines -/

/-- Inside the text a position is its own bound. -/
theorem bound_toNat {i : Int} (h₀ : 0 ≤ i) (h₁ : i ≤ t.length) : t.bound i = i.toNat := by
  have := bound_of_mem h₀ h₁
  omega

/-- Between the ends of a line there is no newline. -/
theorem char_of_between (pos : Int) {i : Nat} (h₁ : t.lineStart pos ≤ i)
    (h₂ : (i : Int) < t.lineStop pos) : ∃ c, t.chars[i]? = some c ∧ notNewline c = true := by
  unfold lineStart at h₁
  unfold lineStop at h₂
  rcases Nat.lt_or_ge i (t.bound pos) with hlt | hge
  · exact char_of_runStart_le (t.bound_le_size pos) (by omega) hlt
  · exact char_of_lt_runStop hge (by omega)

/-- A line that does not start the text follows a newline. -/
theorem newline_before_lineStart (pos : Int) (h : 0 < t.lineStart pos) :
    t.chars[(t.lineStart pos).toNat - 1]? = some '\n' := by
  unfold lineStart at h ⊢
  obtain ⟨c, hc, hp⟩ :=
    runStart_stops (t.bound_le_size pos) (by omega : 0 < t.runStart notNewline (t.bound pos))
  have : c = '\n' := by simpa [notNewline] using hp
  subst this
  simpa using hc

/-- A line that does not end the text is followed by a newline. -/
theorem newline_at_lineStop (pos : Int) (h : t.lineStop pos < t.length) :
    t.chars[(t.lineStop pos).toNat]? = some '\n' := by
  unfold lineStop length at h
  obtain ⟨c, hc, hp⟩ := runStop_stops (t := t) (p := notNewline) (k := t.bound pos) (by omega)
  have : c = '\n' := by simpa [notNewline] using hp
  subst this
  simpa [lineStop] using hc

/-- A line ends no earlier than it starts. -/
theorem lineStart_le_lineStop (t : Text) (pos : Int) : t.lineStart pos ≤ t.lineStop pos := by
  have h₁ := t.lineStart_le_bound pos
  have h₂ := t.bound_le_lineStop pos
  omega

/-- A position between the ends of a line lies on that line. -/
theorem lineStart_eq_of_between {p q : Int} (h₁ : t.lineStart p ≤ q) (h₂ : q ≤ t.lineStop p) :
    t.lineStart q = t.lineStart p := by
  have h₀ := t.lineStart_nonneg p
  have hlen := t.lineStop_le_length p
  have hq : t.bound q = q.toNat := bound_toNat (by omega) (by omega)
  have hsize : q.toNat ≤ t.chars.size := by unfold length at hlen; omega
  have hrun : t.runStart notNewline q.toNat = (t.lineStart p).toNat := by
    apply runStart_eq_of hsize (by omega)
    · intro i hi hlt
      exact char_of_between p (by omega) (by omega)
    · intro hpos
      exact ⟨'\n', newline_before_lineStart p (by omega), rfl⟩
  rw [show t.lineStart q = (t.runStart notNewline (t.bound q) : Int) from rfl, hq, hrun]
  omega

/-- A position between the ends of a line lies on that line. -/
theorem lineStop_eq_of_between {p q : Int} (h₁ : t.lineStart p ≤ q) (h₂ : q ≤ t.lineStop p) :
    t.lineStop q = t.lineStop p := by
  have h₀ := t.lineStart_nonneg p
  have hlen := t.lineStop_le_length p
  have hq : t.bound q = q.toNat := bound_toNat (by omega) (by omega)
  have hrun : t.runStop notNewline q.toNat = (t.lineStop p).toNat := by
    apply runStop_eq_of (by omega)
    · intro i hi hlt
      exact char_of_between p (by omega) (by omega)
    · intro c hc
      have hlt := (Array.getElem?_eq_some_iff.mp hc).1
      have := newline_at_lineStop (t := t) p (by unfold length; omega)
      rw [hc] at this
      cases this
      rfl
  rw [show t.lineStop q = (t.runStop notNewline (t.bound q) : Int) from rfl, hq, hrun]
  have := t.lineStart_le_lineStop p
  omega

/-- The start of a line lies on it. -/
theorem lineStart_lineStart (t : Text) (pos : Int) :
    t.lineStart (t.lineStart pos) = t.lineStart pos :=
  lineStart_eq_of_between (Int.le_refl _) (t.lineStart_le_lineStop pos)

/-- A line is the same when it is looked up by its start. -/
theorem lineStop_lineStart (t : Text) (pos : Int) : t.lineStop (t.lineStart pos) = t.lineStop pos :=
  lineStop_eq_of_between (Int.le_refl _) (t.lineStart_le_lineStop pos)

/-- A position of the text is not after the end of its line. -/
theorem le_lineStop {pos : Int} (h₀ : 0 ≤ pos) (h₁ : pos ≤ t.length) : pos ≤ t.lineStop pos := by
  have := t.bound_le_lineStop pos
  have := bound_of_mem h₀ h₁
  omega

/-- A later position stands on the same line or on a later one. -/
theorem lineStart_le_lineStart {p q : Int} (h₀ : 0 ≤ p) (hpq : p ≤ q) (h₁ : q ≤ t.length) :
    t.lineStart p ≤ t.lineStart q := by
  have hp := lineStart_le (t := t) h₀
  have hq := le_lineStop (t := t) (by omega) h₁
  rcases Int.lt_or_le p (t.lineStart q) with hlt | hge
  · omega
  · exact Int.le_of_eq (lineStart_eq_of_between hge (by omega))

/-- A position before a line stands on a line that ends before it. -/
theorem lineStop_lt_lineStart {p q : Int} (h₀ : 0 ≤ p) (hlt : p < t.lineStart q) :
    t.lineStop p < t.lineStart q := by
  have hp := lineStart_le (t := t) h₀
  rcases Int.lt_or_le (t.lineStop p) (t.lineStart q) with hlt' | hge
  · exact hlt'
  · -- one line would hold the start of another
    have hsame := lineStart_eq_of_between (t := t) (p := p) (q := t.lineStart q) (by omega) hge
    rw [t.lineStart_lineStart] at hsame
    omega

/-! ## The lines next to a line -/

/-- What is found above a line is the start of a line. -/
theorem lineStart_of_lineAbove? {pos bol : Int} (h : t.lineAbove? pos = some bol) :
    t.lineStart bol = bol := by
  unfold lineAbove? at h
  rw [moveLines_neg_one] at h
  by_cases hz : t.lineStart pos = 0
  · simp [hz] at h
  · simp only [if_neg hz, Option.some.injEq] at h
    rw [← h]
    exact t.lineStart_lineStart _

/-- The line above ends right before the line below it starts. -/
theorem lineStop_of_lineAbove? {pos bol : Int} (h : t.lineAbove? pos = some bol) :
    t.lineStop bol = t.lineStart pos - 1 := by
  have hpos := (lineAbove?_lt h).2
  have hnonneg := (lineAbove?_lt h).1
  unfold lineAbove? at h
  rw [moveLines_neg_one] at h
  by_cases hz : t.lineStart pos = 0
  · simp [hz] at h
  · simp only [if_neg hz, Option.some.injEq] at h
    have hle := t.lineStart_le_length pos
    have hnl := newline_before_lineStart (t := t) pos (by omega)
    have hstop : t.lineStop (t.lineStart pos - 1) = t.lineStart pos - 1 := by
      have hb : t.bound (t.lineStart pos - 1) = (t.lineStart pos).toNat - 1 := by
        rw [bound_toNat (by omega) (by omega)]; omega
      have hrun : t.runStop notNewline ((t.lineStart pos).toNat - 1) =
          (t.lineStart pos).toNat - 1 := by
        apply runStop_eq_of (Nat.le_refl _)
        · intro i h₁ h₂; omega
        · intro c hc
          rw [hnl] at hc
          cases hc
          rfl
      rw [show t.lineStop (t.lineStart pos - 1) =
        (t.runStop notNewline (t.bound (t.lineStart pos - 1)) : Int) from rfl, hb, hrun]
      omega
    rw [← h, t.lineStop_lineStart, hstop]

end Text

end LayoutRule
