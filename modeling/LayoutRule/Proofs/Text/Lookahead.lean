import LayoutRule.Layout.Clause
import LayoutRule.Request.KeywordPair
import LayoutRule.Request.Prose
import LayoutRule.Proofs.Text.Lines

/-!
# Looking ahead on a line

Words, operators, literals and the markers of clauses are recognised from the characters that follow
on the same line: no newline belongs to any of them. Two texts that *agree* from two places to the
ends of their lines (`Text.Agree`) therefore hold the same words, literals and markers there, of the
same length.
-/

namespace LayoutRule

namespace Text

variable {t u : Text} {k m stop : Nat}

/-- The characters from `k` to `stop` stand on one line. -/
def Reaches (t : Text) (k stop : Nat) : Prop :=
  ∀ i, k ≤ i → i < stop → ∃ c, t.chars[i]? = some c ∧ c ≠ '\n'

/-- The texts agree from `k` and `m` on, up to the first newline and with it. -/
def Agree (t : Text) (k : Nat) (u : Text) (m : Nat) : Prop :=
  ∀ i, (∀ j < i, t.chars[k + j]? ≠ some '\n') → t.chars[k + i]? = u.chars[m + i]?

/-! ## Characters on the line -/

namespace Reaches

/-- The empty stretch stands on one line. -/
theorem refl (t : Text) (k : Nat) : t.Reaches k k := fun _ h₁ h₂ => absurd h₁ (by omega)

/-- A character that is no newline stands on one line. -/
theorem one {c : Char} (hc : t.chars[k]? = some c) (hne : c ≠ '\n') : t.Reaches k (k + 1) := by
  intro i h₁ h₂
  obtain rfl : i = k := by omega
  exact ⟨c, hc, hne⟩

/-- Stretches next to each other that each stand on one line stand on the same line. -/
theorem trans {j : Nat} (h : t.Reaches k j) (h' : t.Reaches j stop) : t.Reaches k stop := by
  intro i h₁ h₂
  rcases Nat.lt_or_ge i j with hlt | hge
  · exact h i h₁ hlt
  · exact h' i hge h₂

/-- A part of a stretch on one line stands on one line. -/
theorem mono {j : Nat} (h : t.Reaches k stop) (hj : j ≤ stop) : t.Reaches k j :=
  fun i h₁ h₂ => h i h₁ (by omega)

/-- A stretch on one line lies inside the text, unless it is empty. -/
theorem le_size (h : t.Reaches k stop) (hk : k < stop) : stop ≤ t.chars.size := by
  obtain ⟨c, hc, -⟩ := h (stop - 1) (by omega) (by omega)
  have := (Array.getElem?_eq_some_iff.mp hc).1
  omega

/-- A run of characters other than the newline stands on the line. -/
theorem runStop {p : Char → Bool} (hp : p '\n' = false) (k : Nat) :
    t.Reaches k (t.runStop p k) := by
  intro i h₁ h₂
  obtain ⟨c, hc, hpc⟩ := char_of_lt_runStop h₁ h₂
  refine ⟨c, hc, ?_⟩
  rintro rfl
  rw [hp] at hpc
  cases hpc

/-- A word stands on the line. -/
theorem of_holdsAt {w : List Char} (hw : '\n' ∉ w) (h : t.holdsAt w k = true) :
    t.Reaches k (k + w.length) := by
  induction w generalizing k with
  | nil => exact refl t k
  | cons c w ih =>
    simp only [holdsAt, Bool.and_eq_true, beq_iff_eq] at h
    have hrest := ih (fun hmem => hw (List.mem_cons_of_mem c hmem)) h.2
    rw [List.length_cons, show k + (w.length + 1) = k + 1 + w.length by omega]
    exact (one h.1 fun hc => hw (hc ▸ List.mem_cons_self)).trans hrest

end Reaches

namespace Agree

/-- Texts that agree from two places on have the same character there, or both none. -/
theorem head (h : t.Agree k u m) : t.chars[k]? = u.chars[m]? :=
  h 0 fun _ hj => absurd hj (Nat.not_lt_zero _)

/-- The texts still agree further along the line. -/
theorem move (h : t.Agree k u m) (hle : k ≤ stop) (hr : t.Reaches k stop) :
    t.Agree stop u (m + (stop - k)) := by
  intro i hi
  have hall : ∀ j < stop - k + i, t.chars[k + j]? ≠ some '\n' := by
    intro j hj hnl
    rcases Nat.lt_or_ge (k + j) stop with hlt | hge
    · obtain ⟨c, hc, hne⟩ := hr (k + j) (by omega) hlt
      rw [hnl] at hc
      cases hc
      exact hne rfl
    · refine hi (k + j - stop) (by omega) ?_
      rw [show stop + (k + j - stop) = k + j by omega]
      exact hnl
  have := h (stop - k + i) hall
  rw [show k + (stop - k + i) = stop + i by omega, ← Nat.add_assoc] at this
  exact this

/-- Texts that agree have the same characters as far as the line goes, and behind its last one. -/
theorem getElem? (h : t.Agree k u m) (hle : k ≤ stop) (hr : t.Reaches k stop) :
    t.chars[stop]? = u.chars[m + (stop - k)]? := (h.move hle hr).head

/-- Behind a character other than the newline the texts still agree. -/
theorem succ (h : t.Agree k u m) (hne : t.chars[k]? ≠ some '\n') :
    t.chars[k + 1]? = u.chars[m + 1]? := by
  refine h 1 fun j hj => ?_
  obtain rfl : j = 0 := by omega
  exact hne

/-- What stands on one line in one text does so in the other. -/
theorem reaches (h : t.Agree k u m) (hr : t.Reaches k stop) : u.Reaches m (m + (stop - k)) := by
  intro i h₁ h₂
  obtain ⟨c, hc, hne⟩ := hr (k + (i - m)) (by omega) (by omega)
  refine ⟨c, ?_, hne⟩
  rw [h.getElem? (by omega) (hr.mono (by omega)), show m + (k + (i - m) - k) = i by omega] at hc
  exact hc

/-- What stands on one line is the same in both texts. -/
theorem extract_eq (h : t.Agree k u m) (hr : t.Reaches k stop) :
    t.chars.extract k stop = u.chars.extract m (m + (stop - k)) := by
  refine Array.ext_getElem? fun i => ?_
  rw [Array.getElem?_extract, Array.getElem?_extract]
  by_cases hi : k + i < stop
  · have hsize := hr.le_size (by omega)
    have hsize' := (h.reaches hr).le_size (by omega)
    rw [if_pos (by omega), if_pos (by omega), h.getElem? (by omega) (hr.mono (by omega))]
    congr 1
    omega
  · rw [if_neg (by omega), if_neg (by omega)]

/-! ## Runs and words -/

/-- A run that newlines are no part of is as long in both texts. -/
theorem runStop (h : t.Agree k u m) {p : Char → Bool} (hp : p '\n' = false) :
    u.runStop p m = m + (t.runStop p k - k) := by
  have hreach := Reaches.runStop (t := t) hp k
  have hle := t.le_runStop p k
  apply runStop_eq_of (by omega)
  · intro i h₁ h₂
    obtain ⟨c, hc, hpc⟩ :=
      char_of_lt_runStop (t := t) (p := p) (k := k) (i := k + (i - m)) (by omega) (by omega)
    refine ⟨c, ?_, hpc⟩
    rw [h.getElem? (by omega) (hreach.mono (by omega)), show m + (k + (i - m) - k) = i by omega]
      at hc
    exact hc
  · intro c hc
    rw [← h.getElem? hle hreach] at hc
    exact not_of_runStop hc

/-- A word without newlines stands in both texts or in neither. -/
theorem holdsAt (h : t.Agree k u m) {w : List Char} (hw : '\n' ∉ w) :
    t.holdsAt w k = u.holdsAt w m := by
  induction w generalizing k m with
  | nil => rfl
  | cons c w ih =>
    have hc : c ≠ '\n' := fun hc => hw (hc ▸ List.mem_cons_self)
    have hw' : '\n' ∉ w := fun hmem => hw (List.mem_cons_of_mem c hmem)
    simp only [Text.holdsAt]
    rw [← h.head]
    by_cases hhead : t.chars[k]? = some c
    · have hnext := h.move (Nat.le_succ k) (.one hhead hc)
      rw [Nat.succ_eq_add_one, Nat.add_sub_cancel_left] at hnext
      rw [ih hnext hw']
    · rw [beq_eq_false_iff_ne.mpr hhead, Bool.false_and, Bool.false_and]

/-- A word without newlines stands in both texts as a whole word or in neither. -/
theorem wholeWordAt (h : t.Agree k u m) {w : List Char} (hw : '\n' ∉ w) :
    t.wholeWordAt w k = u.wholeWordAt w m := by
  unfold Text.wholeWordAt
  rw [← h.holdsAt hw]
  cases hword : t.holdsAt w k with
  | false => rfl
  | true => rw [h.getElem? (by omega) (.of_holdsAt hw hword), Nat.add_sub_cancel_left]

end Agree

/-! ## Literals and markers -/

/-- Two ends that lie equally far, on the line, from `k` and `m`, or none. -/
inductive SameStop (t : Text) (k m : Nat) : Option Nat → Option Nat → Prop where
  | none : SameStop t k m none none
  | some {stop stop' : Nat} (hle : k ≤ stop) (h : t.Reaches k stop) (heq : stop' = m + (stop - k)) :
      SameStop t k m (some stop) (some stop')

namespace Agree

/-- Names are the same and equally long in both texts. -/
theorem nameStop? (h : t.Agree k u m) : SameStop t k m (t.nameStop? k) (u.nameStop? m) := by
  unfold Text.nameStop?
  rw [← h.head]
  cases hc : t.chars[k]? with
  | none => exact .none
  | some c =>
    simp only
    split
    · next hstart =>
      have hone : t.Reaches k (k + 1) := .one hc fun hnl => absurd (hnl ▸ hstart) (by decide)
      have hle := t.le_runStop isNameChar (k + 1)
      have hrun := (h.move (by omega) hone).runStop (p := isNameChar) (by decide)
      rw [Nat.add_sub_cancel_left] at hrun
      exact .some (by omega) (hone.trans (.runStop (by decide) _)) (by omega)
    · exact .none

/-- The bars of guards are the same in both texts. -/
theorem guardStop? (h : t.Agree k u m) : SameStop t k m (t.guardStop? k) (u.guardStop? m) := by
  by_cases hbar : t.chars[k]? = some '|'
  · unfold Text.guardStop?
    rw [← h.head, ← h.succ (by rw [hbar]; decide), hbar]
    cases hc : t.chars[k + 1]? with
    | none => exact .none
    | some c =>
      simp only
      split
      · exact .none
      · exact .some (by omega) (.one hbar (by decide)) (by omega)
  · have hnone : ∀ (t : Text) (k : Nat), t.chars[k]? ≠ some '|' → t.guardStop? k = none := by
      intro t k hne
      unfold Text.guardStop?
      split
      · next heq _ => exact absurd heq hne
      · rfl
    rw [hnone t k hbar, hnone u m (by rw [← h.head]; exact hbar)]
    exact .none

/-- The signs of right-hand sides are the same and equally long in both texts. -/
theorem rhsStop? (h : t.Agree k u m) : SameStop t k m (t.rhsStop? k) (u.rhsStop? m) := by
  by_cases hnl : t.chars[k]? = some '\n'
  · have hnone : ∀ (t : Text) (k : Nat), t.chars[k]? = some '\n' → t.rhsStop? k = none := by
      intro t k hc
      unfold Text.rhsStop?
      rw [hc]
      cases t.chars[k + 1]? with
      | none => simp [rhsSigns]
      | some next => simp [rhsSigns, rhsPairs]
    rw [hnone t k hnl, hnone u m (by rw [← h.head]; exact hnl)]
    exact .none
  · have hsucc := h.succ hnl
    unfold Text.rhsStop?
    rw [← h.head, ← hsucc]
    cases hc : t.chars[k]? with
    | none => exact .none
    | some c =>
      have hone : t.Reaches k (k + 1) := .one hc fun hc' => hnl (hc' ▸ hc)
      simp only
      split
      · exact .some (by omega) hone (by omega)
      cases hnext : t.chars[k + 1]? with
      | none => exact .none
      | some next =>
        simp only
        split
        · split
          · exact .none
          · exact .some (by omega) hone (by omega)
        · split
          · next hpair =>
            have hne : next ≠ '\n' := by
              rintro rfl
              simp [rhsPairs] at hpair
            exact .some (by omega) (hone.trans (.one hnext hne)) (by omega)
          · exact .none

/-- The same marker stands at both places, or none. -/
theorem markerStop? (h : t.Agree k u m) :
    (t.markerStop? k = none ∧ u.markerStop? m = none) ∨
    ∃ kind stop, k ≤ stop ∧ t.Reaches k stop ∧ t.markerStop? k = some (kind, stop) ∧
      u.markerStop? m = some (kind, m + (stop - k)) := by
  unfold Text.markerStop?
  generalize hx : t.nameStop? k = x, hy : u.nameStop? m = y
  cases hx ▸ hy ▸ h.nameStop? with
  | some hle hr heq => exact .inr ⟨.name, _, hle, hr, rfl, heq ▸ rfl⟩
  | none =>
    simp only
    generalize hx : t.guardStop? k = x, hy : u.guardStop? m = y
    cases hx ▸ hy ▸ h.guardStop? with
    | some hle hr heq => exact .inr ⟨.guard, _, hle, hr, rfl, heq ▸ rfl⟩
    | none =>
      simp only
      generalize hx : t.rhsStop? k = x, hy : u.rhsStop? m = y
      cases hx ▸ hy ▸ h.rhsStop? with
      | some hle hr heq => exact .inr ⟨.rhs, _, hle, hr, rfl, heq ▸ rfl⟩
      | none => exact .inl ⟨rfl, rfl⟩

/-- Escaped characters are equally long in both texts. -/
theorem escapeStop? (h : t.Agree k u m) : SameStop t k m (t.escapeStop? k) (u.escapeStop? m) := by
  unfold Text.escapeStop?
  rw [← h.head]
  cases hc : t.chars[k]? with
  | none => exact .none
  | some c =>
    simp only
    split
    · exact .none
    · next hne =>
      have hone : t.Reaches k (k + 1) := .one hc hne
      have hle := t.le_runStop insideQuotes (k + 1)
      have hreach := hone.trans (.runStop (p := insideQuotes) (by decide) (k + 1))
      have hrun := (h.move (by omega) hone).runStop (p := insideQuotes) (by decide)
      rw [Nat.add_sub_cancel_left] at hrun
      rw [h.getElem? (by omega) hreach, hrun,
        show m + (t.runStop insideQuotes (k + 1) - k) =
          m + 1 + (t.runStop insideQuotes (k + 1) - (k + 1)) by omega]
      split
      · next hquote =>
        rw [show m + 1 + (t.runStop insideQuotes (k + 1) - (k + 1)) =
          m + (t.runStop insideQuotes (k + 1) - k) by
          omega, ← h.getElem? (by omega) hreach] at hquote
        exact .some (by omega) (hreach.trans (.one hquote (by decide))) (by omega)
      · exact .none

/-- Character literals are equally long in both texts: a newline is part of none. -/
theorem charLiteralStop? (h : t.Agree k u m) :
    SameStop t k m (t.charLiteralStop? k) (u.charLiteralStop? m) := by
  unfold Text.charLiteralStop?
  rw [← h.head]
  split
  · next hquote =>
    have hone : t.Reaches k (k + 1) := .one hquote (by decide)
    have hsucc := h.succ (by rw [hquote]; decide)
    rw [← hsucc]
    cases hc : t.chars[k + 1]? with
    | none => exact .none
    | some c =>
      simp only
      have htwo : c ≠ '\n' → t.Reaches k (k + 2) := fun hne => hone.trans (.one hc hne)
      split
      · next hback =>
        have hstop := (h.move (by omega) (htwo (by rw [hback]; decide))).escapeStop?
        rw [Nat.add_sub_cancel_left] at hstop
        generalize hx : t.escapeStop? (k + 2) = x, hy : u.escapeStop? (m + 2) = y at hstop
        cases hstop with
        | none => exact .none
        | some hle hr heq =>
          exact .some (by omega) ((htwo (by rw [hback]; decide)).trans hr) (by omega)
      · split
        · next hinside =>
          have hne : c ≠ '\n' := fun hnl => absurd (hnl ▸ hinside) (by decide)
          rw [h.getElem? (by omega) (htwo hne), Nat.add_sub_cancel_left]
          split
          · next hclose =>
            rw [← Nat.add_sub_cancel_left (n := k) (m := 2), ← h.getElem? (by omega) (htwo hne)]
              at hclose
            exact .some (by omega) ((htwo hne).trans (.one hclose (by decide))) (by omega)
          · exact .none
        · exact .none
  · exact .none

end Agree

/-! ## Lexemes -/

/-- The end of the lexeme at `k`. -/
def lexemeStop (t : Text) (k : Nat) : Nat :=
  if k < t.runStop isNameChar k then t.runStop isNameChar k
  else t.runStop isClosing (t.runStop isOpening (t.runStop isOperatorChar k))

/-- The lexeme at a position is what stands from there to its end. -/
theorem lexemeAt_eq (t : Text) (i : Int) :
    t.lexemeAt i = String.ofList (t.chars.extract (t.clamp i) (t.lexemeStop (t.clamp i))).toList :=
  rfl

/-- A lexeme ends no earlier than it starts. -/
theorem le_lexemeStop (t : Text) (k : Nat) : k ≤ t.lexemeStop k := by
  have h₁ := t.le_runStop isOperatorChar k
  have h₂ := t.le_runStop isOpening (t.runStop isOperatorChar k)
  have h₃ := t.le_runStop isClosing (t.runStop isOpening (t.runStop isOperatorChar k))
  unfold lexemeStop
  split <;> omega

/-- A lexeme stands on one line. -/
theorem Reaches.lexemeStop (t : Text) (k : Nat) : t.Reaches k (t.lexemeStop k) := by
  unfold Text.lexemeStop
  split
  · exact .runStop (by decide) k
  · exact ((Reaches.runStop (p := isOperatorChar) (by decide) k).trans
      (.runStop (p := isOpening) (by decide) _)).trans (.runStop (p := isClosing) (by decide) _)

namespace Agree

/-- Lexemes are equally long in both texts. -/
theorem lexemeStop (h : t.Agree k u m) : u.lexemeStop m = m + (t.lexemeStop k - k) := by
  have hname := h.runStop (p := isNameChar) (by decide)
  have h₁ := t.le_runStop isOperatorChar k
  have hop := h.runStop (p := isOperatorChar) (by decide)
  have hop' := h.move h₁ (.runStop (by decide) k)
  have h₂ := t.le_runStop isOpening (t.runStop isOperatorChar k)
  have hopen := hop'.runStop (p := isOpening) (by decide)
  have hopen' := hop'.move h₂ (.runStop (by decide) _)
  have h₃ := t.le_runStop isClosing (t.runStop isOpening (t.runStop isOperatorChar k))
  have hclose := hopen'.runStop (p := isClosing) (by decide)
  unfold Text.lexemeStop
  rw [hname, hop, hopen, hclose]
  by_cases hlt : k < t.runStop isNameChar k
  · rw [if_pos hlt, if_pos (by omega)]
  · rw [if_neg hlt, if_neg (by omega)]
    omega

/-- Lexemes are the same in both texts. -/
theorem lexemeAt {i j : Int} (h : t.Agree (t.clamp i) u (u.clamp j)) :
    t.lexemeAt i = u.lexemeAt j := by
  rw [lexemeAt_eq, lexemeAt_eq, h.extract_eq (.lexemeStop t _), h.lexemeStop]

end Agree

/-- The length of a lexeme is the distance to its end. -/
theorem length_lexemeAt (t : Text) (i : Int) :
    ((t.lexemeAt i).length : Int) = t.lexemeStop (t.clamp i) - t.clamp i := by
  have hle := t.le_lexemeStop (t.clamp i)
  have hsize : t.lexemeStop (t.clamp i) ≤ t.chars.size := by
    rcases Nat.eq_or_lt_of_le hle with heq | hlt
    · rw [← heq]
      exact t.clamp_le_size i
    · exact (Reaches.lexemeStop t (t.clamp i)).le_size hlt
  rw [lexemeAt_eq, String.length_ofList, Array.length_toList, Array.size_extract]
  omega

/-! ## What a line starts with -/

namespace Agree

variable {i j : Int}

/-- The same closing keyword stands in both texts, or none. -/
theorem closingPair? (h : t.Agree (t.clamp i) u (u.clamp j)) :
    t.closingPair? i = u.closingPair? j := by
  unfold Text.closingPair?
  congr 1
  funext pair
  exact h.wholeWordAt (by cases pair <;> decide)

/-- A guard is open in both texts or in neither. -/
theorem isOpenGuard (h : t.Agree (t.clamp i) u (u.clamp j)) :
    t.isOpenGuard i = u.isOpenGuard j := by
  simp only [Text.isOpenGuard]
  rw [← h.head]
  by_cases hbar : t.chars[t.clamp i]? = some '|'
  · have hone := h.move (Nat.le_succ _) (.one hbar (by decide))
    rw [Nat.succ_eq_add_one, Nat.add_sub_cancel_left] at hone
    have hblank := hone.move (t.le_runStop Document.isBlank _) (.runStop (by decide) _)
    rw [hone.runStop (p := Document.isBlank) (by decide), hblank.wholeWordAt (by decide)]
  · rw [beq_eq_false_iff_ne.mpr hbar, Bool.false_and, Bool.false_and]

/-- As many dashes stand in both texts. -/
theorem dashCount (h : t.Agree (t.clamp i) u (u.clamp j)) : t.dashCount i = u.dashCount j := by
  simp only [Text.dashCount]
  rw [← h.head]
  by_cases hdash : t.chars[t.clamp i]? = some '-'
  · rw [← h.succ (by rw [hdash]; decide)]
  · rw [if_neg hdash, if_neg hdash]

/-- The sign of a comment and the blanks behind it are equally long in both texts. -/
theorem commentLeadStop? (h : t.Agree (t.clamp i) u (u.clamp j)) :
    SameStop t (t.clamp i) (u.clamp j) (t.commentLeadStop? i) (u.commentLeadStop? j) := by
  simp only [Text.commentLeadStop?]
  rw [← h.head]
  by_cases hfirst : t.chars[t.clamp i]? = some '-' ∨ t.chars[t.clamp i]? = some '\x7b'
  · have hone : t.Reaches (t.clamp i) (t.clamp i + 1) := by
      rcases hfirst with hc | hc <;> exact .one hc (by decide)
    have hsucc := h.getElem? (by omega) hone
    rw [Nat.add_sub_cancel_left] at hsucc
    rw [← hsucc]
    split
    · next hlead =>
      have htwo := hone.trans (.one hlead.2 (by decide))
      have hrun := (h.move (by omega) htwo).runStop (p := Document.isBlank) (by decide)
      have hle := t.le_runStop Document.isBlank (t.clamp i + 2)
      rw [show t.clamp i + 1 + 1 = t.clamp i + 2 from rfl, Nat.add_sub_cancel_left] at hrun
      exact .some (by omega) (htwo.trans (.runStop (by decide) _)) (by omega)
    · exact .none
  · rw [if_neg fun hlead => hfirst hlead.1, if_neg fun hlead => hfirst hlead.1]
    exact .none

end Agree

/-- A word ends with its last letter and an operator with its last sign. Any other character stands
alone. -/
theorem plainStop_eq (hk : k ≤ t.chars.size) :
    t.plainStop k =
      (if k < t.runStop isNameChar k then t.runStop isNameChar k
        else if k < t.runStop isOperatorChar k then t.runStop isOperatorChar k else k + 1 :
          Nat) := by
  have hclamp : t.clamp k = k := by unfold clamp; omega
  unfold plainStop wordStop? operatorStop?
  by_cases hword : k < t.runStop isNameChar k
  · simp [hclamp, hword]
  · by_cases hop : k < t.runStop isOperatorChar k <;> simp [hclamp, hword, hop]

/-- A word, an operator or a single character ends equally far from both places. -/
theorem Agree.plainStop (h : t.Agree k u m) (hk : k ≤ t.chars.size) (hm : m ≤ u.chars.size) :
    ∃ stop : Nat, t.plainStop k = stop ∧ u.plainStop m = (m + (stop - k) : Nat) ∧ k < stop ∧
      (t.Reaches k stop ∨ stop = k + 1) := by
  have hname := h.runStop (p := isNameChar) (by decide)
  have hop := h.runStop (p := isOperatorChar) (by decide)
  rw [plainStop_eq hk, plainStop_eq hm]
  by_cases hword : k < t.runStop isNameChar k
  · rw [if_pos hword, if_pos (by omega : m < u.runStop isNameChar m), hname]
    exact ⟨_, rfl, rfl, hword, .inl (.runStop (by decide) k)⟩
  · rw [if_neg hword, if_neg (by omega : ¬m < u.runStop isNameChar m)]
    by_cases hrun : k < t.runStop isOperatorChar k
    · rw [if_pos hrun, if_pos (by omega : m < u.runStop isOperatorChar m), hop]
      exact ⟨_, rfl, rfl, hrun, .inl (.runStop (by decide) k)⟩
    · rw [if_neg hrun, if_neg (by omega : ¬m < u.runStop isOperatorChar m)]
      exact ⟨k + 1, rfl, by rw [Nat.add_sub_cancel_left], by omega, .inr rfl⟩

end Text

end LayoutRule
