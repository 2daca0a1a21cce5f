import LayoutRule.Proofs.Lexical.Strides
import LayoutRule.Proofs.Text.Lookahead

/-!
# Blanks before a sign

Blanks are put in before a bar or a sign of a right-hand side (`Text.Spaced`). What stands on the
line before the sign is scanned as before: a piece that ends no later than the sign is the same
piece in both texts (`Spaced.pieceAt`), and so is an expression (`Spaced.expressionStop`). Only the
characters on both sides of the new blanks could be read together before and apart now; no comment,
literal or operator lies across that place.
-/

namespace LayoutRule

namespace Text

/-- A character that the bar of a guard or the sign of a right-hand side starts with. -/
def isSignHead (c : Char) : Bool := ['|', '=', ':', '-', '<', '∷', '→', '←'].contains c

/-- What a character that a sign starts with is and is not. -/
structure SignHead (x : Char) : Prop where
  operator : isOperatorChar x = true
  name : isNameChar x = false
  blank : Document.isBlank x = false
  newline : x ≠ '\n'
  backslash : x ≠ '\\'
  quote : x ≠ '\''
  marker : x ≠ '>'

/-- The characters that the test for first characters of signs passes are such characters. -/
theorem SignHead.of_isSignHead {x : Char} (h : isSignHead x = true) : SignHead x := by
  have hcases : x = '|' ∨ x = '=' ∨ x = ':' ∨ x = '-' ∨ x = '<' ∨ x = '∷' ∨ x = '→' ∨ x = '←' := by
    simpa [isSignHead] using h
  rcases hcases with rfl | rfl | rfl | rfl | rfl | rfl | rfl | rfl <;> constructor
    <;> decide +kernel

/-- Up to the sign at `m`, the line from `a` on is `o` places further on in `u`, and then `pad`
blanks are put in. -/
structure Spaced (t u : Text) (a m o : Int) (pad : Nat) : Prop where
  nonneg : 0 ≤ a
  nonneg' : 0 ≤ a + o
  le : a ≤ m
  first : a + o = 0 ↔ a = 0
  /-- What stands before the sign, with the character before that. -/
  same : ∀ i, a - 1 ≤ i → i < m → u.charAt? (i + o) = t.charAt? i
  line : ∀ i, a ≤ i → i < m → t.charAt? i ≠ some '\n'
  blanks : ∀ i, m + o ≤ i → i < m + o + pad → u.charAt? i = some ' '
  /-- The rest of the line. -/
  rest : t.Agree m.toNat u (m + o + pad).toNat
  sign : ∃ x, t.charAt? m = some x ∧ isSignHead x = true
  /-- The sign stands right behind a bar, or behind what is no operator and no brace. -/
  edge : a < m → ∀ x y, t.charAt? m = some x → t.charAt? (m - 1) = some y →
    y ≠ '\x7b' ∧ (isOperatorChar y = true → y = '|' ∧ x ≠ '|')

namespace Spaced

variable {t u : Text} {a m o i j : Int} {pad : Nat}

/-- The sign is a character of the text. -/
theorem lt_length (h : t.Spaced u a m o pad) : m < t.length := by
  obtain ⟨x, hx, -⟩ := h.sign
  exact Document.lt_length_of_charAt? (Int.le_trans h.nonneg h.le) hx

/-- The sign in the second text. -/
theorem charAt?_sign (h : t.Spaced u a m o pad) : u.charAt? (m + o + pad) = t.charAt? m := by
  have h₁ := h.nonneg
  have h₂ := h.nonneg'
  have h₃ := h.le
  have hrest := h.rest.head
  rw [charAt?_eq (by omega), charAt?_eq (by omega)]
  exact hrest.symm

/-- The sign is a character of the text with the blanks as well, moved by the blanks before it. -/
theorem lt_length' (h : t.Spaced u a m o pad) : m + o + pad < u.length := by
  have h₂ := h.nonneg'
  have h₃ := h.le
  obtain ⟨x, hx, -⟩ := h.sign
  exact Document.lt_length_of_charAt? (by omega) (h.charAt?_sign.trans hx)

/-- What comes after the text before the sign. -/
theorem charAt?_edge (h : t.Spaced u a m o pad) :
    u.charAt? (m + o) = some ' ' ∨ u.charAt? (m + o) = t.charAt? m := by
  rcases Nat.eq_zero_or_pos pad with rfl | hpos
  · refine .inr ?_
    have := h.charAt?_sign
    rwa [Int.natCast_zero, Int.add_zero] at this
  · exact .inl (h.blanks _ (Int.le_refl _) (by omega))

/-- A place before the sign holds a character. -/
theorem exists_char (h : t.Spaced u a m o pad) (h₁ : a ≤ i) (h₂ : i < m) :
    ∃ c, t.charAt? i = some c ∧ u.charAt? (i + o) = some c ∧ c ≠ '\n' := by
  have h₀ := h.nonneg
  have hlen := h.lt_length
  obtain ⟨c, -, hc⟩ := read_yields (t := t) (i := i) (by omega) (by omega)
  rw [← charAt?_eq (by omega)] at hc
  refine ⟨c, hc, ?_, ?_⟩
  · rw [h.same i (by omega) h₂, hc]
  · rintro rfl
    exact h.line i h₁ h₂ hc

/-! ## Words and comments -/

/-- Runs that end before the sign, or right before it and the blanks. -/
theorem runStop (h : t.Spaced u a m o pad) {p : Char → Bool} (h₁ : a ≤ i)
    (hstop : (t.runStop p i.toNat : Int) ≤ m)
    (hblank : (t.runStop p i.toNat : Int) = m → p ' ' = false) :
    (u.runStop p (i + o).toNat : Int) = t.runStop p i.toNat + o := by
  have h₀ := h.nonneg
  have h₀' := h.nonneg'
  have hle := t.le_runStop p i.toNat
  suffices hrun : u.runStop p (i + o).toNat = ((t.runStop p i.toNat : Int) + o).toNat by omega
  refine runStop_eq_of (by omega) (fun k hk hlt => ?_) fun c hc => ?_
  · obtain ⟨c, hc, hpc⟩ :=
      char_of_lt_runStop (t := t) (p := p) (k := i.toNat) (i := ((k : Int) - o).toNat) (by omega)
        (by omega)
    refine ⟨c, ?_, hpc⟩
    have hsame := h.same ((k : Int) - o) (by omega) (by omega)
    rw [Int.sub_add_cancel, charAt?_eq (by omega), charAt?_eq (by omega), Int.toNat_natCast]
      at hsame
    rw [hsame, hc]
  · have hstops : ∀ c, t.charAt? (t.runStop p i.toNat) = some c → p c = false := by
      intro c hc
      rw [charAt?_eq (by omega), Int.toNat_natCast] at hc
      exact not_of_runStop hc
    rw [← charAt?_eq (by omega)] at hc
    rcases Int.lt_or_eq_of_le hstop with hlt | heq
    · rw [h.same _ (by omega) hlt] at hc
      exact hstops c hc
    · rw [heq] at hc hstops
      rcases h.charAt?_edge with hspace | hsign
      · cases hspace.symm.trans hc
        exact hblank heq
      · exact hstops c (hsign ▸ hc)

end Spaced

/-- A word of two characters is written at a place. -/
theorem hasWord_pair {t : Text} {i : Int} (h₀ : 0 ≤ i) (c₁ c₂ : Char) :
    t.hasWord [c₁, c₂] i t.length = (t.charAt? i == some c₁ && t.charAt? (i + 1) == some c₂) := by
  rw [Bool.eq_iff_iff, Bool.and_eq_true, beq_iff_eq, beq_iff_eq]
  constructor
  · intro hword
    obtain ⟨h₁, h₂, -⟩ := chars_of_hasWord h₀ hword
    exact ⟨h₁, h₂⟩
  · rintro ⟨h₁, h₂⟩
    have hlen := Document.lt_length_of_charAt? (by omega) h₂
    have hbound := bound_toNat h₀ (by omega : i ≤ t.length)
    have hlast := bound_toNat t.length_nonneg (Int.le_refl t.length)
    rw [charAt?_eq h₀] at h₁
    rw [charAt?_eq (by omega), show (i + 1).toNat = i.toNat + 1 by omega] at h₂
    unfold hasWord
    simp only [hbound, hlast, holdsAt, h₁, h₂, beq_self_eq_true, Bool.and_true, List.length_cons,
      List.length_nil, decide_eq_true_eq]
    omega

namespace Spaced

variable {t u : Text} {a m o i j : Int} {pad : Nat}

/-- The two characters that start or end a comment do not lie across the new blanks. -/
theorem hasWord (h : t.Spaced u a m o pad) (h₁ : a ≤ i) (h₂ : i < m) {w : List Char}
    (hw : w = blockOpen ∨ w = blockClose ∨ w = dashes) :
    u.hasWord w (i + o) u.length = t.hasWord w i t.length := by
  have h₀ := h.nonneg
  have h₀' := h.nonneg'
  obtain ⟨c₁, c₂, rfl, hc⟩ : ∃ c₁ c₂, w = [c₁, c₂] ∧ (c₁ = '\x7b' ∨ c₁ = '-') := by
    rcases hw with rfl | rfl | rfl
    · exact ⟨_, _, rfl, .inl rfl⟩
    · exact ⟨_, _, rfl, .inr rfl⟩
    · exact ⟨_, _, rfl, .inr rfl⟩
  rw [hasWord_pair (by omega), hasWord_pair (by omega), h.same i (by omega) h₂]
  rcases Int.lt_or_eq_of_le (show i + 1 ≤ m by omega) with hlt | heq
  · rw [show i + o + 1 = i + 1 + o by omega, h.same (i + 1) (by omega) hlt]
  · have hno : (t.charAt? i == some c₁) = false := by
      rw [beq_eq_false_iff_ne]
      intro hlast
      obtain ⟨x, hx, -⟩ := h.sign
      obtain ⟨hbrace, hop⟩ :=
        h.edge (by omega) x c₁ hx (by rw [← heq, Int.add_sub_cancel]; exact hlast)
      rcases hc with rfl | rfl
      · exact hbrace rfl
      · exact absurd (hop (by decide)).1 (by decide)
    rw [hno, Bool.false_and, Bool.false_and]

/-- Comments start at the same places. -/
theorem commentAt (h : t.Spaced u a m o pad) (h₁ : a ≤ i) (h₂ : i < m) :
    u.commentAt (i + o) u.length = t.commentAt i t.length := by
  have h₀ := h.nonneg
  have h₀' := h.nonneg'
  have hlen := h.lt_length
  have hlen' := h.lt_length'
  have hafter : u.afterOperator (i + o) = t.afterOperator i := by
    unfold afterOperator
    rw [show i + o - 1 = i - 1 + o by omega, h.same (i - 1) (by omega) (by omega)]
  -- the last character before the sign is no dash
  have hdashes : (t.runStop (· == '-') i.toNat : Int) < m := by
    rcases Int.lt_or_le (t.runStop (· == '-') i.toNat) m with hlt | hge
    · exact hlt
    · exfalso
      obtain ⟨c, hc, hdash⟩ :=
        char_of_lt_runStop (t := t) (p := (· == '-')) (k := i.toNat) (i := (m - 1).toNat) (by omega)
          (by omega)
      obtain ⟨x, hx, -⟩ := h.sign
      rw [← charAt?_eq (by omega)] at hc
      cases beq_iff_eq.mp hdash
      exact absurd ((h.edge (by omega) x _ hx hc).2 (by decide)).1 (by decide)
  have hle := t.le_runStop (· == '-') i.toNat
  have hends : u.endsDashes (u.runStop (· == '-') (i + o).toNat) =
      t.endsDashes (t.runStop (· == '-') i.toNat) := by
    have hrun := h.runStop (p := (· == '-')) h₁ (Int.le_of_lt hdashes) (by omega)
    have hchar := h.same (t.runStop (· == '-') i.toNat) (by omega) hdashes
    rw [← hrun, charAt?_eq (by omega), charAt?_eq (by omega), Int.toNat_natCast, Int.toNat_natCast]
      at hchar
    unfold endsDashes
    rw [hchar]
  rw [commentAt_eq (by omega) (by omega), commentAt_eq (by omega) (by omega), hafter, hends,
    h.hasWord h₁ h₂ (.inl rfl), h.hasWord h₁ h₂ (.inr (.inr rfl))]

/-- Block comments that end no later than the sign. -/
theorem blockStop {depth : Nat} (h : t.Spaced u a m o pad) (h₁ : a ≤ j)
    (hstop : t.blockStop depth j ≤ m) : u.blockStop depth (j + o) = t.blockStop depth j + o := by
  have hlen := h.lt_length
  have hlen' := h.lt_length'
  have hstep : ∀ (depth : Nat) (j : Int), a ≤ j → j < m → u.blockStop depth (j + o) =
      if t.hasWord blockOpen j t.length then u.blockStop (depth + 1) (j + 2 + o)
      else if t.hasWord blockClose j t.length then
        if depth ≤ 1 then j + 2 + o else u.blockStop (depth - 1) (j + 2 + o)
      else u.blockStop depth (j + 1 + o) := by
    intro depth j h₁ h₂
    rw [Text.blockStop, if_pos (by omega), h.hasWord h₁ h₂ (.inl rfl),
      h.hasWord h₁ h₂ (.inr (.inl rfl)),
      show j + o + 2 = j + 2 + o by omega, show j + o + 1 = j + 1 + o by omega]
  fun_induction Text.blockStop t depth j with
  | case1 depth j hlt hopen ih =>
    have hmin := t.min_lt_blockStop (depth + 1) (j + 2)
    rw [hstep depth j h₁ (by omega), if_pos hopen]
    exact ih (by omega) hstop
  | case2 depth j hlt hopen hclose hdepth =>
    rw [hstep depth j h₁ (by omega), if_neg hopen, if_pos hclose, if_pos hdepth]
  | case3 depth j hlt hopen hclose hdepth ih =>
    have hmin := t.min_lt_blockStop (depth - 1) (j + 2)
    rw [hstep depth j h₁ (by omega), if_neg hopen, if_pos hclose, if_neg hdepth]
    exact ih (by omega) hstop
  | case4 depth j hlt hopen hclose ih =>
    have hmin := t.min_lt_blockStop depth (j + 1)
    rw [hstep depth j h₁ (by omega), if_neg hopen, if_neg hclose]
    exact ih (by omega) hstop
  | case5 => omega

/-- A comment that ends no later than the sign is a block comment. -/
theorem commentStop (h : t.Spaced u a m o pad) (h₁ : a ≤ i) (h₂ : i < m)
    (hstop : t.commentStop i ≤ m) : u.commentStop (i + o) = t.commentStop i + o := by
  have h₀ := h.nonneg
  have hlen := h.lt_length
  unfold Text.commentStop at hstop ⊢
  rw [h.hasWord h₁ h₂ (.inl rfl)]
  split at hstop
  · next hopen =>
    rw [if_pos hopen, if_pos hopen]
    exact h.blockStop h₁ hstop
  · exfalso
    split at hstop
    · next k hk =>
      rw [newlineFrom?_eq] at hk
      split at hk
      · next hlt =>
        cases hk
        have hnl := newline_at_lineStop (t := t) i hlt
        have hle : i ≤ t.lineStop i := le_lineStop (by omega) (by omega)
        rw [← charAt?_eq (by omega)] at hnl
        exact h.line _ (by omega) (by omega) hnl
      · cases hk
    · omega

/-! ## Literals -/

/-- Strings that end no later than the sign. -/
theorem stringRest {k : Int} (h : t.Spaced u a m o pad) (h₁ : a ≤ j) (h₂ : j ≤ m)
    (hrest : t.stringRest j = .ok k) (hstop : k ≤ m) : u.stringRest (j + o) = .ok (k + o) := by
  have h₀ := h.nonneg
  have h₀' := h.nonneg'
  have hlen := h.lt_length
  have hlen' := h.lt_length'
  -- the sign is not the end of a string
  have hbefore : ∀ {j : Int} {c : Char}, a ≤ j → j ≤ m → t.read j = .ok c →
      j < m ∧ u.read (j + o) = .ok c ∨ j = m ∧ isSignHead c = true := by
    intro j c h₁ h₂ hc
    rcases Int.lt_or_eq_of_le h₂ with hlt | rfl
    · obtain ⟨c', hc', hu, -⟩ := h.exists_char h₁ hlt
      rw [Document.read_eq (by omega) hc'] at hc
      cases hc
      exact .inl ⟨hlt, Document.read_eq (by omega) hu⟩
    · obtain ⟨x, hx, hhead⟩ := h.sign
      rw [Document.read_eq (by omega) hx] at hc
      cases hc
      exact .inr ⟨rfl, hhead⟩
  fun_induction Text.stringRest t j with
  | case1 => cases hrest
  | case2 j hlt hc ih =>
    have hmin := min_le_of_stringRest hrest
    rcases hbefore h₁ h₂ hc with ⟨-, hu⟩ | ⟨-, hhead⟩
    · rw [Text.stringRest, if_pos (by omega), hu]
      simp only [if_true, show j + o + 2 = j + 2 + o by omega]
      exact ih (by omega) (by omega) hrest
    · exact absurd hhead (by decide)
  | case3 j hlt hc hback =>
    cases hrest
    rcases hbefore h₁ h₂ hc with ⟨-, hu⟩ | ⟨-, hhead⟩
    · rw [Text.stringRest, if_pos (by omega), hu]
      simp only [if_neg hback, if_true, show j + o + 1 = j + 1 + o by omega]
    · exact absurd hhead (by decide)
  | case4 j hlt hc hback hquote =>
    cases hrest
    rcases hbefore h₁ h₂ hc with ⟨-, hu⟩ | ⟨-, hhead⟩
    · rw [Text.stringRest, if_pos (by omega), hu]
      simp only [if_neg hback, if_neg hquote, if_true]
    · exact absurd hhead (by decide)
  | case5 j hlt c hc hback hquote hnl ih =>
    have hmin := min_le_of_stringRest hrest
    rcases hbefore h₁ h₂ hc with ⟨-, hu⟩ | ⟨heq, -⟩
    · rw [Text.stringRest, if_pos (by omega), hu]
      simp only [if_neg hback, if_neg hquote, if_neg hnl, show j + o + 1 = j + 1 + o by omega]
      exact ih (by omega) (by omega) hrest
    · omega
  | case6 => omega

/-- A run that goes on behind the sign goes on over the new blanks. -/
theorem runStop_across (h : t.Spaced u a m o pad) {p : Char → Bool} (h₁ : a ≤ i)
    (hblank : p ' ' = true) (hnl : p '\n' = false) (h₂ : i ≤ m) (hstop : m ≤ t.runStop p i.toNat) :
    t.chars[t.runStop p i.toNat]? = u.chars[u.runStop p (i + o).toNat]? := by
  have h₀ := h.nonneg
  have h₀' := h.nonneg'
  have hreach : t.Reaches m.toNat (t.runStop p i.toNat) := fun k hk hlt =>
    Reaches.runStop hnl i.toNat k (by omega) hlt
  have hlast := h.rest.getElem? (by omega) hreach
  rw [hlast]
  congr 1
  refine (runStop_eq_of (by omega) (fun k hk hlt => ?_) fun c hc => ?_).symm
  · rcases Int.lt_or_le k (m + o) with hlt₁ | hge₁
    · obtain ⟨c, hc, hpc⟩ :=
        char_of_lt_runStop (t := t) (p := p) (k := i.toNat) (i := ((k : Int) - o).toNat) (by omega)
          (by omega)
      have hsame := h.same ((k : Int) - o) (by omega) (by omega)
      rw [Int.sub_add_cancel, charAt?_eq (by omega), charAt?_eq (by omega), Int.toNat_natCast, hc]
        at hsame
      exact ⟨c, hsame, hpc⟩
    rcases Int.lt_or_le k (m + o + pad) with hlt₂ | hge₂
    · have hspace := h.blanks k hge₁ hlt₂
      rw [charAt?_eq (by omega), Int.toNat_natCast] at hspace
      exact ⟨' ', hspace, hblank⟩
    · obtain ⟨c, hc, hpc⟩ := char_of_lt_runStop (t := t) (p := p) (k := i.toNat)
        (i := m.toNat + (k - (m + o + pad).toNat)) (by omega) (by omega)
      have hagree : t.chars[m.toNat + (k - (m + o + pad).toNat)]? = _ :=
        h.rest.getElem? (by omega) (hreach.mono (by omega))
      rw [hc, show (m + o + pad).toNat + (m.toNat + (k - (m + o + pad).toNat) - m.toNat) =
        k by omega] at hagree
      exact ⟨c, hagree.symm, hpc⟩
  · rw [← hlast] at hc
    exact not_of_runStop hc

/-- A place in the second text. -/
def shifted (o : Int) (k : Nat) : Nat := ((k : Int) + o).toNat

/-- An escaped character that ends no later than the sign is escaped in the new text and ends at the
moved place. -/
theorem escapeStop? (h : t.Spaced u a m o pad) (h₁ : a ≤ i) (h₂ : i < m)
    (hstop : ∀ k ∈ t.escapeStop? i.toNat, (k : Int) ≤ m) :
    u.escapeStop? (i + o).toNat = (t.escapeStop? i.toNat).map (shifted o) := by
  have h₀ := h.nonneg
  have h₀' := h.nonneg'
  obtain ⟨c, hc, hu, hnl⟩ := h.exists_char h₁ h₂
  rw [charAt?_eq (by omega)] at hc hu
  have hle := t.le_runStop insideQuotes (i.toNat + 1)
  have hnext : i.toNat + 1 = (i + 1).toNat ∧ (i + o).toNat + 1 = (i + 1 + o).toNat := by omega
  unfold Text.escapeStop? at hstop ⊢
  rw [hc] at hstop
  rw [hc, hu]
  simp only [if_neg hnl] at hstop ⊢
  rcases Int.lt_or_le (t.runStop insideQuotes (i.toNat + 1)) m with hlt | hge
  · have hrun := h.runStop (p := insideQuotes) (i := i + 1) (by omega) (by rw [← hnext.1]; omega)
      (by rw [← hnext.1]; omega)
    have hchar := h.same (t.runStop insideQuotes (i.toNat + 1)) (by omega) hlt
    rw [← hnext.1, ← hnext.2] at hrun
    rw [← hrun, charAt?_eq (by omega), charAt?_eq (by omega), Int.toNat_natCast, Int.toNat_natCast]
      at hchar
    rw [hchar]
    split
    · rw [Option.map_some, shifted]
      congr 1
      omega
    · rfl
  · have hacross := h.runStop_across (p := insideQuotes) (i := i + 1) (by omega) (by decide)
      (by decide) (by omega) (by rw [← hnext.1]; exact hge)
    rw [← hnext.1, ← hnext.2] at hacross
    rw [← hacross]
    split
    · next hquote =>
      rw [if_pos hquote] at hstop
      have := hstop _ rfl
      omega
    · rfl

/-- A quote is not put right behind the sign. -/
theorem quote_behind (h : t.Spaced u a m o pad) (hno : t.charAt? (m + 1) ≠ some '\'') :
    u.charAt? (m + o + 1) ≠ some '\'' := by
  have h₀ := h.nonneg
  have h₀' := h.nonneg'
  have hle := h.le
  obtain ⟨x, hx, hhead⟩ := h.sign
  have hx' := SignHead.of_isSignHead hhead
  obtain rfl | rfl | hpad : pad = 0 ∨ pad = 1 ∨ 1 < pad := by omega
  · have hnext :=
      h.rest.succ
        (by rw [← charAt?_eq (by omega), hx]; exact fun h => hx'.newline (Option.some.inj h))
    rw [charAt?_eq (by omega), show (m + 1).toNat = m.toNat + 1 by omega, hnext] at hno
    rw [charAt?_eq (by omega), show (m + o + 1).toNat = (m + o + (0 : Nat)).toNat + 1 by omega]
    exact hno
  · have hsign := h.charAt?_sign
    rw [Int.natCast_one] at hsign
    rw [hsign, hx]
    exact fun h => hx'.quote (Option.some.inj h)
  · rw [h.blanks (m + o + 1) (by omega) (by omega)]
    decide

/-- No character literal lies across the new blanks. -/
theorem charLiteralStop? (h : t.Spaced u a m o pad) (h₁ : a ≤ i) (h₂ : i < m)
    (hstop : ∀ k ∈ t.charLiteralStop? i.toNat, (k : Int) ≤ m) :
    u.charLiteralStop? (i + o).toNat = (t.charLiteralStop? i.toNat).map (shifted o) := by
  have h₀ := h.nonneg
  have h₀' := h.nonneg'
  have hget : ∀ (v : Text) (i : Int), 0 ≤ i →
      v.chars[i.toNat + 1]? = v.charAt? (i + 1) ∧ v.chars[i.toNat + 2]? = v.charAt? (i + 2) := by
    intro v i hi
    rw [charAt?_eq (by omega), charAt?_eq (by omega)]
    constructor <;> congr 1 <;> omega
  have hfirst := h.same i (by omega) h₂
  rw [charAt?_eq (by omega), charAt?_eq (by omega)] at hfirst
  obtain ⟨x, hx, hhead⟩ := h.sign
  obtain ⟨-, -, -, hnl, hback, hquote, -⟩ := SignHead.of_isSignHead hhead
  have hinside : insideQuotes x = true := by simp [insideQuotes, hnl, hquote]
  unfold Text.charLiteralStop? at hstop ⊢
  rw [(hget t i (by omega)).1, (hget t i (by omega)).2] at hstop ⊢
  rw [hfirst, (hget u (i + o) (by omega)).1, (hget u (i + o) (by omega)).2]
  by_cases hopen : t.chars[i.toNat]? = some '\''
  · rw [if_pos hopen] at hstop
    rw [if_pos hopen, if_pos hopen]
    rcases Int.lt_or_eq_of_le (show i + 1 ≤ m by omega) with hlt | heq
    · obtain ⟨c, hc, hu, -⟩ := h.exists_char (i := i + 1) (by omega) hlt
      rw [show i + 1 + o = i + o + 1 by omega] at hu
      rw [hc] at hstop
      rw [hc, hu]
      simp only at hstop ⊢
      by_cases hescape : c = '\\'
      · -- an escape does not start right before the sign
        have hlt' : i + 2 < m := by
          rcases Int.lt_or_le (i + 2) m with hlt' | hge
          · exact hlt'
          · obtain ⟨-, hop⟩ :=
              h.edge (by omega) x c hx (by rw [show m - 1 = i + 1 by omega]; exact hc)
            subst hescape
            exact absurd (hop (by decide)).1 (by decide)
        rw [if_pos hescape] at hstop
        rw [if_pos hescape, if_pos hescape]
        have hrest := h.escapeStop? (i := i + 2) (by omega) hlt'
        rw [show (i + 2).toNat = i.toNat + 2 by omega,
          show (i + 2 + o).toNat = (i + o).toNat + 2 by omega] at hrest
        exact hrest hstop
      · have hclose : u.charAt? (i + o + 2) = some '\'' ↔ t.charAt? (i + 2) = some '\'' := by
          rw [show i + o + 2 = i + 2 + o by omega]
          rcases Int.lt_or_eq_of_le (show i + 2 ≤ m by omega) with hlt' | heq
          · rw [h.same (i + 2) (by omega) hlt']
          · rw [heq, hx]
            rcases h.charAt?_edge with hspace | hsign
            · rw [hspace]
              exact iff_of_false (by decide) fun h => hquote (Option.some.inj h)
            · rw [hsign, hx]
        have hthree : shifted o (i.toNat + 3) = (i + o).toNat + 3 := by
          unfold shifted
          omega
        rw [if_neg hescape, if_neg hescape]
        simp only [hclose]
        split
        · split
          · rw [Option.map_some, hthree]
          · rfl
        · rfl
    · -- the sign is the first character after the quote
      rw [heq, hx] at hstop
      rw [heq, hx]
      simp only [if_neg hback, if_pos hinside] at hstop ⊢
      have hno : t.charAt? (i + 2) ≠ some '\'' := by
        intro hclose
        rw [if_pos hclose] at hstop
        have := hstop _ rfl
        omega
      have hno' : u.charAt? (i + o + 2) ≠ some '\'' := by
        rw [show i + o + 2 = m + o + 1 by omega]
        exact h.quote_behind (by rw [show m + 1 = i + 2 by omega]; exact hno)
      rw [if_neg hno, show i + o + 1 = m + o by omega]
      rcases h.charAt?_edge with hspace | hsign
      · rw [hspace]
        simp [hno', insideQuotes]
      · rw [hsign, hx]
        simp [hback, hno']
  · rw [if_neg hopen, if_neg hopen]
    rfl

/-! ## Pieces -/

/-- The first text starts where the second one does. -/
theorem eq_zero_iff (h : t.Spaced u a m o pad) (h₁ : a ≤ i) : i + o = 0 ↔ i = 0 := by
  have h₀ := h.nonneg
  have h₀' := h.nonneg'
  have hfirst := h.first
  omega

/-- Before the sign, and from the character before the stretch on, reading gives the same in both
texts. -/
theorem read (h : t.Spaced u a m o pad) (h₁ : a - 1 ≤ i) (h₂ : i < m) (h₀ : 0 ≤ i) :
    u.read (i + o) = t.read i := by
  have hlen := h.lt_length
  have h₀' : 0 ≤ i + o := by
    have := h.nonneg'
    have := h.first
    omega
  obtain ⟨c, hc, hget⟩ := read_yields (t := t) h₀ (by omega)
  rw [← charAt?_eq h₀, ← h.same i h₁ h₂] at hget
  rw [hc, Document.read_eq h₀' hget]

/-- A place of the stretch is the first of its line in both texts or in neither. -/
theorem startsLine (h : t.Spaced u a m o pad) (h₁ : a ≤ i) (h₂ : i ≤ m) :
    u.startsLine (i + o) = t.startsLine i := by
  have h₀ := h.nonneg
  unfold Text.startsLine
  by_cases hz : i = 0
  · rw [if_pos hz, if_pos ((h.eq_zero_iff h₁).mpr hz)]
  · rw [if_neg hz, if_neg fun heq => hz ((h.eq_zero_iff h₁).mp heq),
      show i + o - 1 = i - 1 + o by omega, h.read (by omega) (by omega) (by omega)]

/-- A place of the stretch holds a marker of a literate line in both texts or in neither. -/
theorem isMarker (h : t.Spaced u a m o pad) (bird : Bool) (c : Char) (h₁ : a ≤ i) (h₂ : i ≤ m) :
    u.isMarker bird c (i + o) = t.isMarker bird c i := by
  unfold Text.isMarker
  rw [h.startsLine h₁ h₂]

/-- A place of the stretch follows on a name in both texts or in neither, the place of the new
blanks included. -/
theorem afterName (h : t.Spaced u a m o pad) (h₁ : a ≤ i) (h₂ : i ≤ m) :
    u.afterName (i + o) = t.afterName i := by
  have h₀ := h.nonneg
  unfold Text.afterName
  by_cases hz : i = 0
  · rw [if_pos hz, if_pos ((h.eq_zero_iff h₁).mpr hz)]
  · rw [if_neg hz, if_neg fun heq => hz ((h.eq_zero_iff h₁).mp heq),
      show i + o - 1 = i - 1 + o by omega, h.read (by omega) (by omega) (by omega)]

/-- The places of the stretch are positions of both texts. -/
theorem clamp (h : t.Spaced u a m o pad) (h₁ : a ≤ i) (h₂ : i ≤ m) :
    t.clamp i = i.toNat ∧ u.clamp (i + o) = (i + o).toNat := by
  have h₀ := h.nonneg
  have h₀' := h.nonneg'
  have hlen := h.lt_length
  have hlen' := h.lt_length'
  have hclamp := clamp_of_mem (t := t) (i := i) (by omega) (by omega)
  have hclamp' := clamp_of_mem (t := u) (i := i + o) (by omega) (by omega)
  omega

/-- No character literal is lost or found. -/
theorem characterAt? {c : Char} {literal : Option Nat} (h : t.Spaced u a m o pad) (h₁ : a ≤ i)
    (h₂ : i < m) (hl : t.characterAt? c i = .ok literal) (hstop : ∀ k ∈ literal, (k : Int) ≤ m) :
    u.characterAt? c (i + o) = .ok (literal.map (shifted o)) := by
  obtain ⟨hclamp, hclamp'⟩ := h.clamp h₁ (Int.le_of_lt h₂)
  unfold Text.characterAt? at hl ⊢
  split at hl
  · next hquote =>
    obtain ⟨named, hnamed, hl⟩ := bind_eq_ok.1 hl
    rw [if_pos hquote, h.afterName h₁ (by omega), hnamed, Document.ok_bind]
    split at hl
    · next hname =>
      cases hl
      rw [if_pos hname]
      rfl
    · next hname =>
      cases hl
      rw [hclamp] at hstop ⊢
      rw [if_neg hname, hclamp', h.charLiteralStop? h₁ h₂ hstop]
      rfl
  · next hquote =>
    cases hl
    rw [if_neg hquote]
    rfl

/-- A piece of a single character is of the same kind wherever the character stands. -/
theorem singlePiece_add (c : Char) (i o : Int) :
    singlePiece c (i + o) = ⟨(singlePiece c i).kind, (singlePiece c i).stop + o⟩ := by
  have hadd : i + o + 1 = i + 1 + o := by omega
  unfold singlePiece
  split
  · rw [hadd]
  · split <;> rw [hadd]

/-- A piece that ends no later than the sign is the same piece in both texts. -/
theorem pieceAt {bird : Bool} {p : Piece} (h : t.Spaced u a m o pad) (h₁ : a ≤ i)
    (hp : t.pieceAt bird i t.length = .ok p) (hstop : p.stop ≤ m) :
    u.pieceAt bird (i + o) u.length = .ok ⟨p.kind, p.stop + o⟩ := by
  have h₀ := h.nonneg
  have h₂ : i < m := by
    have := lt_stop_of_pieceAt hp
    omega
  unfold Text.pieceAt at hp ⊢
  obtain ⟨c, hc, hp⟩ := bind_eq_ok.1 hp
  obtain ⟨marker, hmarker, hp⟩ := bind_eq_ok.1 hp
  rw [h.read (by omega) h₂ (by omega), hc, Document.ok_bind, h.isMarker bird c h₁ (by omega),
    hmarker, Document.ok_bind]
  split at hp
  · next hyes =>
    cases hp
    rw [if_pos hyes, show i + o + 1 = i + 1 + o by omega]
    rfl
  next hno =>
  rw [if_neg hno]
  obtain ⟨comment, hcomment, hp⟩ := bind_eq_ok.1 hp
  rw [h.commentAt h₁ h₂, hcomment, Document.ok_bind]
  split at hp
  · next hyes =>
    cases hp
    rw [if_pos hyes, h.commentStop h₁ h₂ hstop]
    rfl
  next hno =>
  rw [if_neg hno]
  split at hp
  · next hquote =>
    obtain ⟨k, hk, hp⟩ := bind_eq_ok.1 hp
    cases hp
    unfold stringStop at hk ⊢
    rw [if_pos hquote, show i + o + 1 =
      i + 1 + o by omega, h.stringRest (by omega) (by omega) hk hstop]
    rfl
  next hquote =>
  rw [if_neg hquote]
  obtain ⟨literal, hl, hp⟩ := bind_eq_ok.1 hp
  cases literal with
  | some k =>
    cases hp
    have hlt := lt_of_characterAt? (lt_length_of_read hc) hl
    have hshift : ((shifted o k : Nat) : Int) = (k : Int) + o := by
      have := h.nonneg'
      unfold shifted
      omega
    rw [h.characterAt? h₁ h₂ hl (by rintro _ ⟨⟩; exact hstop), Option.map_some]
    show Except.ok (Piece.mk PieceKind.character (shifted o k : Nat)) = _
    rw [hshift]
  | none =>
    cases hp
    rw [h.characterAt? h₁ h₂ hl (by simp)]
    exact congrArg Except.ok (singlePiece_add c i o)

/-- A walk that ends no later than the sign is a walk in both texts. -/
theorem walk {bird : Bool} (h : t.Spaced u a m o pad) (hw : t.Walk bird t.length i j) (h₁ : a ≤ i)
    (h₂ : j ≤ m) : u.Walk bird u.length (i + o) (j + o) := by
  have hlen' := h.lt_length'
  induction hw with
  | refl => exact .refl _
  | @step i j p hlt hp hw ih =>
    have hle := hw.le
    have hnext := lt_stop_of_pieceAt hp
    exact .step (by omega) (h.pieceAt h₁ hp (by omega)) (ih (by omega) h₂)

/-! ## Expressions -/

/-- One piece of a group that ends no later than the sign. -/
theorem groupRest_piece {bird : Bool} {depth : Int} {p : Piece} (h : t.Spaced u a m o pad)
    (h₁ : a ≤ i) (hp : t.pieceAt bird i t.length = .ok p) (hstop : p.stop ≤ m) :
    u.groupRest bird depth (i + o) =
      match p.kind with
      | .opening => u.groupRest bird (depth + 1) (p.stop + o)
      | .closing =>
        if depth = 1 then .ok (p.stop + o) else u.groupRest bird (depth - 1) (p.stop + o)
      | _ => u.groupRest bird depth (p.stop + o) := by
  have hlen' := h.lt_length'
  exact groupRest_step (h.pieceAt h₁ hp hstop) (by simp only; omega)

/-- A group that is closed no later than the sign. -/
theorem groupRest {bird : Bool} {depth : Int} (h : t.Spaced u a m o pad) (h₁ : a ≤ i)
    (hg : t.groupRest bird depth i = .ok j) (h₂ : j ≤ m) :
    u.groupRest bird depth (i + o) = .ok (j + o) := by
  fun_induction Text.groupRest t bird depth i with
  | case1 => cases hg
  | case2 => cases hg
  | case3 depth i hlt p hp hle hkind ih =>
    have := lt_stop_of_pieceAt hp
    have := lt_of_groupRest hg
    rw [h.groupRest_piece h₁ hp (by omega), hkind]
    exact ih (by omega) hg
  | case4 i hlt p hp hle hkind =>
    cases hg
    rw [h.groupRest_piece h₁ hp h₂, hkind]
    rfl
  | case5 depth i hlt p hp hle hkind hdepth ih =>
    have := lt_stop_of_pieceAt hp
    have := lt_of_groupRest hg
    rw [h.groupRest_piece h₁ hp (by omega), hkind]
    simp only [if_neg hdepth]
    exact ih (by omega) hg
  | case6 depth i hlt p hp hle hopen hclose ih =>
    have := lt_stop_of_pieceAt hp
    have := lt_of_groupRest hg
    rw [h.groupRest_piece h₁ hp (by omega)]
    split
    · next hkind => exact absurd hkind hopen
    · next hkind => exact absurd hkind hclose
    · exact ih (by omega) hg
  | case7 => cases hg

/-- A word that starts before the sign ends there at the latest. -/
theorem wordStop_le (h : t.Spaced u a m o pad) (h₁ : a ≤ i) (h₂ : i ≤ m) :
    (t.runStop isNameChar i.toNat : Int) ≤ m := by
  have h₀ := h.nonneg
  rcases Int.lt_or_le m (t.runStop isNameChar i.toNat) with hlt | hle
  · exfalso
    obtain ⟨x, hx, hhead⟩ := h.sign
    obtain ⟨c, hc, hname⟩ :=
      char_of_lt_runStop (t := t) (p := isNameChar) (k := i.toNat) (i := m.toNat) (by omega)
        (by omega)
    rw [charAt?_eq (by omega), hc] at hx
    cases hx
    rw [(SignHead.of_isSignHead hhead).name] at hname
    cases hname
  · exact hle

/-- A word, an operator or a single character that ends no later than the sign. -/
theorem plainStop (h : t.Spaced u a m o pad) (h₁ : a ≤ i) (h₂ : i < m) (hstop : t.plainStop i ≤ m) :
    u.plainStop (i + o) = t.plainStop i + o := by
  have h₀ := h.nonneg
  have h₀' := h.nonneg'
  obtain ⟨hclamp, hclamp'⟩ := h.clamp h₁ (Int.le_of_lt h₂)
  have hword := h.runStop (p := isNameChar) h₁ (h.wordStop_le h₁ (Int.le_of_lt h₂)) fun _ => by
    decide +kernel
  unfold Text.plainStop wordStop? operatorStop? at hstop ⊢
  simp only [hclamp, hclamp'] at hstop ⊢
  by_cases hname : i.toNat < t.runStop isNameChar i.toNat
  · rw [if_pos hname] at hstop ⊢
    rw [if_pos (by omega)]
    exact hword
  · rw [if_neg hname] at hstop ⊢
    rw [if_neg (by omega)]
    simp only at hstop ⊢
    by_cases hop : i.toNat < t.runStop isOperatorChar i.toNat
    · rw [if_pos hop] at hstop ⊢
      have hrun := h.runStop (p := isOperatorChar) h₁ hstop fun _ => by decide
      rw [if_pos (by omega)]
      exact hrun
    · rw [if_neg hop] at hstop ⊢
      have hle := t.le_runStop isOperatorChar i.toNat
      have hrun := h.runStop (p := isOperatorChar) h₁ (by omega) fun _ => by decide
      rw [if_neg (by omega)]
      simp only
      omega

/-- An expression that ends no later than the sign is the same one in both texts. -/
theorem expressionStop {bird : Bool} (h : t.Spaced u a m o pad) (h₁ : a ≤ i)
    (hcode : t.commentAt i t.length = .ok false) (hx : t.expressionStop bird i = .ok j)
    (h₂ : j ≤ m) :
    u.expressionStop bird (i + o) = .ok (j + o) := by
  have h₀ := h.nonneg
  have hlen' := h.lt_length'
  have hlt := lt_of_expressionStop hx
  unfold Text.expressionStop at hx ⊢
  split at hx
  · cases hx
  rw [if_neg (by omega)]
  obtain ⟨c, hc, hx⟩ := bind_eq_ok.1 hx
  rw [h.read (by omega) (by omega) (by omega), hc, Document.ok_bind]
  split at hx
  · cases hx
  next hclosing =>
  rw [if_neg hclosing]
  split at hx
  · next hopening =>
    rw [if_pos hopening]
    exact h.groupRest h₁ hx h₂
  next hopening =>
  rw [if_neg hopening]
  obtain ⟨p, hp, hx⟩ := bind_eq_ok.1 hx
  have hcomment : p.kind ≠ .comment := kind_ne_comment (by omega) hcode hp
  have hstop : p.stop ≤ m := by
    split at hx
    · split at hx
      · cases hx
      · cases hx
        exact h₂
    · next hplain =>
      rw [not_or] at hplain
      rw [(single_of_pieceAt (by omega) hp hcomment hplain.1 hplain.2).1]
      omega
  rw [h.pieceAt h₁ hp hstop, Document.ok_bind]
  split at hx
  · next hliteral =>
    split at hx
    · cases hx
    · cases hx
      rw [if_pos hliteral, if_neg (by simp only; omega)]
      rfl
  · next hplain =>
    cases hx
    rw [if_neg hplain, h.plainStop h₁ (by omega) h₂]
    rfl

end Spaced

end Text

end LayoutRule
