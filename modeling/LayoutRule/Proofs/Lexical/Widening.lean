import LayoutRule.Proofs.Lexical.Spacing
import LayoutRule.Proofs.Text.Moving

/-!
# Scanning a text with blanks put in before signs

Blanks are put into a text before any number of signs (`Text.PadsSigns`). The scanner that starts at
the start of the text need not see these signs as such: for it they may lie in a comment, in a
string or in a literal. Still every piece is found again, of the same kind and with its end in the
same place (`PadsSigns.pieceAt`), unless blanks are put in before the one character of a literal. So
the scanner comes to the same places (`PadsSigns.walk`).
-/

namespace LayoutRule

namespace Text

variable {t : Text} {pads : Nat → Nat} {bird : Bool} {depth i j k : Nat}

/-! ## Blanks -/

/-- In a block comment a blank is passed over. -/
theorem blockStop_blank (hi : t.chars[i]? = some ' ') :
    t.blockStop depth i = t.blockStop depth (i + 1 : Nat) := by
  rw [← charAt?_natCast] at hi
  have h₀ := Int.natCast_nonneg i
  rw [blockStop, if_pos (Document.lt_length_of_charAt? h₀ hi), blockOpen, blockClose,
    Document.hasWord_eq_false h₀ hi (by decide), Document.hasWord_eq_false h₀ hi (by decide)]
  rfl

/-- In a string a blank is passed over. -/
theorem stringRest_blank (hi : t.chars[i]? = some ' ') :
    t.stringRest i = t.stringRest (i + 1 : Nat) := by
  rw [← charAt?_natCast] at hi
  have h₀ := Int.natCast_nonneg i
  rw [stringRest, if_pos (Document.lt_length_of_charAt? h₀ hi), Document.read_eq h₀ hi]
  rfl

/-- What does not change over one blank does not change over many. -/
theorem eq_over_blanks {α : Type} {f : Nat → α} (hf : ∀ i, t.chars[i]? = some ' ' → f i = f (i + 1))
    (hij : i ≤ j) (h : ∀ n, i ≤ n → n < j → t.chars[n]? = some ' ') : f i = f j := by
  induction j with
  | zero =>
    obtain rfl : i = 0 := by omega
    rfl
  | succ j ih =>
    rcases Nat.eq_or_lt_of_le hij with rfl | hlt
    · rfl
    · rw [ih (by omega) fun n h₁ h₂ => h n h₁ (by omega), hf j (h j (by omega) (by omega))]

/-- What stands right before a character. -/
theorem charAt?_before_moved (hk : pads k = 0) :
    (t.widen pads).charAt? ((moved pads k : Int) - 1) = t.charAt? ((k : Int) - 1) := by
  rw [moved_eq_of_pads hk]
  cases k with
  | zero =>
    rw [front_zero]
    unfold charAt?
    rw [if_neg (by omega), if_neg (by omega)]
  | succ k =>
    rw [front_succ, Int.natCast_succ, Int.natCast_succ, Int.add_sub_cancel, Int.add_sub_cancel,
      charAt?_natCast, charAt?_natCast, getElem?_moved]

/-- Right behind a moved character start the blanks that are put in before the next one. -/
theorem moved_add_one {j : Int} (h₀ : 0 ≤ j) :
    (moved pads j.toNat : Int) + 1 = front pads (j + 1).toNat := by
  have hsucc := front_succ pads j.toNat
  rw [show (j + 1).toNat = j.toNat + 1 by omega]
  omega

/-- Two places behind a moved character start the blanks before the second next one, when none are
put in before the next. -/
theorem moved_add_two {j : Int} (h₀ : 0 ≤ j) (h : pads (j.toNat + 1) = 0) :
    (moved pads j.toNat : Int) + 2 = front pads (j + 2).toNat := by
  have h₁ := front_succ pads j.toNat
  have h₂ := front_succ pads (j.toNat + 1)
  have h₃ := moved_eq_of_pads h
  rw [show (j + 2).toNat = j.toNat + 1 + 1 by omega]
  omega

/-- A character is read at its moved place. -/
theorem read_moved (hk : k < t.chars.size) : (t.widen pads).read (moved pads k) = t.read k := by
  have hc := Array.getElem?_eq_getElem hk
  rw [Document.read_eq (by omega) ((charAt?_natCast t k).trans hc),
    Document.read_eq (by omega) ((charAt?_natCast _ _).trans ((getElem?_moved t pads k).trans hc))]

/-- A place without new blanks is still behind the same newline or name. -/
theorem startsLine_moved (hk : k < t.chars.size) (hpads : pads k = 0) :
    (t.widen pads).startsLine (moved pads k) = t.startsLine k ∧
    (t.widen pads).afterName (moved pads k) = t.afterName k := by
  unfold Text.startsLine Text.afterName
  rw [moved_eq_of_pads hpads]
  cases k with
  | zero => exact ⟨rfl, rfl⟩
  | succ k =>
    rw [front_succ, if_neg (by omega), if_neg (by omega), if_neg (by omega), if_neg (by omega),
      Int.natCast_succ, Int.natCast_succ, Int.add_sub_cancel, Int.add_sub_cancel,
      read_moved (by omega)]
    exact ⟨rfl, rfl⟩

/-! ## Signs with blanks before them -/

/-- The words that comments start and end with have two characters, and the first one goes with the
second. -/
theorem exists_pair {w : List Char} (hw : w = blockOpen ∨ w = blockClose ∨ w = dashes) :
    ∃ c₁ c₂, w = [c₁, c₂] ∧ (c₁ = '\x7b' ∨ c₁ = '-' ∨ c₁ = '\\') := by
  rcases hw with rfl | rfl | rfl
  · exact ⟨_, _, rfl, .inl rfl⟩
  · exact ⟨_, _, rfl, .inr (.inl rfl)⟩
  · exact ⟨_, _, rfl, .inr (.inl rfl)⟩

/-- Blanks are put in before signs only, and nothing of two characters lies across such a place. -/
structure PadsSigns (t : Text) (pads : Nat → Nat) : Prop where
  /-- What follows the blanks: a sign, which does not start with two dashes. -/
  head : ∀ k, pads k ≠ 0 → ∃ x, t.chars[k]? = some x ∧ isSignHead x = true ∧
    (x = '-' → t.chars[k + 1]? ≠ some '-')
  /-- What stands before the blanks. -/
  before : ∀ k x y, pads (k + 1) ≠ 0 → t.chars[k + 1]? = some x → t.chars[k]? = some y →
    y ≠ '\x7b' ∧ y ≠ '-' ∧ y ≠ '\\' ∧ (y = '|' → x ≠ '|')

namespace PadsSigns

variable (h : t.PadsSigns pads)
include h

/-- Blanks are put in before the first character of a sign only. -/
theorem signHead (hk : pads k ≠ 0) : ∃ x, t.chars[k]? = some x ∧ SignHead x := by
  obtain ⟨x, hx, hhead, -⟩ := h.head k hk
  exact ⟨x, hx, .of_isSignHead hhead⟩

/-- Blanks are put in before characters only, and not at the end of the text. -/
theorem lt_size (hk : pads k ≠ 0) : k < t.chars.size := by
  obtain ⟨x, hx, -⟩ := h.head k hk
  exact (Array.getElem?_eq_some_iff.mp hx).1

/-- Putting blanks in before signs keeps the lines: no sign starts with a newline. -/
theorem keepsLines : t.KeepsLines pads := by
  intro k hk
  obtain ⟨x, hx, hsign⟩ := h.signHead hk
  exact ⟨x, hx, by simpa [notNewline] using hsign.newline⟩

/-- No blanks are put in before any other character. -/
theorem pads_eq_zero {c : Char} (hc : t.chars[k]? = some c) (hno : isSignHead c = false) :
    pads k = 0 := by
  by_contra hk
  obtain ⟨x, hx, hhead, -⟩ := h.head k hk
  cases hc.symm.trans hx
  rw [hno] at hhead
  cases hhead

/-- No blanks are put in behind a character that goes with the next one. -/
theorem pads_succ {c : Char} (hc : t.chars[k]? = some c) (hpair : c = '\x7b' ∨ c = '-' ∨ c = '\\') :
    pads (k + 1) = 0 := by
  by_contra hk
  obtain ⟨x, hx, -⟩ := h.head (k + 1) hk
  obtain ⟨hbrace, hdash, hback, -⟩ := h.before k x c hk hx hc
  rcases hpair with rfl | rfl | rfl
  · exact hbrace rfl
  · exact hdash rfl
  · exact hback rfl

/-- At the end of the text and behind it no blanks are put in. -/
theorem pads_size (hk : t.chars.size ≤ k) : pads k = 0 := by
  by_contra hne
  have := h.lt_size hne
  omega

/-- The end of the text, and the place behind it. -/
theorem length_widen : (t.widen pads).length = front pads t.chars.size ∧
    (t.widen pads).length + 1 = front pads (t.chars.size + 1) := by
  have hsize := t.size_widen_eq pads
  have hend := moved_eq_of_pads (h.pads_size (Nat.le_refl _))
  have hnext := front_succ pads t.chars.size
  unfold length
  omega

/-- The moved place of a character lies inside the new text. -/
theorem moved_lt_length (hk : k < t.chars.size) : (moved pads k : Int) < (t.widen pads).length := by
  have hlt := moved_lt_front pads hk
  have hlen := h.length_widen.1
  omega

/-- What does not change over blanks is the same at both ends of the new ones. -/
theorem eq_front {α : Type} {f : Nat → α}
    (hf : ∀ i, (t.widen pads).chars[i]? = some ' ' → f i = f (i + 1)) :
    f (front pads k) = f (moved pads k) := by
  refine eq_over_blanks hf (front_le_moved pads k) fun n h₁ h₂ => getElem?_between ?_ h₁ h₂
  have hmoved := moved_eq_front pads k
  exact h.lt_size (by omega)

/-! ## Comments -/

/-- The two characters that start or end a comment stay together. -/
theorem hasWord {w : List Char} (hw : w = blockOpen ∨ w = blockClose ∨ w = dashes) :
    (t.widen pads).hasWord w (moved pads k) (t.widen pads).length = t.hasWord w k t.length := by
  obtain ⟨c₁, c₂, rfl, hpair⟩ := exists_pair hw
  rw [hasWord_pair (by omega), hasWord_pair (by omega), charAt?_natCast, charAt?_natCast,
    getElem?_moved]
  by_cases hc : t.chars[k]? = some c₁
  · have hnext := getElem?_front (t := t) (h.pads_succ hc hpair)
    rw [front_succ] at hnext
    rw [← Int.natCast_succ, ← Int.natCast_succ, charAt?_natCast, charAt?_natCast, hnext]
  · rw [beq_eq_false_iff_ne.mpr hc, Bool.false_and, Bool.false_and]

/-- No blanks are put in between the two characters. -/
theorem pads_of_hasWord {w : List Char} {j : Int} (h₀ : 0 ≤ j)
    (hw : w = blockOpen ∨ w = blockClose ∨ w = dashes) (hholds : t.hasWord w j t.length = true) :
    pads (j.toNat + 1) = 0 := by
  obtain ⟨c₁, c₂, rfl, hpair⟩ := exists_pair hw
  have hc := (chars_of_hasWord h₀ hholds).1
  rw [charAt?_eq h₀] at hc
  exact h.pads_succ hc hpair

/-- A run of dashes is not torn apart. -/
theorem endsDashes (hk : pads k = 0) (hsize : k ≤ t.chars.size) :
    (t.widen pads).endsDashes ((t.widen pads).runStop (· == '-') (moved pads k)) =
      t.endsDashes (t.runStop (· == '-') k) := by
  have hpads : ∀ j, k ≤ j → j ≤ t.runStop (· == '-') k → pads j = 0 := by
    intro j h₁ h₂
    rcases Nat.eq_or_lt_of_le h₁ with rfl | hlt
    · exact hk
    · obtain ⟨m, rfl⟩ : ∃ m, j = m + 1 := ⟨j - 1, by omega⟩
      obtain ⟨c, hc, hdash⟩ :=
        char_of_lt_runStop (t := t) (p := (· == '-')) (k := k) (i := m) (by omega) (by omega)
      exact h.pads_succ hc (.inr (.inl (beq_iff_eq.mp hdash)))
  rw [moved_eq_of_pads hk, runStop_front_of_pads hsize hpads]
  unfold Text.endsDashes
  rw [getElem?_front (hpads _ (t.le_runStop _ k) (Nat.le_refl _))]

/-- Comments start at the same places. -/
theorem commentAt (hk : k ≤ t.chars.size) :
    (t.widen pads).commentAt (moved pads k) (t.widen pads).length = t.commentAt k t.length := by
  have hlen : (k : Int) ≤ t.length := by unfold length; omega
  have hlen' : (moved pads k : Int) ≤ (t.widen pads).length := by
    rcases Nat.eq_or_lt_of_le hk with rfl | hlt
    · refine Int.le_of_eq ?_
      rw [h.length_widen.1, moved_eq_of_pads (h.pads_size (Nat.le_refl _))]
    · exact Int.le_of_lt (h.moved_lt_length hlt)
  rw [commentAt_eq (by omega) hlen', commentAt_eq (by omega) hlen, h.hasWord (.inl rfl),
    h.hasWord (.inr (.inr rfl)), Int.toNat_natCast, Int.toNat_natCast]
  cases hdashes : t.hasWord dashes k t.length with
  | false => simp only [Bool.false_and]
  | true =>
    obtain ⟨h₁, h₂, -⟩ := chars_of_hasWord (by omega) hdashes
    rw [charAt?_natCast] at h₁
    rw [← Int.natCast_succ, charAt?_natCast] at h₂
    have hpads : pads k = 0 := by
      by_contra hne
      obtain ⟨x, hx, -, htwo⟩ := h.head k hne
      cases h₁.symm.trans hx
      exact htwo rfl h₂
    have hafter : (t.widen pads).afterOperator (moved pads k) = t.afterOperator k := by
      unfold afterOperator
      rw [charAt?_before_moved hpads]
    rw [hafter, h.endsDashes hpads hk]

/-- Block comments end at the same places. -/
theorem blockStop (depth : Nat) {j : Int} (h₀ : 0 ≤ j) :
    (t.widen pads).blockStop depth (moved pads j.toNat) =
      front pads (t.blockStop depth j).toNat := by
  have hblank : ∀ depth k, (t.widen pads).blockStop depth (front pads k) =
      (t.widen pads).blockStop depth (moved pads k) :=
    fun depth k => h.eq_front (f := fun i : Nat => (t.widen pads).blockStop depth i) fun i hi =>
      blockStop_blank hi
  have hword : ∀ {w : List Char} {j : Int}, 0 ≤ j → (w = blockOpen ∨ w = blockClose ∨ w = dashes) →
      (t.widen pads).hasWord w (moved pads j.toNat) (t.widen pads).length =
        t.hasWord w j t.length := by
    intro w j hj hw
    rw [h.hasWord hw, Int.toNat_of_nonneg hj]
  have hlt' : ∀ {j : Int}, 0 ≤ j → j < t.length →
      (moved pads j.toNat : Int) < (t.widen pads).length := by
    intro j hj hlt
    exact h.moved_lt_length (by unfold length at hlt; omega)
  fun_induction Text.blockStop t depth j with
  | case1 depth j hlt hopen ih =>
    rw [Text.blockStop, if_pos (hlt' h₀ hlt), hword h₀ (.inl rfl), if_pos hopen,
      moved_add_two h₀ (h.pads_of_hasWord h₀ (.inl rfl) hopen), hblank]
    exact ih (by omega)
  | case2 depth j hlt hopen hclose hdepth =>
    rw [Text.blockStop, if_pos (hlt' h₀ hlt), hword h₀ (.inl rfl), if_neg hopen,
      hword h₀ (.inr (.inl rfl)), if_pos hclose, if_pos hdepth,
      moved_add_two h₀ (h.pads_of_hasWord h₀ (.inr (.inl rfl)) hclose)]
  | case3 depth j hlt hopen hclose hdepth ih =>
    rw [Text.blockStop, if_pos (hlt' h₀ hlt), hword h₀ (.inl rfl), if_neg hopen,
      hword h₀ (.inr (.inl rfl)), if_pos hclose, if_neg hdepth,
      moved_add_two h₀ (h.pads_of_hasWord h₀ (.inr (.inl rfl)) hclose), hblank]
    exact ih (by omega)
  | case4 depth j hlt hopen hclose ih =>
    rw [Text.blockStop, if_pos (hlt' h₀ hlt), hword h₀ (.inl rfl), if_neg hopen,
      hword h₀ (.inr (.inl rfl)), if_neg hclose, moved_add_one h₀, hblank]
    exact ih (by omega)
  | case5 depth j hge =>
    have hle := front_le_front pads (show t.chars.size ≤ j.toNat by unfold length at hge; omega)
    have hmoved := front_le_moved pads j.toNat
    have hlen := h.length_widen
    rw [Text.blockStop, if_neg (by omega), hlen.2]
    congr 1

/-- Comments end at the same places. -/
theorem commentStop (hk : k ≤ t.chars.size) :
    (t.widen pads).commentStop (moved pads k) = front pads (t.commentStop k).toNat := by
  unfold Text.commentStop
  rw [h.hasWord (.inl rfl)]
  split
  · have hstop := h.blockStop 0 (Int.natCast_nonneg k)
    rwa [Int.toNat_natCast] at hstop
  · have h₀ := t.lineStart_nonneg k
    have hle := t.lineStart_le_lineStop k
    have hstop := h.keepsLines.lineStop_moved hk
    have hpads := moved_eq_of_pads (h.keepsLines.pads_lineStop k)
    have hsucc := front_succ pads (t.lineStop k).toNat
    have hlen := h.length_widen
    have hend := t.lineStop_le_length k
    rw [newlineFrom?_eq, newlineFrom?_eq, hstop]
    rcases Int.lt_or_eq_of_le hend with hlt | heq
    · have hlt' :=
        front_lt_front pads
          (show (t.lineStop k).toNat < t.chars.size by unfold length at hlt; omega)
      rw [if_pos (by omega), if_pos hlt]
      simp only
      rw [show (t.lineStop k + 1).toNat = (t.lineStop k).toNat + 1 by omega]
      omega
    · have hsize : (t.lineStop k).toNat = t.chars.size := by unfold length at heq; omega
      rw [if_neg (by rw [hsize]; omega), if_neg (by omega)]
      simp only
      rw [hlen.2]
      congr 1

/-! ## Literals -/

/-- Strings may start right before blanks. -/
theorem stringRest_front (k : Nat) :
    (t.widen pads).stringRest (front pads k) = (t.widen pads).stringRest (moved pads k) :=
  h.eq_front (f := fun i : Nat => (t.widen pads).stringRest i) fun _ hi => stringRest_blank hi

/-- Strings end at the same places. -/
theorem stringRest {j n : Int} (h₀ : 0 ≤ j) (hrest : t.stringRest j = .ok n) :
    (t.widen pads).stringRest (moved pads j.toNat) = .ok (front pads n.toNat : Int) := by
  have hread : ∀ {j : Int} {c : Char}, 0 ≤ j → j < t.length → t.read j = .ok c →
      (moved pads j.toNat : Int) < (t.widen pads).length ∧
      (t.widen pads).read (moved pads j.toNat) = .ok c ∧
        t.chars[j.toNat]? = some c := by
    intro j c hj hlt hc
    have hsize : j.toNat < t.chars.size := by unfold length at hlt; omega
    refine ⟨h.moved_lt_length hsize, ?_, ?_⟩
    · rw [read_moved hsize, Int.toNat_of_nonneg hj, hc]
    · obtain ⟨c', hc', hget⟩ := read_yields hj hlt
      cases hc.symm.trans hc'
      exact hget
  fun_induction Text.stringRest t j with
  | case1 => cases hrest
  | case2 j hlt hc ih =>
    obtain ⟨hlt', hu, hget⟩ := hread h₀ hlt hc
    rw [Text.stringRest, if_pos hlt', hu]
    simp only [if_true]
    rw [moved_add_two h₀ (h.pads_succ hget (.inr (.inr rfl))), h.stringRest_front]
    exact ih (by omega) hrest
  | case3 j hlt hc hback =>
    cases hrest
    obtain ⟨hlt', hu, -⟩ := hread h₀ hlt hc
    rw [Text.stringRest, if_pos hlt', hu]
    simp only [if_neg hback, if_true]
    rw [moved_add_one h₀]
  | case4 j hlt hc hback hquote =>
    cases hrest
    obtain ⟨hlt', hu, hget⟩ := hread h₀ hlt hc
    rw [Text.stringRest, if_pos hlt', hu]
    simp only [if_neg hback, if_neg hquote, if_true]
    rw [moved_eq_of_pads (h.pads_eq_zero hget (by decide))]
  | case5 j hlt c hc hback hquote hnl ih =>
    obtain ⟨hlt', hu, -⟩ := hread h₀ hlt hc
    rw [Text.stringRest, if_pos hlt', hu]
    simp only [if_neg hback, if_neg hquote, if_neg hnl]
    rw [moved_add_one h₀, h.stringRest_front]
    exact ih (by omega) hrest
  | case6 j hge =>
    cases hrest
    have hle := front_le_front pads (show t.chars.size ≤ j.toNat by unfold length at hge; omega)
    have hmoved := front_le_moved pads j.toNat
    have hlen := h.length_widen
    rw [Text.stringRest, if_neg (by omega), hlen.2]
    congr 2

/-- Signs and blanks may stand inside quotes. -/
theorem runStop_insideQuotes (hk : k ≤ t.chars.size) :
    (t.widen pads).runStop insideQuotes (front pads k) = front pads (t.runStop insideQuotes k) ∧
      pads (t.runStop insideQuotes k) = 0 := by
  have hinside : ∀ j, pads j ≠ 0 → ∃ c, t.chars[j]? = some c ∧ insideQuotes c = true := by
    intro j hj
    obtain ⟨x, hx, hsign⟩ := h.signHead hj
    exact ⟨x, hx, by simp [insideQuotes, hsign.quote, hsign.newline]⟩
  refine ⟨runStop_front_of hk rfl hinside, ?_⟩
  by_contra hne
  obtain ⟨c, hc, hin⟩ := hinside _ hne
  cases hin.symm.trans (not_of_runStop hc)

/-- An escaped character ends at the place where it did, moved: no blanks are put in inside it. -/
theorem escapeStop? :
    (t.widen pads).escapeStop? (moved pads k) = (t.escapeStop? k).map (front pads) := by
  unfold Text.escapeStop?
  rw [getElem?_moved, ← front_succ]
  cases hc : t.chars[k]? with
  | none => rfl
  | some c =>
    obtain ⟨hrun, hpads⟩ := h.runStop_insideQuotes (k := k + 1) (Array.getElem?_eq_some_iff.mp hc).1
    simp only [hrun, getElem?_front hpads]
    split
    · rfl
    split
    · rw [Option.map_some, front_succ, moved_eq_of_pads hpads]
    · rfl

/-- Character literals end at the same places, unless blanks are put in before their one
character. -/
theorem charLiteralStop? (hliteral : pads (k + 1) = 0 ∨ t.charLiteralStop? k = none) :
    (t.widen pads).charLiteralStop? (moved pads k) = (t.charLiteralStop? k).map (front pads) := by
  by_cases hpads : pads (k + 1) = 0
  · have hone : moved pads k + 1 = moved pads (k + 1) := by rw [moved_eq_of_pads hpads, front_succ]
    have htwo : (t.widen pads).chars[moved pads k + 2]? = some '\'' ↔
        t.chars[k + 2]? = some '\'' := by
      rw [show moved pads k + 2 = moved pads (k + 1) + 1 by omega, getElem?_succ_moved h.lt_size]
      split
      · exact Iff.rfl
      · next hsign =>
        obtain ⟨x, hx, hhead⟩ := h.signHead hsign
        rw [hx]
        exact iff_of_false (by decide) fun heq => hhead.quote (Option.some.inj heq)
    unfold Text.charLiteralStop?
    rw [getElem?_moved, hone, getElem?_moved]
    split
    · cases hc : t.chars[k + 1]? with
      | none => rfl
      | some c =>
        simp only [htwo]
        split
        · next hback =>
          subst hback
          have hnext := h.pads_succ hc (.inr (.inr rfl))
          rw [show moved pads k + 2 = moved pads
            (k + 2) by rw [moved_eq_of_pads hnext, front_succ]; omega]
          exact h.escapeStop?
        split
        · split
          · next hquote =>
            have hlast := moved_eq_of_pads (h.pads_eq_zero hquote (by decide))
            have hsucc := front_succ pads (k + 1)
            rw [Option.map_some, front_succ, hlast, hsucc]
            congr 1
            omega
          · rfl
        · rfl
    · rfl
  · -- there was no literal, and there is none with a blank as its character
    rcases hliteral with hzero | hnone
    · exact absurd hzero hpads
    obtain ⟨x, hx, hhead⟩ := h.signHead hpads
    have hsize := h.lt_size hpads
    have hmoved := moved_eq_front pads (k + 1)
    have hfirst : (t.widen pads).chars[moved pads k + 1]? = some ' ' := by
      rw [getElem?_succ_moved h.lt_size, if_neg hpads]
    have hsecond : (t.widen pads).chars[moved pads k + 2]? ≠ some '\'' := by
      have hplace : moved pads k + 2 = front pads (k + 1) + 1 := by rw [front_succ]
      rw [hplace]
      rcases Nat.lt_or_ge (front pads (k + 1) + 1) (moved pads (k + 1)) with hlt | hge
      · rw [getElem?_between hsize (by omega) hlt]
        decide
      · rw [show front pads (k + 1) + 1 = moved pads (k + 1) by omega, getElem?_moved, hx]
        exact fun heq => hhead.quote (Option.some.inj heq)
    rw [hnone, Option.map_none]
    unfold Text.charLiteralStop?
    rw [hfirst]
    simp only [if_neg (by decide : ¬ ' ' = '\\'), if_neg hsecond, ite_self]

/-- A quote starts a character literal exactly when it did, unless blanks are put in before the one
character of the literal. -/
theorem characterAt? {c : Char} (hc : t.chars[k]? = some c)
    (hliteral : pads (k + 1) = 0 ∨ t.characterAt? c k = .ok none) :
    (t.widen pads).characterAt? c (moved pads k) = (t.characterAt? c k).map fun stop =>
      stop.map (front pads) := by
  have hsize := (Array.getElem?_eq_some_iff.mp hc).1
  unfold Text.characterAt? at hliteral ⊢
  split
  · next hquote =>
    subst hquote
    have hafter := (startsLine_moved hsize (h.pads_eq_zero hc (by decide))).2
    have hclamp : ∀ (u : Text) (n : Nat), n ≤ u.chars.size → u.clamp n = n := by
      intro u n hn
      unfold clamp
      omega
    have hlt := h.moved_lt_length hsize
    unfold length at hlt
    obtain ⟨name, hname, -⟩ : Yields (t.afterName k) fun _ => True := by
      cases k with
      | zero => exact ⟨false, rfl, trivial⟩
      | succ k =>
        unfold Text.afterName
        rw [if_neg (by omega), Int.natCast_succ, Int.add_sub_cancel]
        exact (read_yields (by omega) (by unfold length; omega)).map fun _ _ => trivial
    rw [if_pos rfl, hname, Document.ok_bind, hclamp t k (by omega)] at hliteral
    rw [hafter, hname, Document.ok_bind, Document.ok_bind, hclamp t k (by omega),
      hclamp _ _ (by omega)]
    cases name with
    | true => rfl
    | false =>
      simp only [Bool.false_eq_true, if_false] at hliteral ⊢
      rw [h.charLiteralStop? (hliteral.imp_right fun heq => Except.ok.inj heq)]
      rfl
  · rfl

/-! ## Pieces -/

/-- Every piece is found again, unless blanks are put in before the one character of a literal. -/
theorem pieceAt {p : Piece} (hp : t.pieceAt bird k t.length = .ok p)
    (hliteral : p.kind = .character → pads (k + 1) = 0) :
    (t.widen pads).pieceAt bird (moved pads k) (t.widen pads).length =
      .ok ⟨p.kind, front pads p.stop.toNat⟩ := by
  have hone : (moved pads k : Int) + 1 = front pads ((k : Int) + 1).toNat :=
    moved_add_one (Int.natCast_nonneg k)
  unfold Text.pieceAt at hp ⊢
  obtain ⟨c, hc, hp⟩ := bind_eq_ok.1 hp
  have hlt := lt_length_of_read hc
  have hsize : k < t.chars.size := by unfold length at hlt; omega
  obtain ⟨c', hc', hget⟩ := read_yields (Int.natCast_nonneg k) hlt
  cases hc.symm.trans hc'
  rw [Int.toNat_natCast] at hget
  obtain ⟨marker, hmarker, hp⟩ := bind_eq_ok.1 hp
  have hmarker' : (t.widen pads).isMarker bird c (moved pads k) = .ok marker := by
    rw [← hmarker]
    unfold isMarker
    split
    · next hsign =>
      rw [Bool.and_eq_true, beq_iff_eq] at hsign
      exact (startsLine_moved hsize (h.pads_eq_zero hget (by rw [hsign.2]; decide))).1
    · rfl
  rw [read_moved hsize, hc, Document.ok_bind, hmarker', Document.ok_bind]
  cases marker with
  | true =>
    cases hp
    simp only [if_true]
    rw [hone]
    rfl
  | false =>
    simp only [Bool.false_eq_true, if_false] at hp ⊢
    obtain ⟨comment, hcomment, hp⟩ := bind_eq_ok.1 hp
    rw [h.commentAt (Nat.le_of_lt hsize), hcomment, Document.ok_bind]
    cases comment with
    | true =>
      cases hp
      simp only [if_true]
      rw [h.commentStop (Nat.le_of_lt hsize)]
      rfl
    | false =>
      simp only [Bool.false_eq_true, if_false] at hp ⊢
      split at hp
      · next hquote =>
        obtain ⟨n, hn, hp⟩ := bind_eq_ok.1 hp
        cases hp
        have hstop := h.stringRest (by omega) hn
        rw [if_pos hquote]
        unfold Text.stringStop
        rw [hone, h.stringRest_front, hstop]
        rfl
      · next hquote =>
        obtain ⟨literal, hl, hp⟩ := bind_eq_ok.1 hp
        have hno : pads (k + 1) = 0 ∨ t.characterAt? c k = .ok none := by
          cases literal with
          | none => exact .inr hl
          | some n =>
            cases hp
            exact .inl (hliteral rfl)
        rw [if_neg hquote, h.characterAt? hget hno, hl]
        cases literal with
        | some n =>
          cases hp
          rfl
        | none =>
          cases hp
          show Except.ok (singlePiece c (moved pads k)) = _
          unfold singlePiece
          rw [hone]
          split
          · rfl
          · split <;> rfl

/-- The scanner goes over new blanks one by one. -/
theorem walk_front (hk : k < t.chars.size) :
    (t.widen pads).Walk bird (t.widen pads).length (front pads k) (moved pads k) := by
  have hlt := h.moved_lt_length hk
  have hle := front_le_moved pads k
  refine walk_singles (fun i h₁ h₂ => ⟨by omega, ?_⟩) (by omega)
  have hspace : (t.widen pads).charAt? i = some ' ' := by
    rw [charAt?_eq (by omega)]
    exact getElem?_between hk (by omega) (by omega)
  exact pieceAt_of_char bird (by omega) hspace
    (commentAt_eq_false (by omega) hspace (by decide) (by decide) _) (by decide) fun heq =>
    absurd heq (by decide)

end PadsSigns

/-- No blanks are put in before the one character of a literal that the scanner finds from `start`
on. -/
def SparesLiterals (t : Text) (bird : Bool) (start : Int) (pads : Nat → Nat) : Prop :=
  ∀ a p, t.Visits bird start t.length a p → p.kind = .character → pads (a.toNat + 1) = 0

/-- The scanner comes to the same places. -/
theorem PadsSigns.walk {a b : Int} (h : t.PadsSigns pads) (hw : t.Walk bird t.length a b)
    (h₀ : 0 ≤ a) (hliteral : t.SparesLiterals bird a pads) :
    (t.widen pads).Walk bird (t.widen pads).length (front pads a.toNat) (front pads b.toNat) := by
  induction hw with
  | refl => exact .refl _
  | @step a b p hlt hp hw ih =>
    have hstop := lt_stop_of_pieceAt hp
    have hsize : a.toNat < t.chars.size := by unfold length at hlt; omega
    have hpiece : t.pieceAt bird a.toNat t.length = .ok p := by rw [Int.toNat_of_nonneg h₀, hp]
    have hpiece' := h.pieceAt hpiece (hliteral a p ⟨.refl a, hlt, hp⟩)
    refine (h.walk_front hsize).trans (.step (h.moved_lt_length hsize) hpiece' ?_)
    exact ih (by omega) fun c r hr hkind =>
      hliteral c r ⟨.step hlt hp hr.walk, hr.lt, hr.piece⟩ hkind

/-- The scanner finds every piece again. -/
theorem PadsSigns.visits {a : Int} {p : Piece} (h : t.PadsSigns pads)
    (hv : t.Visits bird 0 t.length a p) (hliteral : t.SparesLiterals bird 0 pads) :
    (t.widen pads).Visits bird 0 (t.widen pads).length (moved pads a.toNat)
      ⟨p.kind, front pads p.stop.toNat⟩ := by
  have h₀ := hv.start_le
  have hlt := hv.lt
  have hsize : a.toNat < t.chars.size := by unfold length at hlt; omega
  have hpiece : t.pieceAt bird a.toNat t.length = .ok p := by rw [Int.toNat_of_nonneg h₀, hv.piece]
  refine ⟨?_, h.moved_lt_length hsize, h.pieceAt hpiece (hliteral a p hv)⟩
  exact (h.walk hv.walk (Int.le_refl 0) hliteral).trans (h.walk_front hsize)

end Text

end LayoutRule
