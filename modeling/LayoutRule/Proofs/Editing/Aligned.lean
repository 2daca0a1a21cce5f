import LayoutRule.Proofs.Editing.Padding
import LayoutRule.Proofs.Layout.Spacing
import LayoutRule.Proofs.Text.Shifting

/-!
# Where the signs of a definition stand after alignment

Only the signs that are written like the first one are brought to a column; a sign with another
operator or a bracket against it, and the sign of a type signature, stay where they are. On every
line the sign is found again in its new place (`SignOn.widen`). So the signs of a definition line up
exactly when those that are written otherwise stood in that column before (`align_lines_up`).
-/

namespace LayoutRule

namespace Document

open Text

variable {d : Document} {target : Int} {found : List Int} {p q : Int}

end Document

namespace Text

variable {t : Text} {k s : Nat}

/-- What the signs of right-hand sides start with. -/
theorem isSignHead_of_rhsStop? (h : t.rhsStop? k = some s) :
    ∃ x, t.chars[k]? = some x ∧ isSignHead x = true := by
  unfold rhsStop? at h
  split at h
  · cases h
  next x hx =>
  refine ⟨x, hx, ?_⟩
  split at h
  · next hsign =>
    have hcases : x = '∷' ∨ x = '→' ∨ x = '←' := by simpa [rhsSigns] using hsign
    rcases hcases with rfl | rfl | rfl <;> decide
  split at h
  · cases h
  split at h
  · next heq =>
    subst heq
    decide
  split at h
  · next y _ _ hpair =>
    have hcases : x = ':' ∧ y = ':' ∨ x = '-' ∧ y = '>' ∨ x = '<' ∧ y = '-' := by
      simpa [rhsPairs] using hpair
    rcases hcases with ⟨rfl, -⟩ | ⟨rfl, -⟩ | ⟨rfl, -⟩ <;> decide
  · cases h

/-- What bars and signs start with. -/
theorem isSignHead_of_markerStop? {kind : LineKind} (h : t.markerStop? k = some (kind, s))
    (hkind : kind = .guard ∨ kind = .rhs) : ∃ x, t.chars[k]? = some x ∧ isSignHead x = true := by
  rcases hkind with rfl | rfl
  · exact ⟨'|', (bar_of_markerStop? h).2.1, rfl⟩
  · unfold markerStop? at h
    split at h
    · cases h
    split at h
    · cases h
    · obtain ⟨s', hs, -⟩ := Option.map_eq_some_iff.mp h
      exact isSignHead_of_rhsStop? hs

end Text

namespace Document

open Text

variable {d : Document} {target : Int} {found : List Int} {p q : Int}

/-- A line of code starts with code. -/
theorem CodePoint.char (h : d.CodePoint p) :
    ∃ x, d.text.charAt? p = some x ∧ isBlank x = false ∧ x ≠ '\n' := by
  have hlt := h.lt_lineStop
  have h₀ := h.nonneg
  have hlen := d.text.lineStop_le_length p
  obtain ⟨x, hx, hb⟩ := exists_char_indentationPoint (d := d) p (by rw [h.point]; omega)
  rw [h.point] at hx
  refine ⟨x, hx, hb, ?_⟩
  have hle := lineStart_le (t := d.text) h₀
  obtain ⟨c, hc, hline⟩ := char_of_between (t := d.text) p (i := p.toNat) (by omega) (by omega)
  rw [charAt?_eq h₀, hc] at hx
  cases hx
  simpa [notNewline] using hline

namespace SignOn

variable {sign : AlignSign}

/-- The sign of a line is the one that the search of the whole line for a sign of this kind
finds. -/
theorem finds (h : d.SignOn sign p q) : d.Finds p (d.text.lineStop p) sign q := by
  obtain ⟨c, hc, hplace⟩ := h.found
  obtain ⟨x, hx, hb, -⟩ := h.point.char
  exact finds_of_clauseAt h.point.nonneg h.point.lt_lineStop
    (d.text.lineStop_le_length p) hx hb hc hplace

/-- The way to the sign goes along its line, outside comments. -/
theorem approach (h : d.SignOn sign p q) : d.Approach p q (d.text.lineStop p) := by
  have h₀ := h.point.nonneg
  have hb := h.bounds
  have hlen := d.text.lineStop_le_length p
  have hle := lineStart_le (t := d.text) h₀
  refine ⟨h₀, hb.1, hb.2, hlen, fun i h₁ h₂ hnl => ?_, ?_⟩
  · obtain ⟨c, hc, hline⟩ := char_of_between (t := d.text) p (i := i.toNat) (by omega) (by omega)
    rw [charAt?_eq (by omega), hc] at hnl
    cases hnl
    cases hline
  · obtain ⟨-, mk, hmk, hkind⟩ := h.finds.marker
    have hshown := (markerAt_cases (by omega) (by omega) hmk (.inr hkind)).2.1
    rwa [Int.min_eq_left hb.1] at hshown

/-- The sign is read off the text. -/
theorem marked (h : d.SignOn sign p q) :
    ∃ kind stop, d.text.markerStop? q.toNat = some (kind, stop) ∧
      (kind = .guard ∨ kind = .rhs) := by
  have h₀ := h.point.nonneg
  have hb := h.bounds
  have hlen := d.text.lineStop_le_length p
  obtain ⟨-, mk, hmk, hkind⟩ := h.finds.marker
  obtain ⟨-, -, -, stop, hstop, -⟩ := markerAt_cases (by omega) (by omega) hmk (.inr hkind)
  exact ⟨mk.kind, stop, hstop, hkind⟩

/-- Where a line has its sign there is the first character of a sign. -/
theorem signHead (h : d.SignOn sign p q) :
    ∃ x, d.text.charAt? q = some x ∧ isSignHead x = true := by
  obtain ⟨kind, stop, hstop, hkind⟩ := h.marked
  rw [charAt?_eq h.nonneg]
  exact isSignHead_of_markerStop? hstop hkind

/-- What stands right before the sign. -/
theorem edge (h : d.SignOn sign p q) (hlt : p < q) {x y : Char} (hx : d.text.charAt? q = some x)
    (hy : d.text.charAt? (q - 1) = some y) :
    y ≠ '\x7b' ∧ (isOperatorChar y = true → y = '|' ∧ x ≠ '|') := by
  obtain ⟨x', hx', hhead⟩ := h.signHead
  cases hx.symm.trans hx'
  exact (h.finds.met h.approach).edge hlt x y hx (SignHead.of_isSignHead hhead).operator hy

/-- The line before and after blanks are put in before its sign. -/
theorem spaced {pads : Nat → Nat} (h : d.SignOn sign p q) (hlone : d.text.Lone pads q.toNat) :
    d.text.Spaced (d.text.widen pads) p q (offset pads q.toNat) (pads q.toNat) := by
  have h₀ := h.point.nonneg
  have hb := h.bounds
  have hlen := d.text.lineStop_le_length p
  have hline := h.lineStart_eq
  have hle := lineStart_le (t := d.text) h₀
  have hstart := d.text.lineStart_nonneg p
  have hcast : ((q.toNat : Nat) : Int) = q := Int.toNat_of_nonneg (by omega)
  have hfirst : p = 0 → offset pads q.toNat = 0 := by
    intro hp
    have hnone := hlone.offset_before (k := 0) (by rw [hcast]; omega) (Nat.zero_le _)
    rw [hnone]
    rfl
  have hget : ∀ (u : Text) (i : Int) (k : Nat), i = k → u.charAt? i = u.chars[k]? := by
    rintro u _ k rfl
    rw [charAt?_natCast]
  refine
    { nonneg := h₀
      nonneg' := by omega
      le := hb.1
      first := by omega
      same := ?_
      line := h.approach.line
      blanks := ?_
      rest := ?_
      sign := h.signHead
      edge := fun hlt x y hx hy => h.edge hlt hx hy }
  · intro i h₁ h₂
    rcases Int.lt_or_le i 0 with hneg | hpos
    · have hzero := hfirst (by omega)
      unfold charAt?
      rw [hzero, if_neg (by omega), if_neg (by omega)]
    · rw [hget _ (i + offset pads q.toNat) (i.toNat + offset pads q.toNat) (by omega),
        hget d.text i i.toNat (by omega)]
      exact hlone.getElem?_before (by rw [hcast]; omega) (by omega)
  · intro i h₁ h₂
    rw [hget _ i i.toNat (by omega)]
    exact hlone.getElem?_blank (by omega) (by omega)
  · have hagree := hlone.agree
    rwa [show q.toNat + offset pads q.toNat + pads q.toNat =
      (q + (offset pads q.toNat : Int) + (pads q.toNat : Int)).toNat by omega] at hagree

section Widen

variable {e : Document} {pads : Nat → Nat}

/-- Where the line and its sign are when blanks have been put in. -/
theorem moved_eq (h : d.SignOn sign p q) (hlone : d.text.Lone pads q.toNat) :
    (moved pads p.toNat : Int) = spot q (offset pads q.toNat) (pads q.toNat) p ∧
      (moved pads q.toNat : Int) = q + offset pads q.toNat + pads q.toNat := by
  have h₀ := h.point.nonneg
  have hb := h.bounds
  have hle := lineStart_le (t := d.text) h₀
  have hline := h.lineStart_eq
  have hself : (moved pads q.toNat : Int) = q + offset pads q.toNat + pads q.toNat := by
    rw [Text.moved_eq]
    omega
  refine ⟨?_, hself⟩
  rcases Int.lt_or_eq_of_le hb.1 with hlt | rfl
  · rw [spot_of_lt hlt, hlone.moved_before (by rw [Int.toNat_of_nonneg (by omega)]; omega)
      (by omega)]
    omega
  · rw [spot_self, hself]

/-- The line still starts with its marker, if it did. -/
theorem codeOrigin_widen (h : d.SignOn sign p q) (hlone : d.text.Lone pads q.toNat)
    (htext : e.text = d.text.widen pads) (hbird : e.bird = d.bird) :
    e.codeOrigin (d.text.lineStart p + offset pads q.toNat) =
      d.codeOrigin (d.text.lineStart p) + offset pads q.toNat := by
  have hspaced := h.spaced hlone
  have h₀ := h.point.nonneg
  have hb := h.bounds
  have hle := lineStart_le (t := d.text) h₀
  have hstart := d.text.lineStart_nonneg p
  have hline := h.lineStart_eq
  have hsame : (e.text.charAt? (d.text.lineStart p + offset pads q.toNat) == some '>') =
      (d.text.charAt? (d.text.lineStart p) == some '>') := by
    rcases Int.lt_or_eq_of_le (by omega : d.text.lineStart p ≤ q) with hlt | heq
    · have hget := hlone.getElem?_before (k := (d.text.lineStart p).toNat)
        (by rw [Int.toNat_of_nonneg (by omega)]; omega) (by omega)
      rw [← htext] at hget
      rw [charAt?_eq (by omega), charAt?_eq hstart, ← hget,
        show (d.text.lineStart p + (offset pads q.toNat : Int)).toNat =
          (d.text.lineStart p).toNat + offset pads q.toNat by
          omega]
    · -- the sign stands at the start of the line
      rw [heq, htext]
      obtain ⟨x, hx, hhead⟩ := hspaced.sign
      have hno : (some x == some '>') = false := by
        rw [beq_eq_false_iff_ne]
        exact fun h => (SignHead.of_isSignHead hhead).marker (Option.some.inj h)
      rcases hspaced.charAt?_edge with hspace | hsign
      · rw [hspace, hx, hno]
        rfl
      · rw [hsign]
  unfold codeOrigin
  rw [hbird, hsame]
  split <;> omega

/-- The indentation point of the line moves along. -/
theorem codePoint_widen (h : d.SignOn sign p q) (hlone : d.text.Lone pads q.toNat)
    (htext : e.text = d.text.widen pads) (hbird : e.bird = d.bird) :
    e.CodePoint (moved pads p.toNat) := by
  have hspaced := h.spaced hlone
  have h₀ := h.point.nonneg
  have hb := h.bounds
  have hlen := d.text.lineStop_le_length p
  have hle := lineStart_le (t := d.text) h₀
  have hstart := d.text.lineStart_nonneg p
  have hline := h.lineStart_eq
  have hcast : ((q.toNat : Nat) : Int) = q := Int.toNat_of_nonneg (by omega)
  obtain ⟨hp, hq⟩ := h.moved_eq hlone
  obtain ⟨x, hx, hblank, hnl⟩ := h.point.char
  have hx' : e.text.chars[moved pads p.toNat]? = some x := by
    rw [htext, (takeTo_moved pads (by unfold length at hlen; omega)).2, ← hx, charAt?_eq h₀]
  have hspot : spot q (offset pads q.toNat) (pads q.toNat) p ≤
      q + offset pads q.toNat + pads q.toNat := spot_le hb.1
  have hspot' : p + offset pads q.toNat ≤ spot q (offset pads q.toNat) (pads q.toNat) p := by
    unfold spot
    split <;> omega
  have hstart' : e.text.lineStart (moved pads p.toNat) =
      d.text.lineStart p + offset pads q.toNat := by
    rw [htext, ← hline]
    have hlines := hlone.lineStart_eq (k := moved pads p.toNat) (by rw [hcast]; omega) (by omega)
    rwa [hcast] at hlines
  have hpoint : p = d.text.runStop isBlank (d.codeOrigin (d.text.lineStart p)).toNat :=
    h.point.point.symm
  have horigin := (d.codeOrigin_bounds p).1
  have hrun := d.text.le_runStop isBlank (d.codeOrigin (d.text.lineStart p)).toNat
  have hpoint' : e.indentationPoint (moved pads p.toNat) = moved pads p.toNat := by
    unfold indentationPoint
    rw [hstart', h.codeOrigin_widen hlone htext hbird]
    congr 1
    refine runStop_eq_of (by omega) (fun i h₁ h₂ => ?_) fun c hc => ?_
    · rw [htext]
      rcases Int.lt_or_le i (p + offset pads q.toNat) with hbefore | hbehind
      · obtain ⟨c, hc, hpc⟩ := char_of_lt_runStop (t := d.text) (p := isBlank)
          (k := (d.codeOrigin (d.text.lineStart p)).toNat) (i := i - offset pads q.toNat) (by omega)
          (by omega)
        have hget := hlone.getElem?_before (k := i - offset pads q.toNat) (by rw [hcast]; omega)
          (by omega)
        rw [show i - offset pads q.toNat + offset pads q.toNat = i by omega] at hget
        exact ⟨c, hget.trans hc, hpc⟩
      · -- the sign is the first code of the line
        obtain rfl : p = q := by
          by_contra hne
          rw [spot_of_lt (by omega)] at hp
          omega
        exact ⟨' ', hlone.getElem?_blank (by omega) (by omega), rfl⟩
    · cases hx'.symm.trans hc
      exact hblank
  have hlt := lt_lineStop_of_charAt? (t := e.text) (by omega : 0 ≤ (moved pads p.toNat : Int))
    ((e.text.charAt?_natCast _).trans hx') hnl
  refine ⟨hpoint', ?_⟩
  rw [isBlankLine, hpoint', beq_eq_false_iff_ne]
  omega

/-- The clause is taken apart as before. -/
theorem widened (h : d.SignOn sign p q) (hlone : d.text.Lone pads q.toNat)
    (htext : e.text = d.text.widen pads) (hbird : e.bird = d.bird) :
    d.Widened e p q (offset pads q.toNat) (pads q.toNat) (d.text.lineStop p)
      (e.text.lineStop (moved pads p.toNat)) := by
  have hspaced := h.spaced hlone
  rw [← htext] at hspaced
  have hcode := h.codePoint_widen hlone htext hbird
  have h₀ := h.point.nonneg
  have hb := h.bounds
  have hle := lineStart_le (t := d.text) h₀
  have hline := h.lineStart_eq
  have hcast : ((q.toNat : Nat) : Int) = q := Int.toNat_of_nonneg (by omega)
  obtain ⟨hp, hq⟩ := h.moved_eq hlone
  have hspot : spot q (offset pads q.toNat) (pads q.toNat) p ≤
      q + offset pads q.toNat + pads q.toNat := spot_le hb.1
  have hspot' : p + offset pads q.toNat ≤ spot q (offset pads q.toNat) (pads q.toNat) p := by
    unfold spot
    split <;> omega
  have hlines : ∀ k : Nat, p + offset pads q.toNat ≤ k →
      (k : Int) ≤ q + offset pads q.toNat + pads q.toNat →
      e.text.lineStart k = e.text.lineStart (moved pads p.toNat) := by
    intro k h₁ h₂
    rw [htext, hlone.lineStart_eq (by rw [hcast]; omega) (by omega),
      hlone.lineStart_eq (by rw [hcast]; omega) (by omega)]
  refine
    { approach := h.approach
      text := hspaced
      bird := hbird
      lt' := ?_
      stop_le' := e.text.lineStop_le_length _
      code := fun i h₁ h₂ => ?_
      code' := fun i h₁ h₂ => ?_
      marker := h.finds.marker.2 }
  · obtain ⟨x, hx, hhead⟩ := hspaced.sign
    have hlt := lt_lineStop_of_charAt? (t := e.text) (by omega) (hspaced.charAt?_sign.trans hx)
      (SignHead.of_isSignHead hhead).newline
    rw [← hq] at hlt ⊢
    rwa [lineStop_eq_of_lineStart_eq (hlines _ (by omega) (by omega))] at hlt
  · rw [isBlankLine_eq_of_lineStart_eq
      (lineStart_eq_of_between (by omega) (by omega) : d.text.lineStart i = d.text.lineStart p)]
    exact h.point.notBlank
  · obtain ⟨k, rfl⟩ := Int.eq_ofNat_of_zero_le (by omega : 0 ≤ i)
    rw [isBlankLine_eq_of_lineStart_eq (hlines k h₁ h₂)]
    exact hcode.notBlank

/-- When blanks are put in, and on the line of a sign only before the sign, that sign is found
again. -/
theorem widen (h : d.SignOn sign p q) (hlone : d.text.Lone pads q.toNat)
    (htext : e.text = d.text.widen pads) (hbird : e.bird = d.bird) :
    e.SignOn sign (moved pads p.toNat) (moved pads q.toNat) := by
  have hcode := h.codePoint_widen hlone htext hbird
  obtain ⟨hp, hq⟩ := h.moved_eq hlone
  obtain ⟨x, hx, hb, -⟩ := hcode.char
  have hfinds := (h.widened hlone htext hbird).finds h.finds
  rw [← hp, ← hq] at hfinds
  exact ⟨hcode, hfinds.clauseAt hcode.nonneg hcode.lt_lineStop (e.text.lineStop_le_length _) hx hb⟩

end Widen

end SignOn

/-! ## Alignment -/

/-- Right-hand sides are aligned no further left than the least column of the settings. -/
theorem rhsAlignColumn_le (s : Settings) (signs : List Int) :
    s.rhsAlignColumn ≤ d.alignColumn s .rhs signs :=
  Int.le_max_right _ _

/-- Signs that already stand in their column are left alone. -/
theorem align_eq_self [Platform] {s : Settings} {sign : AlignSign} {pos : Int} {signs : List Int}
    (h : d.alignedSigns s sign pos = .ok signs)
    (hnone : ∀ p ∈ signs, d.alignColumn s sign signs ≤ d.column p) :
    (d.align s sign pos).result = .ok (d, 0) := by
  have hlacking : d.lacking (d.alignColumn s sign signs) signs = 0 :=
    List.countP_eq_zero.mpr fun p hp => by simpa using hnone p hp
  have hrun : ∀ p ∈ signs, d.alignColumn s sign signs - d.column p < Platform.runLimit := by
    intro p hp
    have := hnone p hp
    have := Platform.runLimit_pos
    omega
  rw [(align_eq_ok_iff h).mpr ⟨hrun, rfl⟩, padded_eq_self hlacking, hlacking]

end Document

end LayoutRule
