import LayoutRule.Proofs.Editing.Definitions
import LayoutRule.Proofs.Editing.Rescanning

/-!
# Signs of a line after blanks were put in

When blanks are put in before signs of one kind (`Signed`), each line is taken apart as before. A
line with a sign has its sign where it was brought, and a line without one gets none, as it reads as
it did (`SignOn.shift`). Its name is the same (`Stretched.nameAt?_relocate`), it is a guard's line
as it was, and it is indented deeper only by blanks before its first code. So the signs that count
on a line are moved and nothing else (`Stretched.signOnLine?_relocate`).
-/

namespace LayoutRule

namespace Document

open Text

variable {d e : Document} {sign : AlignSign} {pads : Nat → Nat} {p p' q q' o : Int}

/-! ## Signs on lines that read alike -/

namespace SignOn

/-- A line has one sign at most. -/
theorem unique (h : d.SignOn sign p q) (h' : d.SignOn sign p' q')
    (hline : d.text.lineStart q = d.text.lineStart q') : p = p' ∧ q = q' := by
  have hpoint : p = p' := by
    rw [h.lineStart_eq, h'.lineStart_eq] at hline
    rw [← h.point.point, ← h'.point.point, indentationPoint_eq_of_lineStart_eq hline]
  subst hpoint
  obtain ⟨c, hc, hq⟩ := h.found
  obtain ⟨c', hc', hq'⟩ := h'.found
  cases hc.symm.trans hc'
  exact ⟨rfl, Option.some.inj (hq.symm.trans hq')⟩

section Shift

variable (h : d.SignOn sign p q) (hcode : e.CodePoint (p + o)) (hfirst : p + o = 0 ↔ p = 0)
  (hsame : ∀ i, p - 1 ≤ i → i ≤ d.text.lineStop p → e.text.charAt? (i + o) = d.text.charAt? i)
include h hcode hfirst hsame

/-- The lines read alike up to their signs and behind them. -/
theorem spaced_shift : d.text.Spaced e.text p q o 0 := by
  have h₀ := h.point.nonneg
  have h₀' := hcode.nonneg
  have hb := h.bounds
  have hlen := d.text.lineStop_le_length p
  refine
    { nonneg := h₀
      nonneg' := h₀'
      le := hb.1
      first := hfirst
      same := fun i h₁ h₂ => hsame i h₁ (by omega)
      line := h.approach.line
      blanks := fun i h₁ h₂ => by omega
      rest := fun i hi => ?_
      sign := h.signHead
      edge := fun hlt x y hx hy => h.edge hlt hx hy }
  rw [show (q + o + (0 : Nat)).toNat + i =
    (q + i + o).toNat by
    omega, show q.toNat + i = (q + i).toNat by
      omega, ← charAt?_eq (by omega), ← charAt?_eq (by omega)]
  rcases Int.lt_or_le (d.text.lineStop p) (q + i) with hbehind | hin
  · rcases Int.lt_or_eq_of_le hlen with hlt | hend
    · -- the newline would stand before the place
      exfalso
      have hnl := newline_at_lineStop (t := d.text) p hlt
      refine hi ((d.text.lineStop p).toNat - q.toNat) (by omega) ?_
      rwa [show q.toNat + ((d.text.lineStop p).toNat - q.toNat) =
        (d.text.lineStop p).toNat by omega]
    · -- both texts end with the line
      have hlast := hsame (d.text.lineStop p) (by omega) (Int.le_refl _)
      unfold length at hend
      have hnone : ∀ k, d.text.chars.size ≤ k → d.text.chars[k]? = none :=
        fun k => Array.getElem?_eq_none
      rw [charAt?_eq (by omega), charAt?_eq (by omega), hnone _ (by omega),
        Array.getElem?_eq_none_iff] at hlast
      rw [charAt?_eq (by omega), charAt?_eq (by omega), hnone _ (by omega),
        Array.getElem?_eq_none (by omega)]
  · exact (hsame (q + i) (by omega) hin).symm

/-- The second line reaches behind the place of the sign. -/
theorem lt_lineStop_shift : q + o < e.text.lineStop (p + o) := by
  have h₀ := h.point.nonneg
  have h₀' := hcode.nonneg
  have hb := h.bounds
  have hlt' := hcode.lt_lineStop
  have hend : q + o < e.text.length := by
    have := (h.spaced_shift hcode hfirst hsame).lt_length'
    omega
  rcases Int.lt_or_le (q + o) (e.text.lineStop (p + o)) with hlt | hge
  · exact hlt
  · exfalso
    have hnl := newline_at_lineStop (t := e.text) (p + o) (by omega)
    rw [← charAt?_eq (by omega), show e.text.lineStop (p + o) =
      e.text.lineStop (p + o) - o + o by
      omega, hsame _ (by omega) (by omega), charAt?_eq (by omega)] at hnl
    have hle := lineStart_le (t := d.text) h₀
    obtain ⟨c, hc, hline⟩ :=
      char_of_between (t := d.text) p (i := (e.text.lineStop (p + o) - o).toNat) (by omega)
        (by omega)
    cases hnl.symm.trans hc
    cases hline

/-- On a line that reads like another one the sign is found in its place. -/
theorem shift (hbird : e.bird = d.bird) : e.SignOn sign (p + o) (q + o) := by
  have h₀ := h.point.nonneg
  have hb := h.bounds
  have hle := lineStart_le (t := d.text) h₀
  have hle' := lineStart_le (t := e.text) hcode.nonneg
  have hlt' := h.lt_lineStop_shift hcode hfirst hsame
  have hwidened : d.Widened e p q o 0 (d.text.lineStop p) (e.text.lineStop (p + o)) :=
    { approach := h.approach
      text := h.spaced_shift hcode hfirst hsame
      bird := hbird
      lt' := by omega
      stop_le' := e.text.lineStop_le_length _
      code := fun i h₁ h₂ => by
        have hline : d.text.lineStart i = d.text.lineStart p :=
          lineStart_eq_of_between (by omega) (by omega)
        rw [isBlankLine_eq_of_lineStart_eq hline]
        exact h.point.notBlank
      code' := fun i h₁ h₂ => by
        have hline : e.text.lineStart i = e.text.lineStart (p + o) :=
          lineStart_eq_of_between (by omega) (by omega)
        rw [isBlankLine_eq_of_lineStart_eq hline]
        exact hcode.notBlank
      marker := h.finds.marker.2 }
  have hfinds := hwidened.finds h.finds
  have hspot : spot q o 0 p = p + o := by
    unfold spot
    split <;> omega
  rw [hspot, show q + o + (0 : Nat) = q + o by omega] at hfinds
  obtain ⟨x, hx, hblank, -⟩ := hcode.char
  exact ⟨hcode, hfinds.clauseAt hcode.nonneg hcode.lt_lineStop
    (e.text.lineStop_le_length _) hx hblank⟩

end Shift

end SignOn

/-! ## Blanks before signs -/

/-- Blanks are put in before signs of one kind only. -/
def Signed (d : Document) (sign : AlignSign) (pads : Nat → Nat) : Prop :=
  ∀ k, pads k ≠ 0 → ∃ p, d.SignOn sign p k

namespace Signed

variable (h : d.Signed sign pads)
include h

/-- On the line of a sign blanks are put in before the sign only. -/
theorem lone (hq : d.SignOn sign p q) : d.text.Lone pads q.toNat := by
  have hb := hq.bounds
  have hcast : ((q.toNat : Nat) : Int) = q := Int.toNat_of_nonneg hq.nonneg
  refine ⟨by rw [hcast, hq.lineStop_eq]; exact hb.2, fun k h₁ h₂ hne => ?_⟩
  by_contra hk
  obtain ⟨p', hp'⟩ := h k hk
  rw [hcast] at h₁ h₂
  have := (hq.unique hp' (lineStart_eq_of_between h₁ h₂).symm).2
  omega

/-- What stands around the new blanks. -/
theorem padsSigns : d.text.PadsSigns pads := by
  constructor
  · intro k hk
    obtain ⟨p, hp⟩ := h k hk
    obtain ⟨x, hx, hhead⟩ := hp.signHead
    rw [charAt?_natCast] at hx
    refine ⟨x, hx, hhead, ?_⟩
    rintro rfl hnext
    obtain ⟨kind, stop, hstop, -⟩ := hp.marked
    rw [Int.toNat_natCast, markerStop?_sign hx hnext (by decide)] at hstop
    cases hstop
  · intro k x y hk hx hy
    obtain ⟨p, hp⟩ := h (k + 1) hk
    have hx' : d.text.charAt? ((k + 1 : Nat) : Int) = some x := (charAt?_natCast _ _).trans hx
    have hy' : d.text.charAt? (((k + 1 : Nat) : Int) - 1) = some y := by
      rw [Int.natCast_succ, Int.add_sub_cancel, charAt?_natCast, hy]
    rcases Int.lt_or_eq_of_le hp.bounds.1 with hlt | heq
    · obtain ⟨hbrace, hop⟩ := hp.edge hlt hx' hy'
      refine ⟨hbrace, ?_, ?_, ?_⟩
      · rintro rfl
        exact absurd (hop (by decide)).1 (by decide)
      · rintro rfl
        exact absurd (hop (by decide)).1 (by decide)
      · rintro rfl
        exact (hop (by decide)).2
    · -- the sign is the first code of its line
      have hpoint := hp.point.point
      rw [heq] at hpoint
      rcases d.char_before_point ((k + 1 : Nat) : Int) with hnone | ⟨c, hc, hlead⟩
      · rw [hpoint, hy'] at hnone
        cases hnone
      · rw [hpoint, hy'] at hc
        cases hc
        have hno : y ≠ '\x7b' ∧ y ≠ '-' ∧ y ≠ '\\' ∧ y ≠ '|' := by
          refine ⟨?_, ?_, ?_, ?_⟩ <;> rintro rfl <;> revert hlead <;> decide
        exact ⟨hno.1, hno.2.1, hno.2.2.1, fun hbar => absurd hbar hno.2.2.2⟩

end Signed

/-! ## Lines after blanks were put in -/

end Document

namespace Text

variable {t : Text} {pads : Nat → Nat} {k m : Nat}

/-- A word without new blanks in it. -/
theorem extract_moved (hkm : k < m) (hm : m ≤ t.chars.size) (h : ∀ j, k < j → j < m → pads j = 0) :
    (t.widen pads).chars.extract (moved pads k) (front pads m) = t.chars.extract k m := by
  have hoffset : ∀ j, k < j → j ≤ m → offset pads j = offset pads k + pads k := by
    intro j h₁ h₂
    rw [offset_eq (k := k + 1) h₁ fun i h₃ h₄ => h i h₃ (by omega), offset_succ]
  have hmoved : ∀ j, k ≤ j → j < m → moved pads j = moved pads k + (j - k) := by
    intro j h₁ h₂
    rcases Nat.eq_or_lt_of_le h₁ with rfl | hlt
    · omega
    · rw [moved_eq, moved_eq, hoffset j hlt (Nat.le_of_lt h₂), h j hlt h₂]
      omega
  have hfront : front pads m = moved pads k + (m - k) := by
    rw [front, hoffset m hkm (Nat.le_refl _), moved_eq]
    omega
  refine Array.ext_getElem? fun i => ?_
  have hsize := t.size_widen_eq pads
  have hle := front_le_front pads hm
  rw [Array.getElem?_extract, Array.getElem?_extract, hfront, Nat.min_eq_left (by omega),
    Nat.min_eq_left hm, Nat.add_sub_cancel_left]
  split
  · next hi =>
      rw [← t.getElem?_moved pads (k + i), hmoved (k + i) (by omega) (by omega),
        Nat.add_sub_cancel_left]
  · rfl

/-- A guard's bar: a bar that is not followed by another one. -/
theorem markerStop?_guard_iff :
    (∃ s, t.markerStop? k = some (.guard, s)) ↔
      t.chars[k]? = some '|' ∧ ∃ c, t.chars[k + 1]? = some c ∧ c ≠ '|' := by
  constructor
  · rintro ⟨s, hs⟩
    obtain ⟨-, hbar, hnext⟩ := bar_of_markerStop? hs
    refine ⟨hbar, ?_⟩
    cases hc : t.chars[k + 1]? with
    | some c => exact ⟨c, rfl, fun heq => hnext (heq ▸ hc)⟩
    | none =>
      have hname : t.nameStop? k = none := by rw [nameStop?, hbar]; rfl
      have hguard : t.guardStop? k = none := by rw [guardStop?, hbar, hc]; rfl
      have hrhs : t.rhsStop? k = none := by rw [rhsStop?, hbar, hc]; rfl
      rw [markerStop?, hname, hguard, hrhs] at hs
      cases hs
  · rintro ⟨hbar, c, hc, hne⟩
    have hname : t.nameStop? k = none := by rw [nameStop?, hbar]; rfl
    have hguard : t.guardStop? k = some (k + 1) := by
      rw [guardStop?, hbar, hc]
      exact if_neg hne
    exact ⟨k + 1, by rw [markerStop?, hname, hguard]⟩

namespace PadsSigns

variable (h : t.PadsSigns pads)
include h

/-- A name ends where it did, moved by the blanks before that place: none are put in inside a
name. -/
theorem nameStop? (hk : k < t.chars.size) :
    (t.widen pads).nameStop? (moved pads k) = (t.nameStop? k).map (front pads) := by
  have hrun : (t.widen pads).runStop isNameChar (moved pads k + 1) =
      front pads (t.runStop isNameChar (k + 1)) := by
    rw [← front_succ]
    refine runStop_front_of_not hk (by decide) fun j c hj hc => ?_
    obtain ⟨x, hx, hhead⟩ := h.signHead hj
    cases hc.symm.trans hx
    exact hhead.name
  unfold Text.nameStop?
  rw [getElem?_moved, hrun]
  cases t.chars[k]? with
  | none => rfl
  | some c => by_cases hstart : isNameStart c = true <;> simp [hstart]

/-- A bar is that of a guard as before. -/
theorem markerStop?_guard :
    (∃ s, (t.widen pads).markerStop? (moved pads k) = some (.guard, s)) ↔
      ∃ s, t.markerStop? k = some (.guard, s) := by
  rw [markerStop?_guard_iff, markerStop?_guard_iff, getElem?_moved, getElem?_succ_moved h.lt_size]
  refine and_congr_right fun hbar => ?_
  split
  · exact Iff.rfl
  · next hpads =>
    obtain ⟨x, hx, -⟩ := h.signHead hpads
    exact iff_of_true ⟨' ', rfl, by decide⟩ ⟨x, hx, (h.before k x '|' hpads hx hbar).2.2.2 rfl⟩

end PadsSigns

end Text

namespace Document

open Text

variable {d e : Document} {sign : AlignSign} {pads : Nat → Nat} {p q top : Int} {points : List Int}

/-- The marker that is read off a place is a guard's bar. -/
theorem kind_eq_guard_iff {m : Marker} {stop? : Option (LineKind × Nat)}
    {word : LineKind × Nat → String}
    (hm : (m.kind, m.text) = stop?.elim (.other, "") fun r => (r.1, word r)) :
    m.kind = .guard ↔ ∃ stop, stop? = some (.guard, stop) := by
  cases stop? with
  | none =>
    have hkind : m.kind = .other := congrArg Prod.fst hm
    rw [hkind]
    exact iff_of_false (by decide) (by simp)
  | some r =>
    have hkind : m.kind = r.1 := congrArg Prod.fst hm
    rw [hkind]
    constructor
    · intro hr
      exact ⟨r.2, by rw [← hr]⟩
    · rintro ⟨stop, hr⟩
      cases hr
      rfl

namespace Stretched

variable (h : d.Stretched e pads)
include h

/-- No blanks are put in before the code of a line. -/
theorem pads_lead (hp : d.CodePoint p) {k : Nat} (h₁ : d.text.lineStart p ≤ k)
    (h₂ : (k : Int) < p) : pads k = 0 := by
  have hpoint : d.indentationPoint (d.text.lineStart p) = p := by
    rw [indentationPoint_eq_of_lineStart_eq (d.text.lineStart_lineStart p), hp.point]
  obtain ⟨c, hc, hlead⟩ := char_lead (d.text.lineStart_lineStart p) h₁ (by rw [hpoint]; exact h₂)
  rw [charAt?_natCast] at hc
  by_contra hk
  obtain ⟨x, hx, hhead⟩ := h.signs.signHead hk
  cases hc.symm.trans hx
  rcases hlead with hblank | ⟨hmark, -⟩
  · rw [hhead.blank] at hblank
    cases hblank
  · exact hhead.marker hmark

/-- A line is indented deeper by the blanks before its first code. -/
theorem column_relocate (hp : d.CodePoint p) :
    e.column (relocate pads p) = d.column p + pads p.toNat := by
  have h₀ := hp.nonneg
  have hlt := hp.lt_lineStop
  have hlen := d.text.lineStop_le_length p
  have hcast : ((p.toNat : Nat) : Int) = p := Int.toNat_of_nonneg h₀
  have hcolumn := column_moved h.tabWidth h.text (k := p.toNat) (by unfold length at hlen; omega)
    fun j h₁ h₂ =>
    h.pads_lead hp (by rw [hcast] at h₁; omega) (by omega)
  rwa [hcast] at hcolumn

/-- A line is deeper than a column as it was, provided that blanks before its code are put in only
when it is deeper already. -/
theorem isDeeper_relocate (hp : d.CodePoint p)
    (hdeep : pads p.toNat ≠ 0 → d.isDeeper top p = true) :
    e.isDeeper top (relocate pads p) = d.isDeeper top p := by
  by_cases hpads : pads p.toNat = 0
  · unfold isDeeper
    rw [h.column_relocate hp, hpads, Int.natCast_zero, Int.add_zero]
  · have hdeeper := hdeep hpads
    rw [hdeeper]
    unfold isDeeper at hdeeper ⊢
    rw [decide_eq_true_eq] at hdeeper ⊢
    rw [h.column_relocate hp]
    omega

/-- No clause has another name. -/
theorem nameAt?_relocate (hp : d.CodePoint p) : e.nameAt? (relocate pads p) = d.nameAt? p := by
  have h₀ := hp.nonneg
  have hlt := hp.lt_lineStop
  have hlen := d.text.lineStop_le_length p
  have hsize : p.toNat < d.text.chars.size := by unfold length at hlen; omega
  unfold nameAt? relocate
  rw [Int.toNat_natCast, h.text, h.signs.nameStop? hsize, Option.map_map]
  cases hstop : d.text.nameStop? p.toNat with
  | none => rfl
  | some stop =>
    have hrun : stop = d.text.runStop isNameChar (p.toNat + 1) := by
      unfold nameStop? at hstop
      split at hstop
      · split at hstop
        · exact (Option.some.inj hstop).symm
        · cases hstop
      · cases hstop
    have hle := d.text.le_runStop isNameChar (p.toNat + 1)
    have hword : ∀ j, p.toNat < j → j < stop → pads j = 0 := by
      intro j h₁ h₂
      obtain ⟨c, hc, hname⟩ :=
        char_of_lt_runStop (t := d.text) (p := isNameChar) (k := p.toNat + 1) h₁ (hrun ▸ h₂)
      by_contra hj
      obtain ⟨x, hx, hhead⟩ := h.signs.signHead hj
      cases hc.symm.trans hx
      rw [hhead.name] at hname
      cases hname
    have hsize' : stop ≤ d.text.chars.size :=
      hrun ▸ d.text.runStop_le isNameChar (p.toNat + 1) hsize
    rw [Option.map_some, Option.map_some, Function.comp_apply,
      extract_moved (by omega) hsize' hword]

/-! ## Signs after blanks were put in -/

section Signs

variable (hsigned : d.Signed sign pads)
include hsigned

/-- A line without a sign gets none. -/
theorem not_signOn_relocate (hp : d.CodePoint p) (hno : ∀ q, ¬ d.SignOn sign p q) (q : Int) :
    ¬ e.SignOn sign (relocate pads p) q := by
  have h₀ := hp.nonneg
  have hle := lineStart_le (t := d.text) h₀
  have hlt := hp.lt_lineStop
  have hlen := d.text.lineStop_le_length p
  have hsize : p.toNat ≤ d.text.chars.size := by unfold length at hlen; omega
  have hcast : ((p.toNat : Nat) : Int) = p := Int.toNat_of_nonneg h₀
  have hpads : ∀ k : Nat, p ≤ k → (k : Int) ≤ d.text.lineStop p → pads k = 0 := by
    intro k h₁ h₂
    by_contra hk
    obtain ⟨p', hp'⟩ := hsigned k hk
    have hline : d.text.lineStart p' = d.text.lineStart p := by
      rw [← hp'.lineStart_eq]
      exact lineStart_eq_of_between (by omega) h₂
    have hpoint : p' = p := by
      rw [← hp'.point.point, ← hp.point, indentationPoint_eq_of_lineStart_eq hline]
    exact hno k (hpoint ▸ hp')
  have hmoved : ∀ k : Nat, p ≤ k → (k : Int) ≤ d.text.lineStop p →
      moved pads k = k + offset pads p.toNat := by
    intro k h₁ h₂
    rw [moved_eq, hpads k h₁ h₂, offset_eq (k := p.toNat) (by omega)
      fun j h₃ h₄ => hpads j (by omega) (by omega)]
    omega
  have hplace : relocate pads p = p + offset pads p.toNat := by
    have := hmoved p.toNat (by omega) (by omega)
    unfold relocate
    omega
  have hstop : e.text.lineStop (relocate pads p) = d.text.lineStop p + offset pads p.toNat := by
    have hlast := hmoved (d.text.lineStop p).toNat (by omega) (by omega)
    have hstop := h.signs.keepsLines.lineStop_moved hsize
    rw [← h.text, hcast, ← moved_eq_of_pads (hpads (d.text.lineStop p).toNat (by omega) (by omega))]
      at hstop
    unfold relocate
    omega
  intro hq
  refine hno (q + -offset pads p.toNat) ?_
  have hback : relocate pads p + -(offset pads p.toNat : Int) = p := by omega
  have hshift := hq.shift (e := d) (o := -offset pads p.toNat) (by rwa [hback]) ?_ ?_ h.bird.symm
  · rwa [hback] at hshift
  · -- nothing is put in above the first line
    rw [hback, hplace]
    refine ⟨fun hzero => ?_, fun hzero => by omega⟩
    rw [hzero]
    rfl
  · intro i h₁ h₂
    rcases Int.lt_or_le i (relocate pads p) with hbefore | hbehind
    · obtain rfl : i = relocate pads p - 1 := by omega
      have hedge := charAt?_before_moved (t := d.text) (hpads p.toNat (by omega) (by omega))
      rw [← h.text, hcast] at hedge
      rw [show relocate pads p - 1 + -(offset pads p.toNat : Int) = p - 1 by omega, ← hedge]
      rfl
    · obtain ⟨k, hk⟩ := Int.eq_ofNat_of_zero_le (show 0 ≤ i - offset pads p.toNat by omega)
      have hget := d.text.getElem?_moved pads k
      rw [hmoved k (by omega) (by omega), ← h.text] at hget
      rw [charAt?_eq (by omega), charAt?_eq (by omega),
        show (i + -(offset pads p.toNat : Int)).toNat = k by omega,
        show i.toNat = k + offset pads p.toNat by omega, hget]

/-- On every line the sign is found where it was brought. -/
theorem place?_relocate (hp : d.CodePoint p) (hp' : e.CodePoint (relocate pads p)) :
    (e.clauseAt (relocate pads p) (e.text.lineStop (relocate pads p)) (relocate pads p)).map
      sign.place? =
      (d.clauseAt p (d.text.lineStop p) p).map fun c => (sign.place? c).map (relocate pads) := by
  obtain ⟨c, hc, -⟩ := hp.clauseAt_yields
  obtain ⟨c', hc', -⟩ := hp'.clauseAt_yields
  rw [hc, hc']
  show Except.ok (sign.place? c') = Except.ok ((sign.place? c).map (relocate pads))
  congr 1
  cases hplace : sign.place? c with
  | some q =>
    have hq : d.SignOn sign p q := ⟨hp, c, hc, hplace⟩
    obtain ⟨c'', hc'', hplace'⟩ := (hq.widen (hsigned.lone hq) h.text h.bird).found
    cases hc'.symm.trans hc''
    exact hplace'
  | none =>
    have hno : ∀ q, ¬ d.SignOn sign p q := by
      rintro q ⟨-, c'', hc'', hplace'⟩
      cases hc.symm.trans hc''
      cases hplace.symm.trans hplace'
    cases hplace' : sign.place? c' with
    | none => rfl
    | some q => exact absurd ⟨hp', c', hc', hplace'⟩ (h.not_signOn_relocate hsigned hp hno q)

/-- A line counts, and has a sign, as before. -/
theorem signOnLine?_relocate (isHead : Bool) (hp : d.Uncommented p)
    (hp' : e.Uncommented (relocate pads p)) :
    e.signOnLine? sign isHead (relocate pads p) =
      (d.signOnLine? sign isHead p).map (Option.map (relocate pads)) := by
  have hclause := h.place?_relocate hsigned hp.point hp'.point
  obtain ⟨m, hm, hmarker⟩ := hp.exists_marker (.inr rfl) (Int.le_refl _)
  obtain ⟨m', hm', hmarker'⟩ := hp'.exists_marker (.inr rfl) (Int.le_refl _)
  have hguard : m'.kind = .guard ↔ m.kind = .guard := by
    have hbar := h.signs.markerStop?_guard (k := p.toNat)
    rw [← h.text] at hbar
    exact (kind_eq_guard_iff hmarker').trans (hbar.trans (kind_eq_guard_iff hmarker).symm)
  unfold signOnLine?
  rw [hm, hm', ok_bind, ok_bind]
  obtain ⟨c, hc, -⟩ := hp.point.clauseAt_yields
  obtain ⟨c', hc', -⟩ := hp'.point.clauseAt_yields
  rw [hc, hc'] at hclause ⊢
  have hplace : sign.place? c' = (sign.place? c).map (relocate pads) := Except.ok.inj hclause
  have hkind : (m'.kind != .guard) = (m.kind != .guard) := by
    rw [Bool.eq_iff_iff, bne_iff_ne, bne_iff_ne, Ne, Ne, hguard]
  rw [hkind]
  cases hskip : !isHead && m.kind != .guard with
  | true => rfl
  | false => exact congrArg Except.ok hplace

end Signs

end Stretched

end Document

end LayoutRule
