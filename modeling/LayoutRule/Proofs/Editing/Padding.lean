import LayoutRule.Proofs.Document.Indentation
import LayoutRule.Proofs.Editing.Signs
import LayoutRule.Proofs.Request.Candidates
import LayoutRule.Proofs.Text.Widening
import Mathlib.Data.List.Pairwise

/-!
# What alignment changes

Signs are brought to a column from the last to the first, each by the blanks that it lacks in the
document as it is then. As no two signs stand on one line and later edits are made further up, the
columns are those of the document before the first edit, and the outcome is the text with all blanks
put in at once (`padSigns_eq`). It follows what alignment does to every document (`align_widens`):
nothing but blanks before signs is put in, every character keeps its line, all signs reach the
column of the rightmost one, and the number of lines that it reports is the number of lines that
differ.
-/

namespace LayoutRule

namespace Document

open Text

variable {d e : Document} {target : Int} {signs : List Int} {p q : Int}

/-! ## Columns -/

/-- The column of a place is the width of its line before it. -/
theorem column_of_parts {before head rest : Text} (htext : d.text = before ++ head ++ rest)
    (hbefore : ∀ c, before.chars.back? = some c → c = '\n') (hhead : ∀ c ∈ head.chars, c ≠ '\n') :
    d.column (before.length + head.length) =
      (head.chars.foldl (nextColumn d.tabWidth) 0 : Nat) := by
  have hsize : before.chars.size + head.chars.size ≤ d.text.chars.size := by simp [htext]
  have hrun : d.text.runStart notNewline (before.chars.size + head.chars.size) =
      before.chars.size := by
    refine runStart_eq_of hsize (by omega) (fun i h₁ h₂ => ?_) fun hpos => ?_
    · have hlt : i - before.chars.size < head.chars.size := by omega
      refine ⟨head.chars[i - before.chars.size], ?_, ?_⟩
      · rw [htext, append_assoc, chars_append, chars_append, Array.getElem?_append_right h₁,
          Array.getElem?_append_left hlt, Array.getElem?_eq_getElem hlt]
      · simpa [notNewline] using hhead _ (Array.getElem_mem hlt)
    · have hlast : before.chars[before.chars.size - 1]? =
          some before.chars[before.chars.size - 1] := Array.getElem?_eq_getElem (by omega)
      have hnl := hbefore _ (by rw [Array.back?_eq_getElem?]; exact hlast)
      refine ⟨'\n', ?_, rfl⟩
      rw [htext, append_assoc, chars_append, Array.getElem?_append_left (by omega), hlast, hnl]
  have hstart : d.text.lineStart (before.length + head.length) = before.length := by
    show (d.text.runStart notNewline
      (d.text.bound ((before.chars.size : Int) + (head.chars.size : Int))) : Int) = _
    rw [← Int.natCast_add, bound_natCast hsize, hrun]
    rfl
  have hslice : d.text.slice before.length (before.length + head.length) = head := by
    rw [htext, slice_append]
  unfold column
  rw [hstart, hslice]

/-- The line of a place before it, with what stands around. -/
theorem exists_parts (h₀ : 0 ≤ p) (h₁ : p ≤ d.text.length) :
    ∃ before head : Text, d.text.takeTo p = before ++ head ∧ before.length = d.text.lineStart p ∧
      (∀ c, before.chars.back? = some c → c = '\n') ∧ (∀ c ∈ head.chars, c ≠ '\n') ∧
      d.column p = (head.chars.foldl (nextColumn d.tabWidth) 0 : Nat) := by
  have hstart := d.text.bound_lineStart p
  have hbound := bound_of_mem h₀ h₁
  have hle := lineStart_le (t := d.text) h₀
  have hstop := le_lineStop (t := d.text) h₀ h₁
  refine ⟨d.text.takeTo (d.text.lineStart p), d.text.slice (d.text.lineStart p) p, ?_, ?_,
    (d.text.cut_line p).before, ?_, rfl⟩
  · exact (takeTo_append_slice (by omega)).symm
  · exact length_takeTo (d.text.lineStart_nonneg p) (d.text.lineStart_le_length p)
  · intro c hc
    obtain ⟨i, h₁, h₂, hi⟩ := mem_slice hc
    obtain ⟨c', hc', hnot⟩ := char_of_between (t := d.text) p (i := i) (by omega) (by omega)
    cases hi.symm.trans hc'
    simpa [notNewline] using hnot

/-- The column of a place depends on what stands before it. -/
theorem column_eq_of_takeTo_eq (htab : e.tabWidth = d.tabWidth) (h₀ : 0 ≤ p)
    (h₁ : p ≤ d.text.length) (h : e.text.takeTo p = d.text.takeTo p) : e.column p = d.column p := by
  obtain ⟨before, head, htake, -, hbefore, hhead, hcol⟩ := exists_parts (d := d) h₀ h₁
  have hlen : before.length + head.length = p := by
    rw [← length_append, ← htake, length_takeTo h₀ h₁]
  have hparts : e.text = before ++ head ++ e.text.dropTo p := by
    rw [← htake, ← h, takeTo_append_dropTo]
  have hcol' := column_of_parts hparts hbefore hhead
  rw [hlen, htab] at hcol'
  rw [hcol', hcol]

/-- Blanks put in before a place move it by as many columns, when they are the only ones on its line
before it. -/
theorem column_moved {pads : Nat → Nat} {k : Nat} (htab : e.tabWidth = d.tabWidth)
    (htext : e.text = d.text.widen pads) (hk : k < d.text.chars.size)
    (hline : ∀ j, (d.text.lineStart k).toNat ≤ j → j < k → pads j = 0) :
    e.column (moved pads k) = d.column k + pads k := by
  have hlen : (k : Int) ≤ d.text.length := by unfold length; omega
  obtain ⟨before, head, htake, hstart, hbefore, hhead, hcol⟩ :=
    exists_parts (d := d) (Int.natCast_nonneg k) hlen
  have hsize : before.chars.size = (d.text.lineStart k).toNat := by
    unfold length at hstart
    omega
  have hsum : before.chars.size + head.chars.size = k := by
    rw [← Array.size_append, ← chars_append, ← htake, size_takeTo (by omega)]
  have hwide : (d.text.takeTo k).widenFrom pads 0 = before.widenFrom pads 0 ++ head := by
    rw [htake, widenFrom_append, Nat.zero_add, widenFrom_eq_self (t := head)]
    intro j h₁ h₂
    exact hline j (by omega) (by omega)
  obtain ⟨hbefore', -⟩ := takeTo_moved pads hk
  rw [hwide, append_assoc] at hbefore'
  have hmoved :
      ((before.widenFrom pads 0).length + (head ++ Text.replicate (pads k) ' ').length : Int) =
      moved pads k := by
    have hle : (moved pads k : Int) ≤ (d.text.widen pads).length := by
      rcases Array.getElem?_eq_some_iff.mp
        ((takeTo_moved pads hk).2.trans (Array.getElem?_eq_getElem hk)) with ⟨hlt, -⟩
      unfold length
      omega
    rw [← length_append, ← hbefore', length_takeTo (Int.natCast_nonneg _) hle]
  have hparts : e.text = before.widenFrom pads 0 ++ (head ++ Text.replicate (pads k) ' ') ++
      e.text.dropTo (moved pads k) := by
    rw [← hbefore', htext, takeTo_append_dropTo]
  have hlast : ∀ c, (before.widenFrom pads 0).chars.back? = some c → c = '\n' := by
    intro c hc
    rw [back?_widenFrom] at hc
    exact hbefore c hc
  have hline' : ∀ c ∈ (head ++ Text.replicate (pads k) ' ').chars, c ≠ '\n' := by
    intro c hc
    rw [chars_append, Array.mem_append] at hc
    rcases hc with hc | hc
    · exact hhead c hc
    · rw [Array.eq_of_mem_replicate hc]
      decide
  have hcol' := column_of_parts hparts hlast hline'
  have hblanks : '\t' ∉ List.replicate (pads k) ' ' :=
    fun h => absurd (List.eq_of_mem_replicate h) (by decide)
  have hfold : (List.replicate (pads k) ' ').foldl (nextColumn d.tabWidth)
      (head.chars.foldl (nextColumn d.tabWidth) 0) = _ := foldl_nextColumn hblanks _
  rw [List.length_replicate] at hfold
  rw [hmoved] at hcol'
  rw [hcol', hcol, htab, chars_append, Array.foldl_append]
  simp only [Text.replicate, ← Array.foldl_toList, Array.toList_replicate] at hfold ⊢
  rw [hfold]
  rfl

/-! ## Signs brought to a column -/

/-- The blanks that the signs lack to stand in a column. -/
def pads (d : Document) (target : Int) (signs : List Int) (k : Nat) : Nat :=
  if (k : Int) ∈ signs then (target - d.column k).toNat else 0

/-- The number of signs that lack blanks. -/
def lacking (d : Document) (target : Int) (signs : List Int) : Nat :=
  signs.countP fun p => decide (d.column p < target)

/-- The document with all blanks put in that the signs lack, as so many edits as there are signs
that lack some. -/
def padded (d : Document) (target : Int) (signs : List Int) : Document :=
  { d with text := d.text.widen (d.pads target signs),
           version := d.version + d.lacking target signs }

/-- Signs each on a line of its own. -/
structure Spread (d : Document) (signs : List Int) : Prop where
  /-- No two stand on one line. -/
  separate : d.text.Separate signs
  /-- Each stands before the end of its line. -/
  onLine : ∀ p ∈ signs, 0 ≤ p ∧ p < d.text.lineStop p

/-- Without the first sign, the others are still spread over lines of their own. -/
theorem Spread.tail (h : d.Spread (p :: signs)) : d.Spread signs :=
  ⟨(List.pairwise_cons.mp h.separate).2, fun q hq => h.onLine q (List.mem_cons_of_mem p hq)⟩

/-- A sign stands at a character of the text, and not at its end. -/
theorem Spread.lt_length (h : d.Spread signs) (hp : p ∈ signs) : p < d.text.length := by
  have := (h.onLine p hp).2
  have := d.text.lineStop_le_length p
  omega

/-- Up to the end of the first sign's line no other sign lacks blanks. -/
theorem pads_eq_zero (h : d.Spread (p :: signs)) {k : Nat} (hk : k ≤ (d.text.lineStop p).toNat) :
    d.pads target signs k = 0 := by
  refine if_neg fun hmem => ?_
  have hsep := (List.pairwise_cons.mp h.separate).1 k hmem
  have hle := lineStart_le (t := d.text) (Int.natCast_nonneg k)
  have hp := h.onLine p List.mem_cons_self
  omega

/-- The blanks before a place do not depend on a sign at another place. -/
theorem pads_cons_of_ne {k : Nat} (h : (k : Int) ≠ p) :
    d.pads target (p :: signs) k = d.pads target signs k := by
  unfold pads
  simp [h]

/-- Before a sign there are as many blanks as it lacks, and none when it stands right of the
column. -/
theorem pads_self {k : Nat} (h : (k : Int) ∈ signs) :
    d.pads target signs k = (target - d.column k).toNat :=
  if_pos h

/-- A sign left of the column is one more that lacks blanks. -/
theorem lacking_cons_of_lt (h : d.column p < target) :
    d.lacking target (p :: signs) = d.lacking target signs + 1 :=
  List.countP_cons_of_pos (by simpa using h)

/-- A sign that is in the column already, or right of it, lacks no blanks. -/
theorem lacking_cons_of_not_lt (h : ¬ d.column p < target) :
    d.lacking target (p :: signs) = d.lacking target signs :=
  List.countP_cons_of_neg (by simpa using h)

/-- Where there are no signs nothing is put in. -/
theorem padded_nil (d : Document) (target : Int) : d.padded target [] = d := by
  have hpads : d.text.widen (d.pads target []) = d.text :=
    widenFrom_eq_self fun k _ _ => if_neg List.not_mem_nil
  unfold padded
  rw [hpads]
  rfl

/-- Up to the first sign the text is as it was, and so is its column. -/
theorem column_padded (h : d.Spread (p :: signs)) :
    (d.padded target signs).column p = d.column p := by
  obtain ⟨h₀, h₁⟩ := h.onLine p List.mem_cons_self
  have hlt := h.lt_length List.mem_cons_self
  refine column_eq_of_takeTo_eq rfl h₀ (Int.le_of_lt hlt) ?_
  obtain ⟨k, rfl⟩ := Int.eq_ofNat_of_zero_le h₀
  exact takeTo_widen (by unfold length at hlt; omega) fun j hj => pads_eq_zero h (by omega)

/-- Putting in the blanks that the first sign lacks, after those of all others. -/
theorem insertText_padded (h : d.Spread (p :: signs)) (hlt : d.column p < target) :
    (d.padded target signs).insertText p (Text.replicate (target - d.column p).toNat ' ') =
      d.padded target (p :: signs) := by
  obtain ⟨h₀, h₁⟩ := h.onLine p List.mem_cons_self
  have hlen := h.lt_length List.mem_cons_self
  obtain ⟨k, rfl⟩ := Int.eq_ofNat_of_zero_le h₀
  have hput : _ = d.text.widen (d.pads target (k :: signs)) := widen_put (t := d.text) (k := k)
    (by unfold length at hlen; omega) (fun j hj => pads_eq_zero h (by omega)) fun j hj =>
      pads_cons_of_ne (by omega)
  rw [pads_self List.mem_cons_self] at hput
  unfold insertText replaceRange padded
  rw [lacking_cons_of_lt hlt, ← hput]
  rfl

/-- A sign that lacks no blanks makes no edit. -/
theorem padded_cons_of_not_lt (h : ¬ d.column p < target) :
    d.padded target (p :: signs) = d.padded target signs := by
  have hpads : d.pads target (p :: signs) = d.pads target signs := by
    funext k
    by_cases hk : (k : Int) = p
    · subst hk
      rw [pads_self List.mem_cons_self]
      unfold pads
      split <;> omega
    · exact pads_cons_of_ne hk
  unfold padded
  rw [hpads, lacking_cons_of_not_lt h]

/-- A sign that is brought to a column after those behind it gets the blanks that it lacked at
first. -/
theorem padSign_padded (target : Int) (h : d.Spread (p :: signs)) :
    padSign target (d.padded target signs, d.lacking target signs) p =
      (d.padded target (p :: signs), d.lacking target (p :: signs)) := by
  unfold padSign
  simp only [column_padded h]
  by_cases hlt : d.column p < target
  · rw [if_pos (by omega), insertText_padded h hlt, lacking_cons_of_lt hlt]
  · rw [if_neg (by omega), padded_cons_of_not_lt hlt, lacking_cons_of_not_lt hlt]

/-- The line of the first sign, in the text and when the blanks of the other signs, or of all of
them, have been put in: the blanks of the others are put in further down. -/
theorem cut_padded (h : d.Spread (p :: signs)) (hlt : d.column p < target) :
    ∃ before line line' after after', d.text.Cut before line after ∧
      (d.padded target signs).text.Cut before line after' ∧
      (d.padded target (p :: signs)).text.Cut before line' after' ∧
      line.chars.size < line'.chars.size := by
  obtain ⟨h₀, h₁⟩ := h.onLine p List.mem_cons_self
  have hle := lineStart_le (t := d.text) h₀
  have hnonneg := d.text.lineStart_nonneg p
  have hcut := d.text.cut_line p
  have hsize : (d.text.takeTo (d.text.lineStart p)).length = d.text.lineStart p :=
    length_takeTo hnonneg (d.text.lineStart_le_length p)
  have hsum : d.text.lineStop p = _ := hcut.lineStop_eq hsize.symm
  generalize d.text.takeTo (d.text.lineStart p) = before at hcut hsize hsum
  generalize d.text.slice (d.text.lineStart p) (d.text.lineStop p) = line at hcut hsum
  generalize d.text.dropTo (d.text.lineStop p) = after at hcut
  unfold length at hsize hsum
  have hothers : ∀ k, k ≤ before.chars.size + line.chars.size → d.pads target signs k = 0 :=
    fun k hk =>
    pads_eq_zero h (by omega)
  have hne : ∀ k, k ≠ p.toNat → d.pads target (p :: signs) k = d.pads target signs k := fun k hk =>
    pads_cons_of_ne (by omega)
  have hself : d.pads target (p :: signs) p.toNat = (target - d.column p).toNat := by
    rw [pads_self (by rw [Int.toNat_of_nonneg h₀]; exact List.mem_cons_self),
      Int.toNat_of_nonneg h₀]
  have hbefore : ∀ qs, (∀ k, k < before.chars.size → d.pads target qs k = 0) →
      before.widenFrom (d.pads target qs) 0 = before := fun qs hqs =>
    widenFrom_eq_self fun k _ hk => hqs k (by omega)
  have hcut₁ := hcut.widen (hothers _ (Nat.le_refl _))
  have hcut₂ : (d.text.widen (d.pads target (p :: signs))).Cut _ _ _ :=
    hcut.widen ((hne _ (by omega)).trans (hothers _ (Nat.le_refl _)))
  rw [hbefore signs fun k hk => hothers k (by omega),
    widenFrom_eq_self (t := line) fun k _ hk => hothers k (by omega)] at hcut₁
  rw [hbefore (p :: signs) fun k hk => (hne k (by omega)).trans (hothers k (by omega)),
    widenFrom_congr (t := after) fun k hk _ => hne k (by omega)] at hcut₂
  refine ⟨before, line, _, after, _, hcut, hcut₁, hcut₂, ?_⟩
  have hpos : 0 < ((List.range' before.chars.size line.chars.size).map
      (d.pads target (p :: signs))).sum := by
    refine List.sum_pos_iff_exists_pos_nat.mpr
      ⟨_, List.mem_map.mpr ⟨p.toNat, List.mem_range'_1.mpr (by omega), rfl⟩, ?_⟩
    omega
  rw [size_widenFrom]
  omega

/-- Each sign that lacks blanks is on a line that changes. -/
theorem changedLines_padded (h : d.Spread signs) :
    d.text.changedLines (d.padded target signs).text = d.lacking target signs := by
  induction signs with
  | nil =>
    rw [padded_nil, changedLines_self]
    rfl
  | cons p signs ih =>
    by_cases hlt : d.column p < target
    · obtain ⟨before, line, line', after, after', hcut, hothers, hall, hsize⟩ := cut_padded h hlt
      rw [lacking_cons_of_lt hlt, hcut.changedLines_eq hothers hall, ih h.tail]
      rintro rfl
      omega
    · rw [padded_cons_of_not_lt hlt, lacking_cons_of_not_lt hlt, ih h.tail]

/-- Two signs on one line are one. -/
theorem Spread.eq_of_lineStart_eq (h : d.Spread signs) (hp : p ∈ signs) (hq : q ∈ signs)
    (hline : d.text.lineStart p = d.text.lineStart q) : p = q := by
  have hdiff : signs.Pairwise fun a b => d.text.lineStart a ≠ d.text.lineStart b := by
    refine h.separate.imp fun {a b} hab heq => ?_
    have := d.text.lineStart_le_lineStop a
    omega
  have : Std.Symm fun a b => d.text.lineStart a ≠ d.text.lineStart b := ⟨fun _ _ hab => hab.symm⟩
  by_contra hne
  exact hdiff.forall hp hq hne hline

/-- A place that no sign of its line stands before moves by the blanks put in there. -/
theorem column_moved_padded (h₀ : 0 ≤ q) (h₁ : q < d.text.length)
    (hline : ∀ p ∈ signs, d.text.lineStart p = d.text.lineStart q → q ≤ p) :
    (d.padded target signs).column (moved (d.pads target signs) q.toNat) =
      d.column q + d.pads target signs q.toNat := by
  obtain ⟨k, rfl⟩ := Int.eq_ofNat_of_zero_le h₀
  rw [Int.toNat_natCast]
  refine column_moved rfl rfl (by unfold length at h₁; omega) fun j hj hlt => if_neg fun hmem => ?_
  have hstop := le_lineStop (t := d.text) h₀ (Int.le_of_lt h₁)
  have := hline j hmem (lineStart_eq_of_between (by omega) (by omega))
  omega

/-- Every sign reaches the column. -/
theorem column_moved_sign (h : d.Spread signs) (hp : p ∈ signs) (hle : d.column p ≤ target) :
    (d.padded target signs).column (moved (d.pads target signs) p.toNat) = target := by
  have h₀ := (h.onLine p hp).1
  have hpads : d.pads target signs p.toNat = (target - d.column p).toNat := by
    rw [pads_self (by rwa [Int.toNat_of_nonneg h₀]), Int.toNat_of_nonneg h₀]
  rw [column_moved_padded h₀ (h.lt_length hp)
    fun q hq hline => Int.le_of_eq (h.eq_of_lineStart_eq hp hq hline.symm), hpads]
  omega

/-- When no sign lacks blanks the document stays as it is, version included. -/
theorem padded_eq_self (h : d.lacking target signs = 0) : d.padded target signs = d := by
  have hnone : ∀ p ∈ signs, ¬ d.column p < target := by
    intro p hp hlt
    exact List.countP_eq_zero.mp h p hp (by simpa using hlt)
  have hpads : d.text.widen (d.pads target signs) = d.text := by
    refine widenFrom_eq_self fun k _ _ => ?_
    unfold pads
    split
    · next hmem =>
      have := hnone k hmem
      omega
    · rfl
  unfold padded
  rw [hpads, h]
  rfl

/-! ## Alignment -/

/-- The column at which signs are aligned is that of the rightmost one, or the least one for
right-hand sides. -/
theorem alignColumn_eq (s : Settings) (sign : AlignSign) {widest : Int}
    (h : (signs.map d.column).max? = some widest) : d.alignColumn s sign signs = match sign with
      | .guard => widest
      | .rhs => max widest s.rhsAlignColumn := by
  have hfold : signs.foldl (fun col p => max col (d.column p)) 0 = widest := by
    have hmax : (signs.map d.column).foldl max 0 = max 0 widest := by
      rw [List.foldl_max, h]
      rfl
    obtain ⟨p, -, hp⟩ := List.mem_map.mp (List.max?_mem h)
    have hcolumn : 0 ≤ d.column p := Int.natCast_nonneg _
    rw [List.foldl_map] at hmax
    rw [hmax]
    omega
  unfold alignColumn
  cases sign <;> simp only [hfold]

/-- No sign stands right of the column at which it is aligned, so alignment never takes blanks
out. -/
theorem column_le_alignColumn (s : Settings) (sign : AlignSign) (hp : p ∈ signs) :
    d.column p ≤ d.alignColumn s sign signs := by
  obtain ⟨widest, hwidest⟩ : ∃ widest, (signs.map d.column).max? = some widest := by
    cases hmax : (signs.map d.column).max? with
    | some widest => exact ⟨widest, rfl⟩
    | none =>
      rw [List.max?_eq_none_iff, List.map_eq_nil_iff] at hmax
      subst hmax
      cases hp
  have hle : d.column p ≤ widest :=
    (List.max?_le_iff hwidest).mp (Int.le_refl _) _ (List.mem_map_of_mem hp)
  rw [alignColumn_eq s sign hwidest]
  cases sign <;> simp only <;> omega

/-- The signs that are aligned stand each on a line of its own. -/
theorem spread_alignedSigns {s : Settings} {sign : AlignSign} {pos : Int}
    (h : d.alignedSigns s sign pos = .ok signs) : d.Spread signs := by
  obtain ⟨hseparate, hsigns⟩ := (d.alignedSigns_yields s sign pos).of_eq h
  refine ⟨hseparate, fun q hq => ?_⟩
  obtain ⟨p, hp⟩ := hsigns q hq
  rw [hp.lineStop_eq]
  exact ⟨hp.nonneg, hp.bounds.2⟩

/-- Signs are moved one after another as far as their blanks can be made. When all can be made the
blanks are put in, and otherwise there is a fault. -/
theorem padSigns_eq [Platform] (target : Int) (h : d.Spread signs) :
    ((∀ p ∈ signs, target - d.column p < Platform.runLimit) ∧
        d.padSigns target signs = (d.padded target signs, .ok (d.lacking target signs))) ∨
      (¬∀ p ∈ signs, target - d.column p < Platform.runLimit) ∧
        ∃ e, (d.padSigns target signs).2 = .error e := by
  unfold padSigns
  rw [List.foldl_reverse]
  -- the signs behind one are moved before it, which leaves it where it was
  induction signs with
  | nil => exact .inl ⟨by simp, by rw [padded_nil]; rfl⟩
  | cons p rest ih =>
    rw [List.foldr_cons, List.forall_mem_cons]
    have hbehind := ih h.tail
    generalize rest.foldr (fun x y => tryPadSign target y x) (d, .ok 0) = acc at hbehind
    rcases hbehind with ⟨hrest, rfl⟩ | ⟨hrest, e, he⟩
    · have hmoved := padSign_padded target h
      unfold tryPadSign
      simp only [column_padded h, hmoved]
      by_cases hp : target - d.column p < Platform.runLimit
      · rw [checkRun_eq_ok.mpr hp]
        exact .inl ⟨⟨hp, hrest⟩, rfl⟩
      · refine .inr ⟨fun hall => hp hall.1, ?_⟩
        cases hcheck : checkRun (target - d.column p) with
        | error e => exact ⟨e, rfl⟩
        | ok _ => exact absurd (checkRun_eq_ok.mp hcheck) hp
    · refine .inr ⟨fun hall => hrest hall.2, e, ?_⟩
      unfold tryPadSign
      rw [he]

/-- Alignment moves the signs that it finds, and gives the document as that leaves it. -/
theorem align_result [Platform] {s : Settings} {sign : AlignSign} {pos : Int}
    (h : d.alignedSigns s sign pos = .ok signs) :
    (d.align s sign pos).result =
      (d.padSigns (d.alignColumn s sign signs) signs).2.map fun changed =>
        ((d.padSigns (d.alignColumn s sign signs) signs).1, changed) := by
  unfold align alignOutcome
  rw [h]
  cases hempty : signs with
  | nil => rfl
  | cons p rest =>
    rw [← hempty]
    have hne : signs.isEmpty = false := by rw [hempty]; rfl
    simp only [hne, Bool.false_eq_true, if_false, Noted.bind_result, Noted.lift_result]
    cases (d.padSigns (d.alignColumn s sign signs) signs).2 <;> rfl

/-- Alignment succeeds exactly when the blanks can be made, and puts them in. -/
theorem align_eq_ok_iff [Platform] {s : Settings} {sign : AlignSign} {pos : Int}
    {r : Document × Nat} (h : d.alignedSigns s sign pos = .ok signs) :
    (d.align s sign pos).result = .ok r ↔
      (∀ p ∈ signs, d.alignColumn s sign signs - d.column p < Platform.runLimit) ∧
        (d.padded (d.alignColumn s sign signs) signs,
          d.lacking (d.alignColumn s sign signs) signs) = r := by
  rw [align_result h]
  rcases padSigns_eq (d.alignColumn s sign signs) (spread_alignedSigns h) with
    ⟨hall, hpadded⟩ | ⟨hnot, e, he⟩
  · rw [hpadded]
    simp only [Except.map, Except.ok.injEq]
    exact (and_iff_right hall).symm
  · rw [he]
    exact iff_of_false nofun fun hall => hnot hall.1

/-- Alignment finds its signs in every document, each on a line of its own, and it succeeds exactly
when the blanks that the signs lack can be made. Then the text is the old one with those blanks, and
nothing else, put in: before each sign as many as bring it to the column of the rightmost one, or
for right-hand sides to the least column when that is further right. Every character is still there,
on its line; every sign stands in that column; the number is that of the lines that differ, as many
edits were made, and it is zero exactly when text and version are the same as before. -/
theorem align_widens [Platform] (d : Document) (s : Settings) (sign : AlignSign) (pos : Int) :
    ∃ signs target, d.alignedSigns s sign pos = .ok signs ∧
      d.text.Separate signs ∧ (∀ p ∈ signs, 0 ≤ p ∧ p < d.text.lineStop p) ∧
      (∀ widest, (signs.map d.column).max? = some widest →
        target = match sign with
          | .guard => widest
          | .rhs => max widest s.rhsAlignColumn) ∧
      ((∃ r, (d.align s sign pos).result = .ok r) ↔
        ∀ p ∈ signs, target - d.column p < Platform.runLimit) ∧
      ∀ e n, (d.align s sign pos).result = .ok (e, n) →
        e = { d with text := d.text.widen (d.pads target signs), version := d.version + n } ∧
        (∀ k < d.text.chars.size, e.text.chars[moved (d.pads target signs) k]? = d.text.chars[k]? ∧
          e.text.newlinesBefore (moved (d.pads target signs) k) = d.text.newlinesBefore k) ∧
        (∀ p ∈ signs, e.column (moved (d.pads target signs) p.toNat) = target) ∧
        e.text.lineCount = d.text.lineCount ∧ n = d.text.changedLines e.text ∧
        (n = 0 ↔ e.text = d.text ∧ e.version = d.version) := by
  obtain ⟨signs, hsigns, -⟩ := d.alignedSigns_yields s sign pos
  have hspread := spread_alignedSigns hsigns
  have hresult := fun r => align_eq_ok_iff (r := r) hsigns
  generalize htarget : d.alignColumn s sign signs = target at hresult
  refine ⟨signs, target, hsigns, hspread.separate, hspread.onLine, ?_, ?_, ?_⟩
  · intro widest hwidest
    rw [← htarget, alignColumn_eq s sign hwidest]
  · constructor
    · rintro ⟨r, hr⟩
      exact ((hresult r).mp hr).1
    · intro hrun
      exact ⟨_, (hresult _).mpr ⟨hrun, rfl⟩⟩
  · intro e n hen
    obtain ⟨-, hpair⟩ := (hresult _).mp hen
    cases hpair
    refine ⟨rfl, fun k hk => ⟨(takeTo_moved _ hk).2, newlinesBefore_widen _ hk⟩, ?_,
      lineCount_widen _ _, (changedLines_padded hspread).symm, ?_⟩
    · intro p hp
      exact column_moved_sign hspread hp (htarget ▸ column_le_alignColumn s sign hp)
    · constructor
      · intro hzero
        rw [padded_eq_self hzero]
        exact ⟨rfl, rfl⟩
      · rintro ⟨-, hversion⟩
        have hversion : d.version + d.lacking target signs = d.version := hversion
        omega

/-- Two guards, the first of them after a tab. -/
def raggedGuards : Document := .new (Text.ofString "> f\t| a\n>    | b\n") .bird 8

/-- The second guard is brought under the first, in column eight. -/
theorem align_widens_raggedGuards :
    ∃ e, (raggedGuards.align {} .guard 0).result = .ok (e, 1) ∧
      e.text = Text.ofString "> f\t| a\n>       | b\n" ∧
      ∀ p ∈ ([4, 13] : List Int), e.column (moved (raggedGuards.pads 8 [4, 13]) p.toNat) = 8 := by
  obtain ⟨signs, target, hsigns, -, -, htarget, hruns, hframe⟩ :=
    align_widens raggedGuards {} .guard 0
  have hfound : raggedGuards.alignedSigns {} .guard 0 = .ok [4, 13] := by decide +kernel
  cases hsigns.symm.trans hfound
  cases htarget 8 (by decide +kernel)
  obtain ⟨⟨e, n⟩, hresult⟩ := hruns.mpr (by decide +kernel)
  obtain ⟨hdoc, -, hcolumn, -, hchanged, -⟩ := hframe e n hresult
  have htext : e.text = Text.ofString "> f\t| a\n>       | b\n" := by
    rw [hdoc]
    show raggedGuards.text.widen (raggedGuards.pads 8 [4, 13]) = _
    decide +kernel
  have hone : n = 1 := by
    rw [hchanged, htext]
    decide +kernel
  subst hone
  exact ⟨e, hresult, htext, hcolumn⟩

end Document

end LayoutRule
