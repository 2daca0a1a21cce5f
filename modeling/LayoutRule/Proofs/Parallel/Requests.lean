import LayoutRule.Proofs.Parallel.Columns
import LayoutRule.Proofs.Parallel.Keywords
import LayoutRule.Proofs.Request.Measured

/-!
# Requests in parallel documents

Requests for corresponding stretches of parallel documents take the same notes and find
corresponding candidates (`Parallel.Ready.candidatesWithin`). A stretch is *ready* when columns
correspond on all lines that the request may measure and when it looks at nothing past the ends:
either the whole documents are compared, or the place of the request is clear of comments, and then
so are the places of the requests made inside it.

A request for code measures the opener of a keyword, the last code before its place and the
innermost open bracket. Where columns correspond at these, stretches *face* each other, and what the
request finds is related as soon as that holds below the contours (`Parallel.Facing.codeLine`);
other lines before its place need not be the same.
-/

namespace LayoutRule

namespace Parallel

open Text Document

variable {s : Settings} {d e : Document} {C : Parallel s d e}
  {a b l m start start' stop stop' : Int}

/-! ## Stretches -/

/-- The documents are compared to their ends. -/
structure Whole (C : Parallel s d e) : Prop where
  end₁ : C.end₁ = d.text.length
  end₂ : C.end₂ = e.text.length

/-- Moreover, columns correspond on all lines. -/
structure Total (C : Parallel s d e) : Prop extends C.Whole where
  free : ∀ {n x y}, C.Line n x y → x < C.free

/-- Corresponding stretches for which requests give the same. -/
structure Ready (C : Parallel s d e) (start start' stop stop' : Int) : Prop where
  first : C.Place start start'
  last : C.Place stop stop'
  le : start ≤ stop
  /-- The column of the start corresponds. -/
  startFree : d.text.lineStart start < C.free
  /-- So do the columns of all places before the end. -/
  free : ∀ {p q}, C.Place p q → p < stop → d.text.lineStart p < C.free
  /-- At the end the column corresponds, or nothing but indentation stands before it. -/
  here : d.text.lineStart stop < C.free ∨ stop = d.indentationPoint stop
  /-- Nothing behind the end is looked at that may differ. -/
  ahead : C.Total ∨ d.Clear start stop

namespace Ready

/-- Counterparts before the end of a stretch that is ready stand on lines that were not moved. -/
theorem fixed (h : C.Ready start start' stop stop') (hp : C.Place a b) (hlt : a < stop) :
    C.Fixed a b :=
  ⟨hp, h.free hp hlt⟩

/-- So do the starts of the stretches. -/
theorem startFixed (h : C.Ready start start' stop stop') : C.Fixed start start' :=
  ⟨h.first, h.startFree⟩

/-- All lines above a place of a stretch that is ready are lines that were not moved. -/
theorem line_free (h : C.Ready start start' stop stop') {n : Nat} {x y : Int} (hline : C.Line n x y)
    (hle : a ≤ stop) (ha : 0 ≤ a) (hlt : x < d.text.lineStart a) : x < C.free := by
  have hstart := lineStart_le (t := d.text) ha
  have hpoint := hline.point
  have hbounds := hline.point_le
  have hbelow := lineStop_lt_lineStart (t := d.text) hline.nonneg.1 hlt
  have hfree := h.free hpoint (by omega)
  rw [d.lineStart_indentationPoint, hline.starts.1] at hfree
  exact hfree

end Ready

/-- Lines that are not below a line where columns correspond. -/
theorem Fixed.lineStart_lt (h : C.Fixed a b) (hp : C.Place l m) (hle : l ≤ a) :
    d.text.lineStart l < C.free :=
  Int.lt_of_le_of_lt (lineStart_le_lineStart hp.bounds.1 hle h.1.bounds.2.1) h.2

/-- A stretch that ends where columns correspond. -/
theorem Fixed.ready (h : C.Fixed a b) (hs : C.Place l m) (hle : l ≤ a)
    (hahead : C.Total ∨ d.Clear l a) : C.Ready l m a b where
  first := hs
  last := h.1
  le := hle
  startFree := h.lineStart_lt hs hle
  free hp hlt := h.lineStart_lt hp (Int.le_of_lt hlt)
  here := .inl h.2
  ahead := hahead

/-- Where a request that measures a place starts: known, or at the start of the definition. -/
inductive Begins (C : Parallel s d e) (a b : Int) : Option Int → Option Int → Prop where
  | known {i j : Int} (h : C.Ready i j a b) : Begins C a b (some i) (some j)
  | sought {i j : Int} (hd : d.definitionStart s a = .ok i) (he : e.definitionStart s b = .ok j)
      (h : C.Ready i j a b) : Begins C a b none none

/-- Nested requests that find corresponding candidates. -/
def SameNested (C : Parallel s d e) (nested nested' : Bool → Int → Int → Noted (List Candidate)) :
    Prop :=
  ∀ inhibit {start start' stop stop' : Int}, C.Ready start start' stop stop' →
    Noted.Same C.SameCandidates (nested inhibit start stop) (nested' inhibit start' stop')

/-! ## Hanging keywords -/

variable {inhibit : Bool} {nested nested' : Bool → Int → Int → Noted (List Candidate)}

/-- At counterparts the same lexeme is read. -/
theorem Place.readLexeme (h : C.Place a b) :
    d.text.readLexeme a = .ok (d.text.lexemeAt a) ∧
    e.text.readLexeme b = .ok (d.text.lexemeAt a) := by
  obtain ⟨h₁, h₂, h₃, h₄, -⟩ := h.bounds
  unfold Text.readLexeme
  rw [checkStart_of_mem h₁ h₂, checkStart_of_mem h₃ h₄, ← h.agree.lexemeAt]
  exact ⟨rfl, rfl⟩

/-- Behind a lexeme, or one character further. -/
theorem Place.past_lexeme (h : C.Place a b) :
    C.Past (a + max ((d.text.lexemeAt a).length : Int) 1)
      (b + max ((d.text.lexemeAt a).length : Int) 1) := by
  have hlength := d.text.length_lexemeAt a
  have hle := d.text.le_lexemeStop (d.text.clamp a)
  have hclamp := h.clamp_eq
  rcases Int.lt_or_le 0 ((d.text.lexemeAt a).length : Int) with hpos | hzero
  · have hreach := h.reach hle (.lexemeStop d.text _)
    rw [show a + max ((d.text.lexemeAt a).length : Int) 1 =
      (d.text.lexemeStop (d.text.clamp a) : Int) by omega,
      show b + max ((d.text.lexemeAt a).length : Int) 1 =
        ((e.text.clamp b + (d.text.lexemeStop (d.text.clamp a) - d.text.clamp a) : Nat) : Int) by
          omega]
    exact .inl (.inl hreach)
  · rw [show max ((d.text.lexemeAt a).length : Int) 1 = 1 by omega]
    cases hc : d.text.charAt? a with
    | some c => exact h.past_succ hc
    | none =>
      obtain ⟨h₁, h₂, h₃⟩ := h.beyond_of_none hc
      have hbounds := h.bounds
      rw [show a = d.text.length by omega, show b = e.text.length by omega]
      exact .inr h₃

/-- Counterparts hang both or not. -/
theorem Place.hangs (h : C.Place a b) (inhibit : Bool)
    (nested nested' : Bool → Int → Int → Noted (List Candidate)) :
    ∃ hanging, Request.hangs ⟨d, s, inhibit, nested⟩ a = .ok hanging ∧
      Request.hangs ⟨e, s, inhibit, nested'⟩ b = .ok hanging := by
  have hbounds := h.bounds
  unfold Request.hangs
  dsimp only
  rw [h.isFirstOnLine, h.readLexeme.1, h.readLexeme.2]
  split
  · exact ⟨false, rfl, rfl⟩
  rw [ok_bind, ok_bind]
  split
  · exact ⟨false, rfl, rfl⟩
  obtain ⟨i, j, hi, hj, hlands⟩ := Past.skipGap h.past_lexeme (by omega) (by omega)
  rw [hi, hj, ok_bind, ok_bind]
  refine ⟨decide (d.text.lineStop a ≤ i), rfl, congrArg Except.ok (decide_eq_decide.mpr ?_)⟩
  rcases hlands with hplace | hbeyond
  · exact h.stop.le_iff hplace
  · have h₁ := h.stop.le_end
    have h₂ := hbeyond.1
    have h₃ := hbeyond.2
    omega

/-- The virtual columns of counterparts. -/
theorem Fixed.virtualColumn (hn : C.SameNested nested nested') (h : C.Fixed a b)
    {from? from?' : Option Int} (hb : C.Begins a b from? from?') :
    Noted.Same C.SameColumn (Request.virtualColumn ⟨d, s, inhibit, nested⟩ a from?)
      (Request.virtualColumn ⟨e, s, inhibit, nested'⟩ b from?') := by
  obtain ⟨hanging, hd, he⟩ := h.1.hangs inhibit nested nested'
  have hrest : ∀ {i j : Int}, C.Ready i j a b →
      Noted.Same C.SameColumn
        (do let cs ← nested (← Request.hangs ⟨d, s, inhibit, nested⟩ a) i a
            return Request.nearestLeft cs (d.column a) : Noted Int)
        (do let cs ← nested' (← Request.hangs ⟨e, s, inhibit, nested'⟩ b) j b
            return Request.nearestLeft cs (e.column b) : Noted Int) := by
    intro i j hready
    refine .bind_ok hd he ?_
    exact (hn hanging hready).bind fun cs cs' hcs => .pure (hcs.nearestLeft h.column)
  unfold Request.virtualColumn
  dsimp only
  rw [h.1.isFirstOnLine]
  split
  · exact .pure h.column
  cases hb with
  | known hready => exact hrest hready
  | sought hstart hstart' hready =>
    exact .bind_ok hstart hstart' (hrest hready)

/-- What goes by the columns of counterparts that may hang. -/
theorem Fixed.openerColumn {α β : Type} {R : α → β → Prop} {f : Int → Noted α} {g : Int → Noted β}
    (hn : C.SameNested nested nested') (h : C.Fixed a b) {from? from?' : Option Int}
    (hb : Request.hangs ⟨d, s, inhibit, nested⟩ a = .ok true → C.Begins a b from? from?')
    (hf : ∀ {col col'}, C.SameColumn col col' → Noted.Same R (f col) (g col')) :
    Noted.Same R
      (do if ← Request.hangs ⟨d, s, inhibit, nested⟩ a then
            let col ← Request.virtualColumn ⟨d, s, inhibit, nested⟩ a from?
            f col
          else
            let col ← pure (d.column a)
            f col)
      (do if ← Request.hangs ⟨e, s, inhibit, nested'⟩ b then
            let col ← Request.virtualColumn ⟨e, s, inhibit, nested'⟩ b from?'
            g col
          else
            let col ← pure (e.column b)
            g col) := by
  obtain ⟨hanging, hd, he⟩ := h.1.hangs inhibit nested nested'
  refine .bind_ok hd he ?_
  split
  · next htrue =>
    rw [htrue] at hd
    exact (h.virtualColumn hn (hb hd)).bind fun col col' hcol => hf hcol
  · exact (Noted.Same.pure h.column).bind fun col col' hcol => hf hcol

/-- The columns of blocks below counterparts. -/
theorem Fixed.blockColumn (hn : C.SameNested nested nested') (h : C.Fixed a b)
    {from? from?' : Option Int}
    (hb : Request.hangs ⟨d, s, inhibit, nested⟩ a = .ok true → C.Begins a b from? from?')
    (default : Option Int) (hdefault : ∀ offset ∈ default, 0 ≤ offset) :
    Noted.Same C.SameColumn (Request.blockColumn ⟨d, s, inhibit, nested⟩ a from? none default)
      (Request.blockColumn ⟨e, s, inhibit, nested'⟩ b from?' none default) := by
  obtain ⟨hanging, hd, he⟩ := h.1.hangs inhibit nested nested'
  have hgetD : ∀ x : Option Int, (∀ offset, x = some offset → C.shift = 0 ∨ 0 ≤ offset) →
      C.shift = 0 ∨ 0 ≤ x.getD (default.getD s.indentStep) := by
    intro x hx
    cases x with
    | some offset => exact hx offset rfl
    | none =>
      cases default with
      | none => exact C.indentStep_nonneg
      | some offset => exact .inr (hdefault offset rfl)
  unfold Request.blockColumn Request.offsetAt?
  dsimp only
  rw [h.1.readLexeme.1, h.1.readLexeme.2, if_neg (by decide), if_neg (by decide)]
  refine .bind_ok rfl rfl ?_
  generalize hoffsets : s.keywordOffset? (d.text.lexemeAt a) = offsets
  have hright : ∀ offset,
      (if inhibit then (⟨some 0, none⟩ : KeywordOffset) else offsets.getD ⟨none, none⟩).offset =
          some offset ∨
        (if inhibit then (⟨some 0, none⟩ : KeywordOffset) else offsets.getD ⟨none, none⟩).hanging =
          some offset →
      C.shift = 0 ∨ 0 ≤ offset := by
    intro offset hoffset
    cases inhibit with
    | true =>
      rcases hoffset with hoffset | hoffset <;> cases hoffset
      exact .inr (Int.le_refl 0)
    | false =>
      cases offsets with
      | none => rcases hoffset with hoffset | hoffset <;> cases hoffset
      | some o => exact (C.keywordOffset_nonneg hoffsets).imp_right fun hall => hall offset hoffset
  generalize (if inhibit then (⟨some 0, none⟩ : KeywordOffset) else offsets.getD ⟨none, none⟩) = o
    at hright ⊢
  refine .bind_ok hd he ?_
  split
  · next htrue =>
    rw [htrue] at hd
    refine (h.virtualColumn hn (hb hd)).bind fun base base' hbase =>
      .pure (hbase.add (hgetD _ fun offset hsome => ?_))
    cases hhanging : o.hanging with
    | some v =>
      rw [hhanging] at hsome
      exact hright offset (.inr (hhanging.trans hsome))
    | none =>
      rw [hhanging] at hsome
      exact hright offset (.inl hsome)
  · exact .pure (h.column.add (hgetD _ fun offset hsome => hright offset (.inl hsome)))

/-! ## The keyword before a place -/

/-- Names are left backward alike. -/
theorem Place.retreatName {a b : Int} (h : C.Place a b) (hl : C.Place l m) (hle : l ≤ a) :
    ∃ i, retreat (fun k => (d.text.read k).map isNameChar) l a = .ok i ∧
      retreat (fun k => (e.text.read k).map isNameChar) m b = .ok (b - (a - i)) ∧
        C.Place i (b - (a - i)) ∧ l ≤ i ∧ i ≤ a ∧
      ∀ k, i ≤ k → k < a → ∃ c, d.text.charAt? k = some c ∧ isNameChar c = true := by
  have hiff := hl.lt_iff h
  have hbounds := h.bounds
  have hbounds' := hl.bounds
  have hhere : C.Place a (b - (a - a)) := by rw [show b - (a - a) = b by omega]; exact h
  rcases Int.lt_or_eq_of_le hle with hlt | rfl
  · obtain ⟨c, hread, hc⟩ := read_yields (t := d.text) (i := a - 1) (by omega) (by omega)
    obtain ⟨c', hread', hc'⟩ := read_yields (t := e.text) (i := b - 1) (by omega) (by omega)
    have hchar : d.text.charAt? (a - 1) = some c := (charAt?_eq (by omega)).trans hc
    have hchar' : e.text.charAt? (b - 1) = some c' := (charAt?_eq (by omega)).trans hc'
    rw [retreat.eq_def _ l a, retreat.eq_def _ m b, if_pos (by omega), if_pos (by omega),
      hread, hread']
    simp only [Except.map]
    by_cases hfirst : a = d.indentationPoint a
    · -- no name ends right before the code of a line
      have hfirst' : b = e.indentationPoint b := by have := h.offset; omega
      rw [hfirst] at hchar
      rw [hfirst'] at hchar'
      rw [d.not_isNameChar_before_point a hchar, e.not_isNameChar_before_point b hchar']
      exact ⟨a, rfl, by simp, hhere, hle, Int.le_refl a, fun k h₁ h₂ => by omega⟩
    · have hpred := h.pred hfirst
      have hsame := hpred.char
      rw [hchar, hchar'] at hsame
      cases hsame
      cases hname : isNameChar c with
      | true =>
        obtain ⟨i, h₁, h₂, h₃, h₄, h₅, h₆⟩ := Place.retreatName hpred hl (by omega)
        rw [show b - 1 - (a - 1 - i) = b - (a - i) by omega] at h₂ h₃
        refine ⟨i, h₁, h₂, h₃, h₄, by omega, fun k h₇ h₈ => ?_⟩
        rcases Int.lt_or_eq_of_le (by omega : k ≤ a - 1) with hk | rfl
        · exact h₆ k h₇ hk
        · exact ⟨c, hchar, hname⟩
      | false => exact ⟨a, rfl, by simp, hhere, hle, Int.le_refl a, fun k h₁ h₂ => by omega⟩
  · rw [retreat.eq_def _ l l, retreat.eq_def _ m b, if_neg (by omega), if_neg (by omega)]
    exact ⟨l, rfl, by simp, hhere, hle, Int.le_refl l, fun k h₁ h₂ => by omega⟩
termination_by (a - l).toNat

/-- Text of the line between counterparts is the same. -/
theorem Place.slice (h : C.Place a b) (hstop : C.Place l m) (hle : a ≤ l) (hm : m = b + (l - a))
    (hchars : ∀ k, a ≤ k → k < l → ∃ c, d.text.charAt? k = some c ∧ c ≠ '\n') :
    e.text.slice b m = d.text.slice a l := by
  have h₁ := h.bound_eq_clamp
  have h₂ := hstop.bound_eq_clamp
  have h₃ := h.clamp_eq
  have h₄ := hstop.clamp_eq
  have hreach : d.text.Reaches (d.text.clamp a) (d.text.clamp l) := by
    intro i hi hi'
    obtain ⟨c, hc, hne⟩ := hchars i (by omega) (by omega)
    rw [charAt?_eq (by omega), Int.toNat_natCast] at hc
    exact ⟨c, hc, hne⟩
  have hext := h.agree.extract_eq hreach
  rw [show e.text.clamp b + (d.text.clamp l - d.text.clamp a) = e.text.clamp m by omega] at hext
  unfold Text.slice
  rw [h₁.1, h₁.2, h₂.1, h₂.2, hext]

/-- The same keyword stands before corresponding places. -/
theorem Place.keywordBefore? (hlast : C.Place stop stop') (hfirst : C.Place start start')
    (hle : start ≤ stop) (inhibit : Bool)
    (nested nested' : Bool → Int → Int → Noted (List Candidate)) :
    Both (Option.Rel C.Place) (Request.keywordBefore? ⟨d, s, inhibit, nested⟩ start stop)
      (Request.keywordBefore? ⟨e, s, inhibit, nested'⟩ start' stop') := by
  have hbounds := hfirst.bounds
  have hbounds' := hlast.bounds
  obtain ⟨p, p', hp, hp', hplace, hstart, hbehind⟩ := hlast.skipGapBack hfirst hle
  have hrange := (skipGapBack_yields (d := d) (by omega) (by omega)).of_eq hp
  have hiff := hfirst.lt_iff hplace
  unfold Request.keywordBefore?
  dsimp only
  rw [hp, hp', ok_bind, ok_bind]
  by_cases hlt : start < p
  · rw [if_neg (by omega), if_neg (by omega)]
    have hpred := hplace.pred (hbehind hlt)
    have hbefore := hpred.bounds
    obtain ⟨c, hread, hc⟩ := read_yields (t := d.text) (i := p - 1) (by omega) (by omega)
    have hchar : d.text.charAt? (p - 1) = some c := (charAt?_eq (by omega)).trans hc
    have hchar' : e.text.charAt? (p' - 1) = some c := hpred.char.trans hchar
    rw [hread, read_eq (by omega) hchar', ok_bind, ok_bind]
    -- the keyword is the text up to `p`, on one line
    have hword : ∀ {q : Int}, C.Place q (p' - (p - q)) → q ≤ p →
        (∀ k, q ≤ k → k < p → ∃ c, d.text.charAt? k = some c ∧ c ≠ '\n') →
        Both (Option.Rel C.Place)
          (if (s.keywordOffset? (d.text.slice q p).toString).isSome then pure (some q)
            else pure none)
          (if (s.keywordOffset? (e.text.slice (p' - (p - q)) p').toString).isSome
            then pure (some (p' - (p - q)))
            else pure none) := by
      intro q hq hqp hchars
      rw [hq.slice hplace hqp (by omega) hchars]
      split
      · exact ⟨_, _, rfl, rfl, .some hq⟩
      · exact ⟨_, _, rfl, rfl, .none⟩
    have hline : c ≠ '\n' := by
      rintro rfl
      have hstop := (hpred.eq_lineStop hchar).1
      have hpoint := hplace.point_le
      have hstart := d.lineStart_le_indentationPoint p
      have hsame := lineStop_eq_of_between (t := d.text) (p := p) (q := p - 1)
        (by have := hbehind hlt; omega) (by have := hplace.le_stop; omega)
      have := hplace.le_stop
      omega
    split
    · next hname =>
      obtain ⟨i, hi, hi', hq, h₁, h₂, hnames⟩ := hpred.retreatName hfirst (by omega)
      rw [hi, hi', ok_bind, ok_bind]
      rw [show p' - 1 - (p - 1 - i) = p' - (p - i) by omega] at hq ⊢
      refine hword hq (by omega) fun k h₃ h₄ => ?_
      rcases Int.lt_or_eq_of_le (by omega : k ≤ p - 1) with hk | rfl
      · obtain ⟨c', hc', hname'⟩ := hnames k h₃ hk
        exact ⟨c', hc', by rintro rfl; revert hname'; decide⟩
      · exact ⟨c, hchar, hline⟩
    · have hsign :=
        hword (q := p - 1) (by rw [show p' - (p - (p - 1)) = p' - 1 by omega]; exact hpred)
          (by omega) fun k h₃ h₄ => ⟨c, by rw [show k = p - 1 by omega]; exact hchar, hline⟩
      rw [show p' - (p - (p - 1)) = p' - 1 by omega] at hsign
      exact hsign
  · rw [if_pos (by omega), if_pos (by omega)]
    exact ⟨none, none, rfl, rfl, .none⟩

/-! ## Stretches that face each other -/

/-- Corresponding stretches that end with code: columns correspond wherever a request for that code
measures. -/
structure Facing (C : Parallel s d e) (start start' stop stop' : Int) : Prop where
  first : C.Place start start'
  last : C.Place stop stop'
  le : start ≤ stop
  /-- A keyword at the end has its opener on lines where columns correspond. -/
  opener : ∀ pair, d.text.closingPair? stop = some pair →
    Both (Option.Rel C.Fixed) (d.matchingOpener? pair.words (pair == .letIn) start stop)
      (e.matchingOpener? pair.words (pair == .letIn) start' stop')
  /-- So has the last code before the end. -/
  back : ∀ {p}, d.skipGapBack stop start = .ok p → start < p → d.text.lineStart p < C.free
  /-- So has the innermost open bracket. -/
  bracket : ∀ {p}, d.openBracket? start stop = .ok (some p) → d.text.lineStart p < C.free
  /-- So has the last code in it. -/
  inside : ∀ {p q}, d.openBracket? start stop = .ok (some p) → d.skipGapBack stop (p + 1) = .ok q →
    p + 1 < q → d.text.lineStart q < C.free
  /-- So has the first code in it. -/
  follow : ∀ {p q}, d.openBracket? start stop = .ok (some p) → d.skipGap (p + 1) stop = .ok q →
    q < stop → d.text.lineStart q < C.free
  /-- Nothing behind the end is looked at that may differ. -/
  ahead : C.Total ∨ d.Clear start stop

/-- The place behind a bracket that is open. -/
theorem Place.succ_bracket (h : C.Place a b) (hb : d.openBracket? start stop = .ok (some a)) :
    C.Place (a + 1) (b + 1) := by
  obtain ⟨piece, hv, hkind⟩ := visits_openBracket? hb
  obtain ⟨c, hc, hopen⟩ := bracket_of_opening h.bounds.1 hv.piece hkind
  exact h.succ hc (by rintro rfl; revert hopen; decide)

namespace Ready

/-- Code that ends before the end of a ready stretch stands where columns correspond. -/
theorem back (h : C.Ready start start' stop stop') (hl : C.Place l m) (hle : l ≤ stop) {p : Int}
    (hp : d.skipGapBack stop l = .ok p) (hlt : l < p) : d.text.lineStart p < C.free := by
  obtain ⟨p', q, hp', hq, hplace, -, hbehind⟩ := h.last.skipGapBack hl hle
  rw [hp] at hp'
  cases hp'
  have hbefore := ((skipGapBack_yields hl.bounds.1 h.last.bounds.2.1).of_eq hp).1
  rcases Int.lt_or_eq_of_le hbefore with hpa | rfl
  · exact h.free hplace hpa
  · exact h.here.resolve_right (hbehind hlt)

/-- Ready stretches face each other. -/
theorem facing (h : C.Ready start start' stop stop') : C.Facing start start' stop stop' := by
  have hfirst := h.first.bounds
  have hlast := h.last.bounds
  have hbracket : ∀ {p}, d.openBracket? start stop = .ok (some p) → ∃ q, C.Place p q ∧
      p < stop := by
    intro p hp
    obtain ⟨_, _, hb, -, hrel⟩ := h.first.openBracket? h.last
    rw [hp] at hb
    cases hb
    cases hrel with
    | some hplace =>
      exact ⟨_, hplace, ((openBracket?_yields (by omega) (by omega)).of_eq hp p rfl).2⟩
  refine ⟨h.first, h.last, h.le, ?_, h.back h.first h.le, ?_, ?_, ?_, h.ahead⟩
  · intro pair _
    obtain ⟨opener, opener', hd, he, hrel⟩ :
        Both (Option.Rel C.Place) (d.matchingOpener? pair.words (pair == .letIn) start stop)
          (e.matchingOpener? pair.words (pair == .letIn) start' stop') :=
      Place.matchingOpener? h.last (fun _ _ _ => h.free) h.first pair
    refine ⟨opener, opener', hd, he, rel_of_mem hrel fun o ho o' hplace => ?_⟩
    cases ho
    exact h.fixed hplace (opener_cases (by omega) (by omega) (by omega) (by omega) hd).2.1
  · intro p hp
    obtain ⟨q, hplace, hlt⟩ := hbracket hp
    exact h.free hplace hlt
  · intro p q hp
    obtain ⟨p', hplace, hlt⟩ := hbracket hp
    exact h.back (hplace.succ_bracket hp) (by omega)
  · intro p q hp hq hlt
    obtain ⟨p', hplace, hlt'⟩ := hbracket hp
    obtain ⟨_, q', hq', -, hfollow⟩ := (hplace.succ_bracket hp).skipGap_to h.last (by omega)
    rw [hq] at hq'
    cases hq'
    exact h.free hfollow hlt

end Ready

/-- The candidate for a closing keyword. -/
theorem Facing.closingKeyword? (hn : C.SameNested nested nested')
    (h : C.Facing start start' stop stop') :
    Noted.Same (Option.Rel C.SameCandidates)
      (Request.closingKeyword? ⟨d, s, inhibit, nested⟩ stop start)
      (Request.closingKeyword? ⟨e, s, inhibit, nested'⟩ stop' start') := by
  have hbounds := h.last.bounds
  have hfirst := h.first.bounds
  unfold Request.closingKeyword?
  dsimp only
  rw [checkStart_of_mem (by omega) (by omega), checkStart_of_mem (by omega) (by omega),
    ← h.last.agree.closingPair?]
  refine .bind_ok rfl rfl ?_
  split
  · exact .pure .none
  next pair hpair =>
  rw [if_neg (by omega), if_neg (by omega)]
  obtain ⟨opener, opener', hd, he, hrel⟩ := h.opener pair hpair
  refine .bind_ok hd he ?_
  cases hrel with
  | none => exact .pure .none
  | @some o o' hfixed =>
    obtain ⟨hle, hlt, ⟨c, hc, hname⟩, -⟩ :=
      opener_cases (by omega) (by omega) (by omega) (by omega) hd
    have hready : C.Ready start start' o o' := by
      refine hfixed.ready h.first hle (h.ahead.imp_right fun hclear => ?_)
      obtain ⟨hrow, hblank, hclose⟩ := class_of_isNameChar hname
      exact .of_char (by omega) hle hc hrow hblank hclose hclear.before
    refine hfixed.openerColumn hn (fun _ => .known hready) fun hcol => .pure ?_
    exact .some (hcol.add (C.closerOffset_nonneg pair)).candidates

end Parallel

/-! ## Contours -/

/-- What the lines of a contour propose, outermost first. -/
def Document.contourProposals (d : Document) (start stop : Int) (kind : LineKind) (first : String) :
    List Int → Except Fault (List Proposal)
  | [] => .ok []
  | p :: rest => do
    let boundary := match rest with
      | next :: _ => d.moveToColumn p (d.column next)
      | [] => stop
    let clause ← d.clauseAt p stop start
    let ps ← d.lineProposals kind first clause boundary stop
    return ps ++ (← d.contourProposals start stop kind first rest)

/-- The candidates below a contour are those of all its proposals. -/
theorem Request.offerContour_eq (r : Request) (start stop : Int) (kind : LineKind) (first : String)
    (contour : List Int) (found : List Candidate) :
    r.offerContour start stop kind first contour found =
      (r.doc.contourProposals start stop kind first contour).map
        (offerProposals r.doc r.settings.indentStep found) := by
  induction contour generalizing found with
  | nil => rfl
  | cons p rest ih =>
    unfold offerContour Document.contourProposals
    simp only
    cases r.doc.clauseAt p stop start with
    | error fault => rfl
    | ok clause =>
      simp only [Document.ok_bind]
      cases r.doc.lineProposals kind first clause _ stop with
      | error fault => rfl
      | ok ps =>
        simp only [Document.ok_bind]
        rw [ih]
        cases r.doc.contourProposals start stop kind first rest with
        | error fault => rfl
        | ok qs =>
          show Except.ok _ = Except.ok _
          unfold offerProposals offerAll
          rw [List.map_append, List.foldl_append]

namespace Parallel

open Text Document

variable {s : Settings} {d e : Document} {C : Parallel s d e}
  {a b l m start start' stop stop' : Int} {inhibit : Bool}
  {nested nested' : Bool → Int → Int → Noted (List Candidate)}

/-- The lines of a contour propose the same. -/
theorem Place.contourProposals {R : Int → Int → Prop} {o o' : Int} (ho : C.Place o o')
    (hl : C.Place l m) (hR : ∀ a b, R a b → C.Place a b) (kind : LineKind) (first : String)
    {contour contour' : List Int}
    (hparts : ∀ p ∈ contour, ∀ clause, d.clauseAt p l o = .ok clause →
      ∀ a ∈ clause.places, ∀ b, C.Place a b → R a b)
    (hrel : List.Forall₂ C.Fixed contour contour') (hlines : ∀ p ∈ contour, d.CodeLine o p ∧ p < l)
    (hwide : d.Widening contour) :
    Both (fun ps ps' => List.Forall₂ (SameProposal R) ps ps' ∧ Clause.NamesParts ps)
      (d.contourProposals o l kind first contour)
      (e.contourProposals o' m kind first contour') := by
  induction hrel with
  | nil => exact ⟨[], [], rfl, rfl, .nil, by simp [Clause.NamesParts]⟩
  | @cons p p' rest rest' hp hrest ih =>
    obtain ⟨hcode, hlt⟩ := hlines p List.mem_cons_self
    have hbounds := hp.1.bounds
    have ho₀ := ho.bounds
    have hl₀ := hl.bounds
    obtain ⟨x, hx, hblank⟩ := exists_char_indentationPoint (d := d) p (by rw [hcode.point]; omega)
    rw [hcode.point] at hx
    obtain ⟨clause, clause', hd, he, hsame⟩ := hp.1.clauseAt hl ho
    obtain ⟨hplaced, hhead⟩ :=
      (clauseAt_yields (by omega) (by omega) hlt (by omega) hx hblank).of_eq hd
    have hopen : d.openComment? (Min.min o p) p = .ok none := by
      rw [Int.min_eq_left hcode.start_le]
      exact hcode.outside
    have hclause : SameClause R clause clause' := hsame.mono (hparts p List.mem_cons_self clause hd)
    have hstop := indentationPoint_lt_lineStop hcode.notBlank
    rw [hcode.point] at hstop
    obtain ⟨qs, qs', hqs, hqs', hrels, hsome⟩ :=
      ih (fun q hq => hparts q (List.mem_cons_of_mem p hq))
        (fun q hq => hlines q (List.mem_cons_of_mem p hq)) (List.pairwise_cons.mp hwide).2
    have hstep : ∀ {boundary boundary' : Int}, C.Place boundary boundary' → p < boundary →
        Both (fun ps ps' => List.Forall₂ (SameProposal R) ps ps' ∧ Clause.NamesParts ps)
          (do let ps ← d.lineProposals kind first clause boundary l
              return ps ++ (← d.contourProposals o l kind first rest))
          (do let ps ← e.lineProposals kind first clause' boundary' m
              return ps ++ (← e.contourProposals o' m kind first rest')) := by
      intro boundary boundary' hplace hpast
      obtain ⟨shape, hne, hshape⟩ := Clause.exists_shape hplaced (hhead hcode.notBlank hopen) hpast
      obtain ⟨ps, ps', hps, hps', hproposals⟩ :=
        hclause.lineProposals hR kind first hplace hl hshape hne
      have hnames : Clause.NamesParts ps := namesParts_of_lineProposals hplaced.isSome_name hps
      rw [hps, hps', ok_bind, ok_bind, hqs, hqs', ok_bind, ok_bind]
      refine ⟨_, _, rfl, rfl, List.rel_append hproposals hrels, fun q hq => ?_⟩
      rcases List.mem_append.mp hq with hq | hq
      · exact hnames q hq
      · exact hsome q hq
    unfold Document.contourProposals
    dsimp only
    rw [hd, he, ok_bind, ok_bind]
    -- the next line of the contour starts right of this one, so the boundaries are counterparts
    -- behind the line's start
    cases hrest with
    | nil => exact hstep hl hlt
    | @cons next next' more more' hnext hmore =>
      have hcol := (List.pairwise_cons.mp hwide).1 next List.mem_cons_self
      exact hstep (hp.moveToColumn hstop hnext.column.1 hcol)
        (lt_moveToColumn (by omega) hstop hcol)

/-- What is found below corresponding contours is offered by the same proposals. -/
theorem Place.belowContour {R : Int → Int → Prop} {S : List Candidate → List Candidate → Prop}
    {o o' : Int} (ho : C.Place o o') (hl : C.Place l m) (hR : ∀ a b, R a b → C.Place a b)
    {contour contour' : List Int}
    (hparts : ∀ p ∈ contour, ∀ clause, d.clauseAt p l o = .ok clause →
      ∀ a ∈ clause.places, ∀ b, C.Place a b → R a b)
    (hrel : List.Forall₂ C.Fixed contour contour') (hlines : ∀ p ∈ contour, d.CodeLine o p ∧ p < l)
    (hwide : d.Widening contour)
    (hS : ∀ {kind first ps ps'}, d.contourProposals o l kind first contour = .ok ps →
      List.Forall₂ (SameProposal R) ps ps' → Clause.NamesParts ps →
      S (offerProposals d s.indentStep [] ps) (offerProposals e s.indentStep [] ps')) :
    Both S (Request.belowContour ⟨d, s, inhibit, nested⟩ o contour l)
      (Request.belowContour ⟨e, s, inhibit, nested'⟩ o' contour' m) := by
  obtain ⟨marker, marker', hd, he, hmarker⟩ := hl.markerAt ho C.limit_length
  unfold Request.belowContour
  dsimp only
  rw [hd, he, hl.readLexeme.1, hl.readLexeme.2]
  simp only [ok_bind]
  rw [hmarker.kind, Request.offerContour_eq, Request.offerContour_eq]
  obtain ⟨ps, ps', hps, hps', hsame, hnames⟩ :=
    Place.contourProposals ho hl hR marker.kind (d.text.lexemeAt l) hparts hrel hlines hwide
  dsimp only
  rw [hps, hps']
  exact ⟨_, _, rfl, rfl, hS hps hsame hnames⟩

/-- Below corresponding contours of a ready stretch corresponding candidates are found. -/
theorem Ready.belowContour {o o' : Int} (h : C.Ready start start' stop stop') (ho : C.Place o o')
    {contour contour' : List Int} (hrel : List.Forall₂ C.Fixed contour contour')
    (hlines : ∀ p ∈ contour, d.CodeLine o p ∧ p < stop) (hwide : d.Widening contour) :
    Both C.SameCandidates (Request.belowContour ⟨d, s, inhibit, nested⟩ o contour stop)
      (Request.belowContour ⟨e, s, inhibit, nested'⟩ o' contour' stop') := by
  have hlast := h.last.bounds
  have ho₀ := ho.bounds
  refine Place.belowContour (R := C.Fixed) ho h.last (fun _ _ hfixed => hfixed.1)
    (fun p hp clause hclause a ha b hab => ?_) hrel hlines hwide fun _ hsame hnames =>
    SameCandidates.offerProposals .nil hsame hnames
  obtain ⟨hcode, hlt⟩ := hlines p hp
  have hpoint := d.indentationPoint_nonneg p
  rw [hcode.point] at hpoint
  obtain ⟨x, hx, hblank⟩ := exists_char_indentationPoint (d := d) p (by rw [hcode.point]; omega)
  rw [hcode.point] at hx
  obtain ⟨hplaced, -⟩ := (clauseAt_yields (by omega) hpoint hlt (by omega) hx hblank).of_eq hclause
  exact h.fixed hab (hplaced.inOrder.2 a ha).2

/-! ## Brackets -/

/-- A bracket that is open at the end of a stretch is measured from the start of its definition. -/
theorem Facing.begins (h : C.Facing start start' stop stop')
    (hb : d.openBracket? start stop = .ok (some a)) (hplace : C.Place a b)
    (hdash : d.text.charAt? stop ≠ some '-') : C.Begins a b none none := by
  have hfirst := h.first.bounds
  have hlast := h.last.bounds
  have hfree := h.bracket hb
  obtain ⟨i, j, hi, hj, hij, hle⟩ :=
    hplace.definitionStart (Int.le_of_lt hfree) fun _ hlt => Int.lt_trans hlt hfree
  refine .sought hi hj (Fixed.ready ⟨hplace, hfree⟩ hij hle (h.ahead.imp_right fun hclear => ?_))
  exact hclear.bracket (by omega) (by omega) hb hdash hij.bounds.1 fun hlen c hc =>
    char_before_definitionStart hi hlen hc

/-- Inside corresponding brackets the column of a line corresponds, when the line does not start
with a dash. The first code behind the bracket is what both documents go by. -/
theorem Facing.insideColumn (hn : C.SameNested nested nested')
    (h : C.Facing start start' stop stop') (hb : d.openBracket? start stop = .ok (some a))
    (hplace : C.Place a b) (hdash : d.text.charAt? stop ≠ some '-') :
    Noted.Same C.SameColumn (Request.insideColumn ⟨d, s, inhibit, nested⟩ a stop)
      (Request.insideColumn ⟨e, s, inhibit, nested'⟩ b stop') := by
  have hfirst := h.first.bounds
  have hlast := h.last.bounds
  have hrange := (openBracket?_yields (by omega) (by omega)).of_eq hb a rfl
  obtain ⟨follow, follow', hd, he, hfollow⟩ := (hplace.succ_bracket hb).skipGap_to h.last (by omega)
  have hiff := h.last.le_iff hfollow
  unfold Request.insideColumn
  refine .bind_ok hd he ?_
  dsimp only
  by_cases hle : stop ≤ follow
  · rw [if_pos hle, if_pos (hiff.mpr hle)]
    refine Fixed.blockColumn hn ⟨hplace, h.bracket hb⟩ (fun _ => h.begins hb hplace hdash) _ ?_
    intro offset hoffset
    cases hoffset
    decide
  · rw [if_neg hle, if_neg fun h => hle (hiff.mp h)]
    exact .pure (Fixed.column ⟨hfollow, h.follow hb hd (by omega)⟩)

/-- What is found inside corresponding brackets is related when it is so below the contours in
them. -/
theorem Facing.insideBracket {S : List Candidate → List Candidate → Prop}
    (hn : C.SameNested nested nested') (h : C.Facing start start' stop stop')
    (hsame : ∀ {cs cs'}, C.SameCandidates cs cs' → S cs cs')
    (hb : d.openBracket? start stop = .ok (some a)) (hplace : C.Place a b)
    (hbelow : ∀ {contour contour' basic basic'}, d.contour s (a + 1) stop = .ok contour →
      List.Forall₂ C.Fixed contour contour' → C.SameColumn basic basic' →
      Both (fun inner inner' => S (Request.replaceBracketColumn (d.column a) basic [] inner)
        (Request.replaceBracketColumn (e.column b) basic' [] inner'))
          (Request.belowContour ⟨d, s, inhibit, nested⟩ (a + 1) contour stop)
          (Request.belowContour ⟨e, s, inhibit, nested'⟩ (b + 1) contour' stop')) :
    Noted.Same S (Request.insideBracket ⟨d, s, inhibit, nested⟩ a stop)
      (Request.insideBracket ⟨e, s, inhibit, nested'⟩ b stop') := by
  have hfixed : C.Fixed a b := ⟨hplace, h.bracket hb⟩
  unfold Request.insideBracket
  dsimp only
  rw [h.last.char, hplace.char]
  split
  · next hcloser =>
    have hnodash : d.text.charAt? stop ≠ some '-' := by
      intro hc
      rw [hc] at hcloser
      revert hcloser
      decide
    have hbegins : Request.hangs ⟨d, s, inhibit, nested⟩ a = .ok true → C.Begins a b none none :=
      fun _ => h.begins hb hplace hnodash
    have hcol := hfixed.openerColumn (R := S) hn hbegins fun hcol => .pure (hsame hcol.candidates)
    split
    · split
      · exact (Noted.Same.note _).bind fun _ _ _ => hcol
      · exact hcol
    · exact hcol
  · refine Noted.Same.ite_bind (R := C.SameColumn) ?_ fun basic basic' hbasic => ?_
    · split
      · exact .pure hfixed.column
      · next hop =>
        rw [Bool.not_eq_true] at hop
        exact h.insideColumn hn hb hplace fun hc =>
          absurd ((Option.any_eq_false _ _).mp hop _ hc) (by decide)
    · obtain ⟨contour, contour', hd, he, hrel⟩ :=
        h.last.contour (s := s) (hplace.succ_bracket hb) (h.inside hb)
      refine .bind_ok hd he ?_
      have hempty : contour'.isEmpty = contour.isEmpty := by cases hrel <;> rfl
      rw [hempty]
      split
      · exact .pure (hsame hbasic.candidates)
      · exact (Noted.Same.lift (hbelow hd hrel hbasic)).bind fun inner inner' hinner => .pure hinner

/-! ## Code -/

/-- The column of the definition. -/
theorem Fixed.definitionColumn (h : C.Fixed start start') (hlast : C.Place stop stop') :
    C.SameColumn (Request.definitionColumn ⟨d, s, inhibit, nested⟩ start stop)
      (Request.definitionColumn ⟨e, s, inhibit, nested'⟩ start' stop') := by
  have hcolumn := h.column
  have hbird : (e.bird && e.column start' == 1) = (d.bird && d.column start == 1) := by
    rcases C.style with ⟨hshift, hsame⟩ | ⟨hshift, hplain⟩
    · rw [hsame, hcolumn.1, hshift, Int.add_zero]
    · -- shifted columns lie right of the marker
      have hmargin := d.column_nonneg start
      have hne : e.column start' ≠ 1 := by have := hcolumn.1; omega
      rw [hplain, Bool.false_and, beq_eq_false_iff_ne.mpr hne, Bool.and_false]
  have hline : (e.text.lineStart start' == e.text.lineStart stop') =
      (d.text.lineStart start == d.text.lineStart stop) := by
    rw [Bool.eq_iff_iff, beq_iff_eq, beq_iff_eq]
    exact h.1.lineStart_eq_iff hlast
  unfold Request.definitionColumn
  dsimp only
  rw [hbird, hline, hlast.isBlankLine]
  split
  · exact C.sameColumn_top
  split
  · exact C.sameColumn_top
  · exact hcolumn

/-- What is found for code is related when that holds for the column of the definition and below the
contours. -/
theorem Facing.codeLine {S : List Candidate → List Candidate → Prop}
    (hn : C.SameNested nested nested') (h : C.Facing start start' stop stop')
    (hclosed : C.Total ∨ d.Closed start stop)
    (hsame : ∀ {cs cs'}, C.SameCandidates cs cs' → S cs cs')
    (hdefinition : S [⟨Request.definitionColumn ⟨d, s, inhibit, nested⟩ start stop, none⟩]
      [⟨Request.definitionColumn ⟨e, s, inhibit, nested'⟩ start' stop', none⟩])
    (hbelow : ∀ {contour contour'}, d.contour s start stop = .ok contour →
      List.Forall₂ C.Fixed contour contour' →
      Both S (Request.belowContour ⟨d, s, inhibit, nested⟩ start contour stop)
      (Request.belowContour ⟨e, s, inhibit, nested'⟩ start' contour' stop'))
    (hinside : ∀ {a b}, d.openBracket? start stop = .ok (some a) → C.Place a b →
      ∀ {contour contour' basic basic'}, d.contour s (a + 1) stop = .ok contour →
      List.Forall₂ C.Fixed contour contour' → C.SameColumn basic basic' →
      Both (fun inner inner' => S (Request.replaceBracketColumn (d.column a) basic [] inner)
        (Request.replaceBracketColumn (e.column b) basic' [] inner'))
          (Request.belowContour ⟨d, s, inhibit, nested⟩ (a + 1) contour stop)
          (Request.belowContour ⟨e, s, inhibit, nested'⟩ (b + 1) contour' stop')) :
    Noted.Same S (Request.codeLine ⟨d, s, inhibit, nested⟩ start stop)
      (Request.codeLine ⟨e, s, inhibit, nested'⟩ start' stop') := by
  have hfirst := h.first.bounds
  have hlast := h.last.bounds
  unfold Request.codeLine
  refine (h.closingKeyword? hn).bind fun closing closing' hclosing => ?_
  cases hclosing with
  | some hcs => exact .pure (hsame hcs)
  | none =>
    obtain ⟨keyword, keyword', hd, he, hrel⟩ :=
      h.last.keywordBefore? (s := s) h.first h.le inhibit nested nested'
    refine .bind_ok hd he ?_
    cases hrel with
    | @some q q' hplace =>
      obtain ⟨p, hp, hle, hlt, -⟩ := keywordBefore?_cases (by omega) hlast.2.1 hd
      obtain ⟨_, p', hp', -, hback, -⟩ := h.last.skipGapBack h.first h.le
      cases hp.symm.trans hp'
      have hfixed : C.Fixed q q' :=
        ⟨hplace, Fixed.lineStart_lt ⟨hback, h.back hp (by omega)⟩ hplace (Int.le_of_lt hlt)⟩
      refine (hfixed.blockColumn hn (fun hhangs => .known ?_) none (by simp)).bind
        fun col col' hcol => .pure (hsame hcol.candidates)
      refine hfixed.ready h.first hle ?_
      rcases h.ahead with htotal | hclear
      · exact .inl htotal
      · refine hclosed.imp_right fun hclosed => ?_
        exact Clear.keyword (r := ⟨d, s, inhibit, nested⟩) hclear
          (by omega) h.le hlast.2.1 hclosed hd hhangs
    | none =>
      obtain ⟨bracket, bracket', hd, he, hrel⟩ := h.first.openBracket? h.last
      refine .bind_ok hd he ?_
      cases hrel with
      | some hplace => exact h.insideBracket hn hsame hd hplace (hinside hd hplace)
      | none =>
        obtain ⟨contour, contour', hd, he, hrel⟩ := h.last.contour (s := s) h.first h.back
        refine .bind_ok hd he ?_
        have hempty : contour'.isEmpty = contour.isEmpty := by cases hrel <;> rfl
        rw [hempty]
        split
        · exact .pure hdefinition
        · exact .lift (hbelow hd hrel)

/-- The candidates for code. -/
theorem Ready.codeLine (hn : C.SameNested nested nested') (h : C.Ready start start' stop stop')
    (hclosed : C.Total ∨ d.Closed start stop) :
    Noted.Same C.SameCandidates (Request.codeLine ⟨d, s, inhibit, nested⟩ start stop)
      (Request.codeLine ⟨e, s, inhibit, nested'⟩ start' stop') := by
  have hfirst := h.first.bounds
  have hlast := h.last.bounds
  refine h.facing.codeLine hn hclosed (fun hcs => hcs)
    (h.startFixed.definitionColumn h.last).candidates ?_ ?_
  · intro contour contour' hd hrel
    obtain ⟨hlines, hwide⟩ := (contour_yields (d := d) s (by omega) (by omega)).of_eq hd
    exact h.belowContour h.first hrel hlines hwide
  · intro a b hb hplace contour contour' basic basic' hd hrel hbasic
    obtain ⟨hlines, hwide⟩ :=
      (contour_yields (d := d) s (by have := hplace.bounds; omega) (by omega)).of_eq hd
    obtain ⟨inner, inner', hi, hi', hinner⟩ :=
      h.belowContour (hplace.succ_bracket hb) hrel hlines hwide
    exact ⟨inner, inner', hi, hi', SameCandidates.replaceBracketColumn
      (Fixed.column ⟨hplace, h.facing.bracket hb⟩) hbasic .nil hinner⟩

/-! ## Strings and comments -/

/-- Inside corresponding strings the candidates correspond. -/
theorem Ready.insideString (h : C.Ready start start' stop stop') (hq : C.Place a b)
    (hlt : a < stop) :
    C.SameCandidates (Request.insideString ⟨d, s, inhibit, nested⟩ a stop)
    (Request.insideString ⟨e, s, inhibit, nested'⟩ b stop') := by
  unfold Request.insideString
  dsimp only
  rw [h.last.char]
  exact ((h.fixed hq hlt).column.add (.inr (by split <;> decide))).candidates

/-- The line above a line, or the line itself when it is the first. -/
theorem Place.lineAbove (h : C.Place a b) :
    ∃ n, C.Line n (d.text.moveLines a (-1)).1 (e.text.moveLines b (-1)).1 ∧
      ((d.text.moveLines a (-1)).1 = 0 ∨ (d.text.moveLines a (-1)).1 < d.text.lineStart a) := by
  obtain ⟨n, hline⟩ := h.line
  rw [moveLines_neg_one, moveLines_neg_one]
  rcases hline.lineAbove? with ⟨rfl, hx, hy, -⟩ | ⟨n', x', y', -, hlt, hline', hx, hy⟩
  · rw [if_pos hx, if_pos hy]
    exact ⟨0, hline, .inl hx⟩
  · unfold Text.lineAbove? at hx hy
    rw [moveLines_neg_one, d.text.lineStart_lineStart] at hx
    rw [moveLines_neg_one, e.text.lineStart_lineStart] at hy
    by_cases hzero : d.text.lineStart a = 0
    · rw [if_pos hzero] at hx
      cases hx
    · by_cases hzero' : e.text.lineStart b = 0
      · rw [if_pos hzero'] at hy
        cases hy
      · rw [if_neg hzero] at hx ⊢
        rw [if_neg hzero'] at hy ⊢
        cases hx
        cases hy
        exact ⟨n', hline', .inr hlt⟩

/-- The candidate inside a comment. -/
theorem Ready.insideComment (h : C.Ready start start' stop stop') (ho : C.Place a b)
    (hlt : a < stop) :
    Both C.SameCandidates (Request.insideComment ⟨d, s, inhibit, nested⟩ a stop start)
      (Request.insideComment ⟨e, s, inhibit, nested'⟩ b stop' start') := by
  have hlast := h.last.bounds
  obtain ⟨n, hline, habove⟩ := h.last.lineAbove
  have hpoint : C.Fixed (d.indentationPoint (d.text.moveLines stop (-1)).1)
      (e.indentationPoint (e.text.moveLines stop' (-1)).1) := by
    refine ⟨hline.point, ?_⟩
    rw [d.lineStart_indentationPoint, hline.starts.1]
    rcases habove with hzero | hlt'
    · have := h.free ho hlt
      have := d.text.lineStart_nonneg a
      omega
    · exact h.line_free hline (Int.le_refl stop) hlast.1 hlt'
  have hplace : C.Fixed (max (d.indentationPoint (d.text.moveLines stop (-1)).1) start)
      (max (e.indentationPoint (e.text.moveLines stop' (-1)).1) start') := by
    have hiff := hpoint.1.le_iff h.first
    by_cases hle : d.indentationPoint (d.text.moveLines stop (-1)).1 ≤ start
    · rw [Int.max_eq_right hle, Int.max_eq_right (hiff.mpr hle)]
      exact h.startFixed
    · rw [Int.max_eq_left (by omega), Int.max_eq_left (by omega)]
      exact hpoint
  have hbounds := hplace.1.bounds
  unfold Request.insideComment
  dsimp only
  rw [h.last.hasWord C.limit_length (by decide)]
  split
  · exact ⟨_, _, rfl, rfl, ((h.fixed ho hlt).column.add (.inr (by decide))).candidates⟩
  rw [checkStart_of_mem (by omega) (by omega), checkStart_of_mem (by omega) (by omega),
    checkStart_of_mem (by omega) (by omega), checkStart_of_mem (by omega) (by omega)]
  simp only [ok_bind]
  generalize max (d.indentationPoint (d.text.moveLines stop (-1)).1) start = p at hplace ⊢
  generalize max (e.indentationPoint (e.text.moveLines stop' (-1)).1) start' = p' at hplace ⊢
  have hlead := hplace.1.agree.commentLeadStop?
  generalize d.text.commentLeadStop? p = lead at hlead ⊢
  generalize e.text.commentLeadStop? p' = lead' at hlead ⊢
  cases hlead with
  | none => exact ⟨_, _, rfl, rfl, hplace.column.candidates⟩
  | @some lead lead' hle hreach heq =>
    simp only
    rw [← h.last.agree.dashCount]
    split
    · have hreached := hplace.1.reach hle hreach
      rw [← heq] at hreached
      have hclamp := hplace.1.clamp_eq
      have hstart := lineStart_eq_of_between (t := d.text) (p := p) (q := lead)
        (by have := lineStart_le (t := d.text) hplace.1.bounds.1; omega)
        (hplace.1.le_lineStop_of_reaches hreach)
      exact ⟨_, _, rfl, rfl, (Fixed.column ⟨hreached, by rw [hstart]; exact hplace.2⟩).candidates⟩
    · have hcount : d.text.dashCount stop ≤ 2 := by
        unfold Text.dashCount
        simp only
        split
        · split <;> decide
        · decide
      refine ⟨_, _, rfl, rfl, SameColumn.candidates ?_⟩
      rw [Int.add_comm, Int.add_comm _ (e.column p')]
      exact hplace.column.add (.inr (by omega))

/-- Where whole documents are compared, the lines further down correspond. -/
theorem Whole.linesDown (hC : C.Whole) (count : Nat) {n : Nat} {x y : Int} (h : C.Line n x y) :
    ∃ n', C.Line n' (d.text.linesDown count x).1 (e.text.linesDown count y).1 ∧
      (e.text.linesDown count y).2 = (d.text.linesDown count x).2 := by
  induction count generalizing n x y with
  | zero => exact ⟨n, h, rfl⟩
  | succ count ih =>
    have hstop := h.lineStop_le
    unfold Text.linesDown
    rw [newlineFrom?_eq, newlineFrom?_eq, ← hC.end₁, ← hC.end₂]
    by_cases hlt : d.text.lineStop x < C.end₁
    · rw [if_pos hlt, if_pos (hstop.2.2.mp hlt)]
      exact ih (h.below hlt)
    · rw [if_neg hlt, if_neg fun hlt' => hlt (hstop.2.2.mpr hlt')]
      exact ⟨n, h, rfl⟩

/-- When columns correspond on all lines, they do so at all counterparts. -/
theorem Total.fixed (hC : C.Total) (h : C.Place a b) : C.Fixed a b := by
  obtain ⟨n, hline⟩ := h.line
  exact ⟨h, hC.free hline⟩

/-- The first of corresponding elements with a property. -/
theorem rel_find? {α β : Type} {R : α → β → Prop} {l : List α} {l' : List β} {f : α → Bool}
    {g : β → Bool} (h : List.Forall₂ R l l') (hfg : ∀ x ∈ l, ∀ y, R x y → g y = f x) :
    Option.Rel R (l.find? f) (l'.find? g) := by
  induction h with
  | nil => exact .none
  | @cons x y l l' hxy _ ih =>
    rw [List.find?_cons, List.find?_cons, hfg x List.mem_cons_self y hxy]
    cases f x with
    | true => exact .some hxy
    | false => exact ih fun z hz => hfg z (List.mem_cons_of_mem x hz)

/-- The same comment stands before corresponding places. -/
theorem Whole.commentBefore? (hC : C.Whole) (hfirst : C.Place start start')
    (hlast : C.Place stop stop') (hle : start ≤ stop) :
    Both (Option.Rel fun p p' => C.Place p p' ∧ p < stop)
      (Request.commentBefore? ⟨d, s, inhibit, nested⟩ stop start)
      (Request.commentBefore? ⟨e, s, inhibit, nested'⟩ stop' start') := by
  have hbounds := hfirst.bounds
  have hbounds' := hlast.bounds
  obtain ⟨p, p', hp, hp', hbehind⟩ := hlast.skipBlanksBack hfirst hle
  obtain ⟨nest, nest', hnest, hnest', hsame⟩ := hfirst.nesting hlast
  have hback := ((skipBlanksBack_yields (d := d) (by omega) (by omega)).of_eq hp).1
  have hinside := (Document.nesting_yields (by omega) (by omega)).of_eq hnest
  have hfound := rel_find? (f := fun span => decide (span.start < p) && decide (p ≤ span.stop))
    (g := fun span => decide (span.start < p') && decide (p' ≤ span.stop))
    (List.rel_reverse hsame.comments) (by
      intro span hmem span' hspan
      rw [← Bool.decide_and, ← Bool.decide_and]
      exact decide_eq_decide.mpr
        (hbehind.covered_iff hspan (hinside.comments span (List.mem_reverse.mp hmem)).1))
  unfold Request.commentBefore?
  dsimp only
  rw [hp, hp', hnest, hnest']
  simp only [ok_bind]
  have hbefore : ∀ span ∈ nest.comments.reverse.find? fun span =>
      decide (span.start < p) && decide (p ≤ span.stop), span.start < stop := by
    intro span hspan
    have hlt := List.find?_some hspan
    simp only [Bool.and_eq_true, decide_eq_true_eq] at hlt
    omega
  generalize nest.comments.reverse.find? _ = found at hfound hbefore ⊢
  generalize nest'.comments.reverse.find? _ = found' at hfound ⊢
  cases hfound with
  | none => exact ⟨none, none, rfl, rfl, .none⟩
  | @some span span' hspan =>
    have hplace : C.Place span.start span'.start ∧ span.start < stop := ⟨hspan.1, hbefore span rfl⟩
    obtain ⟨n, hline⟩ := hspan.1.line
    obtain ⟨n', hdown, hmissing⟩ := hC.linesDown 2 hline
    have hmove : ∀ (t : Text) (i : Int), t.moveLines i 2 = t.linesDown 2 (t.lineStart i) :=
      fun t i => rfl
    have hiff := hlast.lt_line_iff hdown
    simp only [hmove]
    generalize d.text.linesDown 2 (d.text.lineStart span.start) = down at hdown hmissing hiff ⊢
    generalize e.text.linesDown 2 (e.text.lineStart span'.start) = down' at hdown hmissing hiff ⊢
    obtain ⟨bol, missing⟩ := down
    obtain ⟨bol', missing'⟩ := down'
    simp only at hmissing hiff
    subst hmissing
    cases missing' with
    | succ missing => exact ⟨_, _, rfl, rfl, .some hplace⟩
    | zero =>
      simp only
      by_cases hlt : stop < bol
      · rw [if_pos hlt, if_pos (hiff.mpr hlt)]
        exact ⟨_, _, rfl, rfl, .some hplace⟩
      · rw [if_neg hlt, if_neg fun h => hlt (hiff.mp h)]
        exact ⟨_, _, rfl, rfl, .none⟩

/-- The candidates for a line that starts with a comment are related when those for the code behind
it are. -/
theorem Whole.commentLine {S T : List Candidate → List Candidate → Prop} (hC : C.Whole)
    (hfirst : C.Place start start') (hlast : C.Place stop stop') (hle : start ≤ stop)
    (hcode : ∀ {code code'}, d.skipGap stop d.text.length = .ok code → C.Place code code' →
      Noted.Same S (nested false start code) (nested' false start' code'))
    (hnone : ∀ {code code' cs cs'}, d.skipGap stop d.text.length = .ok code → C.Place code code' →
      S cs cs' → T (offerAll [] (Request.nearestFirst (d.column code) cs))
      (offerAll [] (Request.nearestFirst (e.column code') cs')))
    (hsome : ∀ {p p' code code' cs cs'}, C.Place p p' → p < stop →
      d.skipGap stop d.text.length = .ok code → C.Place code code' → S cs cs' →
      T (offerAll (offer [] ⟨d.column p, none⟩) (Request.nearestFirst (d.column code) cs))
      (offerAll (offer [] ⟨e.column p', none⟩) (Request.nearestFirst (e.column code') cs'))) :
    Noted.Same T (Request.commentLine ⟨d, s, inhibit, nested⟩ stop start)
      (Request.commentLine ⟨e, s, inhibit, nested'⟩ stop' start') := by
  have hbounds := hlast.bounds
  obtain ⟨code, code', hd, he, hlands⟩ := hlast.skipGap C.limit_length
  have hmax := ((skipGap_yields (by omega) (Int.le_refl _)).of_eq hd).2.1
  have hplace : C.Place code code' := by
    rcases hlands with hplace | hbeyond
    · exact hplace
    · have h₁ := hbeyond.1
      have h₂ := hC.end₁
      omega
  unfold Request.commentLine
  dsimp only
  rw [hlast.char]
  refine Noted.Same.ite_bind (R := Option.Rel fun p p' => C.Place p p' ∧ p < stop) ?_
    fun previous previous' hprevious => ?_
  · split
    · exact .pure .none
    · exact .lift (hC.commentBefore? hfirst hlast hle)
  refine .bind_ok hd he ?_
  refine (hcode hd hplace).bind fun cs cs' hcs => .pure ?_
  cases hprevious with
  | none => exact hnone hd hplace hcs
  | some hp => exact hsome hp.1 hp.2 hd hplace hcs

/-- The candidates for a line that starts with a comment. -/
theorem Total.commentLine (hC : C.Total) (hn : C.SameNested nested nested')
    (h : C.Ready start start' stop stop') :
    Noted.Same C.SameCandidates (Request.commentLine ⟨d, s, inhibit, nested⟩ stop start)
      (Request.commentLine ⟨e, s, inhibit, nested'⟩ stop' start') := by
  have hlast := h.last.bounds
  have hcolumn : ∀ {p p'}, C.Place p p' → C.SameColumn (d.column p) (e.column p') :=
    fun hp => (hC.fixed hp).column
  refine hC.toWhole.commentLine (S := C.SameCandidates) h.first h.last h.le (fun hcode hplace => ?_)
    (fun _ hplace hcs => SameCandidates.offerAll .nil (hcs.nearestFirst (hcolumn hplace)))
    (fun hp _ _ hplace hcs =>
      SameCandidates.offerAll (SameCandidates.offer .nil ⟨hcolumn hp, rfl⟩)
        (hcs.nearestFirst (hcolumn hplace)))
  have hle := ((skipGap_yields (by omega) (Int.le_refl _)).of_eq hcode).1
  exact hn false ((hC.fixed hplace).ready h.first (Int.le_trans h.le hle) (.inl hC))

/-! ## Whole answers -/

/-- Corresponding stretches have corresponding candidates when the requests made inside do. -/
theorem Ready.answer (hn : C.SameNested nested nested') (h : C.Ready start start' stop stop') :
    Noted.Same C.SameCandidates (Request.answer ⟨d, s, inhibit, nested⟩ start stop)
      (Request.answer ⟨e, s, inhibit, nested'⟩ start' stop') := by
  have hfirst := h.first.bounds
  have hlast := h.last.bounds
  obtain ⟨string, string', hs, hs', hstring⟩ := h.first.openString? h.last
  obtain ⟨comment, comment', hc, hc', hcomment⟩ := h.first.openComment? h.last
  unfold Request.answer
  refine .bind_ok hs hs' ?_
  cases hstring with
  | @some quote quote' hquote =>
    have hrange := (openString?_yields (by omega) (by omega)).of_eq hs quote rfl
    exact .pure (h.insideString hquote hrange.2)
  | none =>
    refine .bind_ok hc hc' ?_
    cases hcomment with
    | none => exact h.codeLine hn (.inr (closed_of_open (by omega) (by omega) hs hc (by simp)))
    | @some opened opened' hopened =>
      have hcases := (openComment?_yields (by omega) (by omega) (by omega)).of_eq hc opened rfl
      show Noted.Same C.SameCandidates (Request.commentText _ opened stop start)
        (Request.commentText _ opened' stop' start')
      unfold Request.commentText
      have hiff := hopened.eq_iff h.last
      by_cases heq : opened = stop
      · rw [if_pos heq, if_pos (hiff.mpr heq)]
        rcases h.ahead with htotal | hclear
        · exact htotal.commentLine hn h
        · -- no comment starts at a clear place
          exfalso
          have hclosed := closed_of_open (by omega) (by omega) hs hc (by simp [heq])
          rcases hcases with ⟨-, htrue⟩ | ⟨-, hlt⟩
          · rw [hclear.comment hclosed] at htrue
            cases htrue
          · omega
      · rw [if_neg heq, if_neg fun h => heq (hiff.mp h)]
        rcases hcases with ⟨hstop, -⟩ | ⟨-, hlt⟩
        · exact absurd hstop heq
        · exact .lift (h.insideComment hopened hlt)

/-- Requests for corresponding stretches find corresponding candidates. -/
theorem Ready.candidatesWithin (h : C.Ready start start' stop stop') (levels : Nat)
    (inhibit : Bool) :
    Noted.Same C.SameCandidates (candidatesWithin d s levels inhibit start stop)
    (candidatesWithin e s levels inhibit start' stop') := by
  induction levels generalizing inhibit start start' stop stop' with
  | zero => exact .fail _
  | succ levels ih => exact Ready.answer (fun inhibit _ _ _ _ hready => ih hready inhibit) h

end Parallel

end LayoutRule
