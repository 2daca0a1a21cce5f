import LayoutRule.Proofs.Request.Depth

/-!
# Lines that start with a comment

Behind the comment that a line starts with, the next code may be far below. Between the two there is
nothing that a request could go by: blanks and comments only (`Document.Hollow.covered`). So
whatever a request for that code finds further up stands before the comment: the code before it, the
bracket around it, the first code in that bracket, the opener of a keyword.
-/

namespace LayoutRule

namespace Document

open Text

variable {d : Document} {start point code stop k : Int}

/-- The line of `point` starts with a comment, and `code` is the first code behind it. Neither lies
in a string or in a comment from above that starts at `start` or behind it. -/
structure Hollow (d : Document) (start point code : Int) : Prop where
  nonneg : 0 ≤ start
  start_le : start ≤ point
  first : d.indentationPoint point = point
  comment : d.commentAt point = .ok true
  closed : d.Closed start point
  skip : d.skipGap point d.text.length = .ok code
  outside : d.Closed start code

/-- What is skipped forward, in terms of the walk. -/
theorem covered_of_skipGap (hw : d.text.Walk d.bird d.text.length start stop) (h₀ : 0 ≤ stop)
    (h : d.skipGap stop d.text.length = .ok code) (hk : stop ≤ k) (hlt : k < code) :
    d.isGapAt k = .ok true ∨ ∃ q, d.text.Walk d.bird d.text.length start q ∧
      d.commentAt q = .ok true ∧ stop ≤ q ∧ q ≤ k ∧
      k < d.text.commentStop q ∧ min (d.text.commentStop q) d.text.length ≤ code := by
  generalize hlimit : d.text.length = limit at h
  fun_induction skipGap d stop limit with
  | case1 => cases h
  | case2 => cases h
  | case3 stop i hi hlt' hcomment ih =>
    subst hlimit
    obtain ⟨hle, -, hgaps, -⟩ := (skipBlanks_yields h₀ (Int.le_refl _)).of_eq hi
    have hend := le_of_skipGap h
    have hstop := lt_commentStop (lt_length_of_commentAt hcomment)
    have hwalk := walk_skipBlanks hw h₀ (Int.le_refl _) hi
    rcases Int.lt_or_le k i with hki | hik
    · exact .inl (hgaps k hk hki)
    rcases Int.lt_or_le k (d.text.commentStop i) with hin | hout
    · exact .inr ⟨i, hwalk, hcomment, hle, hik, hin, hend⟩
    · -- the comment ends before the end of the text, so the walk goes on behind it
      obtain ⟨-, hmax, -⟩ := (skipGap_yields (by omega) (Int.le_refl _)).of_eq h
      rw [Int.min_eq_left (by omega)] at h ih
      have hnext := hwalk.snoc hlt' (pieceAt_comment (by omega) hcomment)
      rcases ih hnext (by omega) hout h with hgap | ⟨q, hq, hcq, hqi, hrest⟩
      · exact .inl hgap
      · exact .inr ⟨q, hq, hcq, by omega, hrest⟩
  | case4 stop i hi =>
    cases h
    subst hlimit
    exact .inl (((skipBlanks_yields h₀ (Int.le_refl _)).of_eq hi).2.2.1 k hk hlt)
  | case5 stop i hi =>
    cases h
    subst hlimit
    exact .inl (((skipBlanks_yields h₀ (Int.le_refl _)).of_eq hi).2.2.1 k hk hlt)

namespace Hollow

/-- A comment has at least two characters, so that the code behind it starts two places further on
at the earliest, and at the end of the text at the latest. -/
theorem bounds (h : d.Hollow start point code) :
    point < d.text.length ∧ point + 2 ≤ code ∧ code ≤ d.text.length := by
  have hpoint : 0 ≤ point := Int.le_trans h.nonneg h.start_le
  have hlt := lt_length_of_commentAt h.comment
  obtain ⟨hle, hmax, hstops⟩ := (skipGap_yields hpoint (Int.le_refl _)).of_eq h.skip
  have hbehind : point < code := by
    rcases Int.lt_or_eq_of_le hle with hbehind | heq
    · exact hbehind
    · exfalso
      have hnone := (hstops (by omega)).2
      rw [← heq, h.comment] at hnone
      cases hnone
  refine ⟨hlt, ?_, by omega⟩
  rcases covered_of_skipGap (.refl point) hpoint h.skip (Int.le_refl _) hbehind with
    hgap | ⟨q, -, -, hpq, hqp, -, hend⟩
  · exact absurd h.comment (commentAt_of_gap hpoint hgap)
  · obtain rfl : q = point := by omega
    have hstop := add_two_le_commentStop hpoint h.comment
    have hlength := (dash_of_commentAt hpoint h.comment).2
    omega

/-- The comment starts a piece. -/
theorem walk (h : d.Hollow start point code) : d.text.Walk d.bird d.text.length start point := by
  have hclosed : d.Closed start (d.indentationPoint point) := h.first.symm ▸ h.closed
  have hwalk := walk_indentationPoint h.nonneg (h.first.symm ▸ h.start_le)
    (h.first.symm ▸ h.bounds.1) hclosed
  rwa [h.first] at hwalk

/-- Between the comment and the code behind it there is nothing but blanks and comments. -/
theorem covered (h : d.Hollow start point code) (hk : point ≤ k) (hlt : k < code) :
    d.isGapAt k = .ok true ∨
      ∃ q, d.text.Visits d.bird start code q ⟨.comment, d.text.commentStop q⟩ ∧
        d.commentAt q = .ok true ∧ point ≤ q ∧
        q ≤ k ∧ k < d.text.commentStop q := by
  have hpoint : 0 ≤ point := Int.le_trans h.nonneg h.start_le
  have hbounds := h.bounds
  refine (covered_of_skipGap h.walk hpoint h.skip hk hlt).imp_right ?_
  rintro ⟨q, hwalk, hcomment, hpq, hqk, hin, hend⟩
  have hlen := lt_length_of_commentAt hcomment
  have hfits : q + 2 ≤ code := by
    have hstop := add_two_le_commentStop (by omega : 0 ≤ q) hcomment
    have hlength := (dash_of_commentAt (by omega : 0 ≤ q) hcomment).2
    omega
  have hshort := commentAt_shorten (by omega) (Int.le_of_lt hlen) hcomment (by omega) hbounds.2.2
    fun _ => hfits
  exact ⟨q, ⟨hwalk.shorten h.nonneg (by omega) hbounds.2.2,
    by omega, pieceAt_comment (by omega) hshort⟩, hcomment, hpq, hqk, hin⟩

/-- The code before the place ends before the comment. -/
theorem skipGapBack_le (h : d.Hollow start point code) {p : Int}
    (hp : d.skipGapBack code start = .ok p) (hlt : start < p) : p ≤ point := by
  have hbounds := h.bounds
  have hstart := h.start_le
  have htrailed := trailed_of_skipGapBack h.nonneg (by omega) hbounds.2.2 hp
  have hle := htrailed.le_stop
  rcases Int.lt_or_le point p with hbehind | hle
  · exfalso
    rcases h.covered (by omega : point ≤ p - 1) (by omega) with hgap | ⟨q, hq, -, -, hqp, hin⟩
    · cases (htrailed.code hlt).symm.trans hgap
    · exact htrailed.apart q _ hq rfl ⟨by omega, by simp only; omega⟩
  · exact hle

/-- A bracket that is open at the code is open at the comment. -/
theorem bracket_lt (h : d.Hollow start point code) {b : Int}
    (hb : d.openBracket? start code = .ok (some b)) : b < point := by
  obtain ⟨piece, hv, hkind⟩ := visits_openBracket? hb
  have hstart := hv.start_le
  have hnonneg := h.nonneg
  rcases Int.lt_or_le b point with hlt | hge
  · exact hlt
  · exfalso
    rcases h.covered hge hv.lt with hgap | ⟨q, hq, -, -, hqb, hin⟩
    · obtain ⟨c, hc, hopen⟩ := bracket_of_opening (by omega) hv.piece hkind
      rcases char_of_gap (by omega) hgap hc with rfl | rfl | rfl | rfl <;> revert hopen <;> decide
    · obtain ⟨-, rfl⟩ := hq.unique hv hqb hin (Int.le_refl _) hv.lt_stop
      cases hkind

/-- The same holds inside a bracket that is open. -/
theorem inner (h : d.Hollow start point code) {b : Int}
    (hb : d.openBracket? start code = .ok (some b)) : d.Hollow (b + 1) point code := by
  obtain ⟨piece, hv, hkind⟩ := visits_openBracket? hb
  have hstart := hv.start_le
  have hnonneg := h.nonneg
  have hlt := h.bracket_lt hb
  have hbounds := h.bounds
  have hstop := (single_of_pieceAt (by omega) hv.piece (by rw [hkind]; nofun) (by rw [hkind]; nofun)
    (by rw [hkind]; nofun)).1
  have hwalk := hv.walk.snoc hv.lt hv.piece
  rw [hstop] at hwalk
  refine ⟨by omega, by omega, h.first, h.comment, ?_, h.skip, h.outside.of_walk hwalk (by omega)⟩
  exact h.closed.of_walk (hwalk.shorten h.nonneg (by omega) (by omega)) (by omega)

/-- The first code in the stretch stands before the comment. -/
theorem skipGap_lt (h : d.Hollow start point code) {q : Int} (hq : d.skipGap start code = .ok q)
    (hlt : q < code) : q < point := by
  have hbounds := h.bounds
  obtain ⟨hle, -, hstops⟩ := (skipGap_yields h.nonneg hbounds.2.2).of_eq hq
  obtain ⟨hcode, hnone⟩ := hstops hlt
  rcases Int.lt_or_le q point with hbefore | hge
  · exact hbefore
  · exfalso
    rcases h.covered hge hlt with hgap | ⟨a, ha, hcomment, -, haq, hin⟩
    · cases hcode.symm.trans hgap
    · have hwalk := walk_skipGap (.refl start) h.nonneg hbounds.2.2 hq hlt
      rcases ha.walk.le_or_stop_le ha.piece (hwalk.shorten h.nonneg (Int.le_of_lt hlt) hbounds.2.2)
        with hqa | hstop
      · obtain rfl : q = a := by omega
        cases hnone.symm.trans hcomment
      · simp only at hstop
        omega

/-- What is no blank between the comment and the code lies in a comment, as far as the scanner can
tell: the second character of a comment lies in none that has begun before it. -/
theorem openComment?_eq (h : d.Hollow start point code) (hk : point ≤ k) (hlt : k < code)
    (hcode : d.isGapAt k = .ok false) (hsecond : 0 < k → d.commentAt (k - 1) ≠ .ok true) :
    ∃ q, d.openComment? start k = .ok (some q) := by
  have hnonneg := h.nonneg
  have hstart := h.start_le
  have hbounds := h.bounds
  rcases h.covered hk hlt with hgap | ⟨q, hq, hcomment, hpq, hqk, hin⟩
  · cases hcode.symm.trans hgap
  rcases Int.lt_or_eq_of_le hqk with hbefore | rfl
  · have hne : q ≠ k - 1 := by
      rintro rfl
      exact hsecond (by omega) hcomment
    have hshort := commentAt_shorten (by omega) (by omega) hcomment (by omega : 0 ≤ k) (by omega)
      fun _ => by omega
    have hv : d.text.Visits d.bird start k q _ :=
      ⟨hq.walk.shorten hnonneg hqk (by omega), hbefore, pieceAt_comment (by omega) hshort⟩
    obtain ⟨s, hs, -⟩ := nesting_yields (d := d) hnonneg (by omega : k ≤ d.text.length)
    refine ⟨q, ?_⟩
    unfold openComment?
    rw [if_neg (by omega), hs, ok_bind, hv.comment?_eq hs rfl hin]
    rfl
  · have hclosed : d.Closed start q :=
      closed_of_walk hnonneg (by omega) (hq.walk.shorten hnonneg (Int.le_refl _) (by omega))
    exact ⟨q, openComment?_of_closed hclosed hcomment⟩

/-- The opener of a keyword stands before the comment. -/
theorem opener_lt (h : d.Hollow start point code) {pair : KeywordPair} {skipEnded : Bool} {o : Int}
    (ho : d.matchingOpener? pair.words skipEnded start code = .ok (some o)) : o < point := by
  have hnonneg := h.nonneg
  have hstart := h.start_le
  have hbounds := h.bounds
  obtain ⟨hle, hlt, ⟨c, hc, hname⟩, i, hi, hio, hnone⟩ :=
    opener_cases hnonneg (by omega) (by omega) hbounds.2.2 ho
  have hinner : d.Hollow i point code := by
    rcases hi with rfl | ⟨b, hb, rfl⟩
    · exact h
    · exact h.inner hb
  rcases Int.lt_or_le o point with hbefore | hge
  · exact hbefore
  · exfalso
    obtain ⟨gap, hgap, -⟩ := isGapAt_yields (d := d) (by omega : 0 ≤ o) (by omega)
    have hcode : d.isGapAt o = .ok false := by
      cases gap with
      | false => exact hgap
      | true =>
        exfalso
        rcases char_of_gap (by omega) hgap hc with rfl | rfl | rfl | rfl <;> revert hname <;> decide
    have hsecond : 0 < o → d.commentAt (o - 1) ≠ .ok true := by
      intro hpos hcomment
      have hdash := (dash_of_commentAt (by omega) hcomment).1
      rw [Int.sub_add_cancel, hc] at hdash
      cases hdash
      revert hname
      decide
    obtain ⟨q, hq⟩ := hinner.openComment?_eq hge hlt hcode hsecond
    cases hnone.symm.trans hq

end Hollow

end Document

end LayoutRule
