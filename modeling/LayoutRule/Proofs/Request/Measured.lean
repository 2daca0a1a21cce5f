import LayoutRule.Proofs.Lexical.Walks
import LayoutRule.Proofs.Request.Settling
import LayoutRule.Proofs.Text.Lookahead

/-!
# Where other lines are measured

A request measures hanging keywords and brackets by requests of their own. `Clear` is what holds of
the place of a request when no comment starts at the line it is made for: no comment starts at a
place that lies in none, and what stands there does not belong to the first characters of one. Every
request that is made inside another keeps to such places: at the opener of a keyword, at a keyword
of letters (`Clear.of_char`), at a keyword of one sign (`Clear.sign`) and at a bracket
(`Clear.bracket`). So no such request ever looks at a comment that lies ahead.
-/

namespace LayoutRule

namespace Document

open Text

variable {d : Document} {pos limit start stop p q j k : Int}

/-! ## Skipping backward -/

/-- Behind code that no comment reaches nothing is skipped. -/
theorem skipBackOver_of_code {spans : List Span}
    (hcode : limit < pos → d.isGapAt (pos - 1) = .ok false) (hs : ∀ s ∈ spans, s.stop < pos) :
    d.skipBackOver limit spans pos = .ok pos := by
  have hback : d.skipBlanksBack pos limit = .ok pos := by
    unfold skipBlanksBack
    rw [retreat]
    split
    · next hlt => rw [hcode hlt]
    · rfl
  induction spans with
  | nil => exact hback
  | cons s rest ih =>
    have hhead := hs s List.mem_cons_self
    unfold skipBackOver
    rw [hback, ok_bind, if_neg (by omega)]
    exact ih fun r hr => hs r (List.mem_cons_of_mem s hr)

/-- What is skipped backward over comments that are listed last to first. -/
theorem skipBackOver_cases {spans : List Span} (h₀ : 0 ≤ limit) (h₁ : pos ≤ d.text.length)
    (hle : limit ≤ pos) (hs : ∀ s ∈ spans, limit ≤ s.start ∧ s.start ≤ s.stop)
    (horder : spans.Pairwise fun s s' => s'.stop ≤ s.start)
    (h : d.skipBackOver limit spans pos = .ok p) :
    limit ≤ p ∧ p ≤ pos ∧ (limit < p → d.isGapAt (p - 1) = .ok false) ∧
      (∀ s ∈ spans, ¬(s.start < p ∧ p ≤ s.stop)) ∧
      ∀ k, p ≤ k → k < pos → d.isGapAt k = .ok true ∨ ∃ s ∈ spans, s.start ≤ k ∧ k < s.stop := by
  induction spans generalizing pos with
  | nil =>
    obtain ⟨h₂, h₃, h₄, h₅⟩ := (skipBlanksBack_yields h₀ h₁).of_eq h
    exact ⟨by omega, h₂, h₅, by simp, fun k hk hlt => .inl (h₄ k hk hlt)⟩
  | cons s rest ih =>
    obtain ⟨hhead, hwide⟩ := hs s List.mem_cons_self
    have hrest : ∀ r ∈ rest, limit ≤ r.start ∧ r.start ≤ r.stop :=
      fun r hr => hs r (List.mem_cons_of_mem s hr)
    obtain ⟨hbefore, horder⟩ := List.pairwise_cons.mp horder
    unfold skipBackOver at h
    obtain ⟨i, hi, hgo⟩ := bind_eq_ok.1 h
    obtain ⟨h₂, h₃, h₄, h₅⟩ := (skipBlanksBack_yields h₀ h₁).of_eq hi
    split at hgo
    · next hin =>
      obtain ⟨h₆, h₇, h₈, h₉, hgap⟩ := ih (by omega) hhead hrest horder hgo
      refine ⟨h₆, by omega, h₈, ?_, ?_⟩
      · intro r hr
        rcases List.mem_cons.mp hr with rfl | hr
        · omega
        · exact h₉ r hr
      · intro k hk hlt
        rcases Int.lt_or_le k s.start with hk' | hk'
        · exact (hgap k hk hk').imp_right fun ⟨r, hr, hrk⟩ => ⟨r, List.mem_cons_of_mem s hr, hrk⟩
        · rcases Int.lt_or_le k i with hki | hki
          · exact .inr ⟨s, List.mem_cons_self, hk', by omega⟩
          · exact .inl (h₄ k hki hlt)
    · next hout =>
      obtain ⟨h₆, h₇, h₈, h₉, hgap⟩ := ih (by omega) (by omega) hrest horder hgo
      refine ⟨h₆, by omega, h₈, ?_, ?_⟩
      · intro r hr
        rcases List.mem_cons.mp hr with rfl | hr
        · rcases Int.lt_or_le r.stop i with hlt | hge
          · -- the comment ends before the place that was reached, and so do all others
            rw [skipBackOver_of_code h₅ fun r' hr' => by have := hbefore r' hr'; omega] at hgo
            cases hgo
            omega
          · omega
        · exact h₉ r hr
      · intro k hk hlt
        rcases Int.lt_or_le k i with hki | hki
        · exact (hgap k hk hki).imp_right fun ⟨r, hr, hrk⟩ => ⟨r, List.mem_cons_of_mem s hr, hrk⟩
        · exact .inl (h₄ k hki hlt)

/-- No string and no comment that starts at `start` or behind it holds `stop`. -/
def Closed (d : Document) (start stop : Int) : Prop :=
  ∃ s, d.nesting start stop = .ok s ∧ s.string? = none ∧ s.comment? = none

/-- A place that lies in no string, and in no comment but one that starts there. -/
theorem closed_of_open {comment? : Option Int} (h₀ : 0 ≤ start) (h₁ : stop ≤ d.text.length)
    (hstring : d.openString? start stop = .ok none)
    (hcomment : d.openComment? start stop = .ok comment?) (hstop : ∀ c ∈ comment?, c = stop) :
    d.Closed start stop := by
  obtain ⟨s, hs, hinside⟩ := nesting_yields (d := d) h₀ h₁
  unfold openString? at hstring
  rw [hs, ok_bind] at hstring
  refine ⟨s, hs, Except.ok.inj hstring, ?_⟩
  cases hin : s.comment? with
  | none => rfl
  | some c =>
    have hlt := hinside.comment c hin
    unfold openComment? at hcomment
    rw [if_neg (by omega), hs, ok_bind, hin] at hcomment
    have := hstop c (Except.ok.inj hcomment).symm
    omega

/-- What is closed from one place of the walk on is closed from any later one. -/
theorem Closed.of_walk (h : d.Closed start stop) (hw : d.text.Walk d.bird stop start p)
    (hle : p ≤ stop) : d.Closed p stop := by
  obtain ⟨s, hs, hstring, hcomment⟩ := h
  obtain ⟨s', hs', hstring', hcomment'⟩ := hw.nestingFrom hle hs
  obtain ⟨final, hfinal, hsame, hsame'⟩ :=
    nestingFrom_open (u := {}) hs' hstring'.symm hcomment'.symm
  exact ⟨final, hfinal, hsame.trans hstring, hsame'.trans hcomment⟩

/-- A place where a piece starts lies in no string and in no comment. -/
theorem closed_of_walk (h₀ : 0 ≤ start) (h₁ : p ≤ d.text.length)
    (hw : d.text.Walk d.bird p start p) : d.Closed start p := by
  obtain ⟨final, hfinal, -⟩ := nesting_yields (d := d) h₀ h₁
  obtain ⟨s, hs, hstring, hcomment⟩ := hw.nestingFrom (Int.le_refl _) hfinal
  rw [nestingFrom, if_neg (Int.lt_irrefl _)] at hs
  cases hs
  exact ⟨_, hfinal, hstring, hcomment⟩

/-- The comments before a place, the one that holds it included, are pieces of the walk, in
order. -/
theorem visits_commentsBefore {s : Nesting} (hs : d.nesting start stop = .ok s) :
    (∀ span ∈ s.commentsBefore stop, (start ≤ span.start ∧ span.start ≤ span.stop) ∧
        ∃ r, d.text.Visits d.bird start stop span.start r ∧ r.kind = .comment ∧
          span.stop ≤ r.stop) ∧
      (s.commentsBefore stop).Pairwise fun c c' => c.stop ≤ c'.start := by
  obtain ⟨_, hvisited⟩ := visited_nesting hs
  have hcomments : ∀ span ∈ s.comments, (start ≤ span.start ∧ span.start ≤ span.stop) ∧
      ∃ r, d.text.Visits d.bird start stop span.start r ∧ r.kind = .comment ∧
        span.stop ≤ r.stop := by
    intro span hspan
    obtain ⟨-, r, hr, hkind, hstop⟩ := hvisited.comments span hspan
    have := hr.start_le
    have := hr.lt_stop
    exact ⟨⟨by omega, by omega⟩, r, hr, hkind, by omega⟩
  unfold Nesting.commentsBefore
  split
  · next c hc =>
    obtain ⟨⟨r, hr, hkind, hstop⟩, hlast⟩ :=
      visits_of_nestingFrom (s := {}) ⟨by simp, by simp, .nil⟩ (.refl start) rfl hs hc
    constructor
    · intro span hspan
      rcases List.mem_append.mp hspan with hspan | hspan
      · exact hcomments span hspan
      · rw [List.mem_singleton.mp hspan]
        exact ⟨⟨hr.start_le, Int.le_of_lt hr.lt⟩, r, hr, hkind, Int.le_of_lt hstop⟩
    · refine List.pairwise_append.mpr ⟨hvisited.order, List.pairwise_singleton _ _, ?_⟩
      intro span hspan last hlast'
      rw [List.mem_singleton.mp hlast']
      exact hlast span hspan
  · exact ⟨hcomments, hvisited.order⟩

/-- Only blanks and comments stand between `p` and `stop`, and code right before `p`. -/
structure Trailed (d : Document) (start p stop : Int) : Prop where
  start_le : start ≤ p
  le_stop : p ≤ stop
  /-- Code stands right before `p`, unless the stretch starts there. -/
  code : start < p → d.isGapAt (p - 1) = .ok false
  /-- No comment reaches over the place before `p`. -/
  apart : ∀ a r, d.text.Visits d.bird start stop a r → r.kind = .comment → ¬(a < p ∧ p ≤ r.stop)
  gap : ∀ k, p ≤ k → k < stop → d.isGapAt k = .ok true ∨
    ∃ a r, d.text.Visits d.bird start stop a r ∧ r.kind = .comment ∧ a ≤ k ∧ k < r.stop

/-- What skipping backward passes are blanks and comments, with code right before them. -/
theorem trailed_of_skipGapBack (h₀ : 0 ≤ start) (hle : start ≤ stop) (h₁ : stop ≤ d.text.length)
    (h : d.skipGapBack stop start = .ok p) : d.Trailed start p stop := by
  unfold skipGapBack at h
  obtain ⟨s, hs, h⟩ := bind_eq_ok.1 h
  obtain ⟨hvisits, horder⟩ := visits_commentsBefore hs
  obtain ⟨h₂, h₃, h₄, h₅, h₆⟩ := skipBackOver_cases h₀ h₁ hle
    (fun span hspan => (hvisits span (List.mem_reverse.mp hspan)).1)
    (List.pairwise_reverse.mpr horder) h
  refine ⟨h₂, h₃, h₄, ?_, ?_⟩
  · rintro a r hr hkind ⟨hap, hpr⟩
    exact h₅ ⟨a, min r.stop stop⟩ (List.mem_reverse.mpr (hr.mem_commentsBefore hs hkind))
      ⟨hap, by simp only; omega⟩
  · intro k hk hlt
    rcases h₆ k hk hlt with hgap | ⟨span, hspan, h₇, h₈⟩
    · exact .inl hgap
    · obtain ⟨-, r, hr, hkind, hstop⟩ := hvisits span (List.mem_reverse.mp hspan)
      exact .inr ⟨span.start, r, hr, hkind, h₇, by omega⟩

/-! ## Dashes and brackets in a row -/

/-- Dashes and opening brackets. -/
def isDashOrOpening (c : Char) : Bool := c == '-' || isOpening c

/-- Dashes and opening brackets are different from all other characters. -/
theorem ne_of_isDashOrOpening {c x : Char} (h : isDashOrOpening c = true)
    (hx : isDashOrOpening x = false) : c ≠ x := by
  rintro rfl
  rw [hx] at h
  cases h

/-- The characters that are dashes or opening brackets. -/
theorem isDashOrOpening_cases {c : Char} (h : isDashOrOpening c = true) :
    c = '-' ∨ c = '(' ∨ c = '[' ∨ c = '\x7b' := by
  simpa only [isDashOrOpening, isOpening, Bool.or_eq_true, beq_iff_eq, or_assoc] using h

/-- A line comment starts at `j`. -/
def DashesAt (d : Document) (j : Int) : Prop :=
  d.commentAt j = .ok true ∧ d.text.charAt? j = some '-'

/-- The end of the dashes at `j` and of the brackets that open right after them. -/
def dashReach (d : Document) (j : Int) : Nat :=
  d.text.runStop isOpening (d.text.runStop (· == '-') j.toNat)

/-- Between the start of a line comment and the end of the brackets right behind its dashes, there
are dashes and opening brackets only. -/
theorem char_of_lt_dashReach (h₀ : 0 ≤ j) (h₁ : j ≤ k) (h₂ : k < d.dashReach j) :
    ∃ c, d.text.charAt? k = some c ∧ isDashOrOpening c = true := by
  rw [charAt?_eq (by omega)]
  rcases Nat.lt_or_ge k.toNat (d.text.runStop (· == '-') j.toNat) with hlt | hge
  · obtain ⟨c, hc, hdash⟩ := char_of_lt_runStop (by omega) hlt
    exact ⟨c, hc, by simp [isDashOrOpening, hdash]⟩
  · have hlt : k.toNat < d.text.runStop isOpening (d.text.runStop (· == '-') j.toNat) := by
      unfold dashReach at h₂
      omega
    obtain ⟨c, hc, hopen⟩ := char_of_lt_runStop hge hlt
    exact ⟨c, hc, by simp [isDashOrOpening, hopen]⟩

/-- The dashes of a line comment are no piece of a single character. -/
theorem DashesAt.not_single {piece : Piece} (hj : d.DashesAt j) (h₀ : 0 ≤ start)
    (hv : d.text.Visits d.bird start stop j piece) (hle : j + 2 ≤ stop)
    (hstop : stop ≤ d.text.length) : piece.stop ≠ j + 1 := by
  intro hone
  have hstart := hv.start_le
  have hcomment := commentAt_shorten (by omega) (by omega) hj.1 (by omega) hstop fun _ => hle
  obtain ⟨c, hc, hpiece⟩ := exists_char_of_pieceAt (by omega) hv.piece
  rw [hj.2] at hc
  cases hc
  cases hpiece with
  | marker hsign => cases hsign
  | comment hcomment =>
    change d.text.commentStop j = j + 1 at hone
    have := add_two_le_commentStop (by omega) hcomment
    omega
  | string hnone => cases hcomment.symm.trans hnone
  | character hnone => cases hcomment.symm.trans hnone
  | single hnone => cases hcomment.symm.trans hnone

/-- A piece that holds the first of some dashes and brackets in a row holds them all or is a single
character. -/
theorem Visits.holds_row {a : Int} {r : Piece} (h₀ : 0 ≤ start)
    (hr : d.text.Visits d.bird start limit a r) (ha : a ≤ j) (hj : j < r.stop)
    (hrow : ∀ k, j ≤ k → k ≤ q → ∃ c, d.text.charAt? k = some c ∧ isDashOrOpening c = true) :
    q < r.stop ∨ r.stop = a + 1 := by
  rcases Int.lt_or_le q r.stop with hlt | hge
  · exact .inl hlt
  right
  have hstart := hr.start_le
  obtain ⟨c, hc, hrowc⟩ := hrow (r.stop - 1) (by omega) (by omega)
  obtain ⟨c', hc', hrowc'⟩ := hrow r.stop (by omega) (by omega)
  have hlen := lt_length_of_charAt? (by omega) hc'
  have hlast : ∀ x, isDashOrOpening x = false → d.text.charAt? (r.stop - 1) ≠ some x := by
    intro x hx hchar
    rw [hc] at hchar
    exact ne_of_isDashOrOpening hrowc hx (Option.some.inj hchar)
  have hnext : d.text.charAt? r.stop ≠ some '\n' := by
    intro hchar
    rw [hc'] at hchar
    exact ne_of_isDashOrOpening hrowc' (by decide) (Option.some.inj hchar)
  rcases char_before_stop (by omega) hr.piece (by omega) with h | ⟨-, h | h⟩ | ⟨-, h | h⟩ | ⟨-, h⟩
  · exact h
  · exact absurd h (hlast _ (by decide))
  · exact absurd h (hlast _ (by decide))
  · exact absurd h (hlast _ (by decide))
  · exact absurd h hnext
  · exact absurd h (hlast _ (by decide))

/-! ## Lexemes and gaps around a sign -/

/-- A lexeme that does not start as a name holds operator signs and brackets only. -/
theorem char_of_lt_lexemeStop {t : Text} {c : Char} (h₀ : 0 ≤ q) (hc : t.charAt? q = some c)
    (hname : isNameChar c = false) (h₁ : q ≤ k) (h₂ : k < t.lexemeStop q.toNat) :
    ∃ c, t.charAt? k = some c ∧ (isOperatorChar c || isOpening c || isClosing c) = true := by
  rw [charAt?_eq h₀] at hc
  rw [charAt?_eq (by omega)]
  have hrun : t.runStop isNameChar q.toNat = q.toNat := by
    refine runStop_eq_of (Nat.le_refl _) (fun i h₁ h₂ => by omega) fun c' hc' => ?_
    rw [hc] at hc'
    cases hc'
    exact hname
  unfold lexemeStop at h₂
  rw [hrun, if_neg (Nat.lt_irrefl _)] at h₂
  rcases Nat.lt_or_ge k.toNat (t.runStop isOperatorChar q.toNat) with hop | hop
  · obtain ⟨c, hc, hclass⟩ := char_of_lt_runStop (by omega) hop
    exact ⟨c, hc, by simp [hclass]⟩
  rcases Nat.lt_or_ge k.toNat (t.runStop isOpening (t.runStop isOperatorChar q.toNat)) with
    hopen | hopen
  · obtain ⟨c, hc, hclass⟩ := char_of_lt_runStop hop hopen
    exact ⟨c, hc, by simp [hclass]⟩
  · have hlt : k.toNat < t.runStop isClosing
        (t.runStop isOpening (t.runStop isOperatorChar q.toNat)) := by omega
    obtain ⟨c, hc, hclass⟩ := char_of_lt_runStop hopen hlt
    exact ⟨c, hc, by simp [hclass]⟩

/-- The gap before code, with no comment in it. -/
theorem skipGap_of_gaps (h₀ : 0 ≤ pos) (hle : pos ≤ stop) (hlen : stop < d.text.length)
    (hgaps : ∀ k, pos ≤ k → k < stop → d.isGapAt k = .ok true) (hcode : d.isGapAt stop = .ok false)
    (hcomment : d.commentAt stop = .ok false) : d.skipGap pos d.text.length = .ok stop := by
  have hblanks : d.skipBlanks pos d.text.length = .ok stop := by
    obtain ⟨i, hi, h₁, h₂, h₃, h₄⟩ := skipBlanks_yields (d := d) h₀ (Int.le_refl d.text.length)
    rw [hi]
    rcases Int.lt_trichotomy i stop with hlt | heq | hgt
    · have hgap := hgaps i h₁ hlt
      rw [h₄ (by omega)] at hgap
      cases hgap
    · rw [heq]
    · have hgap := h₃ stop hle hgt
      rw [hcode] at hgap
      cases hgap
  unfold commentAt at hcomment
  unfold skipGap
  split
  · next e he =>
    rw [hblanks] at he
    cases he
  · next i hi =>
    rw [hblanks] at hi
    cases hi
    rw [if_pos hlen]
    split
    · next he =>
      rw [hcomment] at he
      cases he
    · next he =>
      rw [hcomment] at he
      cases he
    · rfl

/-- A sign with code behind it on its line does not hang. -/
theorem not_hangs {r : Request} (h₀ : 0 ≤ q) (hq : q < stop) (hlen : stop < r.doc.text.length)
    (hgaps : ∀ k, q < k → k < stop → r.doc.isGapAt k = .ok true)
    (hcode : r.doc.isGapAt stop = .ok false) (hcomment : r.doc.commentAt stop = .ok false)
    (hline : stop < r.doc.text.lineStop q) (hlexeme : r.doc.text.lexemeStop q.toNat ≤ stop) :
    r.hangs q ≠ .ok true := by
  have hclamp : r.doc.text.clamp q = q.toNat := by
    have := clamp_of_mem h₀ (by omega : q ≤ r.doc.text.length)
    omega
  have hlength := r.doc.text.length_lexemeAt q
  rw [hclamp] at hlength
  unfold Request.hangs
  split
  · nofun
  rw [show r.doc.text.readLexeme q = .ok (r.doc.text.lexemeAt q) by
    unfold readLexeme
    rw [checkStart_of_mem h₀ (by omega)]
    rfl, ok_bind]
  split
  · nofun
  rw [skipGap_of_gaps (by omega) (by omega) hlen
    (fun k h₁ h₂ => hgaps k (by omega) h₂) hcode hcomment, ok_bind, decide_eq_false (by omega)]
  nofun

/-! ## Places on one line -/

/-- A character literal stands on one line. -/
theorem char_of_literal {t : Text} {bird : Bool} {a : Int} {r : Piece} (h₀ : 0 ≤ a)
    (h : t.pieceAt bird a limit = .ok r) (hkind : r.kind = .character) (h₁ : a ≤ k)
    (h₂ : k < r.stop) : ∃ c, t.charAt? k = some c ∧ c ≠ '\n' := by
  obtain ⟨hquote, m, hm, hstop⟩ := literal_of_character h₀ h hkind
  have hclamp := clamp_of_mem h₀ (Int.le_of_lt (lt_length_of_charAt? h₀ hquote))
  have hsame : SameStop t (t.clamp a) (t.clamp a) (some m) (some m) :=
    hstop ▸ Agree.charLiteralStop? (t := t) (u := t) fun _ _ => rfl
  cases hsame with
  | some hle hreach =>
    exact charAt?_eq (t := t) (by omega : 0 ≤ k) ▸ hreach k.toNat (by omega) (by omega)

/-- A stretch without a newline lies on one line. -/
theorem lt_lineStop_of_chars {t : Text} (h₀ : 0 ≤ q) (hle : q ≤ stop)
    (hchars : ∀ k, q ≤ k → k ≤ stop → ∃ c, t.charAt? k = some c ∧ c ≠ '\n') :
    stop < t.lineStop q := by
  obtain ⟨c, hc, -⟩ := hchars stop hle (Int.le_refl _)
  have hlen := lt_length_of_charAt? (by omega) hc
  rcases Int.lt_or_le stop (t.lineStop q) with hlt | hge
  · exact hlt
  · exfalso
    have hqs := le_lineStop (t := t) h₀ (by omega)
    obtain ⟨c', hc', hne⟩ := hchars (t.lineStop q) hqs hge
    rw [charAt?_eq (by omega), newline_at_lineStop (t := t) q (by omega)] at hc'
    cases hc'
    exact hne rfl

/-- Code stands behind the lead of its line. -/
theorem indentationPoint_le_of_code (h₀ : 0 ≤ q) (h : d.isGapAt q = .ok false) :
    d.indentationPoint q ≤ q := by
  rcases Int.lt_or_le q (d.indentationPoint q) with hlt | hge
  · have hstart := lineStart_le (t := d.text) h₀
    have hpoint := indentationPoint_eq_of_lineStart_eq (d := d) (d.text.lineStart_lineStart q)
    rw [isGapAt_lead (d.text.lineStart_lineStart q) hstart (by omega)] at h
    cases h
  · exact hge

/-- Behind code on its line only blanks and the newline are gaps. -/
theorem isGapAt_of_code {c : Char} (h₀ : 0 ≤ q) (h : d.isGapAt q = .ok false) (hle : q ≤ k)
    (hline : k ≤ d.text.lineStop q) (hc : d.text.charAt? k = some c) :
    d.isGapAt k = .ok (isBlank c || c == '\n') := by
  have hstart := lineStart_le (t := d.text) h₀
  have hpoint := indentationPoint_eq_of_lineStart_eq (d := d)
    (lineStart_eq_of_between (t := d.text) (by omega : _ ≤ k) hline)
  have := indentationPoint_le_of_code h₀ h
  exact isGapAt_code (by omega) hc

/-! ## Places that are clear of comments -/

/-- The place of a request: no comment starts there, unless a string or comment holds it, and what
stands there does not belong to the first characters of a comment. -/
structure Clear (d : Document) (start stop : Int) : Prop where
  /-- No comment starts there. -/
  comment : d.Closed start stop → d.commentAt stop = .ok false
  /-- Dashes and brackets that end a line comment's first characters lie in the comment. -/
  dashes : ∀ j, start ≤ j → j < stop → d.DashesAt j → stop < d.dashReach j → ¬d.Closed start stop
  /-- Inside a character literal neither a blank nor a closing bracket is measured. -/
  literal : ∀ a r, d.text.Visits d.bird start stop a r → r.kind = .character → stop < r.stop →
    ∃ c, d.text.charAt? stop = some c ∧ isBlank c = false ∧ isClosing c = false
  /-- The stretch starts behind a gap. -/
  before : start < d.text.length → ∀ c, d.text.charAt? (start - 1) = some c →
    isDashOrOpening c = false

/-- A place where any other character stands is clear. -/
theorem Clear.of_char {c : Char} (h₀ : 0 ≤ start) (hle : start ≤ stop)
    (hc : d.text.charAt? stop = some c) (hrow : isDashOrOpening c = false)
    (hblank : isBlank c = false) (hclose : isClosing c = false)
    (hbefore : start < d.text.length → ∀ c, d.text.charAt? (start - 1) = some c →
      isDashOrOpening c = false) : d.Clear start stop where
  comment _ := by
    have hne : ∀ x, isDashOrOpening x = true → c ≠ x :=
      fun x hx h => ne_of_isDashOrOpening hx hrow h.symm
    exact commentAt_eq_false (by omega) hc (hne _ (by decide)) (hne _ (by decide)) _
  dashes j h₁ h₂ _ h₃ := by
    obtain ⟨c', hc', hrow'⟩ := char_of_lt_dashReach (d := d) (by omega) (Int.le_of_lt h₂) h₃
    rw [hc] at hc'
    cases hc'
    rw [hrow] at hrow'
    cases hrow'
  literal _ _ _ _ _ := ⟨c, hc, hblank, hclose⟩
  before := hbefore

/-- The character before an indentation point is neither a dash nor an opening bracket: it is a
blank, a marker or a newline. -/
theorem char_before_indentationPoint {c : Char}
    (hc : d.text.charAt? (d.indentationPoint pos - 1) = some c) : isDashOrOpening c = false := by
  rcases d.char_before_point pos with hnone | ⟨c', hc', hlead⟩
  · rw [hc] at hnone
    cases hnone
  · rw [hc] at hc'
    cases hc'
    rcases hlead with rfl | hb | rfl
    · decide
    · rw [isBlank, Bool.or_eq_true, beq_iff_eq, beq_iff_eq] at hb
      rcases hb with rfl | rfl <;> decide
    · decide

/-- A character literal that starts before the code of a line ends before it: no literal reaches
over a newline, and no quote stands in the lead of a line. -/
theorem stop_le_indentationPoint {a : Int} {r : Piece} (h₀ : 0 ≤ start)
    (hr : d.text.Visits d.bird start limit a r) (hkind : r.kind = .character)
    (hlt : a < d.indentationPoint pos) : r.stop ≤ d.indentationPoint pos := by
  rcases Int.lt_or_le (d.indentationPoint pos) r.stop with hstop | hle
  · exfalso
    have hstart := hr.start_le
    have hbol := d.lineStart_le_indentationPoint pos
    obtain ⟨hquote, -⟩ := literal_of_character (by omega) hr.piece hkind
    rcases Int.lt_or_le a (d.text.lineStart pos) with habove | hhere
    · obtain ⟨c, hc, hne⟩ :=
        char_of_literal (k := d.text.lineStart pos - 1) (by omega) hr.piece hkind (by omega)
          (by omega)
      rw [charAt?_eq (by omega), show (d.text.lineStart pos - 1).toNat =
        (d.text.lineStart pos).toNat - 1 by
        omega, newline_before_lineStart (t := d.text) pos (by omega)] at hc
      cases hc
      exact hne rfl
    · have hpoint := indentationPoint_eq_of_lineStart_eq (d := d) (d.text.lineStart_lineStart pos)
      obtain ⟨c, hc, hlead⟩ := char_lead (d.text.lineStart_lineStart pos) hhere (by omega)
      rw [hquote] at hc
      cases hc
      exact ne_of_lead hlead (by decide : isBlank '\'' = false) (by decide) rfl
  · exact hle

/-- The indentation point of a line is clear where no comment starts. -/
theorem clear_indentationPoint (h₀ : 0 ≤ start)
    (hcomment : d.commentAt (d.indentationPoint pos) = .ok false)
    (hbefore : start < d.text.length → ∀ c, d.text.charAt? (start - 1) = some c →
      isDashOrOpening c = false) : d.Clear start (d.indentationPoint pos) where
  comment _ := hcomment
  dashes j h₁ h₂ _ h₃ := by
    obtain ⟨c, hc, hrow⟩ :=
      char_of_lt_dashReach (d := d) (j := j) (k := d.indentationPoint pos - 1) (by omega) (by omega)
        (by omega)
    rw [char_before_indentationPoint hc] at hrow
    cases hrow
  literal a r hr hkind hstop := by
    have := stop_le_indentationPoint h₀ hr hkind hr.lt
    omega
  before := hbefore

/-! ## A sign that hangs before a clear place -/

/-- A run ends at the same place from wherever inside it one starts. -/
theorem runStop_eq_of_between {t : Text} {f : Char → Bool} {k i : Nat} (h₁ : k ≤ i)
    (h₂ : i ≤ t.runStop f k) : t.runStop f i = t.runStop f k := by
  exact runStop_eq_of h₂ (fun m h₃ h₄ => char_of_lt_runStop (by omega) h₄) fun c hc =>
    not_of_runStop hc

/-- A run that ends at once. -/
theorem runStop_eq_self {t : Text} {f : Char → Bool} {k : Nat} {c : Char}
    (hc : t.chars[k]? = some c) (h : f c = false) : t.runStop f k = k := by
  refine runStop_eq_of (Nat.le_refl _) (fun i h₁ h₂ => by omega) fun c' hc' => ?_
  rw [hc] at hc'
  cases hc'
  exact h

/-- A sign, the last code before a clear place, that ends its line. -/
structure HangingSign (r : Request) (start stop q : Int) (c : Char) : Prop where
  start_nonneg : 0 ≤ start
  start_le : start ≤ q
  stop_le : stop ≤ r.doc.text.length
  clear : r.doc.Clear start stop
  closed : r.doc.Closed start stop
  trailed : r.doc.Trailed start (q + 1) stop
  char : r.doc.text.charAt? q = some c
  notName : isNameChar c = false
  hangs : r.hangs q = .ok true

namespace HangingSign

variable {r : Request} {c : Char} {a : Int} {piece : Piece}

section

variable (h : HangingSign r start stop q c)

include h

/-- A sign that hangs is no gap. -/
theorem not_gap : r.doc.isGapAt q = .ok false := by
  have := h.trailed.code (by have := h.start_le; omega)
  rwa [Int.add_sub_cancel] at this

/-- A sign that hangs is neither a blank nor a newline. -/
theorem not_blank : isBlank c = false ∧ c ≠ '\n' := by
  have h₀ : 0 ≤ q := Int.le_trans h.start_nonneg h.start_le
  have hlen := lt_length_of_charAt? h₀ h.char
  have hgap := isGapAt_of_code h₀ h.not_gap (Int.le_refl q) (le_lineStop h₀ (by omega)) h.char
  rw [h.not_gap] at hgap
  have hvalue := (Except.ok.inj hgap).symm
  rw [Bool.or_eq_false_iff, beq_eq_false_iff_ne] at hvalue
  exact hvalue

/-- A piece that holds the sign is no comment, and no string unless a string is open at the sign. -/
theorem outside (hclosed : r.doc.Closed start q)
    (hv : r.doc.text.Visits r.doc.bird start stop a piece) (h₁ : a ≤ q) (h₂ : q < piece.stop)
    (hquote : c ≠ '"') : piece.kind ≠ .comment ∧ piece.kind ≠ .string := by
  have hstart := hv.start_le
  have h₀ := h.start_nonneg
  constructor
  · intro hkind
    exact h.trailed.apart a piece hv hkind ⟨by omega, by omega⟩
  · intro hkind
    have hne : a ≠ q := by
      rintro rfl
      have := quote_of_string (by omega) hv.piece hkind
      rw [h.char] at this
      exact hquote (Option.some.inj this)
    obtain ⟨s, hs, hstring, -⟩ := hclosed
    have hle := h.trailed.le_stop
    have hshort := hv.shorten h₀ (by omega : a < q) (by omega) (by rw [hkind]; nofun)
    rw [hshort.string?_eq hs hkind h₂] at hstring
    cases hstring

/-- A character literal that holds the sign holds the clear place too, with only blanks between. -/
theorem crossing (hv : r.doc.text.Visits r.doc.bird start stop a piece)
    (hkind : piece.kind = .character) (h₁ : a ≤ q) (h₂ : q < piece.stop) :
    stop < piece.stop ∧ ∀ k, q < k → k < stop → r.doc.isGapAt k = .ok true := by
  have hstart := hv.start_le
  have h₀ := h.start_nonneg
  have hgap : ∀ k, q < k → k < stop → k < piece.stop → r.doc.isGapAt k = .ok true := by
    intro k h₃ h₄ h₅
    rcases h.trailed.gap k (by omega) h₄ with hgap | ⟨b, other, hv', hkind', h₆, h₇⟩
    · exact hgap
    · -- a comment would overlap the literal
      obtain ⟨-, rfl⟩ := hv.unique hv' (by omega : a ≤ k) h₅ h₆ h₇
      rw [hkind] at hkind'
      cases hkind'
  have hcross : stop < piece.stop := by
    rcases Int.lt_or_le stop piece.stop with hlt | hge
    · exact hlt
    exfalso
    have hlen := h.stop_le
    obtain ⟨hquote, -⟩ := literal_of_character (by omega) hv.piece hkind
    have hlast : r.doc.text.charAt? (piece.stop - 1) = some '\'' := by
      rcases char_before_stop (by omega) hv.piece (by omega) with
        hone | ⟨hk, -⟩ | ⟨hk, -⟩ | ⟨-, hlast⟩
      · rw [hone, Int.add_sub_cancel]
        exact hquote
      · rw [hkind] at hk
        cases hk
      · rw [hkind] at hk
        cases hk
      · exact hlast
    have hne : piece.stop - 1 ≠ q := by
      intro heq
      rw [heq, h.char] at hlast
      have hprime := h.notName
      rw [Option.some.inj hlast] at hprime
      revert hprime
      decide
    have hline : piece.stop - 1 < r.doc.text.lineStop q := by
      refine lt_lineStop_of_chars (by omega) (by omega) fun k h₃ h₄ => ?_
      exact char_of_literal (by omega) hv.piece hkind (by omega) (by omega)
    have hquotegap := isGapAt_of_code (by omega) h.not_gap (by omega) (Int.le_of_lt hline) hlast
    rw [hgap (piece.stop - 1) (by omega) (by omega) (by omega)] at hquotegap
    revert hquotegap
    decide
  exact ⟨hcross, fun k h₃ h₄ => hgap k h₃ h₄ (by omega)⟩

/-- Inside a character literal the sign stands right before the clear place, and its lexeme goes on
there. -/
theorem lexeme_of_crossing (hv : r.doc.text.Visits r.doc.bird start stop a piece)
    (hkind : piece.kind = .character) (h₁ : a ≤ q) (h₂ : q < piece.stop) :
    stop = q + 1 ∧ stop < r.doc.text.lexemeStop q.toNat := by
  obtain ⟨hcross, hgaps⟩ := h.crossing hv hkind h₁ h₂
  have hstart := hv.start_le
  have h₀ := h.start_nonneg
  have hle := h.trailed.le_stop
  obtain ⟨c', hc', hblank, -⟩ := h.clear.literal a piece hv hkind hcross
  have hchars : ∀ k, q ≤ k → k ≤ stop → ∃ c, r.doc.text.charAt? k = some c ∧ c ≠ '\n' :=
    fun k h₃ h₄ =>
    char_of_literal (by omega) hv.piece hkind (by omega) (by omega)
  have hline := lt_lineStop_of_chars (by omega) (by omega) hchars
  have hlexeme : stop < r.doc.text.lexemeStop q.toNat := by
    rcases Int.lt_or_le stop (r.doc.text.lexemeStop q.toNat) with hlt | hge
    · exact hlt
    exfalso
    obtain ⟨c'', hc'', hne⟩ := hchars stop (by omega) (Int.le_refl _)
    rw [hc'] at hc''
    cases hc''
    have hcode := isGapAt_of_code (by omega) h.not_gap (by omega) (Int.le_of_lt hline) hc'
    rw [hblank, beq_eq_false_iff_ne.mpr hne] at hcode
    exact not_hangs (by omega) (by omega) (lt_length_of_charAt? (by omega) hc') hgaps hcode
      (h.clear.comment h.closed) hline hge h.hangs
  refine ⟨?_, hlexeme⟩
  rcases Int.lt_or_eq_of_le hle with hlt | heq
  · -- a blank between them would end the lexeme
    exfalso
    obtain ⟨c'', hc'', hclass⟩ :=
      char_of_lt_lexemeStop (k := q + 1) (by omega) h.char h.notName (by omega) (by omega)
    have hgap := isGapAt_of_code (by omega) h.not_gap (by omega) (by omega) hc''
    rw [hgaps (q + 1) (by omega) hlt] at hgap
    have hvalue := (Except.ok.inj hgap).symm
    simp only [isBlank, Bool.or_eq_true, beq_iff_eq] at hvalue
    rcases hvalue with (rfl | rfl) | rfl <;> revert hclass <;> decide
  · exact heq.symm

/-- A comment that started at the sign would start right before the clear place. -/
theorem stop_eq_of_commentAt (hclosed : r.doc.Closed start q)
    (hcomment : r.doc.commentAt q = .ok true) (hrow : isDashOrOpening c = true)
    (hnext : r.doc.text.charAt? (q + 1) = some '-') : stop = q + 1 := by
  have h₀ := h.start_nonneg
  have hle := h.trailed.le_stop
  have hstart := h.start_le
  obtain ⟨a, piece, hv, h₁, h₂⟩ :=
    exists_visits (t := r.doc.text) r.doc.bird h₀ hstart (by omega : q < stop) h.stop_le
  obtain ⟨hno, hno'⟩ := h.outside hclosed hv h₁ h₂ (ne_of_isDashOrOpening hrow (by decide))
  by_cases hkind : piece.kind = .character
  · exact (h.lexeme_of_crossing hv hkind h₁ h₂).1
  · have hstart' := hv.start_le
    obtain ⟨hone, hnone⟩ := single_of_pieceAt (by omega) hv.piece hno hno' hkind
    obtain rfl : a = q := by omega
    rcases Int.lt_or_le stop (a + 2) with hlt | hge
    · omega
    · have hlen := lt_length_of_charAt? (by omega) h.char
      unfold Document.commentAt at hcomment
      rw [commentAt_shorten (by omega) (by omega) hcomment (by omega) h.stop_le fun _ => hge]
        at hnone
      cases hnone

/-- No comment starts at the sign. -/
theorem comment_eq_false (hclosed : r.doc.Closed start q) : r.doc.commentAt q = .ok false := by
  have h₀ : 0 ≤ q := Int.le_trans h.start_nonneg h.start_le
  obtain ⟨value, hvalue, -⟩ := commentAt_yields (d := r.doc) h₀
  cases value with
  | false => exact hvalue
  | true =>
    exfalso
    have hlen := lt_length_of_charAt? h₀ h.char
    rcases commentAt_cases h₀ hvalue with hblock | ⟨hdashes, -⟩
    · obtain ⟨hc, hnext, -⟩ := chars_of_hasWord h₀ hblock
      obtain rfl : c = '\x7b' := Option.some.inj (h.char.symm.trans hc)
      obtain rfl := h.stop_eq_of_commentAt hclosed hvalue (by decide) hnext
      -- a brace with code right behind it does not hang
      have hline : q + 1 < r.doc.text.lineStop q := by
        refine lt_lineStop_of_chars h₀ (by omega) fun k h₁ h₂ => ?_
        rcases Int.lt_or_eq_of_le h₁ with hlt | rfl
        · obtain rfl : k = q + 1 := by omega
          exact ⟨_, hnext, by decide⟩
        · exact ⟨_, hc, by decide⟩
      have hcode := isGapAt_of_code h₀ h.not_gap (by omega) (Int.le_of_lt hline) hnext
      have hlexeme : r.doc.text.lexemeStop q.toNat = q.toNat + 1 := by
        rw [charAt?_eq h₀] at hc
        rw [charAt?_eq (by omega), show (q + 1).toNat = q.toNat + 1 by omega] at hnext
        have hopen : r.doc.text.runStop isOpening q.toNat = q.toNat + 1 := by
          refine runStop_eq_of (by omega) (fun i h₁ h₂ => ?_) fun c' hc' => ?_
          · obtain rfl : i = q.toNat := by omega
            exact ⟨_, hc, by decide⟩
          · rw [hnext] at hc'
            cases hc'
            decide
        unfold lexemeStop
        rw [runStop_eq_self hc (by decide), if_neg (Nat.lt_irrefl _),
          runStop_eq_self hc (by decide), hopen, runStop_eq_self hnext (by decide)]
      exact not_hangs h₀ (by omega) (lt_length_of_charAt? (by omega) hnext)
        (fun k h₁ h₂ => by omega) hcode (h.clear.comment h.closed) hline (by omega) h.hangs
    · obtain ⟨hc, hnext, -⟩ := chars_of_hasWord h₀ hdashes
      obtain rfl : c = '-' := Option.some.inj (h.char.symm.trans hc)
      obtain rfl := h.stop_eq_of_commentAt hclosed hvalue (by decide) hnext
      refine h.clear.dashes q h.start_le (by omega) ⟨hvalue, hc⟩ ?_ h.closed
      rw [charAt?_eq h₀] at hc
      rw [charAt?_eq (by omega), show (q + 1).toNat = q.toNat + 1 by omega] at hnext
      have h₁ := lt_runStop (p := (· == '-')) hc (by decide)
      have h₂ := lt_runStop (p := (· == '-')) hnext (by decide)
      have h₃ := runStop_eq_of_between (f := (· == '-')) (by omega : q.toNat ≤ q.toNat + 1) h₁
      have h₄ := r.doc.text.le_runStop isOpening (r.doc.text.runStop (· == '-') q.toNat)
      unfold dashReach
      omega

end

/-- From a line comment on, dashes and the brackets after them are one lexeme, with the closing
brackets after those. -/
theorem lexemeStop_of_dashReach {c : Char} (h₀ : 0 ≤ j) (hj : r.doc.DashesAt j) (h₁ : j ≤ q)
    (h₂ : q < r.doc.dashReach j) (hc : r.doc.text.charAt? q = some c)
    (hname : isNameChar c = false) : r.doc.text.lexemeStop q.toNat =
    r.doc.text.runStop isClosing (r.doc.dashReach j) := by
  have hends : r.doc.text.endsDashes (r.doc.text.runStop (· == '-') j.toNat) = true := by
    rcases commentAt_cases h₀ hj.1 with hblock | ⟨-, -, hends⟩
    · have := (chars_of_hasWord h₀ hblock).1
      rw [hj.2] at this
      cases this
    · exact hends
  rw [charAt?_eq (by omega)] at hc
  unfold lexemeStop
  rw [runStop_eq_self hc hname, if_neg (Nat.lt_irrefl _)]
  congr 1
  rcases Nat.lt_or_ge q.toNat (r.doc.text.runStop (· == '-') j.toNat) with hlt | hge
  · have hop : r.doc.text.runStop isOperatorChar q.toNat =
        r.doc.text.runStop (· == '-') j.toNat := by
      refine runStop_eq_of (by omega) (fun i h₃ h₄ => ?_) fun c' hc' => ?_
      · obtain ⟨c', hc', hdash⟩ := char_of_lt_runStop (by omega) h₄
        rw [beq_iff_eq] at hdash
        subst hdash
        exact ⟨_, hc', by decide⟩
      · unfold endsDashes at hends
        rw [hc'] at hends
        simpa using hends
    rw [hop]
    rfl
  · have hlt : q.toNat < r.doc.text.runStop isOpening (r.doc.text.runStop (· == '-') j.toNat) := by
      unfold dashReach at h₂
      omega
    obtain ⟨c', hc', hopen⟩ := char_of_lt_runStop hge hlt
    have hop : r.doc.text.runStop isOperatorChar q.toNat = q.toNat := by
      refine runStop_eq_self hc' ?_
      simp only [isOpening, Bool.or_eq_true, beq_iff_eq] at hopen
      rcases hopen with (rfl | rfl) | rfl <;> decide
    rw [hop]
    exact runStop_eq_of_between hge (by omega)

section

variable (h : HangingSign r start stop q c)

include h

/-- The sign does not belong to the first characters of a line comment. -/
theorem dashes_open (h₁ : start ≤ j) (h₂ : j < q) (hj : r.doc.DashesAt j)
    (hreach : q < r.doc.dashReach j) : ¬r.doc.Closed start q := by
  intro hclosed
  have h₀ := h.start_nonneg
  have hle := h.trailed.le_stop
  have hrow : ∀ k, j ≤ k → k ≤ q → ∃ c, r.doc.text.charAt? k = some c ∧ isDashOrOpening c = true :=
    fun k h₃ h₄ =>
    char_of_lt_dashReach (d := r.doc) (by omega) h₃ (by omega)
  have hrowc : isDashOrOpening c = true := by
    obtain ⟨c', hc', hrowc'⟩ := hrow q (by omega) (by omega)
    rw [h.char] at hc'
    cases hc'
    exact hrowc'
  obtain ⟨a, piece, hv, ha, hstop⟩ :=
    exists_visits (t := r.doc.text) r.doc.bird h₀ h₁ (by omega : j < stop) h.stop_le
  have hstart := hv.start_le
  have hsingle : piece.stop ≠ a + 1 := by
    intro hone
    obtain rfl : a = j := by omega
    exact hj.not_single h₀ hv (by omega) h.stop_le hone
  have hholds : q < piece.stop := (Visits.holds_row h₀ hv ha hstop hrow).resolve_right hsingle
  obtain ⟨hno, hno'⟩ :=
    h.outside hclosed hv (by omega) hholds (ne_of_isDashOrOpening hrowc (by decide))
  by_cases hkind : piece.kind = .character
  · obtain ⟨rfl, hlexeme⟩ := h.lexeme_of_crossing hv hkind (by omega) hholds
    obtain ⟨hcross, -⟩ := h.crossing hv hkind (by omega) hholds
    rw [lexemeStop_of_dashReach (by omega) hj (by omega) hreach h.char h.notName] at hlexeme
    rcases Int.lt_or_le (q + 1) (r.doc.dashReach j) with hlt | hge
    · exact h.clear.dashes j h₁ (by omega) hj hlt h.closed
    · -- the closing brackets of the lexeme start at the clear place
      obtain ⟨c', hc', -, hclose⟩ := h.clear.literal a piece hv hkind hcross
      obtain ⟨c'', hc'', hclose'⟩ :=
        char_of_lt_runStop (t := r.doc.text) (p := isClosing) (k := r.doc.dashReach j)
          (i := (q + 1).toNat) (by omega) (by omega)
      rw [charAt?_eq (by omega), hc''] at hc'
      cases hc'
      rw [hclose] at hclose'
      cases hclose'
  · exact hsingle (single_of_pieceAt (by omega) hv.piece hno hno' hkind).1

/-- The sign is no closing bracket inside a character literal. -/
theorem not_closing (hv : r.doc.text.Visits r.doc.bird start q a piece)
    (hkind : piece.kind = .character) (hstop : q < piece.stop) : isClosing c = false := by
  rw [← Bool.not_eq_true]
  intro hclose
  have h₀ := h.start_nonneg
  have hle := h.trailed.le_stop
  have hlt := hv.lt
  obtain ⟨b, other, hv', h₁, h₂⟩ :=
    exists_visits (t := r.doc.text) r.doc.bird h₀ h.start_le (by omega : q < stop) h.stop_le
  have hstart := hv'.start_le
  have hne : ∀ x, isClosing x = false → r.doc.text.charAt? q ≠ some x := by
    intro x hx hc
    rw [h.char] at hc
    rw [Option.some.inj hc, hx] at hclose
    cases hclose
  by_cases hcomment : other.kind = .comment
  · exact h.trailed.apart b other hv' hcomment ⟨by omega, by omega⟩
  by_cases hstring : other.kind = .string
  · -- the literal would overlap the string
    have hb : b ≠ q :=
      fun hb => hne _ (by decide) (hb ▸ quote_of_string (by omega) hv'.piece hstring)
    have hshort := hv'.shorten h₀ (by omega : b < q) (by omega) fun hk => absurd hk hcomment
    obtain ⟨-, rfl⟩ := hv.unique hshort (by omega : a ≤ q - 1) (by omega) (by omega) (by omega)
    rw [hkind] at hstring
    cases hstring
  by_cases hliteral : other.kind = .character
  · obtain ⟨rfl, hlexeme⟩ := h.lexeme_of_crossing hv' hliteral h₁ h₂
    obtain ⟨hcross, -⟩ := h.crossing hv' hliteral h₁ h₂
    obtain ⟨c', hc', -, hopen⟩ := h.clear.literal b other hv' hliteral hcross
    have hchar := h.char
    rw [charAt?_eq (by omega)] at hchar hc'
    have hclass : isOperatorChar c = false ∧ isOpening c = false := by
      simp only [isClosing, Bool.or_eq_true, beq_iff_eq] at hclose
      rcases hclose with (rfl | rfl) | rfl <;> decide
    unfold lexemeStop at hlexeme
    rw [runStop_eq_self hchar h.notName, if_neg (Nat.lt_irrefl _), runStop_eq_self hchar hclass.1,
      runStop_eq_self hchar hclass.2] at hlexeme
    obtain ⟨c'', hc'', hclose'⟩ :=
      char_of_lt_runStop (t := r.doc.text) (p := isClosing) (k := q.toNat) (i := (q + 1).toNat)
        (by omega) (by omega)
    rw [hc''] at hc'
    cases hc'
    rw [hopen] at hclose'
    cases hclose'
  · -- the sign is a piece of its own, which the literal cannot hold
    obtain ⟨hone, -⟩ := single_of_pieceAt (by omega) hv'.piece hcomment hstring hliteral
    obtain rfl : b = q := by omega
    rcases hv.walk.le_or_stop_le hv.piece (hv'.walk.shorten h₀ (Int.le_refl b) (by omega)) with
      hba | hstop'
    · omega
    · omega

end

end HangingSign

/-- A sign that hangs right before a clear place is clear. -/
theorem HangingSign.clear_sign {r : Request} {c : Char} (h : HangingSign r start stop q c) :
    r.doc.Clear start q where
  comment := h.comment_eq_false
  dashes _ h₁ h₂ hj hreach := h.dashes_open h₁ h₂ hj hreach
  literal _ _ hv hkind hstop := ⟨c, h.char, h.not_blank.1, h.not_closing hv hkind hstop⟩
  before := h.clear.before

/-! ## Brackets and definitions -/

/-- What the gap between pieces of code is made of, comments apart. -/
theorem char_of_gap {c : Char} (h₀ : 0 ≤ k) (hgap : d.isGapAt k = .ok true)
    (hc : d.text.charAt? k = some c) : c = ' ' ∨ c = '\t' ∨ c = '\n' ∨ c = '>' := by
  unfold isGapAt at hgap
  rw [read_eq h₀ hc, ok_bind] at hgap
  split at hgap
  · next hblank =>
    simp only [isBlank, Bool.or_eq_true, beq_iff_eq] at hblank
    rcases hblank with (rfl | rfl) | rfl <;> simp
  · unfold isMarker at hgap
    split at hgap
    · next hmark =>
      rw [Bool.and_eq_true, beq_iff_eq] at hmark
      simp [hmark.2]
    · cases hgap

/-- No comment starts in a gap. -/
theorem commentAt_of_gap (h₀ : 0 ≤ k) (hgap : d.isGapAt k = .ok true) :
    d.commentAt k ≠ .ok true := by
  intro hcomment
  obtain ⟨c, -, hget⟩ := read_yields (t := d.text) h₀ (lt_length_of_commentAt hcomment)
  have hc : d.text.charAt? k = some c := (charAt?_eq h₀).trans hget
  have hno : c ≠ '-' ∧ c ≠ '\x7b' := by
    rcases char_of_gap h₀ hgap hc with rfl | rfl | rfl | rfl <;> decide
  have hfalse : d.commentAt k = .ok false := commentAt_eq_false h₀ hc hno.1 hno.2 _
  cases hcomment.symm.trans hfalse

/-- A gap is neither a dash nor a bracket. -/
theorem isDashOrOpening_of_gap {c : Char} (h₀ : 0 ≤ k) (hgap : d.isGapAt k = .ok true)
    (hc : d.text.charAt? k = some c) : isDashOrOpening c = false := by
  rcases char_of_gap h₀ hgap hc with rfl | rfl | rfl | rfl <;> decide

/-- Where a gap was skipped, a gap or the end of a comment stands right before. -/
theorem char_before_skipGap {c : Char} (hlimit : limit = d.text.length) (h₀ : 0 ≤ pos)
    (h : d.skipGap pos limit = .ok p) (hlt : pos < p) (hlen : p < limit)
    (hc : d.text.charAt? (p - 1) = some c) : isDashOrOpening c = false := by
  fun_induction skipGap d pos limit with
  | case1 => cases h
  | case2 => cases h
  | case3 pos i hi hi' hcomment ih =>
    have hle := le_of_skipBlanks hi
    have hstop := lt_commentStop (lt_length_of_commentAt hcomment)
    rcases Int.lt_or_eq_of_le (le_of_skipGap h) with hlt' | heq
    · exact ih (by omega) h hlt'
    · obtain rfl : p = d.text.commentStop i := by omega
      rcases char_before_commentStop (t := d.text) (i := i) (by omega) (by omega) with hnl | hbrace
      · rw [hc] at hnl
        cases hnl
        decide
      · rw [hc] at hbrace
        cases hbrace
        decide
  | case4 pos i hi =>
    cases h
    obtain ⟨-, -, hgaps, -⟩ := (skipBlanks_yields h₀ (by omega)).of_eq hi
    exact isDashOrOpening_of_gap (by omega) (hgaps (p - 1) (by omega) (by omega)) hc
  | case5 pos i hi hge =>
    cases h
    omega

/-- A definition starts behind a gap. -/
theorem char_before_definitionStart {s : Settings} {c : Char}
    (h : d.definitionStart s pos = .ok start) (hlen : start < d.text.length)
    (hc : d.text.charAt? (start - 1) = some c) : isDashOrOpening c = false := by
  unfold definitionStart at h
  obtain ⟨first, hfirst, h⟩ := bind_eq_ok.1 h
  have hle := le_of_skipGap hfirst
  by_cases hpos : pos < first
  · rw [if_pos hpos] at h
    cases h
    exact char_before_indentationPoint hc
  · rw [if_neg hpos] at h
    cases h
    rcases Int.lt_or_eq_of_le hle with hlt | heq
    · exact char_before_skipGap rfl (d.indentationPoint_nonneg _) hfirst hlt hlen hc
    · rw [← heq] at hc
      exact char_before_indentationPoint hc

/-- The innermost bracket that is open at a clear place is clear, unless a dash stands at that
place. -/
theorem Clear.bracket {b start' : Int} (h : d.Clear start stop) (h₀ : 0 ≤ start)
    (h₁ : stop ≤ d.text.length) (hb : d.openBracket? start stop = .ok (some b))
    (hdash : d.text.charAt? stop ≠ some '-') (h₀' : 0 ≤ start')
    (hbefore : start' < d.text.length → ∀ c, d.text.charAt? (start' - 1) = some c →
      isDashOrOpening c = false) : d.Clear start' b := by
  obtain ⟨piece, hv, hkind⟩ := visits_openBracket? hb
  have hstart := hv.start_le
  have hlt := hv.lt
  obtain ⟨c, hc, hopen⟩ := bracket_of_opening (by omega) hv.piece hkind
  obtain ⟨hone, hnone⟩ :=
    single_of_pieceAt (by omega) hv.piece (by rw [hkind]; nofun) (by rw [hkind]; nofun)
      (by rw [hkind]; nofun)
  have hclass : isBlank c = false ∧ isClosing c = false ∧ c ≠ '-' := by
    simp only [isOpening, Bool.or_eq_true, beq_iff_eq] at hopen
    rcases hopen with (rfl | rfl) | rfl <;> decide
  refine ⟨fun _ => ?_, fun j h₂ h₃ hj hreach _ => ?_,
    fun _ _ _ _ _ => ⟨c, hc, hclass.1, hclass.2.1⟩, hbefore⟩
  · -- a comment there would have its dash at the clear place
    obtain ⟨value, hvalue, -⟩ := commentAt_yields (d := d) (by omega : 0 ≤ b)
    cases value with
    | false => exact hvalue
    | true =>
      exfalso
      rcases commentAt_cases (by omega) hvalue with hblock | ⟨hdashes, -⟩
      · obtain ⟨-, hnext, -⟩ := chars_of_hasWord (by omega) hblock
        rcases Int.lt_or_le (b + 1) stop with hin | hout
        · rw [commentAt_shorten (by omega) (by omega) hvalue (by omega) h₁ fun _ => by omega]
            at hnone
          cases hnone
        · obtain rfl : stop = b + 1 := by omega
          exact hdash hnext
      · obtain ⟨hdash', -, -⟩ := chars_of_hasWord (by omega) hdashes
        rw [hc] at hdash'
        exact hclass.2.2 (Option.some.inj hdash')
  · have hrow : ∀ k, j ≤ k → k ≤ b → ∃ c, d.text.charAt? k = some c ∧ isDashOrOpening c = true :=
      fun k h₄ h₅ =>
      char_of_lt_dashReach (d := d) (by omega) h₄ (by omega)
    rcases Int.lt_or_le j start with hjs | hjs
    · -- the stretch would start inside the row
      obtain ⟨c', hc', hrow'⟩ := hrow (start - 1) (by omega) (by omega)
      rw [h.before (by omega) c' hc'] at hrow'
      cases hrow'
    · obtain ⟨a, other, hv', ha, hstop⟩ :=
        exists_visits (t := d.text) d.bird h₀ hjs (by omega : j < stop) h₁
      rcases hv'.walk.le_or_stop_le hv'.piece hv.walk with hba | hend
      · omega
      · have hsingle := (Visits.holds_row h₀ hv' ha hstop hrow).resolve_left (by omega)
        obtain rfl : a = j := by omega
        exact hj.not_single h₀ hv' (by omega) h₁ hsingle

/-! ## Keywords -/

/-- A character of a name is no dash, no bracket and no blank. -/
theorem class_of_isNameChar {c : Char} (h : isNameChar c = true) :
    isDashOrOpening c = false ∧ isBlank c = false ∧ isClosing c = false := by
  refine ⟨?_, ?_, ?_⟩ <;> rw [← Bool.not_eq_true] <;> intro hclass
  · rcases isDashOrOpening_cases hclass with rfl | rfl | rfl | rfl <;> revert h <;> decide
  · rw [not_isNameChar_of_isBlank hclass] at h
    cases h
  · simp only [isClosing, Bool.or_eq_true, beq_iff_eq] at hclass
    rcases hclass with (rfl | rfl) | rfl <;> revert h <;> decide

/-- A keyword that opens a block is the last code before the place: a name, read back to its start,
or one sign. -/
theorem keywordBefore?_word {r : Request} (h₀ : 0 ≤ start) (h₁ : stop ≤ r.doc.text.length)
    (h : r.keywordBefore? start stop = .ok (some q)) :
    ∃ p, r.doc.skipGapBack stop start = .ok p ∧ start ≤ q ∧ q < p ∧ p ≤ stop ∧
      (r.settings.keywordOffset? (r.doc.text.slice q p).toString).isSome ∧
      ((∀ k, q ≤ k → k < p → ∃ c, r.doc.text.charAt? k = some c ∧ isNameChar c = true) ∨
        (p = q + 1 ∧ ∃ c, r.doc.text.charAt? q = some c ∧ isNameChar c = false)) := by
  unfold Request.keywordBefore? at h
  obtain ⟨p, hp, h⟩ := bind_eq_ok.1 h
  obtain ⟨hle, -⟩ := (skipGapBack_yields h₀ h₁).of_eq hp
  split at h
  · cases h
  next hlt =>
  obtain ⟨c, hc, h⟩ := bind_eq_ok.1 h
  obtain ⟨c', hc', hget⟩ := read_yields (t := r.doc.text) (i := p - 1) (by omega) (by omega)
  rw [hc] at hc'
  cases hc'
  have hchar : r.doc.text.charAt? (p - 1) = some c := (charAt?_eq (by omega)).trans hget
  split at h
  · next hname =>
    obtain ⟨i, hi, h⟩ := bind_eq_ok.1 h
    have htest : ∀ k, start ≤ k → k < p - 1 →
        Yields ((r.doc.text.read k).map isNameChar) fun _ => True := fun k hk hlt =>
      (read_yields (by omega) (by omega)).map fun _ _ => trivial
    obtain ⟨h₂, h₃, h₄, -⟩ := (retreat_yields htest).of_eq hi
    dsimp only at h
    split at h
    · next hword =>
      cases h
      refine ⟨p, hp, by omega, by omega, hle, hword, .inl fun k hk hkp => ?_⟩
      rcases Int.lt_or_eq_of_le (show k ≤ p - 1 by omega) with hlt' | rfl
      · have hq := h₄ k hk hlt'
        obtain ⟨c', hc', hget'⟩ := read_yields (t := r.doc.text) (i := k) (by omega) (by omega)
        rw [hc'] at hq
        exact ⟨c', (charAt?_eq (by omega)).trans hget', Except.ok.inj hq⟩
      · exact ⟨c, hchar, hname⟩
    · cases h
  · next hname =>
    obtain ⟨i, hi, h⟩ := bind_eq_ok.1 h
    cases hi
    dsimp only at h
    split at h
    · next hword =>
      cases h
      exact ⟨p, hp, by omega, by omega, hle, hword, .inr ⟨by omega, c, hchar, by simpa using hname⟩⟩
    · cases h

/-- A block keyword right before a line stands before the gap that leads up to the line, and it is a
word or a single sign right before this gap. -/
theorem keywordBefore?_cases {r : Request} (h₀ : 0 ≤ start) (h₁ : stop ≤ r.doc.text.length)
    (h : r.keywordBefore? start stop = .ok (some q)) :
    ∃ p, r.doc.skipGapBack stop start = .ok p ∧ start ≤ q ∧ q < p ∧ p ≤ stop ∧
      ∃ c, r.doc.text.charAt? q = some c ∧
      (isNameChar c = true ∨ (isNameChar c = false ∧ p = q + 1)) := by
  obtain ⟨p, hp, hstart, hlt, hle, -, hname | ⟨hone, c, hc, hsign⟩⟩ := keywordBefore?_word h₀ h₁ h
  · obtain ⟨c, hc, hname⟩ := hname q (Int.le_refl q) hlt
    exact ⟨p, hp, hstart, hlt, hle, c, hc, .inl hname⟩
  · exact ⟨p, hp, hstart, hlt, hle, c, hc, .inr ⟨hsign, hone⟩⟩

/-- The keyword before a clear place is clear when it hangs. -/
theorem Clear.keyword {r : Request} (h : r.doc.Clear start stop) (h₀ : 0 ≤ start)
    (hle : start ≤ stop) (h₁ : stop ≤ r.doc.text.length) (hclosed : r.doc.Closed start stop)
    (hq : r.keywordBefore? start stop = .ok (some q)) (hhangs : r.hangs q = .ok true) :
    r.doc.Clear start q := by
  obtain ⟨p, hback, hstart, hlt, -, c, hc, hname | ⟨hsign, rfl⟩⟩ := keywordBefore?_cases h₀ h₁ hq
  · obtain ⟨hrow, hblank, hclose⟩ := class_of_isNameChar hname
    exact .of_char h₀ hstart hc hrow hblank hclose h.before
  · exact HangingSign.clear_sign
      ⟨h₀, hstart, h₁, h, hclosed, trailed_of_skipGapBack h₀ hle h₁ hback, hc, hsign, hhangs⟩

end Document

end LayoutRule
