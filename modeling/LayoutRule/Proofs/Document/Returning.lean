import LayoutRule.Proofs.Request.Hollow

/-!
# Skipping there and back

Blanks and comments are skipped forward by looking at each place that is reached, and backward by
the list of the comments that a scan of the whole stretch finds. From the end of some code both are
inverse to each other: behind what is skipped forward, skipping backward comes to the same place
again (`Document.skipGapBack_skipGap`). The comments skipped may be many, stand next to each other,
end in blanks of their own or not end at all, and Bird markers may stand between them.

The end of some code is a place where the scan of the text comes to between two pieces
(`Document.EndsCode`). A scan of less would not do: the brace of a block comment, taken for itself,
is a bracket.
-/

namespace LayoutRule

namespace Document

open Text

variable {d : Document} {limit p q : Int}

/-- Some code ends at `p`: the scan that starts at `limit` and goes on to the end of the whole text,
not just to `p`, comes to `p` between two pieces, and neither a blank nor a marker nor a comment of
this scan ends there. A scan of the stretch up to `p` alone may see other pieces, because what it
cuts off decides whether a piece is a comment. -/
structure EndsCode (d : Document) (limit p : Int) : Prop where
  nonneg : 0 ≤ limit
  le_length : p ≤ d.text.length
  walk : d.text.Walk d.bird d.text.length limit p
  code : limit < p → d.isGapAt (p - 1) = .ok false
  apart : ∀ a r, d.text.Visits d.bird limit d.text.length a r → r.kind = .comment → r.stop ≠ p

/-- A comment that ends ends with its line or with a brace. -/
theorem char_before_comment {t : Text} {bird : Bool} {a : Int} {r : Piece} (h₀ : 0 ≤ a)
    (h : t.pieceAt bird a limit = .ok r) (hkind : r.kind = .comment) (hstop : r.stop ≤ t.length) :
    t.charAt? (r.stop - 1) = some '\n' ∨ t.charAt? (r.stop - 1) = some '\x7d' := by
  obtain ⟨c, -, hpiece⟩ := exists_char_of_pieceAt h₀ h
  cases hpiece with
  | comment => exact char_before_commentStop h₀ hstop
  | single => exact absurd hkind (singlePiece_kind c a).1
  | marker => cases hkind
  | string => cases hkind
  | character => cases hkind

namespace EndsCode

/-- Behind any other character that is no gap there is the end of some code. -/
theorem of_char {c : Char} (h₀ : 0 ≤ limit) (h₁ : p ≤ d.text.length)
    (hwalk : d.text.Walk d.bird d.text.length limit p) (hc : d.text.charAt? (p - 1) = some c)
    (hcode : d.isGapAt (p - 1) = .ok false) (hbrace : c ≠ '\x7d') (hnewline : c ≠ '\n') :
    d.EndsCode limit p where
  nonneg := h₀
  le_length := h₁
  walk := hwalk
  code _ := hcode
  apart a r hr hkind hstop := by
    have hstart := hr.start_le
    have hlast := char_before_comment (by omega) hr.piece hkind (by omega)
    rw [hstop, hc] at hlast
    rcases hlast with hlast | hlast
    · exact hnewline (Option.some.inj hlast)
    · exact hbrace (Option.some.inj hlast)

/-- What is skipped behind the code is all there is before the next code. -/
theorem trailed_le {r : Int} (h : d.EndsCode limit p) (hq : d.skipGap p d.text.length = .ok q)
    (hr : d.Trailed limit r q) : r ≤ p := by
  have hlimit := h.walk.le
  have h₀ := h.nonneg
  have hle := hr.le_stop
  rcases Int.lt_or_le p r with hlt | hge
  · exfalso
    have hcode := hr.code (by omega)
    obtain ⟨-, hmax, -⟩ := (skipGap_yields (by omega) (Int.le_refl _)).of_eq hq
    have hlength := h.le_length
    rcases covered_of_skipGap h.walk (by omega) hq (by omega : p ≤ r - 1) (by omega) with
      hgap | ⟨a, hwalk, hcomment, hpa, har, hin, hend⟩
    · cases hcode.symm.trans hgap
    · -- the comment is found as well by the scan that ends behind it
      have hstop := add_two_le_commentStop (by omega : 0 ≤ a) hcomment
      have hlen := (dash_of_commentAt (by omega : 0 ≤ a) hcomment).2
      have hshort := commentAt_shorten (by omega) (by omega) hcomment (by omega : 0 ≤ q) (by omega)
        fun _ => by omega
      have hvisits : d.text.Visits d.bird limit q a ⟨.comment, d.text.commentStop a⟩ :=
        ⟨hwalk.shorten h₀ (by omega) (by omega), by omega, pieceAt_comment (by omega) hshort⟩
      exact hr.apart a _ hvisits rfl ⟨by omega, by simp only; omega⟩
  · exact hge

/-- Code is not skipped on the way back. -/
theorem le_trailed {r : Int} (h : d.EndsCode limit p) (hpq : p ≤ q) (hlength : q ≤ d.text.length)
    (hr : d.Trailed limit r q) : p ≤ r := by
  have hstart := hr.start_le
  have h₀ := h.nonneg
  rcases Int.lt_or_le r p with hlt | hge
  · exfalso
    rcases hr.gap (p - 1) (by omega) (by omega) with hgap | ⟨a, piece, hv, hkind, hap, hin⟩
    · cases (h.code (by omega)).symm.trans hgap
    · -- the comment ends where the code does, for the walk does not stop inside it
      have hstop : piece.stop = p := by
        have := hv.walk.le_or_stop_le hv.piece (h.walk.shorten h₀ hpq hlength)
        omega
      obtain ⟨b, whole, hb, hbp, hbin⟩ :=
        exists_visits d.bird h₀ (by omega : limit ≤ p - 1) (by omega) (Int.le_refl d.text.length)
      have hend : whole.stop ≤ p := by
        have := hb.walk.le_or_stop_le hb.piece h.walk
        omega
      obtain ⟨-, rfl⟩ :=
        (hb.shorten h₀ (by omega) hlength fun _ => by omega).unique hv hbp hbin hap hin
      exact h.apart b _ hb hkind hstop
  · exact hge

end EndsCode

/-- Skipping backward undoes skipping forward, which goes up to the next code. -/
theorem skipGapBack_skipGap (h : d.EndsCode limit p) :
    ∃ q, d.skipGap p d.text.length = .ok q ∧ d.skipGapBack q limit = .ok p ∧ p ≤ q ∧
      (q < d.text.length → d.isGapAt q = .ok false ∧ d.commentAt q = .ok false) := by
  have hlimit := h.walk.le
  have h₀ := h.nonneg
  have hlength := h.le_length
  obtain ⟨q, hq, hpq, hmax, hnext⟩ := skipGap_yields (d := d) (by omega : 0 ≤ p) (Int.le_refl _)
  obtain ⟨r, hr, -⟩ := skipGapBack_yields h₀ (by omega : q ≤ d.text.length)
  have htrailed := trailed_of_skipGapBack h₀ (by omega) (by omega) hr
  have hge := h.le_trailed hpq (by omega) htrailed
  have hle := h.trailed_le hq htrailed
  obtain rfl : r = p := by omega
  exact ⟨q, hq, hr, hpq, hnext⟩

/-- Three comments behind a name, with a marker between them and no end of the last one. -/
def trailedName : Document := .new (Text.ofString "> f --a \n>\x7b- b -\x7d-- c") .bird 8

/-- From the end of the name all three comments and the marker are skipped, and skipping back leads
to the name again. -/
theorem skipGapBack_skipGap_trailedName :
    trailedName.EndsCode 0 3 ∧
      ∃ q, trailedName.skipGap 3 trailedName.text.length = .ok q ∧
        trailedName.skipGapBack q 0 = .ok 3 ∧ 3 ≤ q ∧
        (q < trailedName.text.length → trailedName.isGapAt q = .ok false ∧
          trailedName.commentAt q = .ok false) := by
  have hwalk : trailedName.text.Walk trailedName.bird trailedName.text.length 0 3 :=
    .step (p := ⟨.marker, 1⟩) (by decide) (by decide +kernel) <|
      .step (p := ⟨.other, 2⟩) (by decide) (by decide +kernel) <|
        .step (p := ⟨.other, 3⟩) (by decide) (by decide +kernel) (.refl 3)
  have hends : trailedName.EndsCode 0 3 :=
    .of_char (by decide) (by decide) hwalk rfl (by decide +kernel) (by decide) (by decide)
  exact ⟨hends, skipGapBack_skipGap hends⟩

/-- Inside a comment there is no such end: its brace alone would be one. -/
example :
    let d := Document.new (Text.ofString "\x7b--c\nx") .plain 8
    d.nesting 0 1 = .ok { openers := [0] } ∧ d.skipGap 1 6 = .ok 5 ∧ d.skipGapBack 5 0 = .ok 0 := by
  decide +kernel

end Document

end LayoutRule
