import Mathlib.Data.List.Forall2
import LayoutRule.Proofs.Lexical.Walks
import LayoutRule.Proofs.Parallel.Basic

/-!
# Scanning parallel documents

From counterparts the scanner finds the same pieces of text. A piece ends at counterparts or at the
starts of corresponding lines, or both pieces reach past the ends of what is compared
(`Parallel.pieceAt`); so what is open at counterparts is the same (`Parallel.nesting`). A move over
an expression leads to counterparts, or in both documents it fails or leads past the ends
(`Parallel.Moves`).
-/

namespace LayoutRule

namespace Parallel

open Text Document

variable {s : Settings} {d e : Document} {C : Parallel s d e} {n : Nat} {x y a b l m : Int}

/-- Counterparts as limits of a search, or the ends of the texts. -/
def Limit (C : Parallel s d e) (l m : Int) : Prop :=
  C.Place l m ∨ (l = d.text.length ∧ m = e.text.length)

/-- The ends of the texts are corresponding limits. -/
theorem limit_length (C : Parallel s d e) : C.Limit d.text.length e.text.length := .inr ⟨rfl, rfl⟩

namespace Place

/-! ## Words and comments -/

/-- Counterparts are both the ends of their texts or both not. -/
theorem charAt?_isSome (h : C.Place a b) : b < e.text.length ↔ a < d.text.length := by
  obtain ⟨h₁, -, h₂, -⟩ := h.bounds
  have hchar := h.char
  rw [charAt?_eq h₁, charAt?_eq h₂] at hchar
  unfold length
  constructor
  · intro hlt
    rw [Array.getElem?_eq_getElem (by omega)] at hchar
    have := (Array.getElem?_eq_some_iff.mp hchar.symm).1
    omega
  · intro hlt
    rw [Array.getElem?_eq_getElem (i := a.toNat) (by omega)] at hchar
    have := (Array.getElem?_eq_some_iff.mp hchar).1
    omega

/-- A word at a place leads to another place. -/
theorem word (h : C.Place a b) {w : List Char} (hw : '\n' ∉ w)
    (hword : d.text.holdsAt w (d.text.clamp a) = true) : C.Place (a + w.length) (b + w.length) := by
  have hreach := h.reach (Nat.le_add_right _ _) (.of_holdsAt hw hword)
  obtain ⟨hclamp, hclamp'⟩ := h.clamp_eq
  rw [Nat.add_sub_cancel_left, show ((d.text.clamp a + w.length : Nat) : Int) =
    a + w.length by omega,
    show ((e.text.clamp b + w.length : Nat) : Int) = b + w.length by omega] at hreach
  exact hreach

/-- At counterparts the same words stand before corresponding limits. -/
theorem hasWord (h : C.Place a b) (hl : C.Limit l m) {w : List Char} (hw : '\n' ∉ w) :
    e.text.hasWord w b m = d.text.hasWord w a l := by
  unfold Text.hasWord
  rw [h.bound_eq_clamp.1, h.bound_eq_clamp.2, ← h.agree.holdsAt hw]
  cases hword : d.text.holdsAt w (d.text.clamp a) with
  | false => rw [Bool.and_false, Bool.and_false]
  | true =>
    have hplace := h.word hw hword
    obtain ⟨hclamp, hclamp'⟩ := h.clamp_eq
    rw [Bool.and_true, Bool.and_true]
    refine decide_eq_decide.mpr ?_
    rcases hl with hl | ⟨rfl, rfl⟩
    · have hle := hplace.le_iff hl
      have hbound := hl.bound_eq
      omega
    · have hbounds := hplace.bounds
      have h₁ := bound_of_mem (t := d.text) d.text.length_nonneg (Int.le_refl _)
      have h₂ := bound_of_mem (t := e.text) e.text.length_nonneg (Int.le_refl _)
      omega

/-- The characters before counterparts end an operator in both documents or in none. -/
theorem afterOperator (h : C.Place a b) : e.text.afterOperator b = d.text.afterOperator a := by
  by_cases hpoint : a = d.indentationPoint a
  · have hpoint' : b = e.indentationPoint b := (h.eq_iff h.point).mpr hpoint
    rw [hpoint, hpoint', d.afterOperator_point, e.afterOperator_point]
  · unfold Text.afterOperator
    rw [(h.pred hpoint).char]

/-- Counterparts both follow on a name or both do not. -/
theorem afterName (h : C.Place a b) : e.text.afterName b = d.text.afterName a := by
  have hfalse : ∀ (d : Document) (a : Int), 0 ≤ a → a ≤ d.text.length → a = d.indentationPoint a →
      d.text.afterName a = .ok false := by
    intro d a h₀ h₁ hpoint
    unfold Text.afterName
    split
    · rfl
    · obtain ⟨c, hread, hc⟩ := read_yields (t := d.text) (i := a - 1) (by omega) (by omega)
      rw [hread]
      show Except.ok (isNameChar c) = _
      rw [d.not_isNameChar_before_point a (by rw [← hpoint, charAt?_eq (by omega)]; exact hc)]
  obtain ⟨h₁, h₂, h₃, h₄, -⟩ := h.bounds
  by_cases hpoint : a = d.indentationPoint a
  · rw [hfalse d a h₁ h₂ hpoint, hfalse e b h₃ h₄ ((h.eq_iff h.point).mpr hpoint)]
  · have hpred := h.pred hpoint
    obtain ⟨h₅, h₆, h₇, h₈, -⟩ := hpred.bounds
    unfold Text.afterName
    rw [if_neg (by omega), if_neg (by omega)]
    have hchar := hpred.char
    obtain ⟨c, hread, hc⟩ := read_yields (t := d.text) (i := a - 1) h₅ (by omega)
    rw [charAt?_eq h₅, hc] at hchar
    rw [hread, read_eq h₇ hchar]

/-- Comments start at the same places. -/
theorem commentAt (h : C.Place a b) (hl : C.Limit l m) :
    e.text.commentAt b m = d.text.commentAt a l := by
  obtain ⟨h₁, h₂, h₃, h₄, -⟩ := h.bounds
  have hle := d.text.le_runStop (· == '-') (d.text.clamp a)
  have hends : e.text.endsDashes (e.text.runStop (· == '-') b.toNat) =
      d.text.endsDashes (d.text.runStop (· == '-') a.toNat) := by
    unfold endsDashes
    rw [← h.clamp_toNat.1, ← h.clamp_toNat.2, h.agree.runStop (by decide),
      ← h.agree.getElem? hle (.runStop (by decide) _)]
  rw [commentAt_eq h₁ h₂, commentAt_eq h₃ h₄, h.hasWord hl (by decide), h.hasWord hl (by decide),
    h.afterOperator, hends]

end Place

/-! ## Pieces -/

/-- Positions that a move forward from counterparts can reach. -/
def Past (C : Parallel s d e) (a b : Int) : Prop := C.Near a b ∨ C.Beyond a b

namespace Place

/-- One step forward. -/
theorem past_succ (h : C.Place a b) {c : Char} (hc : d.text.charAt? a = some c) :
    C.Past (a + 1) (b + 1) := by
  by_cases hnl : c = '\n'
  · subst hnl
    have hend := h.le_end
    rcases Int.lt_or_eq_of_le hend.1 with hlt | heq
    · exact .inl (.inr (h.below hc hlt))
    · have := (h.eq_iff C.place_end).mpr heq
      exact .inr ⟨by omega, by omega⟩
  · exact .inl (.inl (h.succ hc hnl))

/-- At the end of the text the ends have been reached. -/
theorem beyond_of_none (h : C.Place a b) (hc : d.text.charAt? a = none) :
    ¬a < d.text.length ∧ ¬b < e.text.length ∧ C.Beyond (d.text.length + 1) (e.text.length + 1) := by
  obtain ⟨h₁, -⟩ := h.bounds
  have hlen := C.end_le
  have hge : ¬a < d.text.length := by
    intro hlt
    obtain ⟨c, -, hc'⟩ := read_yields h₁ hlt
    rw [charAt?_eq h₁, hc'] at hc
    cases hc
  exact ⟨hge, fun hlt => hge (h.charAt?_isSome.mp hlt), by omega, by omega⟩

/-- Block comments end at counterparts or past the ends. -/
theorem blockStop {a b : Int} (h : C.Place a b) (depth : Nat) :
    C.Place (d.text.blockStop depth a) (e.text.blockStop depth b) ∨
      C.Beyond (d.text.blockStop depth a) (e.text.blockStop depth b) := by
  have hend := h.le_end
  rw [blockStop.eq_def d.text depth a, blockStop.eq_def e.text depth b]
  cases hc : d.text.charAt? a with
  | none =>
    obtain ⟨ha, hb, hbeyond⟩ := h.beyond_of_none hc
    rw [if_neg ha, if_neg hb]
    exact .inr hbeyond
  | some c =>
    have hlt := lt_length_of_charAt? h.bounds.1 hc
    rw [if_pos hlt, if_pos (h.charAt?_isSome.mpr hlt), h.hasWord C.limit_length (by decide),
      h.hasWord C.limit_length (by decide)]
    have htwo : ∀ {w : List Char}, '\n' ∉ w → w.length = 2 →
        d.text.hasWord w a d.text.length = true → C.Place (a + 2) (b + 2) := by
      intro w hw hlen hword
      have hholds : d.text.holdsAt w (d.text.clamp a) = true := by
        rw [← h.bound_eq_clamp.1]
        exact ((Bool.and_eq_true _ _).mp hword).2
      have := h.word hw hholds
      rw [hlen] at this
      exact this
    split
    · next hopen =>
      have hnext := htwo (by decide) rfl hopen
      have hnextEnd := hnext.le_end
      exact hnext.blockStop (depth + 1)
    split
    · next hclose =>
      have hnext := htwo (by decide) rfl hclose
      have hnextEnd := hnext.le_end
      split
      · exact .inl hnext
      · exact hnext.blockStop (depth - 1)
    · rcases h.past_succ hc with (hnext | ⟨n, hline⟩) | hbeyond
      · have hnextEnd := hnext.le_end
        exact hnext.blockStop depth
      · have hpoint := hline.point
        have hpointEnd := hpoint.le_end
        have hle := hline.point_le
        rw [blockStop_lead hline.starts.1, blockStop_lead hline.starts.2]
        exact hpoint.blockStop depth
      · have h₁ := d.text.min_lt_blockStop depth (a + 1)
        have h₂ := e.text.min_lt_blockStop depth (b + 1)
        have h₃ := h.charAt?_isSome
        unfold Beyond at hbeyond ⊢
        exact .inr ⟨by omega, by omega⟩
termination_by (C.end₁ - a).toNat

/-- Comments end at counterparts, at the starts of lines or past the ends. -/
theorem commentStop (h : C.Place a b) : C.Past (d.text.commentStop a) (e.text.commentStop b) := by
  have hlen := C.end_le
  unfold Text.commentStop
  rw [h.hasWord C.limit_length (by decide), newlineFrom?_eq, newlineFrom?_eq]
  split
  · rcases h.blockStop 0 with hplace | hbeyond
    · exact .inl (.inl hplace)
    · exact .inr hbeyond
  · cases hc : d.text.charAt? (d.text.lineStop a) with
    | none =>
      have hstop := h.stop.beyond_of_none hc
      rw [if_neg hstop.1, if_neg hstop.2.1]
      exact .inr hstop.2.2
    | some c =>
      have hlt := lt_length_of_charAt? h.stop.bounds.1 hc
      rw [if_pos hlt, if_pos (h.stop.charAt?_isSome.mpr hlt)]
      exact h.stop.past_succ hc

/-- Strings end at counterparts or past the ends. -/
theorem stringRest {a b : Int} (h : C.Place a b) :
    ∃ i j, d.text.stringRest a = .ok i ∧ e.text.stringRest b = .ok j ∧
      (C.Place i j ∨ C.Beyond i j) := by
  have hend := h.le_end
  obtain ⟨h₀, -, h₀', -⟩ := h.bounds
  rw [stringRest.eq_def d.text a, stringRest.eq_def e.text b]
  cases hc : d.text.charAt? a with
  | none =>
    obtain ⟨ha, hb, hbeyond⟩ := h.beyond_of_none hc
    rw [if_neg ha, if_neg hb]
    exact ⟨_, _, rfl, rfl, .inr hbeyond⟩
  | some c =>
    have hlt := lt_length_of_charAt? h₀ hc
    have hlt' := h.charAt?_isSome.mpr hlt
    rw [if_pos hlt, if_pos hlt', read_eq h₀ hc, read_eq h₀' (h.char.trans hc)]
    simp only
    -- what is left of the string after one or two characters
    have hrest : ∀ {i j : Int}, a < i → 0 ≤ j → C.Past i j →
        ∃ i' j', d.text.stringRest i = .ok i' ∧ e.text.stringRest j = .ok j' ∧
          (C.Place i' j' ∨ C.Beyond i' j') := by
      intro i j hai h₀'' hpast
      rcases hpast with (hnext | ⟨n, hline⟩) | hbeyond
      · have hnextEnd := hnext.le_end
        exact hnext.stringRest
      · have hpoint := hline.point
        have hpointEnd := hpoint.le_end
        have hle := hline.point_le
        rw [stringRest_lead hline.starts.1, stringRest_lead hline.starts.2]
        exact hpoint.stringRest
      · obtain ⟨i', hi', -⟩ := stringRest_yields (t := d.text) (i := i) (by omega)
        obtain ⟨j', hj', -⟩ := stringRest_yields (t := e.text) (i := j) h₀''
        have h₁ := min_le_of_stringRest hi'
        have h₂ := min_le_of_stringRest hj'
        have hlen := C.end_le
        unfold Beyond at hbeyond
        exact ⟨i', j', hi', hj', .inr ⟨by omega, by omega⟩⟩
    split
    · next hback =>
      have hnext := h.succ hc (by rw [hback]; decide)
      rw [show a + 2 = a + 1 + 1 by omega, show b + 2 = b + 1 + 1 by omega]
      cases hc' : d.text.charAt? (a + 1) with
      | none =>
        obtain ⟨ha, hb, hbeyond⟩ := hnext.beyond_of_none hc'
        rw [stringRest.eq_def d.text, stringRest.eq_def e.text, if_neg (by omega),
          if_neg (by omega)]
        exact ⟨_, _, rfl, rfl, .inr hbeyond⟩
      | some c' => exact hrest (by omega) (by omega) (hnext.past_succ hc')
    split
    · next hquote => exact ⟨_, _, rfl, rfl, .inl (h.succ hc (by rw [hquote]; decide))⟩
    split
    · exact ⟨_, _, rfl, rfl, .inl h⟩
    · exact hrest (by omega) (by omega) (h.past_succ hc)
termination_by (C.end₁ - a).toNat

/-- Character literals end at counterparts. -/
theorem characterAt? (h : C.Place a b) (c : Char) :
    (d.text.characterAt? c a = .ok none ∧ e.text.characterAt? c b = .ok none) ∨
      ∃ i j : Nat, d.text.characterAt? c a = .ok (some i) ∧ e.text.characterAt? c b = .ok (some j) ∧
        C.Place i j := by
  obtain ⟨h₀, h₁, -⟩ := h.bounds
  unfold Text.characterAt?
  by_cases hquote : c = '\''
  · rw [if_pos hquote, if_pos hquote, h.afterName]
    have hnamed : Yields (d.text.afterName a) fun _ => True := by
      unfold Text.afterName
      split
      · exact ⟨false, rfl, trivial⟩
      · exact (read_yields (by omega) (by omega)).map fun _ _ => trivial
    obtain ⟨named, hnamed, -⟩ := hnamed
    rw [hnamed, ok_bind, ok_bind]
    cases named with
    | true => exact .inl ⟨rfl, rfl⟩
    | false =>
      rw [if_neg Bool.false_ne_true, if_neg Bool.false_ne_true]
      have hstop := h.agree.charLiteralStop?
      generalize hx : d.text.charLiteralStop? (d.text.clamp a) = x, hy :
        e.text.charLiteralStop? (e.text.clamp b) = y at hstop
      cases hstop with
      | none => exact .inl ⟨rfl, rfl⟩
      | some hle hr heq => exact .inr ⟨_, _, rfl, rfl, heq ▸ h.reach hle hr⟩
  · rw [if_neg hquote, if_neg hquote]
    exact .inl ⟨rfl, rfl⟩

/-- From counterparts the same piece of text starts. -/
theorem pieceAt (h : C.Place a b) (hlt : a < d.text.length) (hl : C.Limit l m) :
    ∃ p q, d.text.pieceAt d.bird a l = .ok p ∧ e.text.pieceAt e.bird b m = .ok q ∧ q.kind = p.kind ∧
      C.Past p.stop q.stop := by
  obtain ⟨h₀, -, h₀', -, -, hcode⟩ := h.bounds
  obtain ⟨c, hread, hget⟩ := read_yields h₀ hlt
  have hc : d.text.charAt? a = some c := (charAt?_eq h₀).trans hget
  have hc' := h.char.trans hc
  obtain ⟨comment, hcomment, -⟩ := Text.commentAt_yields (t := d.text) l h₀
  unfold Text.pieceAt
  rw [hread, read_eq h₀' hc', ok_bind, ok_bind, isMarker_code h.point_le hlt hc,
    isMarker_code hcode (h.charAt?_isSome.mpr hlt) hc', ok_bind, ok_bind, if_neg Bool.false_ne_true,
    if_neg Bool.false_ne_true, h.commentAt hl, hcomment, ok_bind, ok_bind]
  cases comment with
  | true => exact ⟨_, _, rfl, rfl, rfl, h.commentStop⟩
  | false =>
    rw [if_neg Bool.false_ne_true, if_neg Bool.false_ne_true]
    by_cases hquote : c = '"'
    · obtain ⟨i, j, hi, hj, hstop⟩ := (h.succ hc (by rw [hquote]; decide)).stringRest
      unfold stringStop
      rw [if_pos hquote, if_pos hquote, hi, hj]
      refine ⟨_, _, rfl, rfl, rfl, ?_⟩
      rcases hstop with hplace | hbeyond
      · exact .inl (.inl hplace)
      · exact .inr hbeyond
    · rw [if_neg hquote, if_neg hquote]
      rcases h.characterAt? c with ⟨hx, hy⟩ | ⟨i, j, hx, hy, hplace⟩
      · rw [hx, hy]
        have hsingle : ∀ i j : Int, (singlePiece c j).kind = (singlePiece c i).kind ∧
            (singlePiece c i).stop = i + 1 := by
          intro i j
          unfold singlePiece
          split
          · exact ⟨rfl, rfl⟩
          · split <;> exact ⟨rfl, rfl⟩
        refine ⟨_, _, rfl, rfl, (hsingle a b).1, ?_⟩
        rw [(hsingle a b).2, (hsingle b a).2]
        exact h.past_succ hc
      · rw [hx, hy]
        exact ⟨_, _, rfl, rfl, rfl, .inl (.inl hplace)⟩

end Place

/-! ## What is open -/

/-- Spans of text with counterparts as starts; one may end at the start of a line. -/
def SameSpan (C : Parallel s d e) (p q : Span) : Prop :=
  C.Place p.start q.start ∧ C.Near p.stop q.stop

/-- The same brackets are open, and the same comments and strings. -/
structure SameNesting (C : Parallel s d e) (p q : Nesting) : Prop where
  /-- Open brackets are counterparts. -/
  openers : List.Forall₂ C.Place p.openers q.openers
  /-- So are the starts of an open string. -/
  string : Option.Rel C.Place p.string? q.string?
  /-- And those of an open comment. -/
  comment : Option.Rel C.Place p.comment? q.comment?
  /-- The comments behind are the same. -/
  comments : List.Forall₂ C.SameSpan p.comments q.comments

/-- At the start of a scan nothing is open in both documents. -/
theorem sameNesting_empty (C : Parallel s d e) : C.SameNesting {} {} := ⟨.nil, .none, .none, .nil⟩

namespace SameNesting

variable {p q : Nesting} {piece piece' : Piece}

/-- The end of the stretch lies in the same string or comment, or in none. -/
theorem within (h : C.SameNesting p q) (ha : C.Place a b) (hl : C.Place l m)
    (hkind : piece'.kind = piece.kind) (hstop : C.Past piece.stop piece'.stop) :
    (p.within? a l piece = none ∧ q.within? b m piece' = none ∧
      (piece.kind = .comment → C.Near piece.stop piece'.stop)) ∨
      ∃ p' q', p.within? a l piece = some p' ∧ q.within? b m piece' = some q' ∧
        C.SameNesting p' q' := by
  have hiff : m < piece'.stop ↔ l < piece.stop := by
    rcases hstop with hnear | hbeyond
    · exact hnear.lt_iff hl
    · have := hl.le_end
      unfold Beyond at hbeyond
      omega
  unfold Nesting.within?
  rw [hkind]
  by_cases hlt : l < piece.stop
  · rw [if_pos hlt, if_pos (hiff.mpr hlt)]
    cases hk : piece.kind with
    | comment => exact .inr ⟨_, _, rfl, rfl, h.openers, h.string, .some ha, h.comments⟩
    | string => exact .inr ⟨_, _, rfl, rfl, h.openers, .some ha, h.comment, h.comments⟩
    | _ => exact .inl ⟨rfl, rfl, nofun⟩
  · rw [if_neg hlt, if_neg fun h => hlt (hiff.mp h)]
    refine .inl ⟨rfl, rfl, fun _ => ?_⟩
    rcases hstop with hnear | hbeyond
    · exact hnear
    · have := hl.le_end
      unfold Beyond at hbeyond
      omega

/-- Recording corresponding pieces leaves the same open in both documents. -/
theorem record (h : C.SameNesting p q) (ha : C.Place a b) (hkind : piece'.kind = piece.kind)
    (hstop : piece.kind = .comment → C.Near piece.stop piece'.stop) :
    C.SameNesting (p.record a piece) (q.record b piece') := by
  unfold Nesting.record
  rw [hkind]
  cases hk : piece.kind with
  | comment =>
    refine ⟨h.openers, h.string, h.comment, ?_⟩
    exact List.rel_append h.comments (.cons ⟨ha, hstop hk⟩ .nil)
  | opening => exact ⟨.cons ha h.openers, h.string, h.comment, h.comments⟩
  | closing =>
    refine ⟨?_, h.string, h.comment, h.comments⟩
    simp only [← List.drop_one]
    exact List.forall₂_drop 1 h.openers
  | _ => exact h

end SameNesting

/-- A line that starts before a place has its code before that place as well. -/
theorem Line.point_le_place (h : C.Line n x y) (hl : C.Place l m) (hle : x ≤ l) :
    d.indentationPoint x ≤ l ∧ e.indentationPoint y ≤ m := by
  have hfirst : d.indentationPoint x ≤ l := by
    obtain ⟨n', hline⟩ := hl.line
    have h₁ := h.point_le
    have h₂ := hl.point_le
    have h₃ := d.lineStart_le_indentationPoint l
    have h₄ := hl.le_stop
    rcases Nat.lt_trichotomy n n' with hlt | rfl | hgt
    · have := h.lt hline hlt
      omega
    · rw [(h.unique hline).1, indentationPoint_eq_of_lineStart_eq (d.text.lineStart_lineStart l)]
      exact h₂
    · have := hline.lt h hgt
      rw [d.text.lineStop_lineStart] at this
      omega
  exact ⟨hfirst, (h.point.le_iff hl).mpr hfirst⟩

/-- The walk from counterparts to counterparts opens the same. -/
theorem Place.nestingFrom {a b : Int} {p q : Nesting} (h : C.Place a b) (hl : C.Place l m)
    (hs : C.SameNesting p q) :
    ∃ p' q', d.text.nestingFrom d.bird l p a = .ok p' ∧ e.text.nestingFrom e.bird m q b = .ok q' ∧
      C.SameNesting p' q' := by
  rcases Int.lt_or_le a l with hlt | hge
  · have hlen := hl.bounds
    have hend := hl.le_end
    obtain ⟨piece, piece', hpiece, hpiece', hkind, hstop⟩ := h.pieceAt (a := a) (by omega) (.inl hl)
    have hgt := lt_stop_of_pieceAt hpiece
    rw [nestingFrom_step hlt hpiece, nestingFrom_step ((h.lt_iff hl).mpr hlt) hpiece']
    rcases hs.within h hl hkind hstop with ⟨hw, hw', hnear⟩ | ⟨p', q', hw, hw', hsame⟩
    · rw [hw, hw']
      have hrecord := hs.record h hkind hnear
      have hdone : l < piece.stop → m < piece'.stop → ∃ p' q',
          d.text.nestingFrom d.bird l (p.record a piece) piece.stop = .ok p' ∧
          e.text.nestingFrom e.bird m (q.record b piece') piece'.stop = .ok q' ∧
          C.SameNesting p' q' := by
        intro h₁ h₂
        rw [nestingFrom.eq_def d.text, nestingFrom.eq_def e.text, if_neg (by omega),
          if_neg (by omega)]
        exact ⟨_, _, rfl, rfl, hrecord⟩
      rcases hstop with (hnext | ⟨n, hline⟩) | hbeyond
      · exact hnext.nestingFrom hl hrecord
      · rcases Int.lt_or_le l piece.stop with hpast | hle
        · exact hdone hpast ((hl.lt_line_iff hline).mpr hpast)
        · have hpoint := hline.point_le_place hl hle
          have hle' := hline.point_le
          rw [nestingFrom_lead hline.starts.1 hpoint.1, nestingFrom_lead hline.starts.2 hpoint.2]
          exact hline.point.nestingFrom hl hrecord
      · unfold Beyond at hbeyond
        exact hdone (by omega) (by omega)
    · rw [hw, hw']
      exact ⟨p', q', rfl, rfl, hsame⟩
  · have hge' := (hl.le_iff h).mpr hge
    rw [nestingFrom.eq_def d.text, nestingFrom.eq_def e.text, if_neg (by omega), if_neg (by omega)]
    exact ⟨p, q, rfl, rfl, hs⟩
termination_by (l - a).toNat

/-- Scans of corresponding stretches find the same open. -/
theorem Place.nesting (h : C.Place a b) (hl : C.Place l m) :
    ∃ p q, d.nesting a l = .ok p ∧ e.nesting b m = .ok q ∧ C.SameNesting p q :=
  h.nestingFrom hl C.sameNesting_empty

/-! ## Expressions -/

/-- A move that stops for the text that is there or leads past a position. -/
def Passes (bound : Int) (r : Except Fault Int) : Prop :=
  (∃ why, r = .error (.scan why)) ∨ ∃ k, r = .ok k ∧ bound < k

/-- A move that leads on from the ends of what is compared passes them, or fails for what is
written. -/
theorem Passes.of_movesOn {t : Text} {bound : Int} {r : Except Fault Int} (h : t.MovesOn a r)
    (hle : bound ≤ a) : Passes bound r := by
  rcases h with h | ⟨k, hk, hlt, -⟩
  · exact .inl h
  · exact .inr ⟨k, hk, by omega⟩

/-- Moves that lead to counterparts or the starts of lines, or both not to a position before the
ends. -/
def Moves (C : Parallel s d e) (r r' : Except Fault Int) : Prop :=
  (∃ i j, r = .ok i ∧ r' = .ok j ∧ C.Near i j) ∨ (Passes C.end₁ r ∧ Passes C.end₂ r')

/-- Moves that both fail for what is written correspond, even for different reasons: nothing is
known about the text past the ends. -/
theorem moves_scan {why why' : ScanFailure} : C.Moves (.error (.scan why)) (.error (.scan why')) :=
  .inr ⟨.inl ⟨why, rfl⟩, .inl ⟨why', rfl⟩⟩

/-- Positions that moves from counterparts can reach are reached by corresponding moves. -/
theorem Past.moves (h : C.Past a b) : C.Moves (.ok a) (.ok b) := by
  rcases h with hnear | hbeyond
  · exact .inl ⟨a, b, rfl, rfl, hnear⟩
  · exact .inr ⟨.inr ⟨a, rfl, hbeyond.1⟩, .inr ⟨b, rfl, hbeyond.2⟩⟩

/-- A piece that has no end in one document has none that is compared in the other. -/
theorem Past.moves_unclosed (h : C.Past a b) {why why' : ScanFailure} :
    C.Moves (if d.text.length < a then .error (.scan why) else .ok a)
      (if e.text.length < b then .error (.scan why') else .ok b) := by
  have hpasses : ∀ (t : Text) (bound k : Int) (why : ScanFailure), bound < k →
      Passes bound (if t.length < k then .error (.scan why) else .ok k) := by
    intro t bound k why hlt
    split
    · exact .inl ⟨why, rfl⟩
    · exact .inr ⟨k, rfl, hlt⟩
  rcases h with hnear | hbeyond
  · have hle := hnear.le_length
    rw [if_neg (by omega), if_neg (by omega)]
    exact .inl ⟨a, b, rfl, rfl, hnear⟩
  · exact .inr ⟨hpasses _ _ _ _ hbeyond.1, hpasses _ _ _ _ hbeyond.2⟩

/-- A group does not end before the pieces of it that lie behind the bound. -/
theorem passes_behindPiece {u : Document} {bound k depth : Int} {kind : PieceKind}
    {why : ScanFailure} (h₀ : 0 ≤ k) (hlt : bound < k) : Passes bound
      (if u.text.length < k then .error (.scan why)
      else
        match kind with
        | .opening => u.text.groupRest u.bird (depth + 1) k
        | .closing => if depth = 1 then .ok k else u.text.groupRest u.bird (depth - 1) k
        | _ => u.text.groupRest u.bird depth k) := by
  have hgroup : ∀ depth : Int, Passes bound (u.text.groupRest u.bird depth k) := fun depth =>
    .of_movesOn (groupRest_cases h₀) (by omega)
  split
  · exact .inl ⟨_, rfl⟩
  split
  · exact hgroup _
  · split
    · exact .inr ⟨k, rfl, hlt⟩
    · exact hgroup _
  · exact hgroup _

/-- Bracketed groups end at counterparts. -/
theorem Place.groupRest {a b : Int} (h : C.Place a b) (depth : Int) :
    C.Moves (d.text.groupRest d.bird depth a) (e.text.groupRest e.bird depth b) := by
  have hend := h.le_end
  have hiff := h.charAt?_isSome
  rcases Int.lt_or_le a d.text.length with hlt | hge
  · obtain ⟨piece, piece', hpiece, hpiece', hkind, hstop⟩ := h.pieceAt (a := a) hlt C.limit_length
    have hgt := lt_stop_of_pieceAt hpiece
    have hgt' := lt_stop_of_pieceAt hpiece'
    have hbounds := h.bounds
    rw [groupRest_step hlt hpiece, groupRest_step (hiff.mpr hlt) hpiece', hkind]
    -- the rest of the group, whatever the piece did to the depth
    have hrest : ∀ depth : Int, C.Moves (d.text.groupRest d.bird depth piece.stop)
        (e.text.groupRest e.bird depth piece'.stop) := by
      intro depth
      rcases hstop with (hnext | ⟨n, hline⟩) | hbeyond
      · have := hnext.le_end
        exact hnext.groupRest depth
      · have hle := hline.point_le
        have := hline.point.le_end
        rw [groupRest_lead hline.starts.1, groupRest_lead hline.starts.2]
        exact hline.point.groupRest depth
      · unfold Beyond at hbeyond
        exact .inr ⟨.of_movesOn (groupRest_cases (by omega)) (by omega),
          .of_movesOn (groupRest_cases (by omega)) (by omega)⟩
    have hclosed := hstop.moves
    by_cases hunclosed : d.text.length < piece.stop ∨ e.text.length < piece'.stop
    · -- a piece without an end reaches past the ends in both documents
      have hbeyond : C.Beyond piece.stop piece'.stop := by
        rcases hstop with hnear | hbeyond
        · have := hnear.le_length
          omega
        · exact hbeyond
      unfold Beyond at hbeyond
      exact .inr ⟨passes_behindPiece (by omega) hbeyond.1, passes_behindPiece (by omega) hbeyond.2⟩
    · rw [if_neg fun hu => hunclosed (.inl hu), if_neg fun hu => hunclosed (.inr hu)]
      split
      · exact hrest _
      · split
        · exact hclosed
        · exact hrest _
      · exact hrest _
  · rw [groupRest.eq_def d.text, groupRest.eq_def e.text, if_neg (by omega), if_neg (by omega)]
    exact moves_scan
termination_by (C.end₁ - a).toNat

/-- Expressions end at counterparts. -/
theorem Place.expressionStop (h : C.Place a b) :
    C.Moves (d.text.expressionStop d.bird a) (e.text.expressionStop e.bird b) := by
  have hiff := h.charAt?_isSome
  unfold Text.expressionStop
  rcases Int.lt_or_le a d.text.length with hlt | hge
  · obtain ⟨h₀, -, h₀', -⟩ := h.bounds
    obtain ⟨c, hread, hget⟩ := read_yields h₀ hlt
    have hc : d.text.charAt? a = some c := (charAt?_eq h₀).trans hget
    obtain ⟨piece, piece', hpiece, hpiece', hkind, hstop⟩ := h.pieceAt (a := a) hlt C.limit_length
    rw [if_neg (by omega), if_neg (by omega), hread, read_eq h₀' (h.char.trans hc), ok_bind,
      ok_bind, hpiece, hpiece', ok_bind, ok_bind, hkind]
    split
    · exact moves_scan
    split
    · exact h.groupRest 0
    split
    · exact hstop.moves_unclosed
    · obtain ⟨stop, hd, he, hkstop, hreach⟩ :=
        h.agree.plainStop (d.text.clamp_le_size a) (e.text.clamp_le_size b)
      rw [h.clamp_eq.1] at hd
      rw [h.clamp_eq.2] at he
      rw [hd, he]
      refine Past.moves ?_
      rcases hreach with hreach | rfl
      · exact .inl (.inl (h.reach (by omega) hreach))
      · have hpast := h.past_succ hc
        have hclamp := h.clamp_eq
        rw [Nat.add_sub_cancel_left, show ((d.text.clamp a + 1 : Nat) : Int) = a + 1 by omega,
          show ((e.text.clamp b + 1 : Nat) : Int) = b + 1 by omega]
        exact hpast
  · rw [if_pos hge, if_pos (by omega)]
    exact moves_scan

end Parallel

end LayoutRule
