import LayoutRule.Proofs.Parallel.Contours
import LayoutRule.Proofs.Request.Settling

/-!
# Keywords of parallel documents

In parallel documents the same keywords stand at corresponding places, and the search for the opener
of a keyword finds counterparts (`Parallel.Place.matchingOpener?`). Whether a `let` was ended by
layout depends on columns; where the search asks for that, columns have to correspond on the lines
before its place.
-/

namespace LayoutRule

namespace KeywordPair

/-- The words of a pair consist of letters. -/
theorem word_letters (pair : KeywordPair) (closes : Bool) :
    ∃ c w, pair.words.word closes = c :: w ∧ isNameChar c = true ∧
      '\n' ∉ pair.words.word closes := by
  cases pair <;> cases closes <;> exact ⟨_, _, rfl, by decide, by decide⟩

/-- The words of a pair of keywords stand on one line. -/
theorem newline_notMem_word (pair : KeywordPair) (closes : Bool) :
    '\n' ∉ pair.words.word closes := by
  obtain ⟨_, _, -, -, h⟩ := pair.word_letters closes
  exact h

end KeywordPair

namespace Document

open Text

variable {d : Document} {x col stop bol : Int}

/-- No word of a pair of keywords starts in a lead. -/
theorem pairWords_point (pair : KeywordPair) {limit k : Nat} (hx : d.text.lineStart x = x)
    (h₁ : x = k) (hstop : d.indentationPoint x ≤ limit) :
    d.text.pairWords pair.words limit k =
      d.text.pairWords pair.words limit (d.indentationPoint x).toNat := by
  have h₂ := d.lineStart_le_indentationPoint x
  cases pair <;>
    exact pairWords_lead rfl rfl (by decide) (by decide) hx (by omega) (by omega) hstop

/-- A word of a pair is written where it was found. -/
theorem holdsAt_of_mem_pairWords {t : Text} {pair : WordPair} {limit k : Nat} {hit : KeywordHit}
    (h : hit ∈ t.pairWords pair limit k) : t.holdsAt (pair.word hit.closes) hit.pos = true := by
  fun_induction t.pairWords pair limit k with
  | case1 k hlt found hfound ih =>
    rcases List.mem_cons.mp h with rfl | h
    · unfold pairWordAt? wordWithin at hfound
      unfold WordPair.word
      grind
    · exact ih h
  | case2 k hlt hnone ih => exact ih h
  | case3 => cases h

/-- The opener is one of the keywords, one that counts. -/
theorem mem_of_openerAmong? {skipEnded : Bool} {limit o : Int} {depth : Nat}
    {hits : List KeywordHit} (h : d.openerAmong? skipEnded limit stop depth hits = .ok (some o)) :
    ∃ hit ∈ hits, (hit.pos : Int) = o ∧ d.keywordHidden skipEnded limit stop o = .ok false := by
  induction hits generalizing depth with
  | nil => cases h
  | cons hit rest ih =>
    have hrest : ∀ {depth}, d.openerAmong? skipEnded limit stop depth rest = .ok (some o) →
        ∃ hit' ∈ hit :: rest, (hit'.pos : Int) = o ∧
          d.keywordHidden skipEnded limit stop o = .ok false := by
      intro depth h
      obtain ⟨hit', hmem, hpos⟩ := ih h
      exact ⟨hit', List.mem_cons_of_mem hit hmem, hpos⟩
    unfold openerAmong? at h
    obtain ⟨hidden, hhidden, h⟩ := bind_eq_ok.1 h
    split at h
    · exact hrest h
    next hshown =>
    split at h
    · exact hrest h
    split at h
    · exact hrest h
    · cases h
      rw [Bool.not_eq_true] at hshown
      exact ⟨hit, List.mem_cons_self, rfl, hshown ▸ hhidden⟩

/-- Where the search for an opener starts: at the innermost open bracket, if there is one. -/
def SearchStart (d : Document) (limit stop i : Int) : Prop :=
  i = limit ∨ ∃ b, d.openBracket? limit stop = .ok (some b) ∧ i = b + 1

/-- The opener of a keyword is a name before it that no comment holds. -/
theorem opener_cases {pair : KeywordPair} {skipEnded : Bool} {limit o : Int} (h₀ : 0 ≤ limit)
    (h₁ : limit ≤ d.text.length) (h₂ : 0 ≤ stop) (h₃ : stop ≤ d.text.length)
    (h : d.matchingOpener? pair.words skipEnded limit stop = .ok (some o)) :
    limit ≤ o ∧ o < stop ∧ (∃ c, d.text.charAt? o = some c ∧ isNameChar c = true) ∧
      ∃ i, d.SearchStart limit stop i ∧ i ≤ o ∧ d.openComment? i o = .ok none := by
  have hfound : ∀ i : Int, d.SearchStart limit stop i → limit ≤ i → i ≤ d.text.length →
      d.openerAmong? skipEnded i stop 1 (d.text.pairWordsBack pair.words i stop) = .ok (some o) →
      limit ≤ o ∧ o < stop ∧ (∃ c, d.text.charAt? o = some c ∧ isNameChar c = true) ∧
        ∃ i, d.SearchStart limit stop i ∧ i ≤ o ∧ d.openComment? i o = .ok none := by
    intro i hsearch hi hi' h
    obtain ⟨hit, hmem, rfl, hhidden⟩ := mem_of_openerAmong? h
    have hmem' := List.mem_reverse.mp hmem
    have hpos := pos_of_mem_pairWords hmem'
    have hclamp := clamp_of_mem (t := d.text) (by omega : 0 ≤ i) hi'
    have hclamp' := clamp_of_mem (t := d.text) h₂ h₃
    obtain ⟨c, w, hword, hname, -⟩ := pair.word_letters hit.closes
    have hholds := holdsAt_of_mem_pairWords hmem'
    rw [hword, holdsAt, Bool.and_eq_true, beq_iff_eq] at hholds
    refine ⟨by omega, by omega, ⟨c, ?_, hname⟩, i, hsearch, by omega, ?_⟩
    · rw [charAt?_eq (by omega), Int.toNat_natCast]
      exact hholds.1
    · unfold keywordHidden at hhidden
      obtain ⟨string, -, hhidden⟩ := bind_eq_ok.1 hhidden
      split at hhidden
      · cases hhidden
      obtain ⟨comment, hcomment, hhidden⟩ := bind_eq_ok.1 hhidden
      split at hhidden
      · cases hhidden
      · next hnone =>
        rw [Bool.not_eq_true, Option.isSome_eq_false_iff, Option.isNone_iff_eq_none] at hnone
        exact hnone ▸ hcomment
  unfold matchingOpener? at h
  obtain ⟨bracket, hb, h⟩ := bind_eq_ok.1 h
  obtain ⟨_, -, h⟩ := bind_eq_ok.1 h
  obtain ⟨_, -, h⟩ := bind_eq_ok.1 h
  cases bracket with
  | none => exact hfound limit (.inl rfl) (Int.le_refl _) h₁ h
  | some b =>
    have hrange := (openBracket?_yields h₀ h₃).of_eq hb b rfl
    exact hfound (b + 1) (.inr ⟨b, hb, rfl⟩) (by omega) (by omega) h

/-! ## Lines below a `let` -/

/-- The line below starts behind the newline of a line, if it has one. -/
theorem lineBelow?_eq (hx : d.text.lineStart x = x) :
    d.text.lineBelow? x = if d.text.lineStop x < d.text.length then some (d.text.lineStop x + 1)
      else none := by
  unfold lineBelow?
  rw [moveLines_one, hx, newlineFrom?_eq]
  by_cases h : d.text.lineStop x < d.text.length
  · rw [if_pos h, if_pos h]
    rfl
  · rw [if_neg h, if_neg h]
    rfl

/-- One line further down. -/
theorem dedentsBelow_step (hx : d.text.lineStart x = x) (h : d.text.lineStop x < d.text.length) :
    d.dedentsBelow col stop x =
      if stop ≤ d.indentationPoint (d.text.lineStop x + 1) then false
      else if !d.isBlankLine (d.text.lineStop x + 1) &&
        decide (d.column (d.indentationPoint (d.text.lineStop x + 1)) < col)
      then true else d.dedentsBelow col stop (d.text.lineStop x + 1) := by
  have hbelow := lineBelow?_eq hx
  rw [if_pos h] at hbelow
  rw [dedentsBelow]
  split
  · next hnone =>
    rw [hbelow] at hnone
    cases hnone
  · next below hsome =>
    rw [hbelow] at hsome
    cases hsome
    rfl

/-- Lines that are not before the place do not count. -/
theorem dedentsBelow_eq_false (hx : d.text.lineStart x = x) (h : stop ≤ d.text.lineStop x) :
    d.dedentsBelow col stop x = false := by
  by_cases hlt : d.text.lineStop x < d.text.length
  · have hpoint := d.lineStart_le_indentationPoint (d.text.lineStop x + 1)
    rw [Parallel.lineStart_succ_lineStop hlt] at hpoint
    rw [dedentsBelow_step hx hlt, if_pos (by omega)]
  · have hbelow := lineBelow?_eq hx
    rw [if_neg hlt] at hbelow
    rw [dedentsBelow]
    split
    · rfl
    · next below hsome =>
      rw [hbelow] at hsome
      cases hsome

/-- A block in braces that reaches past the bound does not end before a place that does not. -/
theorem blockEnded_eq_false {f : Document} {bound pos stop : Int}
    (hpass : Parallel.Passes bound (f.expressionAfter pos f.text.length)) (h₀ : 0 ≤ bound)
    (hle : stop ≤ bound) :
    (match f.expressionAfter pos f.text.length with
      | .error (.scan _) => return false
      | .error e => .error e
      | .ok j => return decide ((← f.skipGap j f.text.length) < stop) : Except Fault Bool) =
        .ok false := by
  rcases hpass with ⟨why, hwhy⟩ | ⟨k, hk, hlt⟩
  · rw [hwhy]
    rfl
  · obtain ⟨g, hg, hkg, -⟩ := skipGap_yields (d := f) (by omega : 0 ≤ k) (Int.le_refl f.text.length)
    rw [hk]
    simp only [hg, ok_bind]
    exact congrArg Except.ok (decide_eq_false (by omega))

/-- A `let` whose block starts behind the place was not ended before it. -/
theorem letEnded_eq_false {pos i : Int} (h₀ : 0 ≤ pos)
    (hword : d.text.hasWord KeywordPair.letIn.words.opener pos d.text.length = true)
    (hi : d.skipGap (pos + 3) d.text.length = .ok i) (hle : stop ≤ i) (hlen : i ≤ d.text.length) :
    d.letEnded pos stop = .ok false := by
  have hpos := le_of_skipGap hi
  unfold letEnded
  rw [if_pos hword, hi, ok_bind]
  split
  · have hmoves : d.text.MovesOn i (d.expressionAfter i d.text.length) :=
      expressionAfter_cases (by omega) (Int.le_refl _)
    exact blockEnded_eq_false (.of_movesOn hmoves (Int.le_refl i)) (by omega) hle
  · have hline := le_lineStop (t := d.text) (by omega : 0 ≤ i) hlen
    rw [dedentsBelow_eq_false (d.text.lineStart_lineStart i)
      (by rw [d.text.lineStop_lineStart]; omega)]
    rfl

end Document

namespace Parallel

open Text Document

variable {s : Settings} {d e : Document} {C : Parallel s d e} {n : Nat} {x y a b l m o o' : Int}

/-! ## Words of a pair -/

/-- The same word of a pair at counterparts. -/
def SameHit (C : Parallel s d e) (hit hit' : KeywordHit) : Prop :=
  C.Place hit.pos hit'.pos ∧ hit'.closes = hit.closes

/-- Whether a name reaches up to a place. -/
theorem Place.nameBefore (h : C.Place a b) :
    (decide (e.text.clamp b = 0) || !(e.text.chars[e.text.clamp b - 1]?).any isNameChar) =
      (decide (d.text.clamp a = 0) || !(d.text.chars[d.text.clamp a - 1]?).any isNameChar) := by
  have hname : ∀ (t : Text) (i : Int), 0 ≤ i → i ≤ t.length → ∀ named, t.afterName i = .ok named →
      (decide (t.clamp i = 0) || !(t.chars[t.clamp i - 1]?).any isNameChar) = !named := by
    intro t i h₀ h₁ named hafter
    have hclamp := clamp_of_mem h₀ h₁
    unfold Text.afterName at hafter
    by_cases hzero : i = 0
    · rw [if_pos hzero] at hafter
      cases hafter
      rw [decide_eq_true (by omega)]
      rfl
    · rw [if_neg hzero] at hafter
      obtain ⟨c, hread, hc⟩ := read_yields (t := t) (i := i - 1) (by omega) (by omega)
      rw [hread] at hafter
      cases hafter
      rw [show t.clamp i - 1 = (i - 1).toNat by omega, hc, decide_eq_false (by omega)]
      rfl
  obtain ⟨h₁, h₂, h₃, h₄, -⟩ := h.bounds
  have hyields : Yields (d.text.afterName a) fun _ => True := by
    unfold Text.afterName
    split
    · exact ⟨false, rfl, trivial⟩
    · exact (read_yields (by omega) (by omega)).map fun _ _ => trivial
  obtain ⟨named, hnamed, -⟩ := hyields
  rw [hname d.text a h₁ h₂ named hnamed, hname e.text b h₃ h₄ named (h.afterName.trans hnamed)]

/-- At counterparts the same words stand. -/
theorem Place.wordWithin (h : C.Place a b) (hl : C.Place l m) {w : List Char} (hw : '\n' ∉ w) :
    e.text.wordWithin w (e.text.clamp m) (e.text.clamp b) =
      d.text.wordWithin w (d.text.clamp l) (d.text.clamp a) := by
  unfold Text.wordWithin
  rw [h.nameBefore, ← h.agree.wholeWordAt hw, ← h.agree.holdsAt hw]
  congr 1
  cases hword : d.text.holdsAt w (d.text.clamp a) with
  | false => simp
  | true =>
    have hplace := h.word hw hword
    have hle := hplace.le_iff hl
    have heq := hplace.eq_iff hl
    have h₁ := h.clamp_eq
    have h₂ := hl.clamp_eq
    congr 1
    · congr 1
      exact decide_eq_decide.mpr (by omega)
    · congr 1
      exact decide_eq_decide.mpr (by omega)

/-- Counterparts hold the same word of a pair. -/
theorem Place.pairWordAt? (h : C.Place a b) (hl : C.Place l m) (pair : KeywordPair) :
    (d.text.pairWordAt? pair.words (d.text.clamp l) (d.text.clamp a) = none ∧
        e.text.pairWordAt? pair.words (e.text.clamp m) (e.text.clamp b) = none) ∨
      ∃ closes, d.text.pairWordAt? pair.words (d.text.clamp l) (d.text.clamp a) =
        some ⟨d.text.clamp a, closes⟩ ∧
        e.text.pairWordAt? pair.words (e.text.clamp m) (e.text.clamp b) =
          some ⟨e.text.clamp b, closes⟩ ∧
        d.text.holdsAt (pair.words.word closes) (d.text.clamp a) = true := by
  have hholds : ∀ {w}, d.text.wordWithin w (d.text.clamp l) (d.text.clamp a) = true →
      d.text.holdsAt w (d.text.clamp a) = true := by
    intro w hw
    unfold Text.wordWithin at hw
    simp only [Bool.and_eq_true] at hw
    exact hw.1.1.2
  have hclosing : '\n' ∉ pair.words.closer := pair.newline_notMem_word true
  have hopening : '\n' ∉ pair.words.opener := pair.newline_notMem_word false
  unfold Text.pairWordAt?
  rw [h.wordWithin hl hclosing, h.wordWithin hl hopening]
  by_cases hcloser : d.text.wordWithin pair.words.closer (d.text.clamp l) (d.text.clamp a) = true
  · exact .inr ⟨true, if_pos hcloser, if_pos hcloser, hholds hcloser⟩
  · by_cases hopener : d.text.wordWithin pair.words.opener (d.text.clamp l) (d.text.clamp a) = true
    · exact .inr ⟨false,
        by
        rw [if_neg hcloser, if_pos hopener], by rw [if_neg hcloser, if_pos hopener], hholds hopener⟩
    · exact .inl ⟨by rw [if_neg hcloser, if_neg hopener], by rw [if_neg hcloser, if_neg hopener]⟩

/-- The same words of a pair stand between counterparts. -/
theorem Place.pairWords {a b : Int} (h : C.Place a b) (hl : C.Place l m) (pair : KeywordPair) :
    List.Forall₂ C.SameHit (d.text.pairWords pair.words (d.text.clamp l) (d.text.clamp a))
      (e.text.pairWords pair.words (e.text.clamp m) (e.text.clamp b)) := by
  have hiff := h.lt_iff hl
  have h₁ := h.clamp_eq
  have h₂ := hl.clamp_eq
  have hbounds := hl.bounds
  rcases Int.lt_or_le a l with hlt | hge
  · rw [Text.pairWords.eq_def d.text, Text.pairWords.eq_def e.text, if_pos (by omega),
      if_pos (by omega)]
    rcases h.pairWordAt? hl pair with ⟨hnone, hnone'⟩ | ⟨closes, hsome, hsome', hholds⟩
    · rw [hnone, hnone']
      simp only
      obtain ⟨c, hread, hc⟩ := read_yields (t := d.text) h.bounds.1 (by omega)
      have hchar : d.text.charAt? a = some c := (charAt?_eq h.bounds.1).trans hc
      by_cases hnl : c = '\n'
      · -- on the next line the search goes on behind the indentation
        subst hnl
        obtain ⟨n, hline⟩ := h.below hchar (by have := hl.le_end; omega)
        have hpoint := hline.point_le_place hl (by omega)
        have hplace := hline.point
        have h₃ := hplace.clamp_eq
        have hx := hline.point_le.1
        rw [pairWords_point pair hline.starts.1 (by omega) (by omega),
          pairWords_point pair hline.starts.2 (by omega) (by omega), ← hplace.clamp_toNat.1,
          ← hplace.clamp_toNat.2]
        exact Place.pairWords hplace hl pair
      · have hsucc := h.succ hchar hnl
        have h₃ := hsucc.clamp_eq
        rw [show d.text.clamp a + 1 = d.text.clamp (a + 1) by omega,
          show e.text.clamp b + 1 = e.text.clamp (b + 1) by omega]
        exact Place.pairWords hsucc hl pair
    · rw [hsome, hsome']
      simp only
      obtain ⟨c, w, hword, -, hnl⟩ := pair.word_letters closes
      have hplace := h.word hnl hholds
      have h₃ := hplace.clamp_eq
      have hlen : 0 < (pair.words.word closes).length := by rw [hword]; exact Nat.succ_pos _
      refine .cons ⟨by rw [h₁.1, h₁.2]; exact h, rfl⟩ ?_
      rw [show d.text.clamp a + max 1 (pair.words.word closes).length =
        d.text.clamp (a + (pair.words.word closes).length) by omega,
        show e.text.clamp b + max 1 (pair.words.word closes).length =
          e.text.clamp (b + (pair.words.word closes).length) by omega]
      exact Place.pairWords hplace hl pair
  · rw [Text.pairWords.eq_def d.text, Text.pairWords.eq_def e.text, if_neg (by omega),
      if_neg (by omega)]
    exact .nil
termination_by (l - a).toNat

/-! ## The search for an opener -/

section

variable (hl : C.Place l m) (hfree : ∀ {p q}, C.Place p q → p < l → d.text.lineStart p < C.free)

include hl hfree

/-- The lines below corresponding lines end the same blocks. -/
theorem Line.dedentsBelow {n : Nat} {x y col col' : Int} (h : C.Line n x y)
    (hcol : col' = col + C.shift) : e.dedentsBelow col' m y = d.dedentsBelow col l x := by
  have hend := h.lineStop_le
  have hlen := C.end_le
  have hlast := hl.le_end
  rcases Int.lt_or_le (d.text.lineStop x) C.end₁ with hlt | hge
  · have hbelow := h.below hlt
    have hpoint := hbelow.point
    have hiff := hl.le_iff hpoint
    rw [dedentsBelow_step h.starts.1 (by omega), dedentsBelow_step h.starts.2 (by omega)]
    by_cases hle : l ≤ d.indentationPoint (d.text.lineStop x + 1)
    · rw [if_pos hle, if_pos (hiff.mpr hle)]
    · rw [if_neg hle, if_neg fun h => hle (hiff.mp h)]
      have hcolumn := hpoint.column (hfree hpoint (by omega))
      rw [Line.dedentsBelow hbelow hcol, hbelow.isBlankLine, hcolumn, hcol,
        show decide (d.column (d.indentationPoint (d.text.lineStop x + 1)) + C.shift <
          col + C.shift) =
          decide (d.column (d.indentationPoint (d.text.lineStop x + 1)) < col)
            from decide_eq_decide.mpr (by omega)]
  · rw [dedentsBelow_eq_false h.starts.1 (by omega), dedentsBelow_eq_false h.starts.2 (by omega)]
termination_by (d.text.length - x).toNat
decreasing_by
  have := h.le_lineStop
  omega

/-- The `let`s at counterparts were ended both or not. -/
theorem Place.letEnded (h : C.Place a b) :
    ∃ ended, d.letEnded a l = .ok ended ∧ e.letEnded b m = .ok ended := by
  have hsame : e.text.hasWord KeywordPair.letIn.words.opener b e.text.length =
      d.text.hasWord KeywordPair.letIn.words.opener a d.text.length :=
        h.hasWord C.limit_length (by decide)
  have hlast := hl.le_end
  have h₀ := h.bounds
  cases hword : d.text.hasWord KeywordPair.letIn.words.opener a d.text.length with
  | false =>
    refine ⟨false, ?_, ?_⟩
    · unfold Document.letEnded
      rw [hword]
      rfl
    · unfold Document.letEnded
      rw [hsame, hword]
      rfl
  | true =>
    rw [hword] at hsame
    have hholds : d.text.holdsAt KeywordPair.letIn.words.opener (d.text.clamp a) = true := by
      unfold Text.hasWord at hword
      rw [h.bound_eq_clamp.1, Bool.and_eq_true] at hword
      exact hword.2
    have hplace : C.Place (a + 3) (b + 3) := h.word (by decide) hholds
    obtain ⟨i, j, hi, hj, hlands⟩ := hplace.skipGap C.limit_length
    have hbounds := hplace.bounds
    have hi' := ((skipGap_yields (by omega) (Int.le_refl _)).of_eq hi).2.1
    have hj' := ((skipGap_yields (by omega) (Int.le_refl _)).of_eq hj).2.1
    have hno : l ≤ i → m ≤ j → ∃ ended, d.letEnded a l = .ok ended ∧ e.letEnded b m = .ok ended :=
      fun hli hmj =>
      ⟨false, letEnded_eq_false (by omega) hword hi hli (by omega),
        letEnded_eq_false (by omega) hsame hj hmj (by omega)⟩
    rcases hlands with hij | hbeyond
    · have hiff := hl.le_iff hij
      rcases Int.lt_or_le i l with hlt | hge
      · unfold Document.letEnded
        rw [if_pos hword, if_pos hsame, hi, hj, ok_bind, ok_bind, hij.char]
        by_cases hbrace : d.text.charAt? i = some '\x7b'
        · rw [if_pos hbrace, if_pos hbrace]
          rcases hij.expressionAfter with ⟨p, q, hp, hq, hnear⟩ | ⟨hpass, hpass'⟩
          · obtain ⟨p', q', hp', hq', hlands⟩ :=
              Past.skipGap (.inl hnear) hnear.nonneg.1 hnear.nonneg.2
            rw [hp, hq]
            simp only [hp', hq', ok_bind]
            refine ⟨decide (p' < l), rfl, congrArg Except.ok (decide_eq_decide.mpr ?_)⟩
            rcases hlands with hplace' | hbeyond'
            · exact hplace'.lt_iff hl
            · have h₁ := hbeyond'.1
              have h₂ := hbeyond'.2
              omega
          · -- neither block ends before the place
            have hbounds' := hl.bounds
            exact ⟨false, blockEnded_eq_false hpass (by omega) hlast.1,
              blockEnded_eq_false hpass' (by omega) hlast.2⟩
        · rw [if_neg hbrace, if_neg hbrace]
          obtain ⟨n, hline⟩ := hij.line
          have hcolumn := hij.column (hfree hij hlt)
          exact ⟨_, rfl, congrArg Except.ok (Line.dedentsBelow hl hfree hline hcolumn)⟩
      · exact hno hge (hiff.mpr hge)
    · have h₁ := hbeyond.1
      have h₂ := hbeyond.2
      exact hno (by omega) (by omega)

end

section

variable (hl : C.Place l m) {skipEnded : Bool}
  (hfree : skipEnded = true → ∀ {p q}, C.Place p q → p < l → d.text.lineStart p < C.free)

include hl hfree

/-- At counterparts a keyword counts or is hidden in both documents: by a string, a comment, a
bracket, or layout that has ended it. -/
theorem Place.keywordHidden (h : C.Place a b) (ho : C.Place o o') :
    ∃ hidden, d.keywordHidden skipEnded o l a = .ok hidden ∧
      e.keywordHidden skipEnded o' m b = .ok hidden := by
  obtain ⟨string, string', hs, hs', hstring⟩ := ho.openString? h
  obtain ⟨comment, comment', hc, hc', hcomment⟩ := ho.openComment? h
  obtain ⟨bracket, bracket', hb, hb', hbracket⟩ := ho.openBracket? h
  unfold Document.keywordHidden
  rw [hs, hs', hc, hc', hb, hb']
  simp only [ok_bind]
  rw [rel_isSome hstring, rel_isSome hcomment, rel_isSome hbracket]
  split
  · exact ⟨true, rfl, rfl⟩
  split
  · exact ⟨true, rfl, rfl⟩
  split
  · exact ⟨true, rfl, rfl⟩
  split
  · next hskip => exact Place.letEnded hl (hfree hskip) h
  · exact ⟨false, rfl, rfl⟩

/-- Among the same keywords the same one is the opener. -/
theorem SameHit.openerAmong? {hits hits' : List KeywordHit}
    (hhits : List.Forall₂ C.SameHit hits hits') (ho : C.Place o o') (depth : Nat) :
    Both (Option.Rel C.Place) (d.openerAmong? skipEnded o l depth hits)
      (e.openerAmong? skipEnded o' m depth hits') := by
  induction hhits generalizing depth with
  | nil => exact ⟨none, none, rfl, rfl, .none⟩
  | @cons hit hit' rest rest' hhit _ ih =>
    obtain ⟨hplace, hcloses⟩ := hhit
    obtain ⟨hidden, hd, he⟩ := Place.keywordHidden hl hfree hplace ho
    unfold Document.openerAmong?
    rw [hd, he, ok_bind, ok_bind, hcloses]
    split
    · exact ih depth
    split
    · exact ih (depth + 1)
    split
    · exact ih _
    · exact ⟨_, _, rfl, rfl, .some hplace⟩

/-- Closers at counterparts have counterparts as openers. -/
theorem Place.matchingOpener? (ho : C.Place o o') (pair : KeywordPair) :
    Both (Option.Rel C.Place) (d.matchingOpener? pair.words skipEnded o l)
      (e.matchingOpener? pair.words skipEnded o' m) := by
  have hbounds := hl.bounds
  have hsearch : ∀ {i j}, C.Place i j →
      Both (Option.Rel C.Place)
        (do d.text.checkStart i; d.text.checkStart l
            d.openerAmong? skipEnded i l 1 (d.text.pairWordsBack pair.words i l))
        (do e.text.checkStart j; e.text.checkStart m
            e.openerAmong? skipEnded j m 1 (e.text.pairWordsBack pair.words j m)) := by
    intro i j hij
    have hbounds' := hij.bounds
    rw [checkStart_of_mem (by omega) (by omega), checkStart_of_mem (by omega) (by omega),
      checkStart_of_mem (by omega) (by omega), checkStart_of_mem (by omega) (by omega)]
    exact SameHit.openerAmong? hl hfree (List.rel_reverse (hij.pairWords hl pair)) hij 1
  obtain ⟨bracket, bracket', hb, hb', hrel⟩ := ho.openBracket? hl
  unfold Document.matchingOpener?
  rw [hb, hb', ok_bind, ok_bind]
  cases hrel with
  | none => exact hsearch ho
  | @some b b' hplace =>
    obtain ⟨piece, hv, hkind⟩ := visits_openBracket? hb
    obtain ⟨c, hc, hopen⟩ := bracket_of_opening hplace.bounds.1 hv.piece hkind
    exact hsearch (hplace.succ hc (by rintro rfl; revert hopen; decide))

end

end Parallel

end LayoutRule
