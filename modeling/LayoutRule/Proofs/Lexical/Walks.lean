import LayoutRule.Proofs.Document.Leads

/-!
# Walks over the pieces of a text

The scanner walks over a stretch of text from piece to piece. `Text.Walk` is that walk as a
relation: its positions are the places where a piece starts. They come in the order of the pieces
(`Walk.le_or_stop_le`), every position of the stretch lies in one piece (`exists_walk`), and a
shorter stretch is walked in the same way as far as its pieces reach (`Walk.shorten`). The comments,
the open brackets and the open string of a `Nesting` are pieces of the walk.
-/

namespace LayoutRule

namespace Text

variable {t : Text} {i limit : Int}

/-- The dashes at a place are a run. -/
theorem dashStop_eq (h₀ : 0 ≤ i) (h₁ : i ≤ t.length) :
    t.dashStop i = .ok (t.runStop (· == '-') i.toNat) := by
  have htest : ∀ k, i ≤ k → k < t.length → Yields ((t.read k).map (· == '-')) fun _ => True :=
    fun k hk hlt =>
    (read_yields (by omega) hlt).map fun _ _ => trivial
  have hread : ∀ (k : Int) (b : Bool), 0 ≤ k → k < t.length → (t.read k).map (· == '-') = .ok b →
      ∃ c, t.chars[k.toNat]? = some c ∧ (c == '-') = b := by
    intro k b hk hlt htrue
    obtain ⟨c, hread, hc⟩ := read_yields hk hlt
    rw [hread] at htrue
    exact ⟨c, hc, Except.ok.inj htrue⟩
  obtain ⟨j, hj, hij, hjl, hin, hout⟩ := advance_yields htest
  have hrun : t.runStop (· == '-') i.toNat = j.toNat := by
    apply runStop_eq_of (by omega)
    · intro k h₁ h₂
      obtain ⟨c, hc, hdash⟩ := hread k true (by omega) (by omega) (hin k (by omega) (by omega))
      exact ⟨c, hc, hdash⟩
    · intro c hc
      have hlt := (Array.getElem?_eq_some_iff.mp hc).1
      have hjlt : j < t.length := by unfold length; omega
      obtain ⟨c', hc', hdash⟩ := hread j false (by omega) hjlt (hout hjlt)
      rw [hc] at hc'
      cases hc'
      exact hdash
  unfold dashStop
  rw [hj, hrun]
  congr 1
  omega

/-- Whether a run of dashes that ends at `k` is no part of a longer operator. -/
def endsDashes (t : Text) (k : Nat) : Bool :=
  match t.chars[k]? with
  | some c => !isOperatorChar c
  | none => true

/-- A line comment is two dashes or more that belong to no longer operator. -/
theorem lineCommentAt_eq (h₀ : 0 ≤ i) (h₁ : i ≤ t.length) :
    t.lineCommentAt i limit =
      .ok (t.hasWord dashes i limit && !t.afterOperator i &&
        t.endsDashes (t.runStop (· == '-') i.toNat)) := by
  unfold lineCommentAt
  cases hword : t.hasWord dashes i limit && !t.afterOperator i with
  | false => rfl
  | true =>
    rw [if_pos rfl, dashStop_eq h₀ h₁, Document.ok_bind, Bool.true_and]
    have hle := t.runStop_le (· == '-') i.toNat (by unfold length at h₁; omega)
    unfold endsDashes
    split
    · next hlt =>
      obtain ⟨c, hread, hc⟩ := read_yields (Int.natCast_nonneg _) hlt
      rw [hread, Int.toNat_natCast] at *
      rw [hc]
      rfl
    · next hge =>
      rw [Array.getElem?_eq_none (by unfold length at hge; omega)]
      rfl

/-- A comment starts with the sign of a block comment, or with dashes that neither follow on an
operator nor are followed by the rest of one. Only the two first characters have to stand before the
limit. -/
theorem commentAt_eq (h₀ : 0 ≤ i) (h₁ : i ≤ t.length) :
    t.commentAt i limit = .ok (t.hasWord blockOpen i limit ||
      (t.hasWord dashes i limit && !t.afterOperator i &&
        t.endsDashes (t.runStop (· == '-') i.toNat))) := by
  unfold commentAt blockCommentAt
  cases hblock : t.hasWord blockOpen i limit with
  | true => rfl
  | false => exact lineCommentAt_eq h₀ h₁

/-- The first newline from a position on ends its line. -/
theorem newlineFrom?_eq (t : Text) (i : Int) :
    t.newlineFrom? i = if t.lineStop i < t.length then some (t.lineStop i) else none := by
  unfold newlineFrom? lineStop length
  simp only [Int.ofNat_lt]

/-- A word before a smaller limit. -/
theorem hasWord_shorten {w : List Char} {limit' : Int} (hlimit : 0 ≤ limit') (hle : limit' ≤ limit)
    (hword : t.hasWord w i limit = true → (t.bound i + w.length : Int) ≤ limit') :
    t.hasWord w i limit' = t.hasWord w i limit := by
  have hmono : t.bound limit' ≤ t.bound limit := by
    unfold bound
    rw [if_pos hlimit, if_pos (by omega)]
    omega
  have hsize := t.bound_le_size limit
  unfold hasWord at hword ⊢
  cases hholds : t.holdsAt w (t.bound i) with
  | false => rw [Bool.and_false, Bool.and_false]
  | true =>
    rw [hholds, Bool.and_true, decide_eq_true_eq] at hword
    rw [Bool.and_true, Bool.and_true]
    refine decide_eq_decide.mpr ⟨fun h => by omega, fun h => ?_⟩
    have hfits := hword h
    unfold bound at hfits h hsize ⊢
    rw [if_pos hlimit]
    omega

/-- Before a smaller limit a comment starts where its first two characters still stand before the
limit. -/
theorem commentAt_shorten {limit' : Int} {comment : Bool} (h₀ : 0 ≤ i) (h₁ : i ≤ t.length)
    (h : t.commentAt i limit = .ok comment) (hlimit : 0 ≤ limit') (hle : limit' ≤ limit)
    (hstop : comment = true → i + 2 ≤ limit') : t.commentAt i limit' = .ok comment := by
  have hbound := bound_of_mem h₀ h₁
  rw [commentAt_eq h₀ h₁] at h ⊢
  have hvalue := Except.ok.inj h
  cases comment with
  | true =>
    have hfits := hstop rfl
    rw [hasWord_shorten hlimit hle fun _ => by simp [blockOpen]; omega,
      hasWord_shorten hlimit hle fun _ => by simp [dashes]; omega, hvalue]
  | false =>
    have hno : ∀ w : List Char, t.hasWord w i limit = false → t.hasWord w i limit' = false := by
      intro w hw
      rw [← hw]
      exact hasWord_shorten hlimit hle fun htrue => by rw [hw] at htrue; cases htrue
    rw [Bool.or_eq_false_iff] at hvalue
    rw [hno _ hvalue.1, Bool.false_or]
    cases hdash : t.hasWord dashes i limit with
    | false => rw [hno _ hdash, Bool.false_and, Bool.false_and]
    | true =>
      rw [hdash, Bool.true_and] at hvalue
      rw [Bool.and_assoc, hvalue.2, Bool.and_false]

/-! ## What a piece is -/

/-- How the piece at `i`, where `c` stands, was recognised. -/
inductive IsPiece (t : Text) (bird : Bool) (i limit : Int) (c : Char) : Piece → Prop where
  | marker (hc : c = '>') : IsPiece t bird i limit c ⟨.marker, i + 1⟩
  | comment (h : t.commentAt i limit = .ok true) :
      IsPiece t bird i limit c ⟨.comment, t.commentStop i⟩
  | string {k : Int} (h : t.commentAt i limit = .ok false) (hc : c = '"')
      (hstop : t.stringStop i = .ok k) : IsPiece t bird i limit c ⟨.string, k⟩
  | character {k : Nat} (h : t.commentAt i limit = .ok false) (hc : c = '\'')
      (hstop : t.charLiteralStop? (t.clamp i) = some k) : IsPiece t bird i limit c ⟨.character, k⟩
  | single (h : t.commentAt i limit = .ok false) : IsPiece t bird i limit c (singlePiece c i)

variable {bird : Bool} {p : Piece}

/-- A piece is recognised by the character at its start, in one of the ways that `IsPiece` lists. -/
theorem pieceAt_cases (h : t.pieceAt bird i limit = .ok p) :
    ∃ c, t.read i = .ok c ∧ t.IsPiece bird i limit c p := by
  unfold pieceAt at h
  obtain ⟨c, hc, h⟩ := bind_eq_ok.1 h
  refine ⟨c, hc, ?_⟩
  obtain ⟨marker, hmarker, h⟩ := bind_eq_ok.1 h
  split at h
  · next hm =>
    cases h
    unfold isMarker at hmarker
    split at hmarker
    · next hsign =>
      rw [Bool.and_eq_true, beq_iff_eq] at hsign
      exact .marker hsign.2
    · cases hmarker
      cases hm
  obtain ⟨comment, hcomment, h⟩ := bind_eq_ok.1 h
  split at h
  · next hm =>
    cases h
    exact .comment (hm ▸ hcomment)
  next hm =>
  rw [Bool.not_eq_true] at hm
  split at h
  · next hquote =>
    obtain ⟨k, hk, h⟩ := bind_eq_ok.1 h
    cases h
    exact .string (hm ▸ hcomment) hquote hk
  obtain ⟨literal?, hl, h⟩ := bind_eq_ok.1 h
  cases literal? with
  | some k =>
    cases h
    have hquote : c = '\'' := by
      unfold characterAt? at hl
      split at hl
      · assumption
      · cases hl
    exact .character (hm ▸ hcomment) hquote (charLiteralStop?_of_characterAt? hl)
  | none =>
    cases h
    exact .single (hm ▸ hcomment)

/-- A piece of a single character ends right behind it. -/
theorem singlePiece_stop (c : Char) (i : Int) : (singlePiece c i).stop = i + 1 := by
  unfold singlePiece
  split
  · rfl
  · split <;> rfl

/-- A piece of a single character is a bracket or plain, and never a comment or a literal. -/
theorem singlePiece_kind (c : Char) (i : Int) :
    (singlePiece c i).kind ≠ .comment ∧ (singlePiece c i).kind ≠ .string ∧
    (singlePiece c i).kind ≠ .character := by
  unfold singlePiece
  split
  · exact ⟨nofun, nofun, nofun⟩
  · split <;> exact ⟨nofun, nofun, nofun⟩

/-- The characters of a word of two. -/
theorem chars_of_hasWord {c₁ c₂ : Char} (h₀ : 0 ≤ i) (h : t.hasWord [c₁, c₂] i limit = true) :
    t.charAt? i = some c₁ ∧ t.charAt? (i + 1) = some c₂ ∧ i + 2 ≤ t.length := by
  have hlt := lt_length_of_hasWord h
  have hbound := bound_toNat h₀ (by omega : i ≤ t.length)
  unfold hasWord at h
  simp only [holdsAt, Bool.and_true, Bool.and_eq_true, beq_iff_eq, hbound] at h
  obtain ⟨-, h₁, h₂⟩ := h
  have hsize := (Array.getElem?_eq_some_iff.mp h₂).1
  rw [charAt?_eq h₀, charAt?_eq (by omega), show (i + 1).toNat = i.toNat + 1 by omega]
  exact ⟨h₁, h₂, by unfold length; omega⟩

/-- No comment starts with any other character. -/
theorem commentAt_eq_false {c : Char} (h₀ : 0 ≤ i) (hc : t.charAt? i = some c) (hdash : c ≠ '-')
    (hbrace : c ≠ '\x7b') (limit : Int) : t.commentAt i limit = .ok false := by
  rw [commentAt_eq h₀ (Int.le_of_lt (Document.lt_length_of_charAt? h₀ hc)),
    show t.hasWord blockOpen i limit = false from Document.hasWord_eq_false h₀ hc hbrace,
    show t.hasWord dashes i limit = false from Document.hasWord_eq_false h₀ hc hdash]
  rfl

/-- The two forms of a comment. -/
theorem commentAt_cases (h₀ : 0 ≤ i) (h : t.commentAt i limit = .ok true) :
    t.hasWord blockOpen i limit = true ∨
      (t.hasWord dashes i limit = true ∧ t.afterOperator i = false ∧
        t.endsDashes (t.runStop (· == '-') i.toNat) = true) := by
  rw [commentAt_eq h₀ (Int.le_of_lt (lt_length_of_commentAt h))] at h
  have hvalue := Except.ok.inj h
  simp only [Bool.or_eq_true, Bool.and_eq_true, Bool.not_eq_true'] at hvalue
  exact hvalue.imp_right fun ⟨⟨h₁, h₂⟩, h₃⟩ => ⟨h₁, h₂, h₃⟩

/-- A comment has two characters at least, and the second one is a dash. -/
theorem dash_of_commentAt (h₀ : 0 ≤ i) (h : t.commentAt i limit = .ok true) :
    t.charAt? (i + 1) = some '-' ∧ i + 2 ≤ t.length := by
  rcases commentAt_cases h₀ h with hword | ⟨hword, -⟩
  · exact (chars_of_hasWord h₀ hword).2
  · exact (chars_of_hasWord h₀ hword).2

/-- A position before the end of a line is not its end. -/
theorem lt_lineStop_of_charAt? {c : Char} (h₀ : 0 ≤ i) (hc : t.charAt? i = some c)
    (hne : c ≠ '\n') : i < t.lineStop i := by
  have hlt := Document.lt_length_of_charAt? h₀ hc
  have hle := le_lineStop (t := t) h₀ (by omega)
  rcases Int.lt_or_eq_of_le hle with h | h
  · exact h
  · exfalso
    have hnl := newline_at_lineStop (t := t) i (by omega)
    rw [← h] at hnl
    rw [charAt?_eq h₀, hnl] at hc
    cases hc
    exact hne rfl

/-- Positions of one line up to a character that does not end it. -/
theorem lineStop_succ {c : Char} (h₀ : 0 ≤ i) (hc : t.charAt? i = some c) (hne : c ≠ '\n') :
    t.lineStop (i + 1) = t.lineStop i := by
  have hlt := lt_lineStop_of_charAt? h₀ hc hne
  have hle := lineStart_le (t := t) h₀
  exact lineStop_eq_of_between (by omega) (by omega)

/-- A comment is longer than its first two characters. -/
theorem add_two_le_commentStop (h₀ : 0 ≤ i) (h : t.commentAt i limit = .ok true) :
    i + 2 ≤ t.commentStop i := by
  unfold commentStop
  split
  · next hopen =>
    have hchars := chars_of_hasWord h₀ hopen
    rw [blockStop, if_pos (by omega), if_pos hopen]
    have := t.min_lt_blockStop (0 + 1) (i + 2)
    omega
  · next hopen =>
    rcases commentAt_cases h₀ h with hblock | ⟨hdash, -⟩
    · exfalso
      refine hopen ?_
      have hchars := chars_of_hasWord h₀ hblock
      have hbound := bound_of_mem h₀ (by omega : i ≤ t.length)
      have hlast := bound_of_mem t.length_nonneg (Int.le_refl t.length)
      unfold hasWord at hblock ⊢
      rw [Bool.and_eq_true, decide_eq_true_eq] at hblock ⊢
      exact ⟨by simp [blockOpen]; omega, hblock.2⟩
    · obtain ⟨h₁, h₂, h₃⟩ := chars_of_hasWord h₀ hdash
      have hstop := lt_lineStop_of_charAt? (by omega) h₂ (by decide)
      rw [lineStop_succ h₀ h₁ (by decide)] at hstop
      rw [newlineFrom?_eq]
      split
      · next k hk =>
        split at hk
        · cases hk
          omega
        · cases hk
      · omega

/-- A piece stays the same before a smaller limit, unless it is a comment that does not end
there. -/
theorem pieceAt_shorten {limit' : Int} (h₀ : 0 ≤ i) (h : t.pieceAt bird i limit = .ok p)
    (hlimit : 0 ≤ limit') (hle : limit' ≤ limit) (hstop : p.kind = .comment → p.stop ≤ limit') :
    t.pieceAt bird i limit' = .ok p := by
  obtain ⟨c, hc, hpiece⟩ := pieceAt_cases h
  have h₁ := lt_length_of_read hc
  suffices hsame : t.commentAt i limit' = t.commentAt i limit by
    unfold pieceAt at h ⊢
    rw [hsame]
    exact h
  cases hpiece with
  | marker hsign =>
    obtain ⟨c', hc', hget⟩ := read_yields h₀ h₁
    rw [hc] at hc'
    cases hc'
    have hchar : t.charAt? i = some c := (charAt?_eq h₀).trans hget
    subst hsign
    rw [commentAt_eq_false h₀ hchar (by decide) (by decide),
      commentAt_eq_false h₀ hchar (by decide) (by decide)]
  | comment hcomment =>
    have := add_two_le_commentStop h₀ hcomment
    have := hstop rfl
    rw [hcomment]
    exact commentAt_shorten h₀ (by omega) hcomment hlimit hle fun _ => by simp only at this; omega
  | string hcomment =>
    rw [hcomment]
    exact commentAt_shorten h₀ (by omega) hcomment hlimit hle nofun
  | character hcomment =>
    rw [hcomment]
    exact commentAt_shorten h₀ (by omega) hcomment hlimit hle nofun
  | single hcomment =>
    rw [hcomment]
    exact commentAt_shorten h₀ (by omega) hcomment hlimit hle nofun

/-! ## How a piece ends -/

/-- A block comment that is closed ends with a brace. -/
theorem char_before_blockStop {depth : Nat} {j : Int} (h₀ : 0 ≤ j)
    (h : t.blockStop depth j ≤ t.length) : t.charAt? (t.blockStop depth j - 1) = some '\x7d' := by
  fun_induction blockStop t depth j with
  | case1 depth j hlt hopen ih => exact ih (by omega) h
  | case2 depth j hlt hopen hclose hdepth =>
    have hchars := chars_of_hasWord h₀ hclose
    rw [show j + 2 - 1 = j + 1 by omega]
    exact hchars.2.1
  | case3 depth j hlt hopen hclose hdepth ih => exact ih (by omega) h
  | case4 depth j hlt hopen hclose ih => exact ih (by omega) h
  | case5 depth j hlt => omega

/-- A comment that ends inside the text ends with a newline, or with a brace. -/
theorem char_before_commentStop (h₀ : 0 ≤ i) (h : t.commentStop i ≤ t.length) :
    t.charAt? (t.commentStop i - 1) = some '\n' ∨
    t.charAt? (t.commentStop i - 1) = some '\x7d' := by
  unfold commentStop at h ⊢
  split at h
  · next hopen =>
    rw [if_pos hopen]
    exact .inr (char_before_blockStop h₀ h)
  · next hopen =>
    rw [if_neg hopen]
    split at h
    · next k hk =>
      obtain ⟨m, rfl, hm⟩ := newlineFrom?_eq_some hk
      rw [Int.add_sub_cancel, charAt?_eq (by omega)]
      exact .inl hm
    · omega

/-- A string that ends inside the text ends behind a quote, or before a newline when it is not
finished. -/
theorem char_before_stringRest {j k : Int} (h₀ : 0 ≤ j) (h : t.stringRest j = .ok k)
    (hk : k ≤ t.length) : (j < k ∧ t.charAt? (k - 1) = some '"') ∨ t.charAt? k = some '\n' := by
  fun_induction stringRest t j with
  | case1 => cases h
  | case2 j hlt hread ih =>
    rcases ih (by omega) h with ⟨hjk, hquote⟩ | hnl
    · exact .inl ⟨by omega, hquote⟩
    · exact .inr hnl
  | case3 j hlt hread hback =>
    cases h
    obtain ⟨c', hc', hget⟩ := read_yields h₀ hlt
    rw [hread] at hc'
    cases hc'
    rw [Int.add_sub_cancel]
    exact .inl ⟨by omega, (charAt?_eq h₀).trans hget⟩
  | case4 j hlt hread hback hquote =>
    cases h
    obtain ⟨c', hc', hget⟩ := read_yields h₀ hlt
    rw [hread] at hc'
    cases hc'
    exact .inr ((charAt?_eq h₀).trans hget)
  | case5 j hlt c hread hback hquote hnl ih =>
    rcases ih (by omega) h with ⟨hjk, hq⟩ | hnl
    · exact .inl ⟨by omega, hq⟩
    · exact .inr hnl
  | case6 j hlt =>
    cases h
    omega

/-- A character literal ends with a quote, and that is another one than the quote it starts with. -/
theorem char_before_charLiteralStop? {k m : Nat} (h : t.charLiteralStop? k = some m) :
    k + 2 ≤ m ∧ t.chars[m - 1]? = some '\'' := by
  unfold charLiteralStop? escapeStop? at h
  have := t.le_runStop insideQuotes (k + 2 + 1)
  grind

/-- The last character of a piece of more than one character; an unfinished string ends before a
newline. -/
theorem char_before_stop (h₀ : 0 ≤ i) (h : t.pieceAt bird i limit = .ok p)
    (hstop : p.stop ≤ t.length) :
    p.stop = i + 1 ∨
      (p.kind = .comment ∧
        (t.charAt? (p.stop - 1) = some '\n' ∨ t.charAt? (p.stop - 1) = some '\x7d')) ∨
      (p.kind = .string ∧ (t.charAt? (p.stop - 1) = some '"' ∨ t.charAt? p.stop = some '\n')) ∨
      (p.kind = .character ∧ t.charAt? (p.stop - 1) = some '\'') := by
  obtain ⟨c, hc, hpiece⟩ := pieceAt_cases h
  have h₁ := lt_length_of_read hc
  cases hpiece with
  | marker => exact .inl rfl
  | comment hcomment =>
    exact .inr (.inl ⟨rfl, char_before_commentStop h₀ hstop⟩)
  | string hcomment hquote hrest =>
    refine .inr (.inr (.inl ⟨rfl, ?_⟩))
    exact (char_before_stringRest (by omega) hrest hstop).imp_left fun h => h.2
  | @character k hcomment hquote hliteral =>
    have hlast := char_before_charLiteralStop? hliteral
    refine .inr (.inr (.inr ⟨rfl, ?_⟩))
    simp only
    rw [charAt?_eq (by omega), show ((k : Int) - 1).toNat = k - 1 by omega]
    exact hlast.2
  | single => exact .inl (singlePiece_stop c i)

/-- At the start of a piece stands a character, and the piece is recognised by it. -/
theorem exists_char_of_pieceAt (h₀ : 0 ≤ i) (h : t.pieceAt bird i limit = .ok p) :
    ∃ c, t.charAt? i = some c ∧ t.IsPiece bird i limit c p := by
  obtain ⟨c, hc, hpiece⟩ := pieceAt_cases h
  obtain ⟨c', hc', hget⟩ := read_yields h₀ (lt_length_of_read hc)
  rw [hc] at hc'
  cases hc'
  exact ⟨c, (charAt?_eq h₀).trans hget, hpiece⟩

/-- A string starts with a double quote. -/
theorem quote_of_string (h₀ : 0 ≤ i) (h : t.pieceAt bird i limit = .ok p)
    (hkind : p.kind = .string) : t.charAt? i = some '"' := by
  obtain ⟨c, hc, hpiece⟩ := exists_char_of_pieceAt h₀ h
  cases hpiece with
  | string _ hquote => rw [hc, hquote]
  | single => exact absurd hkind (singlePiece_kind c i).2.1
  | marker => cases hkind
  | comment => cases hkind
  | character => cases hkind

/-- A character literal starts with a quote, and ends where the rule for such literals says. -/
theorem literal_of_character (h₀ : 0 ≤ i) (h : t.pieceAt bird i limit = .ok p)
    (hkind : p.kind = .character) :
    t.charAt? i = some '\'' ∧ ∃ k : Nat, p.stop = k ∧ t.charLiteralStop? (t.clamp i) = some k := by
  obtain ⟨c, hc, hpiece⟩ := exists_char_of_pieceAt h₀ h
  cases hpiece with
  | character _ hquote hstop => exact ⟨by rw [hc, hquote], _, rfl, hstop⟩
  | single => exact absurd hkind (singlePiece_kind c i).2.2
  | marker => cases hkind
  | comment => cases hkind
  | string => cases hkind

/-- A piece that opens a group starts with an opening bracket. -/
theorem bracket_of_opening (h₀ : 0 ≤ i) (h : t.pieceAt bird i limit = .ok p)
    (hkind : p.kind = .opening) : ∃ c, t.charAt? i = some c ∧ isOpening c = true := by
  obtain ⟨c, hc, hpiece⟩ := exists_char_of_pieceAt h₀ h
  refine ⟨c, hc, ?_⟩
  cases hpiece with
  | single =>
    unfold singlePiece at hkind
    split at hkind
    · assumption
    · split at hkind <;> cases hkind
  | marker => cases hkind
  | comment => cases hkind
  | string => cases hkind
  | character => cases hkind

/-- Any other piece is a single character that starts no comment. -/
theorem single_of_pieceAt (h₀ : 0 ≤ i) (h : t.pieceAt bird i limit = .ok p)
    (hcomment : p.kind ≠ .comment) (hstring : p.kind ≠ .string) (hchar : p.kind ≠ .character) :
    p.stop = i + 1 ∧ t.commentAt i limit = .ok false := by
  obtain ⟨c, hc, hpiece⟩ := exists_char_of_pieceAt h₀ h
  cases hpiece with
  | marker hsign =>
    subst hsign
    exact ⟨rfl, commentAt_eq_false h₀ hc (by decide) (by decide) limit⟩
  | single hnone => exact ⟨singlePiece_stop c i, hnone⟩
  | comment => exact absurd rfl hcomment
  | string => exact absurd rfl hstring
  | character => exact absurd rfl hchar

/-! ## From piece to piece -/

/-- The scanner of a stretch that ends at `limit` comes from the piece that starts at `i` to the one
that starts at `j`. -/
inductive Walk (t : Text) (bird : Bool) (limit : Int) : Int → Int → Prop where
  | refl (i : Int) : Walk t bird limit i i
  | step {i j : Int} {p : Piece} (hlt : i < limit) (hp : t.pieceAt bird i limit = .ok p)
      (h : Walk t bird limit p.stop j) : Walk t bird limit i j

/-- The scanner that starts at `start` finds the piece `p` at `a`, before `limit`. -/
structure Visits (t : Text) (bird : Bool) (start limit a : Int) (p : Piece) : Prop where
  walk : t.Walk bird limit start a
  lt : a < limit
  piece : t.pieceAt bird a limit = .ok p

variable {a b j k start limit' : Int} {q : Piece}

namespace Walk

/-- A walk goes forward. -/
theorem le (h : t.Walk bird limit i j) : i ≤ j := by
  induction h with
  | refl => exact Int.le_refl _
  | step hlt hp h ih =>
    have := lt_stop_of_pieceAt hp
    omega

/-- A walk goes on over one more piece. -/
theorem snoc (h : t.Walk bird limit i j) (hlt : j < limit) (hp : t.pieceAt bird j limit = .ok p) :
    t.Walk bird limit i p.stop := by
  induction h with
  | refl => exact .step hlt hp (.refl _)
  | step hlt' hp' h ih => exact .step hlt' hp' (ih hlt hp)

/-- A walk that ends before a smaller limit is one before that limit. -/
theorem shorten (h : t.Walk bird limit i a) (h₀ : 0 ≤ i) (ha : a ≤ limit') (hle : limit' ≤ limit) :
    t.Walk bird limit' i a := by
  induction h with
  | refl => exact .refl _
  | step hlt hp h ih =>
    have hstop := lt_stop_of_pieceAt hp
    have := h.le
    exact .step (by omega) (pieceAt_shorten h₀ hp (by omega) hle fun _ => by omega)
      (ih (by omega) ha)

/-- A place of the walk is not inside a piece that the walk visits. -/
theorem le_or_stop_le (h : t.Walk bird limit i a) (hp : t.pieceAt bird a limit = .ok p)
    (h' : t.Walk bird limit i j) : j ≤ a ∨ p.stop ≤ j := by
  induction h with
  | refl =>
    cases h' with
    | refl => exact .inl (Int.le_refl _)
    | step _ hp' h' =>
      rw [hp] at hp'
      cases hp'
      exact .inr h'.le
  | step hlt hp₁ h ih =>
    cases h' with
    | refl => exact .inl (Int.le_trans (Int.le_of_lt (lt_stop_of_pieceAt hp₁)) h.le)
    | step _ hp' h' =>
      rw [hp₁] at hp'
      cases hp'
      exact ih hp h'

end Walk

namespace Visits

/-- A piece that is visited starts no earlier than the walk. -/
theorem start_le (h : t.Visits bird start limit a p) : start ≤ a := h.walk.le

/-- A piece that is visited ends behind its start. -/
theorem lt_stop (h : t.Visits bird start limit a p) : a < p.stop := lt_stop_of_pieceAt h.piece

/-- Two pieces of a walk that hold the same place are one. -/
theorem unique (h : t.Visits bird start limit a p) (h' : t.Visits bird start limit b q) (h₁ : a ≤ k)
    (h₂ : k < p.stop) (h₃ : b ≤ k) (h₄ : k < q.stop) : a = b ∧ p = q := by
  obtain rfl : a = b := by
    have := h.walk.le_or_stop_le h.piece h'.walk
    have := h'.walk.le_or_stop_le h'.piece h.walk
    omega
  have hpiece := h'.piece
  rw [h.piece] at hpiece
  exact ⟨rfl, Except.ok.inj hpiece⟩

/-- A piece is found before every limit behind its start, unless it is a comment that does not end
there. -/
theorem shorten (h : t.Visits bird start limit a p) (h₀ : 0 ≤ start) (ha : a < limit')
    (hle : limit' ≤ limit) (hstop : p.kind = .comment → p.stop ≤ limit') :
    t.Visits bird start limit' a p := by
  have := h.start_le
  exact ⟨h.walk.shorten h₀ (by omega) hle, ha,
    pieceAt_shorten (by omega) h.piece (by omega) hle hstop⟩

end Visits

/-- Every place of a stretch lies in a piece. -/
theorem exists_visits (bird : Bool) {start : Int} (h₀ : 0 ≤ start) (hk : start ≤ k)
    (hlt : k < limit) (hlimit : limit ≤ t.length) :
    ∃ a p, t.Visits bird start limit a p ∧ a ≤ k ∧ k < p.stop := by
  obtain ⟨p, hp, hstop, -⟩ := pieceAt_yields (t := t) (i := start) bird limit h₀ (by omega)
  rcases Int.lt_or_le k p.stop with hin | hout
  · exact ⟨start, p, ⟨.refl start, by omega, hp⟩, hk, hin⟩
  · obtain ⟨a, r, hr, h₁, h₂⟩ := exists_visits bird (by omega : 0 ≤ p.stop) hout hlt hlimit
    exact ⟨a, r, ⟨.step (by omega) hp hr.walk, hr.lt, hr.piece⟩, h₁, h₂⟩
termination_by (limit - start).toNat

/-! ## What is open comes from the pieces -/

variable {s final : Nesting}

/-- The scanner passes every piece of the walk. -/
theorem Walk.nestingFrom (h : t.Walk bird limit i a) (hle : a ≤ limit)
    (hs : t.nestingFrom bird limit s i = .ok final) :
    ∃ s', t.nestingFrom bird limit s' a = .ok final ∧ s'.string? = s.string? ∧
      s'.comment? = s.comment? := by
  induction h generalizing s with
  | refl => exact ⟨s, hs, rfl, rfl⟩
  | @step i j p hlt hp h ih =>
    rw [Document.nestingFrom_step hlt hp] at hs
    have hstop := h.le
    have hnone : s.within? i limit p = none := by
      unfold Nesting.within?
      exact if_neg (by omega)
    rw [hnone] at hs
    obtain ⟨s', hs', hstring, hcomment⟩ := ih hle hs
    refine ⟨s', hs', hstring.trans ?_, hcomment.trans ?_⟩
    · unfold Nesting.record
      split <;> rfl
    · unfold Nesting.record
      split <;> rfl

/-- A comment that was found is kept. -/
theorem comments_subset (h : t.nestingFrom bird limit s i = .ok final) :
    s.comments ⊆ final.comments := by
  fun_induction nestingFrom t bird limit s i with
  | case1 => cases h
  | case2 s i hlt p hp r hw =>
    cases h
    unfold Nesting.within? at hw
    grind
  | case3 s i hlt p hp hw ih =>
    refine List.Subset.trans ?_ (ih h)
    unfold Nesting.record
    split <;> simp
  | case4 => cases h; exact List.Subset.refl _

/-- The string or comment that holds the end does not depend on what was found before. -/
theorem nestingFrom_open {u : Nesting} (h : t.nestingFrom bird limit s i = .ok final)
    (hstring : u.string? = s.string?) (hcomment : u.comment? = s.comment?) :
    ∃ final', t.nestingFrom bird limit u i = .ok final' ∧ final'.string? = final.string? ∧
      final'.comment? = final.comment? := by
  fun_induction Text.nestingFrom t bird limit s i generalizing u with
  | case1 => cases h
  | case2 s i hlt p hp r hw =>
    cases h
    rw [Document.nestingFrom_step hlt hp]
    unfold Nesting.within? at hw ⊢
    split at hw
    · next hstop =>
      rw [if_pos hstop]
      split at hw
      · cases hw
        exact ⟨_, rfl, hstring, rfl⟩
      · cases hw
        exact ⟨_, rfl, rfl, hcomment⟩
      · cases hw
    · cases hw
  | case3 s i hlt p hp hw ih =>
    have hw' : u.within? i limit p = none := by
      unfold Nesting.within? at hw ⊢
      split at hw
      · next hstop =>
        rw [if_pos hstop]
        split at hw
        · cases hw
        · cases hw
        · rfl
      · next hstop => exact if_neg hstop
    rw [Document.nestingFrom_step hlt hp, hw']
    refine ih h ?_ ?_
    · unfold Nesting.record
      split <;> exact hstring
    · unfold Nesting.record
      split <;> exact hcomment
  | case4 s i hlt =>
    cases h
    refine ⟨u, ?_, hstring, hcomment⟩
    rw [Text.nestingFrom, if_neg hlt]

namespace Visits

variable (h : t.Visits bird start limit a p) (hs : t.nesting bird start limit = .ok final)

include h hs in
/-- A comment that is visited and ends in the stretch is among the comments that the scan finds. -/
theorem comment_mem (hkind : p.kind = .comment) (hstop : p.stop ≤ limit) :
    ⟨a, p.stop⟩ ∈ final.comments := by
  obtain ⟨s, hs, -⟩ := h.walk.nestingFrom (Int.le_of_lt h.lt) hs
  rw [Document.nestingFrom_step h.lt h.piece] at hs
  have hnone : s.within? a limit p = none := by
    unfold Nesting.within?
    exact if_neg (by omega)
  rw [hnone] at hs
  refine comments_subset hs ?_
  unfold Nesting.record
  rw [hkind]
  exact List.mem_append_right _ (List.mem_singleton_self _)

include h hs in
/-- A comment that is visited and goes on behind the stretch is the one that the scan leaves
open. -/
theorem comment?_eq (hkind : p.kind = .comment) (hstop : limit < p.stop) :
    final.comment? = some a := by
  obtain ⟨s, hs, -⟩ := h.walk.nestingFrom (Int.le_of_lt h.lt) hs
  rw [Document.nestingFrom_step h.lt h.piece] at hs
  unfold Nesting.within? at hs
  rw [if_pos hstop, hkind] at hs
  cases hs
  rfl

include h hs in
/-- A comment of the walk is one of the comments before its end, as far as it lies before it. -/
theorem mem_commentsBefore (hkind : p.kind = .comment) :
    ⟨a, min p.stop limit⟩ ∈ final.commentsBefore limit := by
  unfold Nesting.commentsBefore
  rcases Int.lt_or_le limit p.stop with hlt | hle
  · rw [h.comment?_eq hs hkind hlt, Int.min_eq_right (Int.le_of_lt hlt)]
    exact List.mem_append_right _ (List.mem_singleton_self _)
  · rw [Int.min_eq_left hle]
    split
    · exact List.mem_append_left _ (h.comment_mem hs hkind hle)
    · exact h.comment_mem hs hkind hle

include h hs in
/-- A string that is visited and goes on behind the stretch is the one that the scan leaves open. -/
theorem string?_eq (hkind : p.kind = .string) (hstop : limit < p.stop) :
    final.string? = some a := by
  obtain ⟨s, hs, -⟩ := h.walk.nestingFrom (Int.le_of_lt h.lt) hs
  rw [Document.nestingFrom_step h.lt h.piece] at hs
  unfold Nesting.within? at hs
  rw [if_pos hstop, hkind] at hs
  cases hs
  rfl

include h hs in
/-- When a string goes on behind the stretch, no comment is left open. -/
theorem comment?_eq_none (hkind : p.kind = .string) (hstop : limit < p.stop) :
    final.comment? = none := by
  obtain ⟨s, hs, -, hnone⟩ := h.walk.nestingFrom (Int.le_of_lt h.lt) hs
  rw [Document.nestingFrom_step h.lt h.piece] at hs
  unfold Nesting.within? at hs
  rw [if_pos hstop, hkind] at hs
  cases hs
  exact hnone

end Visits

/-- The brackets and comments of a state are pieces of the walk before `i`, the comments in
order. -/
structure Visited (t : Text) (bird : Bool) (start limit i : Int) (s : Nesting) : Prop where
  openers : ∀ b ∈ s.openers, ∃ p, t.Visits bird start limit b p ∧ p.kind = .opening
  comments : ∀ c ∈ s.comments, c.stop ≤ i ∧ ∃ p, t.Visits bird start limit c.start p ∧
    p.kind = .comment ∧ p.stop = c.stop
  order : s.comments.Pairwise fun c c' => c.stop ≤ c'.start

/-- Recording a piece keeps to the pieces that were visited, up to the end of this piece. -/
theorem Visited.record (hs : t.Visited bird start limit a s) (h : t.Visits bird start limit a p) :
    t.Visited bird start limit p.stop (s.record a p) := by
  have hlt := h.lt_stop
  have hcomments : ∀ c ∈ s.comments, c.stop ≤ p.stop ∧
      ∃ q, t.Visits bird start limit c.start q ∧ q.kind = .comment ∧ q.stop = c.stop := by
    intro c hc
    obtain ⟨hle, hq⟩ := hs.comments c hc
    exact ⟨by omega, hq⟩
  unfold Nesting.record
  split
  · next hkind =>
    refine ⟨hs.openers, ?_, ?_⟩
    · intro c hc
      rcases List.mem_append.mp hc with hc | hc
      · exact hcomments c hc
      · rw [List.mem_singleton.mp hc]
        exact ⟨Int.le_refl _, p, h, hkind, rfl⟩
    · refine List.pairwise_append.mpr ⟨hs.order, List.pairwise_singleton _ _, ?_⟩
      intro c hc c' hc'
      rw [List.mem_singleton.mp hc']
      exact (hs.comments c hc).1
  · next hkind =>
    refine ⟨?_, hcomments, hs.order⟩
    intro b hb
    rcases List.mem_cons.mp hb with rfl | hb
    · exact ⟨p, h, hkind⟩
    · exact hs.openers b hb
  · exact ⟨fun b hb => hs.openers b (List.mem_of_mem_tail hb), hcomments, hs.order⟩
  · exact ⟨hs.openers, hcomments, hs.order⟩

/-- Everything that a scan finds in a stretch was visited on the walk. -/
theorem Visited.nestingFrom (hs : t.Visited bird start limit i s)
    (hwalk : t.Walk bird limit start i) (h : t.nestingFrom bird limit s i = .ok final) :
    ∃ j, t.Visited bird start limit j final := by
  fun_induction Text.nestingFrom t bird limit s i with
  | case1 => cases h
  | case2 s i hlt p hp r hw =>
    cases h
    refine ⟨i, ?_⟩
    unfold Nesting.within? at hw
    split at hw
    · split at hw
      · cases hw
        exact ⟨hs.openers, hs.comments, hs.order⟩
      · cases hw
        exact ⟨hs.openers, hs.comments, hs.order⟩
      · cases hw
    · cases hw
  | case3 s i hlt p hp hw ih => exact ih (hs.record ⟨hwalk, hlt, hp⟩) (hwalk.snoc hlt hp) h
  | case4 s i => cases h; exact ⟨i, hs⟩

/-- What a scan finds are pieces of its walk. -/
theorem visited_nesting (h : t.nesting bird start limit = .ok final) :
    ∃ j, t.Visited bird start limit j final :=
  Visited.nestingFrom ⟨by simp, by simp, List.Pairwise.nil⟩ (.refl start) h

/-- The comment that holds the end of a stretch is the last piece of its walk, and goes on behind
the end. -/
theorem visits_of_nestingFrom (hs : t.Visited bird start limit i s)
    (hwalk : t.Walk bird limit start i) (hnone : s.comment? = none) {c : Int}
    (h : t.nestingFrom bird limit s i = .ok final) (hc : final.comment? = some c) :
    (∃ p, t.Visits bird start limit c p ∧ p.kind = .comment ∧ limit < p.stop) ∧
      ∀ span ∈ final.comments, span.stop ≤ c := by
  fun_induction Text.nestingFrom t bird limit s i with
  | case1 => cases h
  | case2 s i hlt p hp r hw =>
    cases h
    unfold Nesting.within? at hw
    split at hw
    · next hstop =>
      split at hw
      · next hkind =>
        cases hw
        cases hc
        exact ⟨⟨p, ⟨hwalk, hlt, hp⟩, hkind, hstop⟩, fun span hspan => (hs.comments span hspan).1⟩
      · cases hw
        cases hnone.symm.trans hc
      · cases hw
    · cases hw
  | case3 s i hlt p hp hw ih =>
    refine ih (hs.record ⟨hwalk, hlt, hp⟩) (hwalk.snoc hlt hp) ?_ h
    unfold Nesting.record
    split <;> exact hnone
  | case4 s i => cases h; cases hnone.symm.trans hc

end Text

/-- The innermost open bracket is a piece of the walk. -/
theorem Document.visits_openBracket? {d : Document} {start stop b : Int}
    (h : d.openBracket? start stop = .ok (some b)) :
    ∃ p, d.text.Visits d.bird start stop b p ∧ p.kind = .opening := by
  unfold openBracket? at h
  obtain ⟨s, hs, h⟩ := bind_eq_ok.1 h
  obtain ⟨_, hvisited⟩ := Text.visited_nesting hs
  exact hvisited.openers b (List.mem_of_mem_head? (Except.ok.inj h))

end LayoutRule
