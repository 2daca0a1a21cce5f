import LayoutRule.Proofs.Document.Shared
import LayoutRule.Proofs.Lexical.Spacing

/-!
# Ending the last line

A text whose last line ends in a newline is scanned like the text without that newline
(`Text.endLine`). Words, operators, comments and literals take the end of the text for the end of a
line: where one text has its last newline and the other nothing, neither has a character of any of
them (`getElem?_endLine_cases`). So every piece before the end is of the same kind, and it ends at
the same place unless it has no end, and then it goes on to the end of the text in both
(`pieceAt_endLine`). What is open at a place is therefore the same (`nestingFrom_endLine`,
`openComment?_endLine`).
-/

namespace LayoutRule

namespace Text

/-- The text with a newline behind it. -/
def endLine (t : Text) : Text := t ++ ofString "\n"

variable {t : Text} {f : Char → Bool} {w : List Char} {i limit : Int} {k : Nat}

/-- Ending the last line makes the text longer by one. -/
@[simp] theorem length_endLine (t : Text) : t.endLine.length = t.length + 1 := length_append t _

/-- Ending the last line adds one character. -/
theorem size_endLine (t : Text) : t.endLine.chars.size = t.chars.size + 1 := by
  have h := t.length_endLine
  unfold length at h
  omega

/-- The text and the one whose last line is ended share all characters of the text. -/
theorem shares_endLine (t : Text) : t.Shares t.endLine t.chars.size where
  le := Nat.le_refl _
  le' := by rw [size_endLine]; omega
  get _ hi := getElem?_append_left t _ hi

/-! ## Characters -/

/-- A character is the same, or it is the new newline. -/
theorem getElem?_endLine_cases (t : Text) (k : Nat) :
    t.endLine.chars[k]? = t.chars[k]? ∨ t.chars[k]? = none ∧ t.endLine.chars[k]? = some '\n' := by
  rcases Nat.lt_trichotomy k t.chars.size with hlt | rfl | hgt
  · exact .inl (t.shares_endLine.get k hlt)
  · refine .inr ⟨Array.getElem?_eq_none (Nat.le_refl _), ?_⟩
    simp [endLine, ofString]
  · refine .inl ?_
    rw [Array.getElem?_eq_none (by rw [size_endLine]; omega), Array.getElem?_eq_none (by omega)]

/-- Every other character stands where it stood. -/
theorem getElem?_endLine_eq_some {c : Char} (hc : c ≠ '\n') :
    t.endLine.chars[k]? = some c ↔ t.chars[k]? = some c := by
  rcases t.getElem?_endLine_cases k with h | ⟨hnone, hnl⟩
  · rw [h]
  · rw [hnone, hnl]
    constructor
    · rintro ⟨⟩
      exact absurd rfl hc
    · rintro ⟨⟩

/-- Reading any place gives the same in both texts, or nothing in one and the newline in the
other. -/
theorem charAt?_endLine_cases (t : Text) (i : Int) :
    t.endLine.charAt? i = t.charAt? i ∨ t.charAt? i = none ∧ t.endLine.charAt? i = some '\n' := by
  rcases Int.lt_or_le i 0 with hneg | h₀
  · exact .inl (by rw [charAt?, charAt?, if_neg (by omega), if_neg (by omega)])
  · rw [charAt?_eq h₀, charAt?_eq h₀]
    exact t.getElem?_endLine_cases i.toNat

/-- Any character but a newline is read at the same places of both texts. -/
theorem charAt?_endLine_eq_some {c : Char} (hc : c ≠ '\n') :
    t.endLine.charAt? i = some c ↔ t.charAt? i = some c := by
  unfold charAt?
  split
  · exact getElem?_endLine_eq_some hc
  · exact Iff.rfl

/-- Inside the text reading gives the same character in both. -/
theorem read_endLine (h₀ : 0 ≤ i) (h₁ : i < t.length) : t.endLine.read i = t.read i := by
  have hget := t.shares_endLine.get i.toNat (by unfold length at h₁; omega)
  unfold read read?
  rw [if_pos h₀, if_pos h₀, hget]

/-- A position of the text is bounded alike in both. -/
theorem bound_endLine (h₀ : 0 ≤ i) (h₁ : i ≤ t.length) : t.endLine.bound i = t.bound i := by
  rw [bound_toNat h₀ h₁, bound_toNat h₀ (by rw [length_endLine]; omega)]

/-- A position of the text is clamped alike in both. -/
theorem clamp_endLine (h₀ : 0 ≤ i) (h₁ : i ≤ t.length) : t.endLine.clamp i = t.clamp i := by
  have hnew := clamp_of_mem (t := t.endLine) h₀ (by rw [length_endLine]; omega)
  have hold := clamp_of_mem h₀ h₁
  omega

/-- A run of characters that are no newlines. -/
theorem runStop_endLine (hf : f '\n' = false) : t.endLine.runStop f k = t.runStop f k := by
  refine runStop_eq_of (t.le_runStop f k) (fun i h₁ h₂ => ?_) fun c hc => ?_
  · obtain ⟨c, hc, hfc⟩ := char_of_lt_runStop h₁ h₂
    refine ⟨c, (getElem?_endLine_eq_some ?_).mpr hc, hfc⟩
    rintro rfl
    cases hf.symm.trans hfc
  · by_cases hnl : c = '\n'
    · rw [hnl, hf]
    · exact not_of_runStop ((getElem?_endLine_eq_some hnl).mp hc)

/-- A word without a newline stands at the same places of both texts. -/
theorem holdsAt_endLine (hw : '\n' ∉ w) : t.endLine.holdsAt w k = t.holdsAt w k := by
  induction w generalizing k with
  | nil => rfl
  | cons c w ih =>
    rw [List.mem_cons, not_or] at hw
    have hc : (t.endLine.chars[k]? == some c) = (t.chars[k]? == some c) := by
      rw [Bool.eq_iff_iff, beq_iff_eq, beq_iff_eq]
      exact getElem?_endLine_eq_some (Ne.symm hw.1)
    rw [holdsAt, holdsAt, hc, ih hw.2]

/-- A word before a limit. -/
theorem hasWord_endLine (hw : '\n' ∉ w) (h₀ : 0 ≤ i) (h₁ : i ≤ t.length) (hlimit : 0 ≤ limit)
    (hle : limit ≤ t.length) : t.endLine.hasWord w i limit = t.hasWord w i limit := by
  unfold hasWord
  rw [bound_endLine h₀ h₁, bound_endLine hlimit hle, holdsAt_endLine hw]

/-- A word of two characters in the whole text. -/
theorem hasWord_pair_endLine {c₁ c₂ : Char} (h₀ : 0 ≤ i) (h₁ : c₁ ≠ '\n') (h₂ : c₂ ≠ '\n') :
    t.endLine.hasWord [c₁, c₂] i t.endLine.length = t.hasWord [c₁, c₂] i t.length := by
  rw [hasWord_pair h₀, hasWord_pair h₀, Bool.eq_iff_iff]
  simp only [Bool.and_eq_true, beq_iff_eq, charAt?_endLine_eq_some h₁, charAt?_endLine_eq_some h₂]

/-! ## Comments -/

/-- Block comments are opened at the same places of both texts. -/
theorem blockOpen_endLine (h₀ : 0 ≤ i) :
    t.endLine.hasWord blockOpen i t.endLine.length = t.hasWord blockOpen i t.length :=
  hasWord_pair_endLine h₀ (by decide) (by decide)

/-- Block comments are closed at the same places of both texts. -/
theorem blockClose_endLine (h₀ : 0 ≤ i) :
    t.endLine.hasWord blockClose i t.endLine.length = t.hasWord blockClose i t.length :=
  hasWord_pair_endLine h₀ (by decide) (by decide)

/-- A place follows an operator in both texts or in neither: only what stands before it counts. -/
theorem afterOperator_endLine (t : Text) (i : Int) :
    t.endLine.afterOperator i = t.afterOperator i := by
  unfold afterOperator
  rcases t.charAt?_endLine_cases (i - 1) with h | ⟨hnone, hnl⟩
  · rw [h]
  · rw [hnone, hnl]
    rfl

/-- Dashes are followed by the rest of an operator in both texts or in neither: the newline is no
part of one. -/
theorem endsDashes_endLine (t : Text) (k : Nat) : t.endLine.endsDashes k = t.endsDashes k := by
  unfold endsDashes
  rcases t.getElem?_endLine_cases k with h | ⟨hnone, hnl⟩
  · rw [h]
  · rw [hnone, hnl]
    rfl

/-- Comments start at the same places of both texts. -/
theorem commentAt_endLine (h₀ : 0 ≤ i) (h₁ : i ≤ t.length) (hlimit : 0 ≤ limit)
    (hle : limit ≤ t.length) : t.endLine.commentAt i limit = t.commentAt i limit := by
  rw [commentAt_eq h₀ h₁, commentAt_eq h₀ (by rw [length_endLine]; omega), afterOperator_endLine,
    endsDashes_endLine, runStop_endLine (by decide), hasWord_endLine (by decide) h₀ h₁ hlimit hle,
    hasWord_endLine (by decide) h₀ h₁ hlimit hle]

/-- A comment of the whole text. -/
theorem commentAt_endLine_length (h₀ : 0 ≤ i) (h₁ : i ≤ t.length) :
    t.endLine.commentAt i t.endLine.length = t.commentAt i t.length := by
  rw [commentAt_eq h₀ h₁, commentAt_eq h₀ (by rw [length_endLine]; omega), afterOperator_endLine,
    endsDashes_endLine, runStop_endLine (by decide), blockOpen_endLine h₀, dashes,
    hasWord_pair_endLine h₀ (by decide) (by decide)]

/-- Both places lie behind the last character of the text, or they are one. -/
def SameUpTo (t : Text) (a b : Int) : Prop := a = b ∨ t.length ≤ a ∧ t.length ≤ b

/-- A block comment ends at the same place of both texts, or it is not closed and goes on to the end
in both. -/
theorem blockStop_endLine {depth : Nat} (h₀ : 0 ≤ i) :
    t.SameUpTo (t.endLine.blockStop depth i) (t.blockStop depth i) := by
  have hlength := t.length_endLine
  fun_induction blockStop t depth i with
  | case1 depth j hlt hopen ih =>
    rw [blockStop, if_pos (by omega), blockOpen_endLine h₀, if_pos hopen]
    exact ih (by omega)
  | case2 depth j hlt hopen hclose hdepth =>
    rw [blockStop, if_pos (by omega), blockOpen_endLine h₀, if_neg hopen, blockClose_endLine h₀,
      if_pos hclose, if_pos hdepth]
    exact .inl rfl
  | case3 depth j hlt hopen hclose hdepth ih =>
    rw [blockStop, if_pos (by omega), blockOpen_endLine h₀, if_neg hopen, blockClose_endLine h₀,
      if_pos hclose, if_neg hdepth]
    exact ih (by omega)
  | case4 depth j hlt hopen hclose ih =>
    rw [blockStop, if_pos (by omega), blockOpen_endLine h₀, if_neg hopen, blockClose_endLine h₀,
      if_neg hclose]
    exact ih (by omega)
  | case5 depth j hge =>
    have hbehind := t.endLine.min_lt_blockStop depth j
    exact .inr ⟨by omega, by omega⟩

/-- Every line of the text ends at the same place in both, the last one before the new newline. -/
theorem lineStop_endLine (h₀ : 0 ≤ i) (h₁ : i ≤ t.length) :
    t.endLine.lineStop i = t.lineStop i := by
  unfold lineStop
  rw [bound_endLine h₀ h₁, runStop_endLine (by decide)]

/-- A comment ends at the same place of both texts, or goes on to the end in both. The newline
belongs to a line comment. -/
theorem commentStop_endLine (h₀ : 0 ≤ i) (h₁ : i ≤ t.length) :
    t.SameUpTo (t.endLine.commentStop i) (t.commentStop i) := by
  have hlength := t.length_endLine
  have hstop := t.lineStop_le_length i
  unfold commentStop
  rw [blockOpen_endLine h₀]
  split
  · exact blockStop_endLine h₀
  · -- a line comment ends behind the newline, whether it is there or still to come
    refine .inl ?_
    rw [newlineFrom?_eq, newlineFrom?_eq, lineStop_endLine h₀ h₁, if_pos (by omega)]
    rcases Int.lt_or_eq_of_le hstop with hlt | heq
    · rw [if_pos hlt]
    · rw [heq, if_neg (Int.lt_irrefl _)]

/-! ## Literals -/

/-- A string that can be read to its end is read in the text with the ended line too, and to the
same place unless it goes on to the end in both. -/
theorem stringRest_endLine {m : Int} (h₀ : 0 ≤ i) (h : t.stringRest i = .ok m) :
    ∃ m', t.endLine.stringRest i = .ok m' ∧ t.SameUpTo m' m := by
  have hlength := t.length_endLine
  fun_induction stringRest t i with
  | case1 => cases h
  | case2 j hlt hread ih =>
    obtain ⟨m', hm', hsame⟩ := ih (by omega) h
    refine ⟨m', ?_, hsame⟩
    rw [stringRest, if_pos (by omega), read_endLine h₀ hlt, hread]
    exact hm'
  | case3 j hlt hread hback =>
    cases h
    refine ⟨_, ?_, .inl rfl⟩
    rw [stringRest, if_pos (by omega), read_endLine h₀ hlt, hread]
    simp only [hback, if_false, if_true]
  | case4 j hlt hread hback hquote =>
    cases h
    refine ⟨_, ?_, .inl rfl⟩
    rw [stringRest, if_pos (by omega), read_endLine h₀ hlt, hread]
    simp only [hback, hquote, if_false, if_true]
  | case5 j hlt c hread hback hquote hnl ih =>
    obtain ⟨m', hm', hsame⟩ := ih (by omega) h
    refine ⟨m', ?_, hsame⟩
    rw [stringRest, if_pos (by omega), read_endLine h₀ hlt, hread]
    simp only [hback, hquote, hnl, if_false]
    exact hm'
  | case6 j hge =>
    cases h
    obtain ⟨m', hm', -⟩ := stringRest_yields (t := t.endLine) h₀
    have hbehind := min_le_of_stringRest hm'
    exact ⟨m', hm', .inr ⟨by omega, by omega⟩⟩

/-- An escaped character of a literal ends at the same place of both texts. -/
theorem escapeStop?_endLine (t : Text) (k : Nat) : t.endLine.escapeStop? k = t.escapeStop? k := by
  have hrun : t.endLine.runStop insideQuotes (k + 1) = t.runStop insideQuotes (k + 1) :=
    runStop_endLine (by decide)
  unfold escapeStop?
  simp only [hrun, getElem?_endLine_eq_some (show '\'' ≠ '\n' by decide)]
  rcases t.getElem?_endLine_cases k with h | ⟨hnone, hnl⟩
  · rw [h]
  · rw [hnone, hnl]
    rfl

/-- Character literals are the same ones in both texts. -/
theorem charLiteralStop?_endLine (t : Text) (k : Nat) :
    t.endLine.charLiteralStop? k = t.charLiteralStop? k := by
  unfold charLiteralStop?
  simp only [escapeStop?_endLine, getElem?_endLine_eq_some (show '\'' ≠ '\n' by decide)]
  rcases t.getElem?_endLine_cases (k + 1) with h | ⟨hnone, hnl⟩
  · rw [h]
  · rw [hnone, hnl]
    rfl

/-! ## Pieces -/

variable {bird : Bool} {s : Nesting}

/-- Markers of literate lines stand at the same places of both texts. -/
theorem isMarker_endLine (c : Char) (h₀ : 0 ≤ i) (h₁ : i ≤ t.length) :
    t.endLine.isMarker bird c i = t.isMarker bird c i := by
  unfold isMarker startsLine
  by_cases hi : i = 0
  · rw [if_pos hi, if_pos hi]
  · rw [if_neg hi, if_neg hi, read_endLine (by omega) (by omega)]

/-- At a quote of the text the same character literal is found in both, or none. -/
theorem characterAt?_endLine (c : Char) (h₀ : 0 ≤ i) (h₁ : i ≤ t.length) :
    t.endLine.characterAt? c i = t.characterAt? c i := by
  unfold characterAt? afterName
  rw [clamp_endLine h₀ h₁, charLiteralStop?_endLine]
  by_cases hi : i = 0
  · rw [if_pos hi, if_pos hi]
  · rw [if_neg hi, if_neg hi, read_endLine (by omega) (by omega)]

/-- A piece is of the same kind. It is the same piece unless it is a comment or a string that has no
end. -/
theorem pieceAt_endLine {p : Piece} (h₀ : 0 ≤ i) (h₁ : i < t.length) (hlimit : 0 ≤ limit)
    (hle : limit ≤ t.length) (h : t.pieceAt bird i limit = .ok p) :
    ∃ q, t.endLine.pieceAt bird i limit = .ok q ∧ q.kind = p.kind ∧ t.SameUpTo q.stop p.stop ∧
      (p.kind ≠ .comment → p.kind ≠ .string → q = p) := by
  unfold pieceAt at h ⊢
  obtain ⟨c, hc, h⟩ := bind_eq_ok.1 h
  obtain ⟨marker, hmarker, h⟩ := bind_eq_ok.1 h
  simp only [read_endLine h₀ h₁, hc, Document.ok_bind, isMarker_endLine c h₀ (Int.le_of_lt h₁),
    hmarker, commentAt_endLine h₀ (Int.le_of_lt h₁) hlimit hle,
    characterAt?_endLine c h₀ (Int.le_of_lt h₁)]
  split at h
  · next hm =>
    cases h
    rw [if_pos hm]
    exact ⟨_, rfl, rfl, .inl rfl, fun _ _ => rfl⟩
  next hm =>
  rw [if_neg hm]
  obtain ⟨comment, hcomment, h⟩ := bind_eq_ok.1 h
  rw [hcomment, Document.ok_bind]
  split at h
  · next hm =>
    cases h
    rw [if_pos hm]
    exact ⟨_, rfl, rfl, commentStop_endLine h₀ (Int.le_of_lt h₁), fun hkind => absurd rfl hkind⟩
  next hm =>
  rw [if_neg hm]
  split at h
  · next hquote =>
    obtain ⟨k, hk, h⟩ := bind_eq_ok.1 h
    cases h
    obtain ⟨m, hm, hsame⟩ := stringRest_endLine (by omega : 0 ≤ i + 1) hk
    rw [if_pos hquote, stringStop, hm]
    exact ⟨_, rfl, rfl, hsame, fun _ hkind => absurd rfl hkind⟩
  next hquote =>
  rw [if_neg hquote]
  exact ⟨p, h, rfl, .inl rfl, fun _ _ => rfl⟩

/-- What is open at a place before the end of the text. -/
theorem nestingFrom_endLine (h₀ : 0 ≤ i) (hlimit : 0 ≤ limit) (hlt : limit < t.length) :
    t.endLine.nestingFrom bird limit s i = t.nestingFrom bird limit s i := by
  fun_induction nestingFrom t bird limit s i with
  | case1 s i hi e he =>
    obtain ⟨p, hp, -⟩ := pieceAt_yields (t := t) bird limit h₀ (by omega)
    rw [he] at hp
    cases hp
  | case2 s i hi p hp final hwithin =>
    obtain ⟨q, hq, hkind, hstop, -⟩ := pieceAt_endLine h₀ (by omega) hlimit (by omega) hp
    have hsame : s.within? i limit q = some final := by
      rw [← hwithin]
      unfold Nesting.within?
      rw [hkind]
      rcases hstop with hstop | ⟨hbehind, hbehind'⟩
      · rw [hstop]
      · rw [if_pos (by omega), if_pos (by omega)]
    rw [Document.nestingFrom_step hi hq, hsame]
  | case3 s i hi p hp hwithin ih =>
    obtain ⟨q, hq, hkind, hstop, hother⟩ := pieceAt_endLine h₀ (by omega) hlimit (by omega) hp
    have hstart := lt_stop_of_pieceAt hp
    obtain rfl : q = p := by
      rcases hstop with hstop | ⟨-, hbehind⟩
      · cases p
        cases q
        cases hkind
        cases hstop
        rfl
      · -- a comment or a string without an end would hold the limit
        unfold Nesting.within? at hwithin
        rw [if_pos (by omega)] at hwithin
        refine hother ?_ ?_ <;> intro hk <;> rw [hk] at hwithin <;> cases hwithin
    rw [Document.nestingFrom_step hi hq, hwithin]
    exact ih (by omega)
  | case4 s i hi => rw [nestingFrom, if_neg hi]

end Text

namespace Document

open Text

/-- The document with a newline behind its text. -/
def endLine (d : Document) : Document := { d with text := d.text.endLine }

/-- The document whose last line is ended has the text whose last line is ended. -/
@[simp] theorem text_endLine (d : Document) : d.endLine.text = d.text.endLine := rfl

variable {d : Document} {start pos : Int}

/-- A line of the text is blank in both documents or in neither. -/
theorem isBlankLine_endLine (h₀ : 0 ≤ pos) (h₁ : pos ≤ d.text.length) :
    d.endLine.isBlankLine pos = d.isBlankLine pos := by
  have hstart : d.endLine.text.lineStart pos = d.text.lineStart pos :=
    d.text.shares_endLine.lineStart h₀ h₁
  have hstop : d.endLine.text.lineStop pos = d.text.lineStop pos := lineStop_endLine h₀ h₁
  have hmark : (d.endLine.text.charAt? (d.text.lineStart pos) == some '>') =
      (d.text.charAt? (d.text.lineStart pos) == some '>') := by
    rw [Bool.eq_iff_iff, beq_iff_eq, beq_iff_eq]
    exact charAt?_endLine_eq_some (by decide)
  have hpoint : d.endLine.indentationPoint pos = d.indentationPoint pos := by
    unfold indentationPoint codeOrigin
    rw [hstart, hmark, text_endLine, runStop_endLine (by decide)]
    rfl
  unfold isBlankLine
  rw [hpoint, hstop]

/-- At a place of the text the same comment is open in both documents, or none. -/
theorem openComment?_endLine (hs : 0 ≤ start) (h₀ : 0 ≤ pos) (hlt : pos < d.text.length) :
    d.endLine.openComment? start pos = d.openComment? start pos := by
  have hcomment : d.endLine.commentAt pos = d.commentAt pos :=
    commentAt_endLine_length h₀ (Int.le_of_lt hlt)
  have hnesting : d.endLine.nesting start pos = d.nesting start pos := nestingFrom_endLine hs h₀ hlt
  unfold openComment?
  rw [hcomment, hnesting]

end Document

end LayoutRule
