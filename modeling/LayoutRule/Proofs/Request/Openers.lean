import LayoutRule.Proofs.Lexical.Spacing
import LayoutRule.Proofs.Request.Measured

/-!
# Keywords that open a block, read from both sides

A keyword that opens a block is found from behind, as the last code before the code of a line, and
then read again from in front: as the lexeme at its place, whose offsets are looked up, and as the
lexeme behind which a keyword that hangs leaves nothing on its line. `keywordBefore?_reads` says
that both readings meet. Behind the keyword there is a gap or a comment (`gap_or_comment_behind`),
and neither goes on with a name.

A brace is the exception. As a lexeme it takes in the brackets behind it, so a block comment right
behind it lends it the brace that the comment starts with. The keyword is then read as two braces,
which open no block, and the search for the end of its line starts inside the comment.
-/

namespace LayoutRule

namespace Text

variable {t : Text} {bird : Bool} {limit i : Int}

/-- A comment starts with a dash, or with a brace and a dash, and then it is one in every stretch
that holds both. -/
theorem char_of_commentAt (h₀ : 0 ≤ i) (h : t.commentAt i limit = .ok true) :
    t.charAt? i = some '-' ∨
      (t.charAt? i = some '\x7b' ∧ t.charAt? (i + 1) = some '-' ∧
        t.commentAt i t.length = .ok true) := by
  rcases commentAt_cases h₀ h with hblock | ⟨hdashes, -⟩
  · obtain ⟨hbrace, hdash, hlen⟩ := chars_of_hasWord h₀ hblock
    refine .inr ⟨hbrace, hdash, ?_⟩
    rw [commentAt_eq h₀ (by omega), show t.hasWord blockOpen i t.length = true from ?_]
    · rfl
    · rw [show blockOpen = ['\x7b', '-'] from rfl, hasWord_pair h₀, hbrace, hdash]
      rfl
  · exact .inl (chars_of_hasWord h₀ hdashes).1

/-- A piece that is a comment was recognised as one. -/
theorem commentAt_of_pieceAt {p : Piece} (h₀ : 0 ≤ i) (h : t.pieceAt bird i limit = .ok p)
    (hkind : p.kind = .comment) : t.commentAt i limit = .ok true := by
  obtain ⟨c, -, hpiece⟩ := exists_char_of_pieceAt h₀ h
  cases hpiece with
  | comment hcomment => exact hcomment
  | single => exact absurd hkind (singlePiece_kind c i).1
  | marker => cases hkind
  | string => cases hkind
  | character => cases hkind

/-! ## Lexemes -/

variable {q p : Int}

/-- A lexeme is the text up to its end. -/
theorem lexemeAt_eq_slice (h₀ : 0 ≤ q) (hle : q ≤ p) (h₁ : p ≤ t.length)
    (hstop : t.lexemeStop q.toNat = p.toNat) : t.lexemeAt q = (t.slice q p).toString := by
  have hclamp : t.clamp q = q.toNat := by
    have := clamp_of_mem (t := t) h₀ (by omega)
    omega
  rw [lexemeAt_eq, hclamp, hstop]
  unfold slice toString
  rw [bound_toNat h₀ (by omega), bound_toNat (by omega) h₁]

/-- A window of the text is as long as its ends lie apart. -/
theorem length_slice (h₀ : 0 ≤ q) (hle : q ≤ p) (h₁ : p ≤ t.length) :
    ((t.slice q p).toString.length : Int) = p - q := by
  have hsize : t.length = t.chars.size := rfl
  unfold slice toString
  rw [bound_toNat h₀ (by omega), bound_toNat (by omega) h₁, String.length_ofList,
    Array.length_toList, Array.size_extract]
  omega

/-- A stretch starts with the character at its start. -/
theorem toList_slice {c : Char} (h₀ : 0 ≤ q) (hlt : q < p) (h₁ : p ≤ t.length)
    (hc : t.charAt? q = some c) :
    (t.slice q p).toString.toList = c :: (t.slice (q + 1) p).toString.toList := by
  have hsize : t.length = t.chars.size := rfl
  rw [charAt?_eq h₀] at hc
  obtain ⟨hin, hc⟩ := Array.getElem?_eq_some_iff.mp hc
  unfold slice toString
  rw [bound_toNat h₀ (by omega), bound_toNat (by omega) h₁, bound_toNat (by omega) (by omega),
    String.toList_ofList, String.toList_ofList, Array.toList_extract, Array.toList_extract,
    List.extract_eq_take_drop, List.extract_eq_take_drop,
    show (q + 1).toNat = q.toNat + 1 by omega, List.drop_eq_getElem_cons hin,
    show p.toNat - q.toNat = p.toNat - (q.toNat + 1) + 1 by
      omega, List.take_succ_cons, Array.getElem_toList, hc]

/-- A window from a place to itself is empty. -/
theorem toList_slice_self (t : Text) (q : Int) : (t.slice q q).toString.toList = [] := by
  unfold slice toString
  rw [String.toList_ofList, Array.toList_extract, List.extract_eq_take_drop, Nat.sub_self,
    List.take_zero]

/-- A run from `q` to `p`. -/
theorem runStop_eq_toNat {f : Char → Bool} (h₀ : 0 ≤ q) (hle : q ≤ p)
    (hrun : ∀ k, q ≤ k → k < p → ∃ c, t.charAt? k = some c ∧ f c = true)
    (hend : ∀ c, t.charAt? p = some c → f c = false) : t.runStop f q.toNat = p.toNat := by
  refine runStop_eq_of (by omega) (fun k hk hlt => ?_) fun c hc => ?_
  · obtain ⟨c, hc, hf⟩ := hrun k (by omega) (by omega)
    rw [charAt?_eq (by omega)] at hc
    exact ⟨c, hc, hf⟩
  · exact hend c ((charAt?_eq (by omega)).trans hc)

/-- A name is read up to the next character that is none of a name. -/
theorem lexemeAt_name (h₀ : 0 ≤ q) (hlt : q < p) (h₁ : p ≤ t.length)
    (hname : ∀ k, q ≤ k → k < p → ∃ c, t.charAt? k = some c ∧ isNameChar c = true)
    (hend : ∀ c, t.charAt? p = some c → isNameChar c = false) :
    t.lexemeAt q = (t.slice q p).toString := by
  refine lexemeAt_eq_slice h₀ (by omega) h₁ ?_
  have hstop := runStop_eq_toNat h₀ (by omega) hname hend
  unfold lexemeStop
  rw [hstop, if_pos (by omega)]

/-- Braces are read up to the next character that is no bracket. -/
theorem lexemeAt_braces (h₀ : 0 ≤ q) (hlt : q < p) (h₁ : p ≤ t.length)
    (hbrace : ∀ k, q ≤ k → k < p → t.charAt? k = some '\x7b')
    (hend : ∀ c, t.charAt? p = some c → isOpening c = false ∧ isClosing c = false) :
    t.lexemeAt q = (t.slice q p).toString := by
  refine lexemeAt_eq_slice h₀ (by omega) h₁ ?_
  have hfirst : t.chars[q.toNat]? = some '\x7b' :=
    (charAt?_eq h₀).symm.trans (hbrace q (by omega) hlt)
  have hopening : t.runStop isOpening q.toNat = p.toNat :=
    runStop_eq_toNat h₀ (by omega) (fun k hk hkp => ⟨_, hbrace k hk hkp, by decide⟩) fun c hc =>
      (hend c hc).1
  have hclosing : t.runStop isClosing p.toNat = p.toNat :=
    runStop_eq_toNat (by omega) (by omega) (fun k hk hkp => by omega) fun c hc => (hend c hc).2
  unfold lexemeStop
  rw [Document.runStop_eq_self hfirst (by decide), if_neg (by omega),
    Document.runStop_eq_self hfirst (by decide), hopening, hclosing]

end Text

namespace Document

open Text

variable {d : Document} {pos start stop p q : Int}

/-- The lead of a line is a gap, and so is the newline before it. -/
theorem isGapAt_before_indentationPoint (hpos : 0 < d.indentationPoint pos) :
    d.isGapAt (d.indentationPoint pos - 1) = .ok true := by
  have hle := d.lineStart_le_indentationPoint pos
  have h₀ := d.text.lineStart_nonneg pos
  rcases Int.lt_or_eq_of_le hle with hlt | heq
  · have hpoint := indentationPoint_eq_of_lineStart_eq (d := d) (d.text.lineStart_lineStart pos)
    exact isGapAt_lead (d.text.lineStart_lineStart pos) (by omega) (by omega)
  · have hnl : d.text.charAt? (d.indentationPoint pos - 1) = some '\n' := by
      rw [charAt?_eq (by omega), ← heq,
        show (d.text.lineStart pos - 1).toNat = (d.text.lineStart pos).toNat - 1 by omega]
      exact newline_before_lineStart pos (by omega)
    unfold isGapAt
    rw [read_eq (by omega) hnl]
    rfl

/-- Behind the last code before the code of a line stands a gap or a comment. -/
theorem gap_or_comment_behind (h₀ : 0 ≤ start) (hle : start ≤ d.indentationPoint pos)
    (h : d.skipGapBack (d.indentationPoint pos) start = .ok p) (hlt : start < p) :
    p < d.indentationPoint pos ∧
    (d.isGapAt p = .ok true ∨ d.text.commentAt p (d.indentationPoint pos) = .ok true) := by
  have htrailed := trailed_of_skipGapBack h₀ hle (d.indentationPoint_le_length pos) h
  have hbehind : p < d.indentationPoint pos := by
    rcases Int.lt_or_eq_of_le htrailed.le_stop with hbefore | heq
    · exact hbefore
    · have hgap := htrailed.code hlt
      rw [heq, isGapAt_before_indentationPoint (by omega)] at hgap
      cases hgap
  refine ⟨hbehind, ?_⟩
  rcases htrailed.gap p (Int.le_refl p) hbehind with hgap | ⟨a, r, hr, hkind, hap, hpr⟩
  · exact .inl hgap
  · obtain rfl : a = p := by
      have := htrailed.apart a r hr hkind
      omega
    exact .inr (commentAt_of_pieceAt (by omega) hr.piece hkind)

end Document

/-! ## The two readings -/

namespace Request

open Text Document

variable {r : Request} {pos start q : Int} {word : String}

/-- Whether nothing but a gap follows `k` up to the end of the line of `q`. -/
def endsLine (r : Request) (q k : Int) : Except Fault Bool := do
  return decide (r.doc.text.lineStop q ≤ (← r.doc.skipGap k r.doc.text.length))

/-- A word is read at `q`: it is the lexeme there, its offsets are those of the lexeme, and whether
it hangs is told by what follows behind it. -/
structure ReadsAs (r : Request) (q : Int) (word : String) : Prop where
  lexeme : r.doc.text.lexemeAt q = word
  offset : r.offsetAt? q = .ok (r.settings.keywordOffset? word)
  hangs : r.hangs q =
    if r.doc.isFirstOnLine q ∨ word ∈ r.settings.dontHang then .ok false
      else r.endsLine q (q + word.length)

/-- The lexeme at a place is read as a word there, when it has a character: its offsets and whether
it hangs go by this word. -/
theorem ReadsAs.of_lexemeAt (h₀ : 0 ≤ q) (h₁ : q ≤ r.doc.text.length)
    (h : r.doc.text.lexemeAt q = word) (hword : 1 ≤ word.length) : r.ReadsAs q word := by
  have hread : r.doc.text.readLexeme q = .ok word := by
    unfold readLexeme
    rw [checkStart_of_mem h₀ h₁, h]
    rfl
  refine ⟨h, ?_, ?_⟩
  · unfold offsetAt?
    rw [hread]
    rfl
  · unfold Request.hangs
    by_cases hfirst : r.doc.isFirstOnLine q = true
    · rw [if_pos hfirst, if_pos (.inl hfirst)]
      rfl
    · rw [if_neg hfirst, hread, ok_bind]
      by_cases hdont : word ∈ r.settings.dontHang
      · rw [if_pos hdont, if_pos (.inr hdont)]
        rfl
      · rw [if_neg hdont, if_neg (by simp [hfirst, hdont]),
          show max (word.length : Int) 1 = word.length by omega]
        rfl

/-- The only keyword of one character that opens a block is the brace. -/
theorem brace_of_keywordOffset?
    (htable : r.settings.keywordOffsets = ({} : Settings).keywordOffsets)
    (h : (r.settings.keywordOffset? word).isSome) : word = "\x7b" ∨ 2 ≤ word.length := by
  unfold Settings.keywordOffset? at h
  rw [htable] at h
  obtain ⟨pair, hmem, hword⟩ := List.lookup_isSome_iff.mp h
  rw [beq_iff_eq] at hword
  subst hword
  clear h
  revert pair
  decide

/-- Two braces open no block. -/
theorem keywordOffset?_braces
    (htable : r.settings.keywordOffsets = ({} : Settings).keywordOffsets) :
    r.settings.keywordOffset? "\x7b\x7b" = none := by
  unfold Settings.keywordOffset?
  rw [htable]
  decide

/-- What stands behind a keyword is no part of a name and no closing bracket, and an opening bracket
only if it is the brace of a comment. -/
theorem char_behind {c : Char} {p : Int} (h₀ : 0 ≤ start) (hle : start ≤ r.doc.indentationPoint pos)
    (h : r.doc.skipGapBack (r.doc.indentationPoint pos) start = .ok p) (hlt : start < p)
    (hc : r.doc.text.charAt? p = some c) :
    isNameChar c = false ∧ isClosing c = false ∧
      (isOpening c = false ∨
        (c = '\x7b' ∧ r.doc.text.charAt? (p + 1) = some '-' ∧ r.doc.commentAt p = .ok true)) := by
  obtain ⟨-, hgap | hcomment⟩ := gap_or_comment_behind h₀ hle h hlt
  · rcases char_of_gap (by omega) hgap hc with rfl | rfl | rfl | rfl
      <;> exact ⟨by decide, by decide, .inl (by decide)⟩
  · rcases char_of_commentAt (by omega) hcomment with hdash | ⟨hbrace, hdash, hcomment⟩
    · rw [hc] at hdash
      cases hdash
      exact ⟨by decide, by decide, .inl (by decide)⟩
    · rw [hc] at hbrace
      cases hbrace
      exact ⟨by decide, by decide, .inr ⟨rfl, hdash, hcomment⟩⟩

/-- The keyword before the code of a line, with the keywords of the default table. When one is found
at `q`, a word of the table is written there and ends before that code. Read from in front it is the
same word, with its offsets, and whether it hangs is told by what follows right behind it; except
for a brace with another one right behind it. That one starts a comment. The two are then read as
one lexeme, which has no offsets, and whether the brace hangs is told by what follows inside the
comment. -/
theorem keywordBefore?_reads (htable : r.settings.keywordOffsets = ({} : Settings).keywordOffsets)
    (h₀ : 0 ≤ start) (hle : start ≤ r.doc.indentationPoint pos) :
    Yields (r.keywordBefore? start (r.doc.indentationPoint pos)) fun found => ∀ q ∈ found, ∃ word,
      (r.settings.keywordOffset? word).isSome ∧
      (r.doc.text.slice q (q + word.length)).toString = word ∧
      start ≤ q ∧ q + word.length < r.doc.indentationPoint pos ∧
      if word = "\x7b" ∧ r.doc.text.charAt? (q + 1) = some '\x7b' then
        r.doc.commentAt (q + 1) = .ok true ∧ r.ReadsAs q "\x7b\x7b" ∧
        r.settings.keywordOffset? "\x7b\x7b" = none
      else r.ReadsAs q word := by
  have h₁ := r.doc.indentationPoint_le_length pos
  obtain ⟨found, hfound, -⟩ := keywordBefore?_yields (r := r) h₀ h₁
  refine ⟨found, hfound, fun q hq => ?_⟩
  obtain rfl : found = some q := hq
  obtain ⟨p, hp, hstart, hlt, hstop, hsome, hchars⟩ := keywordBefore?_word h₀ h₁ hfound
  have hbehind := (gap_or_comment_behind h₀ hle hp (by omega)).1
  have hchar : ∀ c, r.doc.text.charAt? p = some c → _ := fun c => char_behind h₀ hle hp (by omega)
  have hlen : ((r.doc.text.slice q p).toString.length : Int) = p - q :=
    length_slice (by omega) (by omega) (by omega)
  refine ⟨(r.doc.text.slice q p).toString, hsome, ?_, hstart, by omega, ?_⟩
  · rw [hlen, show q + (p - q) = p by omega]
  rcases hchars with hname | ⟨rfl, c, hc, hsign⟩
  · -- a name starts with no brace
    rw [if_neg]
    · refine .of_lexemeAt (by omega) (by omega) ?_ (by omega)
      exact lexemeAt_name (by omega) hlt (by omega) hname fun c hc => (hchar c hc).1
    · rintro ⟨hword, -⟩
      obtain ⟨c, hc, hnamed⟩ := hname q (by omega) hlt
      have hhead := toList_slice (by omega) hlt (by omega) hc
      rw [hword, show "\x7b".toList = ['\x7b'] from rfl] at hhead
      obtain rfl : '\x7b' = c := (List.cons.inj hhead).1
      revert hnamed
      decide
  · have hword : (r.doc.text.slice q (q + 1)).toString = "\x7b" :=
      (brace_of_keywordOffset? htable hsome).resolve_right (by omega)
    have hbrace : r.doc.text.charAt? q = some '\x7b' := by
      have hhead := toList_slice (by omega) hlt (by omega) hc
      rw [hword, show "\x7b".toList = ['\x7b'] from rfl] at hhead
      rw [hc, ← (List.cons.inj hhead).1]
    by_cases hnext : r.doc.text.charAt? (q + 1) = some '\x7b'
    · rw [if_pos ⟨hword, hnext⟩]
      obtain ⟨-, -, hopening | ⟨-, hdash, hcomment⟩⟩ := hchar _ hnext
      · exact absurd hopening (by decide)
      refine ⟨hcomment, ?_, keywordOffset?_braces htable⟩
      have hend := lt_length_of_charAt? (by omega) hdash
      have htwo : (r.doc.text.slice q (q + 2)).toString = "\x7b\x7b" := by
        apply String.toList_injective
        rw [toList_slice (by omega) (by omega) (by omega) hbrace,
          toList_slice (by omega) (by omega) (by omega) hnext,
          show q + 1 + 1 = q + 2 by omega, toList_slice_self]
        rfl
      refine .of_lexemeAt (by omega) (by omega) ?_ (by decide)
      rw [← htwo]
      refine lexemeAt_braces (by omega) (by omega) (by omega) (fun k hk hkq => ?_) fun c hc => ?_
      · rcases Int.lt_or_le q k with hgt | hge
        · rw [show k = q + 1 by omega]
          exact hnext
        · rw [show k = q by omega]
          exact hbrace
      · rw [show q + 2 = q + 1 + 1 by omega, hdash] at hc
        cases hc
        decide
    · rw [if_neg fun h => hnext h.2, hword]
      refine .of_lexemeAt (by omega) (by omega) ?_ (by decide)
      rw [← hword]
      refine lexemeAt_braces (by omega) hlt (by omega) (fun k hk hkq => ?_) fun c hc => ?_
      · rw [show k = q by omega]
        exact hbrace
      · obtain ⟨-, hclosing, hopening | ⟨rfl, -⟩⟩ := hchar c hc
        · exact ⟨hopening, hclosing⟩
        · exact absurd hc hnext

/-- A request for a text, without answers to nested ones. -/
def ofText (text : String) : Request :=
  ⟨.new (Text.ofString text) .plain 8, {}, false, fun _ _ _ => pure []⟩

/-- The `do` that ends the first line opens the block on the second. -/
theorem keywordBefore?_reads_do :
    let r := ofText "f = do\n  x\n"
    r.doc.indentationPoint 7 = 9 ∧ r.keywordBefore? 0 9 = .ok (some 4) ∧ r.ReadsAs 4 "do" ∧
    r.hangs 4 = .ok true := by
  intro r
  have hpoint : r.doc.indentationPoint 7 = 9 := by decide +kernel
  have hfound : r.keywordBefore? 0 9 = .ok (some 4) := by decide +kernel
  have hlexeme : r.doc.text.lexemeAt 4 = "do" := by decide +kernel
  have hreads : Yields (r.keywordBefore? 0 (r.doc.indentationPoint 7)) _ :=
    keywordBefore?_reads rfl (by decide) (r.doc.indentationPoint_nonneg 7)
  rw [hpoint] at hreads
  obtain ⟨word, -, -, -, -, hword⟩ := hreads.of_eq hfound 4 rfl
  rw [if_neg fun h => absurd h.2 (by decide +kernel)] at hword
  obtain rfl : "do" = word := hlexeme.symm.trans hword.lexeme
  exact ⟨hpoint, hfound, hword, by decide +kernel⟩

/-- A brace is found before a line, but the comment behind it makes it two braces when it is read
again: it loses its offset, and no longer hangs although nothing but the comment follows it. -/
theorem brace_read_with_comment :
    let r := ofText "f = R \x7b\x7b- c -\x7d\n  x\n"
    r.doc.indentationPoint 15 = 17 ∧ r.doc.definitionStart r.settings 17 = .ok 0 ∧
      r.keywordBefore? 0 17 = .ok (some 6) ∧ (r.doc.text.slice 6 7).toString = "\x7b" ∧
      r.settings.keywordOffset? "\x7b" = some ⟨some 2, none⟩ ∧ r.endsLine 6 7 = .ok true ∧
      r.doc.text.lexemeAt 6 = "\x7b\x7b" ∧ r.offsetAt? 6 = .ok none ∧ r.hangs 6 = .ok false := by
  decide +kernel

end Request

end LayoutRule
