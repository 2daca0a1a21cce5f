import LayoutRule.Editing.TabCycle
import LayoutRule.Proofs.Request.Candidates
import LayoutRule.Proofs.Text.Splitting

/-!
# What applying a candidate does to the text

Applying a candidate puts the line's new indentation and the candidate's text where the old
indentation and the text of an earlier candidate were, and nothing else changes
(`applyCandidate_text`).

`Document.Standing` describes a line of code on which a candidate was applied: the marker, blanks,
the text that was put in, and the code that was there before. Every line of code stands so with no
text put in (`standing_of_code`), and applying a candidate to such a line changes its blanks and its
text only (`Standing.applyCandidate`).
-/

namespace LayoutRule

namespace Document

open Text

variable {d : Document} {pos column : Int}

/-! ## Edits -/

/-- Indenting a line exchanges its indentation. -/
theorem indentLine_text (d : Document) (pos column : Int) :
    (d.indentLine pos column).1.text =
      d.text.takeTo (d.text.lineStart pos) ++ d.leadFor (d.text.lineStart pos) column ++
      d.text.dropTo (d.indentationPoint pos) := by
  have hstart := d.text.bound_lineStart pos
  have hpoint : (d.text.bound (d.indentationPoint pos) : Int) = d.indentationPoint pos :=
    bound_of_mem (d.indentationPoint_nonneg pos) (d.indentationPoint_le_length pos)
  have hle := d.lineStart_le_indentationPoint pos
  unfold indentLine
  simp only
  split
  · next hsame => rw [← hsame, takeTo_append_slice (by omega), takeTo_append_dropTo]
  · rfl

/-- Indenting a line gives the place behind the new lead of the line. -/
theorem indentLine_point (d : Document) (pos column : Int) :
    (d.indentLine pos column).2 =
      d.text.lineStart pos + (d.leadFor (d.text.lineStart pos) column).length := by
  unfold indentLine
  simp only
  split
  · rfl
  · rfl

/-- Text that is put in between two parts stands between them. -/
theorem insertText_text {a b : Text} (h : d.text = a ++ b) (new : Text) :
    (d.insertText a.length new).text = a ++ new ++ b := by
  show d.text.takeTo a.length ++ new ++ d.text.dropTo a.length = _
  rw [h, takeTo_append, dropTo_append_self]

/-- Taking characters out behind the first part leaves the rest of the second part. -/
theorem deleteText_text {a b : Text} {count : Nat} (h : d.text = a ++ b)
    (hcount : count ≤ b.length) : (d.deleteText a.length count).text = a ++ b.dropTo count := by
  show d.text.takeTo a.length ++ ofString "" ++ d.text.dropTo
    (min d.text.length (a.length + count)) = _
  rw [Int.min_eq_right (by rw [h, length_append]; omega), h, takeTo_append, dropTo_append,
    append_ofString_empty]

/-- Applying a candidate exchanges the indentation of the line, and the `removed` characters after
it for the text of the candidate. -/
theorem applyCandidate_text {removed : Nat} (c : Candidate)
    (h : d.indentationPoint pos + removed ≤ d.text.length) :
    (d.applyCandidate pos c removed).1.text =
      d.text.takeTo (d.text.lineStart pos) ++ d.leadFor (d.text.lineStart pos) c.column ++
        ofString (c.insert.getD "") ++ d.text.dropTo (d.indentationPoint pos + removed) := by
  have hstart := d.text.lineStart_nonneg pos
  have hpoint := d.indentationPoint_nonneg pos
  have htake := length_takeTo hstart (d.text.lineStart_le_length pos)
  have htext := d.indentLine_text pos c.column
  have hat : (d.indentLine pos c.column).2 =
      (d.text.takeTo (d.text.lineStart pos) ++ d.leadFor
        (d.text.lineStart pos) c.column).length := by
    rw [d.indentLine_point pos c.column, length_append, htake]
  generalize hlead :
    d.text.takeTo (d.text.lineStart pos) ++ d.leadFor (d.text.lineStart pos) c.column = lead at *
  -- the text that an earlier candidate had put in goes out first
  have hremoved : (if (removed : Int) = 0 then (d.indentLine pos c.column).1 else
      (d.indentLine pos c.column).1.deleteText (d.indentLine pos c.column).2 removed).text =
        lead ++ d.text.dropTo (d.indentationPoint pos + removed) := by
    split
    · next hzero => rw [htext, hzero, Int.add_zero]
    · rw [hat, deleteText_text htext (by rw [length_dropTo hpoint (by omega)]; omega),
        dropTo_dropTo hpoint h]
  unfold applyCandidate
  simp only
  split
  · next text htext' =>
    rw [htext']
    split
    · next hempty =>
      rw [hremoved, String.isEmpty_iff.mp hempty]
      simp
    · rw [hat, insertText_text (hat ▸ hremoved)]
      rfl
  · next hnone =>
    rw [hremoved, hnone]
    simp

/-! ## Versions -/

/-- A document after edits: style and tab stops stay, and a version that stays means that the text
did. -/
structure Edited (d d' : Document) : Prop where
  /-- The style stays. -/
  style : d'.style = d.style
  /-- The versions are counted up. -/
  version_le : d.version ≤ d'.version
  /-- Without a new version the text is the same. -/
  text : d'.version = d.version → d'.text = d.text

namespace Edited

variable {d' d'' : Document}

/-- A document is an edited one of its own, without an edit. -/
theorem refl (d : Document) : d.Edited d := ⟨rfl, Nat.le_refl _, fun _ => rfl⟩

/-- Edits in a row are edits of the first document. -/
theorem trans (h₁ : d.Edited d') (h₂ : d'.Edited d'') : d.Edited d'' := by
  have hle₁ := h₁.version_le
  have hle₂ := h₂.version_le
  refine ⟨h₂.style.trans h₁.style, by omega, fun hv => ?_⟩
  exact (h₂.text (by omega)).trans (h₁.text (by omega))

/-- Replacing a stretch of the text is an edit. -/
theorem replaceRange (d : Document) (start stop : Int) (new : Text) :
    d.Edited (d.replaceRange start stop new) := by
  have hversion : (d.replaceRange start stop new).version = d.version + 1 := rfl
  exact ⟨rfl, by omega, by omega⟩

/-- Setting a new text is an edit. -/
theorem setText (d : Document) (new : Text) : d.Edited (d.setText new) := by
  unfold Document.setText
  split
  · exact refl d
  · exact ⟨rfl, Nat.le_succ _, fun hv => absurd hv (Nat.succ_ne_self _)⟩

/-- Indenting a line is an edit. -/
theorem indentLine (d : Document) (pos column : Int) : d.Edited (d.indentLine pos column).1 := by
  unfold Document.indentLine
  simp only
  split
  · exact refl d
  · exact replaceRange d _ _ _

/-- Applying a candidate is an edit, or several in a row. -/
theorem applyCandidate (d : Document) (pos : Int) (c : Candidate) (removed : Int) :
    d.Edited (d.applyCandidate pos c removed).1 := by
  have hremoved : d.Edited (if removed = 0 then (d.indentLine pos c.column).1 else
      (d.indentLine pos c.column).1.deleteText (d.indentLine pos c.column).2 removed) := by
    split
    · exact indentLine d pos c.column
    · exact (indentLine d pos c.column).trans (replaceRange _ _ _ _)
  unfold Document.applyCandidate
  simp only
  split
  · split
    · exact hremoved
    · exact hremoved.trans (replaceRange _ _ _ _)
  · exact hremoved

end Edited

/-- Text that is put in makes a new version. -/
theorem version_lt_of_insert (pos : Int) (removed : Int) {c : Candidate}
    (h : c.insert.getD "" ≠ "") : d.version < (d.applyCandidate pos c removed).1.version := by
  obtain ⟨text, htext⟩ : ∃ text, c.insert = some text := by
    cases hi : c.insert with
    | none =>
      rw [hi] at h
      exact absurd rfl h
    | some text => exact ⟨text, rfl⟩
  rw [htext] at h
  have hempty : text.isEmpty = false := by
    cases he : text.isEmpty with
    | false => rfl
    | true => exact absurd (String.isEmpty_iff.mp he) h
  have hle := (Edited.applyCandidate d pos { c with insert := none } removed).version_le
  unfold applyCandidate at hle ⊢
  rw [htext]
  simp only [hempty] at hle ⊢
  exact Nat.lt_succ_of_le hle

/-! ## Lines of code -/

/-- The marker of a line of code. -/
def mark (d : Document) : Text := if d.bird then ⟨#['>']⟩ else ofString ""

/-- The blanks of a line of code that is indented to a column. -/
def blanksTo (d : Document) (column : Int) : Text :=
  Text.replicate (if d.bird then column - 1 else column).toNat ' '

/-- The mark of literate lines stays the same in all edits, because the style does. -/
theorem mark_eq_of_edited {d' : Document} (h : d.Edited d') : d'.mark = d.mark := by
  unfold mark bird
  rw [h.style]

/-- What leads up to a column are blanks and nothing else. -/
theorem mem_blanksTo {x : Char} (h : x ∈ (d.blanksTo column).chars) : x = ' ' := by
  simp only [blanksTo, Text.replicate] at h
  exact (Array.mem_replicate.mp h).2

/-- A line of code: the marker, blanks, a text that was put in, and code. -/
structure Standing (d : Document) (before blanks : Text) (put : String) (code after : Text) :
    Prop where
  /-- The text is cut around the line. -/
  cut : d.text.Cut before (d.mark ++ blanks ++ ofString put ++ code) after
  /-- The blanks are blanks. -/
  blanks : ∀ c ∈ blanks.chars, isBlank c = true
  /-- The text put in is one of the rules' texts, or there is none. -/
  put : put = "" ∨ IsInsert put
  /-- The code does not start with a blank. -/
  code : ∀ c, code.chars[0]? = some c → isBlank c = false

/-- A text of the rules does not start with a blank, and has no newline. -/
theorem chars_of_isInsert {text : String} (h : IsInsert text) :
    (∃ c rest, text.toList = c :: rest ∧ isBlank c = false) ∧ ∀ c ∈ text.toList, c ≠ '\n' := by
  rcases h with rfl | ⟨name, ⟨c, rest, hname, hstart, hrest⟩, rfl⟩
  · exact ⟨⟨'|', [' '], rfl, rfl⟩, by simp⟩
  · have hword : ∀ x, isNameStart x = true → x ≠ ' ' ∧ x ≠ '\t' ∧ x ≠ '\n' := by
      intro x hx
      refine ⟨?_, ?_, ?_⟩
      all_goals
        rintro rfl
        exact absurd hx (by decide)
    constructor
    · refine ⟨c, rest ++ [' '], by simp [hname], ?_⟩
      simp [isBlank, hword c hstart]
    · intro x hx
      simp only [String.toList_append, hname, List.cons_append, List.mem_cons, List.mem_append]
        at hx
      rcases hx with rfl | hx | hx
      · exact (hword x hstart).2.2
      · rintro rfl
        exact absurd (hrest _ hx) (by decide)
      · rintro rfl
        exact absurd hx (by decide)

namespace Standing

variable {before blanks code after : Text} {put : String}

/-- The text of a document on whose line a candidate was applied, part by part. -/
theorem text_eq (h : d.Standing before blanks put code after) :
    d.text = before ++ d.mark ++ blanks ++ (ofString put ++ code ++ after) := by
  rw [h.cut.eq]
  simp only [append_assoc]

/-- What follows the blanks is not a blank. -/
theorem not_isBlank (h : d.Standing before blanks put code after) {c : Char}
    (hc : (ofString put ++ code ++ after).chars[0]? = some c) : isBlank c = false := by
  rcases h.put with rfl | hput
  · rw [ofString_empty_append] at hc
    rcases hcode : code.chars[0]? with _ | x
    · have hafter : after.chars[0]? = some c := by
        simp only [chars_append] at hc
        grind
      rw [h.cut.after c hafter]
      rfl
    · have : x = c := by
        simp only [chars_append] at hc
        grind
      rw [← this]
      exact h.code x hcode
  · obtain ⟨⟨x, rest, htext, hx⟩, -⟩ := chars_of_isInsert hput
    have : x = c := by
      simp only [chars_append, ofString, htext] at hc
      grind
    rw [← this]
    exact hx

/-- Exactly in a Bird script the line is marked. -/
theorem isMarked_eq (h : d.Standing before blanks put code after) :
    d.isMarked before.length = d.bird := by
  unfold isMarked
  cases hb : d.bird with
  | false => rfl
  | true =>
    have hmark : d.text.charAt? before.length = some '>' := by
      rw [Text.charAt?_eq before.length_nonneg, h.text_eq, mark, hb, append_assoc, append_assoc]
      simp only [chars_append, length, Int.toNat_natCast, if_true]
      rw [Array.getElem?_append_right (Nat.le_refl _), Nat.sub_self,
        Array.getElem?_append_left (by decide)]
      rfl
    rw [hmark]
    rfl

/-- The code of the line may start behind its marker. -/
theorem codeOrigin_eq (h : d.Standing before blanks put code after) :
    d.codeOrigin before.length = before.length + d.mark.length := by
  have hmarked := h.isMarked_eq
  unfold isMarked at hmarked
  unfold codeOrigin mark
  rw [hmarked]
  split
  · rfl
  · simp [length, ofString]

/-- The indentation of the line ends after the marker and the blanks. -/
theorem indentationPoint_eq (h : d.Standing before blanks put code after)
    (hpos : d.text.lineStart pos = before.length) :
    d.indentationPoint pos = before.length + d.mark.length + blanks.length := by
  unfold indentationPoint
  rw [hpos, h.codeOrigin_eq, ← length_append]
  show (d.text.runStop isBlank (before ++ d.mark).chars.size : Int) = _
  rw [h.text_eq, runStop_append _ h.blanks fun x hx => h.not_isBlank hx]
  simp only [length, Int.natCast_add]

/-- The lead for a column is the marker of the line and the blanks up to the column. -/
theorem leadFor_eq (h : d.Standing before blanks put code after) (column : Int) :
    d.leadFor before.length column = d.mark ++ d.blanksTo column := by
  unfold leadFor mark blanksTo
  rw [h.isMarked_eq]
  cases d.bird <;> simp

/-- Applying a candidate to the line, after what was put in is taken out. -/
theorem applyCandidate (h : d.Standing before blanks put code after)
    (hpos : d.text.lineStart pos = before.length) {c : Candidate}
    (hc : ∀ text ∈ c.insert, IsInsert text) :
    (d.applyCandidate pos c put.length).1.Standing before (d.blanksTo c.column)
      (c.insert.getD "") code after := by
  have htext := h.text_eq
  have hline := h.cut.line
  have hput : c.insert.getD "" = "" ∨ IsInsert (c.insert.getD "") := by
    cases hi : c.insert with
    | none => exact .inl rfl
    | some text => exact .inr (hc text hi)
  have hmark : (d.applyCandidate pos c put.length).1.mark = d.mark :=
    mark_eq_of_edited (Edited.applyCandidate d pos c put.length)
  have hend : d.indentationPoint pos + put.length =
      (before ++ d.mark ++ blanks ++ ofString put).length := by
    rw [h.indentationPoint_eq hpos]
    simp only [length_append, length_ofString]
  have hdrop : d.text.dropTo (d.indentationPoint pos + put.length) = code ++ after := by
    rw [hend, htext, append_assoc (ofString put), ← append_assoc _ (ofString put),
      dropTo_append_self]
  have htake : d.text.takeTo before.length = before := by
    rw [htext, append_assoc, append_assoc, takeTo_append]
  refine ⟨⟨?_, h.cut.before, ?_, h.cut.after⟩, ?_, hput, h.code⟩
  · rw [applyCandidate_text c ?_, hpos, htake, h.leadFor_eq, hdrop, hmark]
    · simp only [append_assoc]
    · rw [hend, htext]
      have := (code ++ after).length_nonneg
      simp only [length_append, length_ofString] at this ⊢
      omega
  · rw [hmark]
    intro x hx
    simp only [chars_append, Array.mem_append] at hx hline
    rcases hx with ((hx | hx) | hx) | hx
    · exact hline x (.inl (.inl (.inl hx)))
    · rw [(mem_blanksTo hx)]
      decide
    · rcases hput with hput | hput
      · rw [hput] at hx
        exact absurd hx (by simp [ofString])
      · exact (chars_of_isInsert hput).2 x (by simpa [ofString] using hx)
    · exact hline x (.inr hx)
  · intro x hx
    rw [mem_blanksTo hx]
    rfl

/-- The parts of the text around and in the line. -/
theorem parts (h : d.Standing before blanks put code after)
    (hpos : d.text.lineStart pos = before.length) :
    d.text.takeTo (d.text.lineStart pos) = before ∧
      d.text.slice (d.text.lineStart pos) (d.indentationPoint pos) = d.mark ++ blanks ∧
      d.text.dropTo (d.text.lineStop pos) = after := by
  have htext := h.text_eq
  refine ⟨?_, ?_, ?_⟩
  · rw [hpos, htext, append_assoc, append_assoc, takeTo_append]
  · rw [h.indentationPoint_eq hpos, hpos, Int.add_assoc, ← length_append, htext,
      append_assoc before, slice_append]
  · rw [h.cut.lineStop_eq hpos, ← length_append]
    rw [h.cut.eq]
    exact dropTo_append_self _ _

end Standing

/-- In a Bird script a line of code has the marker. -/
theorem isMarked_of_code (hprose : d.isProse pos = false) :
    d.isMarked (d.text.lineStart pos) = d.bird := by
  unfold isProse isCodeLine at hprose
  unfold isMarked bird
  cases hs : d.style with
  | plain => rfl
  | latex => rfl
  | bird =>
    rw [hs] at hprose
    simpa using hprose

/-- Between the start of a line of code and the place where its code may start, there is the
marker. -/
theorem slice_codeOrigin (hprose : d.isProse pos = false) :
    d.text.slice (d.text.lineStart pos) (d.codeOrigin (d.text.lineStart pos)) = d.mark := by
  have hmarked := isMarked_of_code hprose
  have hstart := d.text.bound_lineStart pos
  unfold isMarked at hmarked
  unfold codeOrigin mark
  rw [hmarked]
  cases hb : d.bird with
  | false => exact ext_chars (Array.extract_empty_of_stop_le_start (Nat.le_refl _))
  | true =>
    rw [hb] at hmarked
    have hget : d.text.chars[d.text.bound (d.text.lineStart pos)]? = some '>' := by
      rw [Text.charAt?_eq (d.text.lineStart_nonneg pos)] at hmarked
      rw [show d.text.bound (d.text.lineStart pos) = (d.text.lineStart pos).toNat by omega]
      simpa using hmarked
    have hlt := (Array.getElem?_eq_some_iff.mp hget).1
    have hnext : d.text.bound (d.text.lineStart pos + 1) =
        d.text.bound (d.text.lineStart pos) + 1 := by
      have := bound_of_mem (t := d.text) (i := d.text.lineStart pos + 1) (by omega)
        (by unfold length; omega)
      omega
    refine ext_chars (Array.ext_getElem? fun i => ?_)
    simp only [slice, if_true, hnext, Array.getElem?_extract]
    cases i with
    | zero =>
      rw [if_pos (by omega), Nat.add_zero, hget]
      rfl
    | succ i =>
      rw [if_neg (by omega)]
      rfl

/-- Every line of code stands with nothing put in. -/
theorem standing_of_code (hprose : d.isProse pos = false) :
    ∃ blanks, d.mark ++ blanks = d.text.slice (d.text.lineStart pos) (d.indentationPoint pos) ∧
      d.Standing (d.text.takeTo (d.text.lineStart pos)) blanks ""
        (d.text.slice (d.indentationPoint pos) (d.text.lineStop pos))
        (d.text.dropTo (d.text.lineStop pos)) := by
  have hstart := d.text.bound_lineStart pos
  have hstop := d.text.bound_lineStop pos
  have hlen := d.text.lineStop_le_length pos
  have hnonneg := d.text.lineStart_nonneg pos
  have hle₀ := (d.codeOrigin_bounds pos).1
  obtain ⟨hle₁, hle₂⟩ := d.indentationPoint_bounds pos
  have hpoint := bound_of_mem (t := d.text) (d.indentationPoint_nonneg pos) (by omega)
  have horigin := bound_of_mem (t := d.text) (i := d.codeOrigin (d.text.lineStart pos)) (by omega)
    (by omega)
  have hlead : d.mark ++ d.text.slice (d.codeOrigin (d.text.lineStart pos))
      (d.indentationPoint pos) = d.text.slice (d.text.lineStart pos) (d.indentationPoint pos) := by
    rw [← slice_codeOrigin hprose]
    exact slice_append_slice (by omega) (by omega)
  refine ⟨_, hlead, ?_, ?_, .inl rfl, ?_⟩
  · rw [hlead, append_ofString_empty, slice_append_slice (by omega) (by omega)]
    exact d.text.cut_line pos
  · intro c hc
    obtain ⟨k, h₁, h₂, hk⟩ := mem_slice hc
    obtain ⟨c', hc', hblank⟩ := char_of_lt_runStop (t := d.text) (p := isBlank) (i := k)
      (k := (d.codeOrigin (d.text.lineStart pos)).toNat) (by omega)
      (by unfold indentationPoint at hpoint h₂; omega)
    rw [hk] at hc'
    cases hc'
    exact hblank
  · intro c hc
    obtain ⟨hlt, hget⟩ := slice_first hc
    obtain ⟨c', hc', hblank⟩ := exists_char_indentationPoint (d := d) pos (by omega)
    rw [Text.charAt?_eq (d.indentationPoint_nonneg pos)] at hc'
    rw [show d.text.bound (d.indentationPoint pos) = (d.indentationPoint pos).toNat by omega, hc']
      at hget
    cases hget
    exact hblank

/-! ## The parts of a line -/

variable {before blanks code after : Text}

/-- A position behind the first of two texts reads the second one. -/
theorem charAt?_append (a b : Text) (i : Nat) : (a ++ b).charAt? (a.length + i) = b.chars[i]? := by
  rw [Text.charAt?_eq (by have := a.length_nonneg; omega)]
  simp only [chars_append, length]
  rw [Array.getElem?_append_right (by omega)]
  congr 1
  omega

/-- A line that ends without a newline is the last one. -/
theorem lineStop_eq_length {t : Text} (h : t.charAt? (t.lineStop pos) = none) :
    t.lineStop pos = t.length := by
  have hle := t.lineStop_le_length pos
  have hnonneg := t.lineStart_nonneg pos
  have hstart := t.lineStart_le_lineStop pos
  rw [Text.charAt?_eq (by omega)] at h
  have hsize := Array.getElem?_eq_none_iff.mp h
  unfold length at *
  omega

namespace Standing

/-- The line ends with its code. -/
theorem lineStop_eq (h : d.Standing before blanks "" code after) :
    d.text.lineStop before.length = d.indentationPoint before.length + code.length := by
  rw [h.cut.lineStop_eq h.cut.lineStart_eq, h.indentationPoint_eq h.cut.lineStart_eq]
  simp only [append_ofString_empty, length_append]
  omega

/-- What follows the indentation is the code, and what stands after the line. -/
theorem charAt?_point (h : d.Standing before blanks "" code after) (i : Nat) :
    d.text.charAt? (d.indentationPoint before.length + i) = (code ++ after).chars[i]? := by
  rw [h.indentationPoint_eq h.cut.lineStart_eq, ← length_append, ← length_append, h.text_eq,
    charAt?_append, ofString_empty_append]

/-- Behind the line there is what stands after it. -/
theorem charAt?_behind (h : d.Standing before blanks "" code after) (i : Nat) :
    d.text.charAt? (d.text.lineStop before.length + i) = after.chars[i]? := by
  rw [h.cut.lineStop_eq h.cut.lineStart_eq, ← length_append, h.cut.eq, charAt?_append]

/-- Behind the code of the line comes the newline, or nothing on the last line. -/
theorem charAt?_lineStop (h : d.Standing before blanks "" code after) :
    d.text.charAt? (d.text.lineStop before.length) = after.chars[0]? := by
  have hbehind := h.charAt?_behind 0
  rwa [Int.natCast_zero, Int.add_zero] at hbehind

end Standing

/-- A line of code in a cut text, by its parts. -/
theorem standing_of_cut {line : Text} (hcut : d.text.Cut before line after)
    (hpos : d.text.lineStart pos = before.length) (hprose : d.isProse pos = false) :
    ∃ blanks code, line = d.mark ++ blanks ++ ofString "" ++ code ∧
      d.Standing before blanks "" code after := by
  obtain ⟨blanks, -, hstanding⟩ := standing_of_code hprose
  have hbefore : d.text.takeTo (d.text.lineStart pos) = before := by
    rw [hpos, hcut.eq, append_assoc, takeTo_append]
  have hafter : d.text.dropTo (d.text.lineStop pos) = after := by
    rw [hcut.lineStop_eq hpos, ← length_append, hcut.eq, dropTo_append_self]
  rw [hbefore, hafter] at hstanding
  exact ⟨blanks, _, hcut.line_eq hstanding.cut, hstanding⟩

end Document

end LayoutRule
