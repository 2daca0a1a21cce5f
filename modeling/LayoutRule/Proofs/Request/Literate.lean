import LayoutRule.Proofs.Editing.Standing
import LayoutRule.Proofs.Parallel.Candidates

/-!
# Literate scripts are plain scripts shifted by two columns

A Bird script in which every line is marked has the code of the plain script without the markers,
two columns further to the right. The requests for a line of the two scripts find the same
candidates up to these two columns (`candidatesOfLine_marked`), as long as the text has no tabs and
no offset of the settings leads to the left.
-/

namespace LayoutRule

namespace Text

variable {t u : Text}

/-! ## Marked texts -/

/-- The text with a marker and a blank behind each newline. -/
def markBelow (t : Text) : Text :=
  ⟨(t.chars.toList.flatMap fun c => if c = '\n' then ['\n', '>', ' '] else [c]).toArray⟩

/-- The text with a marker and a blank in front of every line. -/
def marked (t : Text) : Text := ofString "> " ++ t.markBelow

/-- Marking the lines of a text can be done part by part. -/
theorem markBelow_append (t u : Text) : (t ++ u).markBelow = t.markBelow ++ u.markBelow :=
  ext_chars (by simp [markBelow])

/-- A line has no newline that could be marked. -/
theorem markBelow_eq_self (h : ∀ c ∈ t.chars, c ≠ '\n') : t.markBelow = t := by
  have hsingle : ∀ l : List Char, (∀ c ∈ l, c ≠ '\n') →
      l.flatMap (fun c => if c = '\n' then ['\n', '>', ' '] else [c]) = l := by
    intro l hl
    induction l with
    | nil => rfl
    | cons c l ih =>
      rw [List.flatMap_cons, if_neg (hl c (by simp)), ih fun x hx => hl x (by simp [hx])]
      rfl
  refine ext_chars ?_
  unfold markBelow
  rw [hsingle _ fun c hc => h c (by simpa using hc)]

/-- Behind a newline a marker is put in. -/
theorem markBelow_newline : (ofString "\n").markBelow = ofString "\n" ++ ofString "> " := rfl

/-- Marking keeps the first character. -/
theorem markBelow_first (t : Text) : t.markBelow.chars[0]? = t.chars[0]? := by
  unfold markBelow
  rw [List.getElem?_toArray, ← Array.getElem?_toList]
  cases t.chars.toList with
  | nil => rfl
  | cons c l =>
    rw [List.flatMap_cons]
    split
    · next h => simp [h]
    · rfl

/-- A marked text has no tabs but those of the text. -/
theorem tab_notMem_marked (h : '\t' ∉ t.chars) : '\t' ∉ t.marked.chars := by
  unfold marked markBelow
  simp only [chars_append, Array.mem_append, List.mem_toArray, List.mem_flatMap, not_or, not_exists,
    not_and]
  refine ⟨by simp [ofString], fun c hc => ?_⟩
  split
  · decide
  · rw [List.mem_singleton]
    rintro rfl
    exact h (by simpa using hc)

/-- A line of a text and the same line of the marked text. -/
structure MarkedLine (t before line after above : Text) : Prop where
  /-- The text is cut around the line. -/
  cut : t.Cut before line after
  /-- The marked text is cut around the marked line. -/
  marked : t.marked.Cut above (ofString "> " ++ line) after.markBelow

/-- The line that starts behind a part of the text that ends with a newline. -/
theorem exists_markedLine {before rest above : Text} (heq : t = before ++ rest)
    (hmarked : t.marked = above ++ ofString "> " ++ rest.markBelow)
    (hbefore : ∀ c, before.chars.back? = some c → c = '\n')
    (habove : ∀ c, above.chars.back? = some c → c = '\n') :
    ∃ line after, t.MarkedLine before line after above := by
  have hstart : t.lineStart before.length = before.length := by
    rw [heq]
    exact lineStart_append hbefore
  have hcut := t.cut_line before.length
  have htake : t.takeTo before.length = before := by rw [heq, takeTo_append]
  have hdrop : t.dropTo before.length = rest := by rw [heq, dropTo_append_self]
  rw [hstart, htake] at hcut
  generalize t.slice before.length (t.lineStop before.length) = line at hcut
  generalize t.dropTo (t.lineStop before.length) = after at hcut
  have hrest : rest = line ++ after := by
    rw [← hdrop, hcut.eq, append_assoc, dropTo_append_self]
  refine ⟨line, after, hcut, ?_, habove, ?_, ?_⟩
  · rw [hmarked, hrest, markBelow_append, markBelow_eq_self hcut.line]
    simp only [append_assoc]
  · intro c hc
    simp only [chars_append, Array.mem_append] at hc
    rcases hc with hc | hc
    · rintro rfl
      exact absurd hc (by simp [ofString])
    · exact hcut.line c hc
  · intro c hc
    rw [markBelow_first] at hc
    exact hcut.after c hc

/-- A text that starts with a newline. -/
theorem eq_newline_append {after : Text} (h : after.chars[0]? = some '\n') :
    ∃ rest, after = ofString "\n" ++ rest := by
  rw [← Array.getElem?_toList] at h
  cases hl : after.chars.toList with
  | nil =>
    rw [hl] at h
    cases h
  | cons c l =>
    rw [hl] at h
    cases h
    exact ⟨⟨l.toArray⟩, ext_chars (Array.toList_inj.mp (by rw [hl]; simp [ofString]))⟩

namespace MarkedLine

variable {before line after above : Text}

/-- A line ends behind its characters, in the plain text and, two places further, in the marked
one. -/
theorem lineStop_eq (h : t.MarkedLine before line after above) :
    t.lineStop before.length = before.length + line.length ∧
      t.marked.lineStop above.length = above.length + 2 + line.length := by
  have hmarker : (ofString "> ").length = 2 := by decide
  have h₁ := h.cut.lineStop_eq h.cut.lineStart_eq
  have h₂ := h.marked.lineStop_eq h.marked.lineStart_eq
  rw [length_append] at h₂
  omega

/-- The marked text has a line below exactly when the text has. -/
theorem lineStop_lt_iff (h : t.MarkedLine before line after above) :
    t.marked.lineStop above.length < t.marked.length ↔ t.lineStop before.length < t.length := by
  have h₁ := congrArg length h.cut.eq
  have h₂ := congrArg length h.marked.eq
  have h₃ := h.cut.lineStop_eq h.cut.lineStart_eq
  have h₄ := h.marked.lineStop_eq h.marked.lineStart_eq
  have h₅ := markBelow_first after
  have hempty : ∀ u : Text, 0 < u.length ↔ u.chars[0]? ≠ none := by
    intro u
    unfold length
    rw [ne_eq, Array.getElem?_eq_none_iff]
    omega
  have h₆ := hempty after
  have h₇ := hempty after.markBelow
  rw [h₅, ← h₆] at h₇
  simp only [length_append] at h₁ h₂ h₄
  omega

/-- The next line. -/
theorem next (h : t.MarkedLine before line after above)
    (hlt : t.lineStop before.length < t.length) :
    ∃ before' line' after' above', t.MarkedLine before' line' after' above' ∧
    before'.length = t.lineStop before.length + 1 ∧
    above'.length = t.marked.lineStop above.length + 1 := by
  have hstop := h.lineStop_eq
  have hlength := congrArg length h.cut.eq
  simp only [length_append] at hlength
  -- a line is below because a newline ends this one
  have hc : after.chars[0]? = some '\n' := by
    cases hc : after.chars[0]? with
    | none =>
      have := Array.getElem?_eq_none_iff.mp hc
      unfold length at *
      omega
    | some c => rw [h.cut.after c hc]
  obtain ⟨rest, rfl⟩ := eq_newline_append hc
  have heq := h.cut.eq
  have hmarked := h.marked.eq
  rw [← append_assoc] at heq
  rw [markBelow_append, markBelow_newline, ← append_assoc, ← append_assoc] at hmarked
  obtain ⟨line', after', hline⟩ := exists_markedLine heq hmarked (back_newline _) (back_newline _)
  refine ⟨_, line', after', _, hline, ?_, ?_⟩
  · simp only [length_append, hstop.1]
    rfl
  · have hmarker : (ofString "> ").length = 2 := by decide
    have hnewline : (ofString "\n").length = 1 := by decide
    simp only [length_append]
    omega

end MarkedLine

/-- Lines of a text and of the marked text with the same number. -/
theorem markedLine_of_sameLine {n : Nat} {x y : Int}
    (h : SameLine t t.marked t.length t.marked.length n x y) :
    ∃ before line after above, t.MarkedLine before line after above ∧ before.length = x ∧
      above.length = y := by
  induction h with
  | first =>
    have hmarked : t.marked = ofString "" ++ ofString "> " ++ t.markBelow := by
      rw [ofString_empty_append]
      rfl
    obtain ⟨line, after, h⟩ :=
      exists_markedLine (ofString_empty_append t).symm hmarked (by simp [ofString])
        (by simp [ofString])
    exact ⟨_, line, after, _, h, rfl, rfl⟩
  | next _ hx _ ih =>
    obtain ⟨before, line, after, above, h, rfl, rfl⟩ := ih
    exact h.next hx

end Text

namespace Document

open Text

variable {d : Document} {t before line after above : Text} {tabWidth pos : Int} {s : Settings}

/-! ## Plain and marked documents -/

/-- Without tabs the column of a position is its distance from the start of the line. -/
theorem column_of_tabless (htab : '\t' ∉ d.text.chars) (h₀ : 0 ≤ pos) (h₁ : pos ≤ d.text.length) :
    d.column pos = pos - d.text.lineStart pos := by
  have hstart := lineStart_le (t := d.text) h₀
  have hbound := d.text.bound_lineStart pos
  have hbound' := bound_of_mem h₀ h₁
  have hsize := d.text.bound_le_size pos
  have hslice : '\t' ∉ (d.text.slice (d.text.lineStart pos) pos).chars := by
    intro hmem
    obtain ⟨k, -, -, hk⟩ := mem_slice hmem
    exact htab (Array.mem_of_getElem? hk)
  unfold column
  rw [← Array.foldl_toList, foldl_nextColumn (by simpa using hslice)]
  simp only [slice, Array.length_toList, Array.size_extract]
  omega

/-- The columns of the code of a line without tabs. -/
theorem Standing.column_of_tabless {blanks code : Text} (h : d.Standing before blanks "" code after)
    (htab : '\t' ∉ d.text.chars) {o : Nat} (ho : (o : Int) ≤ code.length) :
    d.column (d.indentationPoint before.length + o) = d.mark.length + blanks.length + o := by
  have hstop := h.lineStop_eq
  have hpoint := h.indentationPoint_eq h.cut.lineStart_eq
  have hlength := d.text.lineStop_le_length before.length
  have hmark := d.mark.length_nonneg
  have hblanks := blanks.length_nonneg
  have hstart : d.text.lineStart (d.indentationPoint before.length + o) = before.length := by
    refine (lineStart_eq_of_between (p := before.length) ?_ (by omega)).trans h.cut.lineStart_eq
    rw [h.cut.lineStart_eq]
    omega
  have hnonneg := d.indentationPoint_nonneg before.length
  rw [Document.column_of_tabless htab (by omega) (by omega), hstart]
  omega

/-- A line of a plain document and the marked line have the same code. -/
theorem standing_marked (tabWidth : Int) (h : t.MarkedLine before line after above) :
    ∃ blanks code, (Document.new t .plain tabWidth).Standing before blanks "" code after ∧
      (Document.new t.marked .bird tabWidth).Standing above
        (ofString " " ++ blanks) "" code after.markBelow := by
  have hcut : (Document.new t .plain tabWidth).text.Cut before line after := h.cut
  obtain ⟨blanks, code, hline, hstanding⟩ := standing_of_cut hcut hcut.lineStart_eq (by rfl)
  refine ⟨blanks, code, hstanding, ?_, ?_, .inl rfl, hstanding.code⟩
  · have hparts : ofString "> " ++ line =
        (Document.new t.marked .bird tabWidth).mark ++ (ofString " " ++ blanks) ++ ofString "" ++
          code := by
      have hplain : (Document.new t .plain tabWidth).mark = ofString "" := rfl
      have hbird : (Document.new t.marked .bird tabWidth).mark ++ ofString " " = ofString "> " :=
        rfl
      rw [hline, hplain, ← append_assoc _ (ofString " "), hbird]
      simp only [append_assoc, ofString_empty_append]
    rw [← hparts]
    exact h.marked
  · intro c hc
    simp only [chars_append, Array.mem_append] at hc
    rcases hc with hc | hc
    · rw [show c = ' ' by simpa [ofString] using hc]
      rfl
    · exact hstanding.blanks c hc

/-- Lines with the same number have the same code. -/
theorem standing_of_sameLine (t : Text) (tabWidth : Int) {n : Nat} {x y : Int}
    (h : SameLine t t.marked t.length t.marked.length n x y) :
    ∃ before above blanks code after, before.length = x ∧ above.length = y ∧
      (Document.new t .plain tabWidth).Standing before blanks "" code after ∧
      (Document.new t.marked .bird tabWidth).Standing above
        (ofString " " ++ blanks) "" code after.markBelow := by
  obtain ⟨before, line, after, above, hline, hx, hy⟩ := markedLine_of_sameLine h
  obtain ⟨blanks, code, hd, he⟩ := standing_marked tabWidth hline
  exact ⟨before, above, blanks, code, after, hx, hy, hd, he⟩

/-- A line of a Bird script of which the parts are known is code. -/
theorem Standing.charAt?_mark {blanks code : Text} (h : d.Standing before blanks "" code after)
    (hbird : d.bird = true) : d.text.charAt? (d.text.lineStart before.length) = some '>' := by
  have hmarked := h.isMarked_eq
  unfold isMarked at hmarked
  rw [hbird, Bool.true_and, beq_iff_eq] at hmarked
  rw [h.cut.lineStart_eq, hmarked]

/-- A line that stands behind a marker in a Bird script is code. -/
theorem Standing.isProse_of_bird {blanks code : Text} (h : d.Standing before blanks "" code after)
    (hbird : d.bird = true) : d.isProse before.length = false := by
  have hstyle : d.style = .bird := by simpa [bird] using hbird
  unfold isProse isCodeLine
  simp only [hstyle, h.charAt?_mark hbird]
  rfl

/-- Below a marked line the block of marked lines goes on. -/
theorem markedBlockStart_below {y : Int} (hmark : t.charAt? (t.lineStart y) = some '>') :
    markedBlockStart t (t.lineStop y + 1).toNat = markedBlockStart t (t.lineStart y).toNat := by
  have hnonneg := t.lineStart_nonneg y
  have hle := t.lineStart_le_lineStop y
  have hbound := t.bound_lineStop y
  have hrun : t.runStart notNewline ((t.lineStop y + 1).toNat - 1) = (t.lineStart y).toNat := by
    have hline := lineStart_eq_of_between hle (Int.le_refl (t.lineStop y))
    rw [← hline, show (t.lineStop y + 1).toNat - 1 = t.bound (t.lineStop y) by omega]
    rfl
  rw [Text.charAt?_eq hnonneg] at hmark
  rw [markedBlockStart.eq_def, if_pos (by omega), hrun, if_pos hmark]

/-- The block of code of a marked document starts with the document. -/
theorem codeStart_marked (t : Text) (tabWidth : Int) {n : Nat} {x y : Int}
    (h : SameLine t t.marked t.length t.marked.length n x y) :
    (Document.new t.marked .bird tabWidth).codeStart y = 0 := by
  show (markedBlockStart t.marked (t.marked.lineStart y).toNat : Int) = 0
  induction h with
  | first =>
    have h₁ := lineStart_le (t := t.marked) (Int.le_refl 0)
    have h₂ := t.marked.lineStart_nonneg 0
    rw [show (t.marked.lineStart 0).toNat = 0 by omega, markedBlockStart]
    rfl
  | @next n x y hline _ hy ih =>
    obtain ⟨before, above, blanks, code, after, rfl, rfl, -, he⟩ :=
      standing_of_sameLine t tabWidth hline
    rw [Parallel.lineStart_succ_lineStop hy,
      markedBlockStart_below (t := t.marked) (he.charAt?_mark rfl)]
    exact ih

variable (t tabWidth s) in
/-- A document without tabs and the marked document are parallel. -/
def parallelMarked (htab : '\t' ∉ t.chars) (hright : s.Rightward) (hoffset : s.birdOffset = 1) :
    Parallel s (Document.new t .plain tabWidth) (Document.new t.marked .bird tabWidth) where
  end₁ := t.length
  end₂ := t.marked.length
  shift := 2
  free := t.length + 1
  last := by
    have hnext : ∀ {n x y}, SameLine t t.marked t.length t.marked.length n x y →
        t.lineStop x < t.length → t.marked.lineStop y < t.marked.length := by
      intro n x y hline hlt
      obtain ⟨before, line, after, above, h, rfl, rfl⟩ := markedLine_of_sameLine hline
      exact h.lineStop_lt_iff.mpr hlt
    have hstart := t.lineStart_le_length t.length
    obtain ⟨n, y, hline⟩ := exists_sameLine hnext (t.lineStart_lineStart t.length) hstart
    have hlast : t.lineStop (t.lineStart t.length) = t.length := by
      have h₁ := le_lineStop t.length_nonneg (Int.le_refl t.length)
      have h₂ := t.lineStop_le_length t.length
      rw [t.lineStop_lineStart]
      omega
    refine ⟨n, _, y, hline, hlast, ?_⟩
    obtain ⟨before, line, after, above, h, hx, rfl⟩ := markedLine_of_sameLine hline
    have hiff := h.lineStop_lt_iff
    have hle := t.marked.lineStop_le_length above.length
    rw [hx] at hiff
    show t.marked.lineStop above.length = t.marked.length
    omega
  ends := .inl ⟨rfl, rfl⟩
  width hline := by
    obtain ⟨before, above, blanks, code, after, rfl, rfl, hd, he⟩ :=
      standing_of_sameLine t tabWidth hline
    rw [hd.lineStop_eq, he.lineStop_eq]
    omega
  char hline o ho := by
    obtain ⟨before, above, blanks, code, after, rfl, rfl, hd, he⟩ :=
      standing_of_sameLine t tabWidth hline
    rw [hd.lineStop_eq] at ho
    have hcode : o < code.chars.size := by unfold length at ho; omega
    rw [hd.charAt?_point, he.charAt?_point, getElem?_append_left code _ hcode,
      getElem?_append_left code _ hcode]
  column hline _ o ho := by
    obtain ⟨before, above, blanks, code, after, rfl, rfl, hd, he⟩ :=
      standing_of_sameLine t tabWidth hline
    rw [hd.lineStop_eq] at ho
    rw [hd.column_of_tabless htab (by omega),
      he.column_of_tabless (tab_notMem_marked htab) (by omega)]
    have hmark : (Document.new t.marked .bird tabWidth).mark.length =
        (Document.new t .plain tabWidth).mark.length + 1 := rfl
    have hblank : (ofString " ").length = 1 := by decide
    simp only [length_append]
    omega
  prose hline _ := by
    obtain ⟨before, above, blanks, code, after, rfl, rfl, -, he⟩ :=
      standing_of_sameLine t tabWidth hline
    exact he.isProse_of_bird rfl
  codeStart hline _ hline' _ := by
    rw [codeStart_marked t tabWidth hline]
    show 0 < _ ↔ 0 < _
    cases hline' with
    | first => exact Iff.rfl
    | @next n x y _ _ _ =>
      have h₁ := t.lineStart_nonneg x
      have h₂ := t.lineStart_le_lineStop x
      have h₃ := t.marked.lineStart_nonneg y
      have h₄ := t.marked.lineStart_le_lineStop y
      show 0 < t.marked.lineStop y + 1 ↔ 0 < t.lineStop x + 1
      omega
  top := by
    unfold Settings.topColumn
    rw [hoffset]
    rfl
  style := .inr ⟨Int.le_refl 2, rfl⟩
  rightward := .inr hright

/-- The plain script and the marked one are compared as a whole, and columns correspond on all
lines. -/
theorem total_parallelMarked (tabWidth : Int) (htab : '\t' ∉ t.chars) (hright : s.Rightward)
    (hoffset : s.birdOffset = 1) : (parallelMarked t tabWidth s htab hright hoffset).Total where
  end₁ := rfl
  end₂ := rfl
  free {_ x _} hline := by
    have hstart : t.lineStart x = x := hline.starts.1
    have hle := t.lineStart_le_length x
    show x < t.length + 1
    omega

/-! ## Requests by line -/

/-- The candidates for a line, by its number. -/
def candidatesOfLine (d : Document) (s : Settings) (line : Int) : Noted (List Candidate) := do
  d.candidates s (← d.positionOf line 0)

/-- Moving to a column stays on the line. -/
theorem lineStart_moveToColumn (d : Document) (pos column : Int) :
    d.text.lineStart (d.moveToColumn pos column) = d.text.lineStart pos := by
  obtain ⟨h₁, h₂, -⟩ := d.moveToColumn_bounds pos column
  exact lineStart_eq_of_between h₁ h₂

end Document

/-- Lines with the same number are found in both documents, or in neither. -/
theorem Parallel.Total.positionOf {s : Settings} {d e : Document} {C : Parallel s d e}
    (hC : C.Total) (line : Int) :
    Alike (fun p q => ∃ n, C.Line n (d.text.lineStart p) (e.text.lineStart q)) (d.positionOf line 0)
      (e.positionOf line 0) := by
  unfold Document.positionOf
  by_cases hneg : line < 0
  · rw [if_pos hneg, if_pos hneg]
    exact .inr ⟨_, rfl, rfl⟩
  · rw [if_neg hneg, if_neg hneg]
    obtain ⟨n, hline, hmissing⟩ := hC.linesDown line.toNat (n := 0) (x := 0) (y := 0) .first
    generalize d.text.linesDown line.toNat 0 = down at hline hmissing ⊢
    generalize e.text.linesDown line.toNat 0 = down' at hline hmissing ⊢
    obtain ⟨bol, missing⟩ := down
    obtain ⟨bol', missing'⟩ := down'
    simp only at hline hmissing
    subst hmissing
    cases missing' with
    | succ missing => exact .inr ⟨_, rfl, rfl⟩
    | zero =>
      refine .inl ⟨_, _, rfl, rfl, n, ?_⟩
      rw [Document.lineStart_moveToColumn, Document.lineStart_moveToColumn, hline.starts.1,
        hline.starts.2]
      exact hline

namespace Document

variable {t : Text} {tabWidth : Int} {s : Settings}

/-- A literate script is the plain script shifted by two columns: when the text has no tabs, no
offset of the settings leads to the left and one blank stands behind the marker of a fresh line, the
request for a line of the marked script gives the candidates of the plain script two columns further
to the right, with the same texts to put in and the same diagnostics, or the same fault. -/
theorem candidatesOfLine_marked (t : Text) (tabWidth : Int) (s : Settings) (line : Int)
    (htab : '\t' ∉ t.chars) (hright : s.Rightward) (hoffset : s.birdOffset = 1) :
    ((Document.new t.marked .bird tabWidth).candidatesOfLine s line).result =
        ((Document.new t .plain tabWidth).candidatesOfLine s line).result.map
          (List.map (·.moveRight 2)) ∧
      ((Document.new t.marked .bird tabWidth).candidatesOfLine s line).diagnostics =
        ((Document.new t .plain tabWidth).candidatesOfLine s line).diagnostics := by
  have htotal := total_parallelMarked tabWidth htab hright hoffset
  unfold candidatesOfLine
  rcases htotal.positionOf line with ⟨p, q, hp, hq, n, hline⟩ | ⟨fault, hp, hq⟩
  · have hfree := htotal.free hline
    rw [hp, hq, Noted.lift_ok_bind, Noted.lift_ok_bind]
    exact hline.candidates (Int.le_of_lt hfree) (.inl hfree) (.inl htotal)
  · rw [hp, hq, Noted.lift_error_bind, Noted.lift_error_bind]
    exact ⟨rfl, rfl⟩

/-- A definition that breaks off behind a guard. -/
def guardedText : Text := .ofString "f x\n  | x = 1\n"

/-- Below a guard the four candidates of the marked script are those of the plain script, two
columns further to the right and with the same texts. -/
theorem candidatesOfLine_marked_guardedText :
    ('\t' ∉ guardedText.chars ∧ ({} : Settings).Rightward ∧ ({} : Settings).birdOffset = 1) ∧
    ((Document.new guardedText .plain 8).candidatesOfLine {} 2).result =
      .ok [⟨0, none⟩, ⟨4, none⟩, ⟨2, some "| "⟩, ⟨8, none⟩] ∧
    ((Document.new guardedText.marked .bird 8).candidatesOfLine {} 2).result =
      .ok [⟨2, none⟩, ⟨6, none⟩, ⟨4, some "| "⟩, ⟨10, none⟩] := by
  have htab : '\t' ∉ guardedText.chars := by decide +kernel
  have hplain : ((Document.new guardedText .plain 8).candidatesOfLine {} 2).result =
      .ok [⟨0, none⟩, ⟨4, none⟩, ⟨2, some "| "⟩, ⟨8, none⟩] := by
    have hposition : (Document.new guardedText .plain 8).positionOf 2 0 = .ok 14 := by
      decide +kernel
    have hcandidates : ((Document.new guardedText .plain 8).candidates {} 14).result =
        .ok [⟨0, none⟩, ⟨4, none⟩, ⟨2, some "| "⟩, ⟨8, none⟩] := by decide +kernel
    unfold candidatesOfLine
    rw [hposition, Noted.lift_ok_bind, hcandidates]
  have hmarked := (candidatesOfLine_marked guardedText 8 {} 2 htab rightward_default rfl).1
  rw [hplain] at hmarked
  exact ⟨⟨htab, rightward_default, rfl⟩, hplain, hmarked⟩

end Document

end LayoutRule
