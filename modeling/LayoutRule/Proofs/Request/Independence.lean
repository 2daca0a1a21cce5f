import LayoutRule.Proofs.Document.Shared
import LayoutRule.Proofs.Editing.Cycling
import LayoutRule.Proofs.Parallel.Candidates

/-!
# What the candidates of a line do not depend on

A request looks at the lines above a line and at the code of the line. Where no comment starts
there, it does not see the text below the line (`candidates_below`), and where the definition starts
above the line, it does not see how the line is indented now (`candidates_indentLine`).

Both follow from one comparison: `Document.Respaced` documents have the same lines above a line and
the same code on it, and are parallel down to that line.
-/

namespace LayoutRule

/-- Moving candidates by nothing leaves them, and faults are not touched. -/
theorem Candidate.map_moveRight_zero (r : Except Fault (List Candidate)) :
    r.map (List.map (·.moveRight 0)) = r := by
  have hmap : (fun c : Candidate => c.moveRight 0) = id := by
    funext c
    simp [Candidate.moveRight]
  cases r with
  | error fault => rfl
  | ok cs =>
    rw [hmap]
    simp [Except.map]

namespace Document

open Text

variable {d e : Document} {s : Settings} {before blanks blanks' code after after' : Text}
  {pos pos' : Int}

/-! ## Documents that differ in and below the indentation of a line -/

/-- Documents with the same lines above a line and the same code on it, which both have a line below
it or both end there. -/
structure Respaced (d e : Document) (before blanks blanks' code after after' : Text) : Prop where
  /-- The style is the same. -/
  style : e.style = d.style
  /-- The tab width is the same. -/
  tabWidth : e.tabWidth = d.tabWidth
  /-- The line in the first document. -/
  first : d.Standing before blanks "" code after
  /-- The line in the second document. -/
  second : e.Standing before blanks' "" code after'
  /-- Both lines end alike. -/
  after : after'.chars[0]? = after.chars[0]?

namespace Respaced

/-- Documents with the same lines above a line share them. -/
theorem shares (h : d.Respaced e before blanks blanks' code after after') :
    d.Shares e before.chars.size where
  style := h.style
  tabWidth := h.tabWidth
  text := by
    rw [h.first.text_eq, h.second.text_eq]
    simp only [append_assoc]
    exact shares_append _ _ _

/-- Documents that differ in the blanks of a line only have the same mark of literate lines. -/
theorem mark_eq (h : d.Respaced e before blanks blanks' code after after') : e.mark = d.mark := by
  unfold mark
  rw [h.shares.bird]

/-- With the same indentation the whole line is shared. -/
theorem shares_line (h : d.Respaced e before blanks blanks code after after') :
    d.Shares e (d.text.lineStop before.length).toNat where
  style := h.style
  tabWidth := h.tabWidth
  text := by
    have hshares := shares_append (before ++ (d.mark ++ blanks ++ ofString "" ++ code)) after after'
    have hstop := h.first.cut.lineStop_eq h.first.cut.lineStart_eq
    rw [← length_append] at hstop
    rw [hstop, h.first.cut.eq, h.second.cut.eq, h.mark_eq]
    exact hshares

/-- With the same blanks the line has the same indentation point. -/
theorem indentationPoint_eq (h : d.Respaced e before blanks blanks code after after') :
    e.indentationPoint before.length = d.indentationPoint before.length := by
  rw [h.first.indentationPoint_eq h.first.cut.lineStart_eq,
    h.second.indentationPoint_eq h.second.cut.lineStart_eq, h.mark_eq]

/-- Lines with the same number start at the same position, not behind the line. -/
theorem sameLine (h : d.Respaced e before blanks blanks' code after after') {n : Nat} {x y : Int}
    (hline : SameLine d.text e.text (d.text.lineStop before.length)
      (e.text.lineStop before.length) n x y) :
    x = y ∧ 0 ≤ x ∧ (x = before.length ∨ d.text.lineStop x < before.length) := by
  induction hline with
  | first =>
    exact ⟨rfl, Int.le_refl _, h.first.cut.eq_or_lineStop_lt (Int.le_refl _) before.length_nonneg⟩
  | @next n x y _ hx _ ih =>
    obtain ⟨rfl, h₀, rfl | hlt⟩ := ih
    · omega
    · have hle := d.text.lineStart_le_lineStop x
      have hnonneg := d.text.lineStart_nonneg x
      rw [h.shares.text.lineStop h₀ hlt]
      exact ⟨rfl, by omega, h.first.cut.eq_or_lineStop_lt (by omega) (by omega)⟩

/-- The column of the top level is the same in both documents. -/
theorem topColumn_eq (h : d.Respaced e before blanks blanks' code after after') (s : Settings) :
    s.topColumn e = s.topColumn d + 0 := by
  unfold Settings.topColumn
  rw [h.shares.bird, Int.add_zero]

/-- No column is shifted. -/
theorem unshifted (s : Settings) : (0 : Int) = 0 ∨ s.Rightward := .inl rfl

variable (s) in
/-- The documents are parallel down to the line. Columns correspond above the line, and on it when
its indentation is the same. -/
def parallel (h : d.Respaced e before blanks blanks' code after after') (free : Int)
    (hfree : free ≤ before.length ∨ blanks' = blanks) : Parallel s d e where
  end₁ := d.text.lineStop before.length
  end₂ := e.text.lineStop before.length
  shift := 0
  free := free
  last := by
    have hnext : ∀ {n x y},
        SameLine d.text e.text (d.text.lineStop before.length)
          (e.text.lineStop before.length) n x y →
          d.text.lineStop x < d.text.lineStop before.length →
          e.text.lineStop y < e.text.lineStop before.length := by
      intro n x y hline hlt
      obtain ⟨rfl, h₀, rfl | habove⟩ := h.sameLine hline
      · omega
      · have hle := e.text.lineStart_le_lineStop before.length
        rw [h.second.cut.lineStart_eq] at hle
        rw [h.shares.text.lineStop h₀ habove]
        omega
    have hle := d.text.lineStart_le_lineStop before.length
    rw [h.first.cut.lineStart_eq] at hle
    obtain ⟨n, y, hline⟩ := exists_sameLine hnext h.first.cut.lineStart_eq hle
    obtain ⟨rfl, -⟩ := h.sameLine hline
    exact ⟨n, _, _, hline, rfl, rfl⟩
  ends := by
    have hd := h.first.charAt?_lineStop
    have he := h.second.charAt?_lineStop
    rw [h.after] at he
    cases hc : after.chars[0]? with
    | none => exact .inl ⟨lineStop_eq_length (hd.trans hc), lineStop_eq_length (he.trans hc)⟩
    | some c =>
      cases h.first.cut.after c hc
      exact .inr ⟨hd.trans hc, he.trans hc⟩
  width hline := by
    obtain ⟨rfl, h₀, rfl | habove⟩ := h.sameLine hline
    · rw [h.first.lineStop_eq, h.second.lineStop_eq]
      omega
    · rw [h.shares.text.lineStop h₀ habove, h.shares.indentationPoint h₀ habove]
  char := fun {_ x _} hline o ho => by
    obtain ⟨rfl, h₀, rfl | habove⟩ := h.sameLine hline
    · rw [h.first.lineStop_eq] at ho
      have hcode : o < code.chars.size := by unfold length at ho; omega
      rw [h.first.charAt?_point, h.second.charAt?_point, getElem?_append_left code after hcode,
        getElem?_append_left code after' hcode]
    · have hpoint := d.indentationPoint_nonneg x
      rw [h.shares.indentationPoint h₀ habove,
        h.shares.text.charAt? (by omega) (Int.lt_trans ho habove)]
  column := fun {_ x _} hline hlt o ho => by
    obtain ⟨rfl, h₀, rfl | habove⟩ := h.sameLine hline
    · obtain rfl : blanks' = blanks := hfree.resolve_left (by omega)
      have hpoint := d.indentationPoint_nonneg before.length
      rw [h.indentationPoint_eq, h.shares_line.column (by omega) (by omega), Int.add_zero]
    · have hpoint := d.indentationPoint_nonneg x
      rw [h.shares.indentationPoint h₀ habove,
        h.shares.column (by omega) (Int.le_of_lt (Int.lt_of_le_of_lt ho habove)), Int.add_zero]
  prose hline _ := by
    obtain ⟨rfl, h₀, rfl | habove⟩ := h.sameLine hline
    · exact h.first.isProse_eq h.second h.style
    · exact h.shares.isProse h₀ (h.shares.text.lt_of_lineStop_lt h₀ habove)
  codeStart hline _ hline' _ := by
    obtain ⟨rfl, h₀, hx⟩ := h.sameLine hline
    obtain ⟨rfl, -, -⟩ := h.sameLine hline'
    rw [h.shares.codeStart h₀ (by
      rcases hx with rfl | habove
      · exact Int.le_refl _
      · exact Int.le_of_lt (h.shares.text.lt_of_lineStop_lt h₀ habove))]
  top := h.topColumn_eq s
  style := .inl ⟨rfl, h.shares.bird⟩
  rightward := unshifted s

/-- The candidates for the line are the same when its indentation is, or when the definition starts
above it. -/
theorem candidates_eq (h : d.Respaced e before blanks blanks' code after after')
    (hpos : d.text.lineStart pos = before.length) (hpos' : e.text.lineStart pos' = before.length)
    (hseen : blanks' = blanks ∨ ∀ {start},
      d.definitionStart s (d.indentationPoint pos) = .ok start → start < d.text.lineStart pos)
    (hcomment : d.commentAt (d.indentationPoint pos) = .ok false) :
    (e.candidates s pos').result = (d.candidates s pos).result ∧
      (e.candidates s pos').diagnostics = (d.candidates s pos).diagnostics := by
  obtain ⟨free, hle, hfree, hbefore⟩ :
      ∃ free : Int, before.length ≤ free ∧ (free ≤ before.length ∨ blanks' = blanks) ∧
        (before.length < free ∨
          ∀ {start}, d.definitionStart s (d.indentationPoint pos) = .ok start →
            start < d.text.lineStart pos) := by
    rcases hseen with hblanks | hstart
    · exact ⟨before.length + 1, by omega, .inr hblanks, .inl (by omega)⟩
    · exact ⟨before.length, Int.le_refl _, .inl (Int.le_refl _), .inr hstart⟩
  let C := h.parallel s free hfree
  obtain ⟨n, x, y, hline, hx, -⟩ := C.last
  obtain ⟨rfl, h₀, rfl | habove⟩ := h.sameLine hline
  · have hsame : C.Line n (d.text.lineStart pos) (e.text.lineStart pos') := by
      rw [hpos, hpos']
      exact hline
    rw [← hpos] at hle hbefore
    obtain ⟨hresult, hdiagnostics⟩ := hsame.candidates hle hbefore (.inr hcomment)
    exact ⟨hresult.trans (Candidate.map_moveRight_zero _), hdiagnostics⟩
  · -- the last line that is compared is the one at hand
    have hstop : d.text.lineStop x = d.text.lineStop before.length := hx
    have hle := d.text.lineStart_le_lineStop before.length
    rw [h.first.cut.lineStart_eq] at hle
    omega

end Respaced

/-! ## The text below -/

/-- The document with more lines below it. -/
def followedBy (d : Document) (below : Text) : Document :=
  { d with text := d.text ++ (ofString "\n" ++ below) }

/-- A text that is put on a line of its own starts with a newline. -/
theorem first_newline (below : Text) : (ofString "\n" ++ below).chars[0]? = some '\n' := by
  simp only [chars_append]
  rw [Array.getElem?_append_left (by decide)]
  rfl

/-- A text is what stands above its last line, and its last line. -/
theorem takeTo_append_lastLine (t : Text) :
    t.takeTo (t.lineStart t.length) ++ t.slice (t.lineStart t.length) t.length = t := by
  have hstart := t.bound_lineStart t.length
  have hbound := bound_of_mem t.length_nonneg (Int.le_refl t.length)
  have hle := t.lineStart_le_length t.length
  have hwhole := takeTo_append t (ofString "")
  rw [append_ofString_empty] at hwhole
  rw [takeTo_append_slice (by omega), hwhole]

/-- The last line of a document is followed by what is put below it. -/
theorem cut_followedBy (d : Document) (below : Text) :
    (d.followedBy below).text.Cut (d.text.takeTo (d.text.lineStart d.text.length))
      (d.text.slice (d.text.lineStart d.text.length) d.text.length) (ofString "\n" ++ below) := by
  have hcut := d.text.cut_line d.text.length
  have hstop : d.text.lineStop d.text.length = d.text.length := by
    have := le_lineStop d.text.length_nonneg (Int.le_refl d.text.length)
    have := d.text.lineStop_le_length d.text.length
    omega
  rw [hstop] at hcut
  refine ⟨?_, hcut.before, hcut.line, ?_⟩
  · rw [takeTo_append_lastLine]
    rfl
  · intro c hc
    rw [first_newline] at hc
    cases hc
    rfl

/-- What is put below a document does not change which of its lines are prose. -/
theorem shares_followedBy (d : Document) (below below' : Text) :
    (d.followedBy below).Shares (d.followedBy below') (d.text.chars.size + 1) where
  style := rfl
  tabWidth := rfl
  text := by
    have hshares := shares_append (d.text ++ ofString "\n") below below'
    rw [append_assoc, append_assoc, chars_append, Array.size_append] at hshares
    exact hshares

/-- With text below it, the last line starts where it did. -/
theorem lineStart_followedBy (d : Document) (below : Text)
    (hline : d.text.lineStart d.text.length ≤ pos) (hlen : pos ≤ d.text.length) :
    (d.followedBy below).text.lineStart pos =
      (d.text.takeTo (d.text.lineStart d.text.length)).length := by
  have hcut := d.cut_followedBy below
  have hstart := length_takeTo (d.text.lineStart_nonneg d.text.length)
    (d.text.lineStart_le_length d.text.length)
  have hlength := congrArg Text.length (takeTo_append_lastLine d.text)
  rw [length_append] at hlength
  rw [← hcut.lineStart_eq]
  refine lineStart_eq_of_between ?_ ?_
  · rw [hcut.lineStart_eq]
    omega
  · rw [hcut.lineStop_eq hcut.lineStart_eq]
    omega

/-- The text below a line has no influence on it: where no comment starts at the indentation point
of the last line of a document, the request for that line gives the same candidates and diagnostics
or the same fault whatever is put below. -/
theorem candidates_below (d : Document) (s : Settings) (below below' : Text)
    (hline : d.text.lineStart d.text.length ≤ pos) (hlen : pos ≤ d.text.length)
    (hcomment : (d.followedBy below).commentAt ((d.followedBy below).indentationPoint pos) =
      .ok false) :
    ((d.followedBy below').candidates s pos).result =
      ((d.followedBy below).candidates s pos).result ∧
      ((d.followedBy below').candidates s pos).diagnostics =
        ((d.followedBy below).candidates s pos).diagnostics := by
  have hcut := d.cut_followedBy below
  have hcut' := d.cut_followedBy below'
  have hpos := d.lineStart_followedBy below hline hlen
  have hpos' := d.lineStart_followedBy below' hline hlen
  cases hprose : (d.followedBy below).isProse pos with
  | true =>
    have hnonneg := d.text.lineStart_nonneg d.text.length
    have hprose' := (d.shares_followedBy below below').isProse (by omega : 0 ≤ pos)
      (by unfold length at hlen; omega)
    obtain ⟨hresult, hdiagnostics⟩ := candidates_of_prose (s := s) hprose
    obtain ⟨hresult', hdiagnostics'⟩ := candidates_of_prose (s := s) (hprose'.trans hprose)
    exact ⟨hresult'.trans hresult.symm, hdiagnostics'.trans hdiagnostics.symm⟩
  | false =>
    obtain ⟨blanks, code, hparts, hstanding⟩ := standing_of_cut hcut hpos hprose
    have hstanding' : (d.followedBy below').Standing _ blanks "" code _ :=
      ⟨hparts ▸ hcut', hstanding.blanks, .inl rfl, hstanding.code⟩
    have hrespaced : (d.followedBy below).Respaced (d.followedBy below') _ blanks blanks code _ _ :=
      ⟨rfl, rfl, hstanding, hstanding', (first_newline below').trans (first_newline below).symm⟩
    exact hrespaced.candidates_eq hpos hpos' (.inl rfl) hcomment

/-- A literate script that breaks off in a block. -/
def unfinishedBlock : Document := .new (ofString "> f x = do\n>   a\n>    ") .bird 8

/-- Neither an unfinished comment nor prose below the block makes a difference. -/
theorem candidates_below_unfinishedBlock :
    (unfinishedBlock.text.lineStart unfinishedBlock.text.length ≤ 20 ∧
      20 ≤ unfinishedBlock.text.length ∧
      (unfinishedBlock.followedBy (ofString "> \x7b- b")).commentAt
        ((unfinishedBlock.followedBy (ofString "> \x7b- b")).indentationPoint 20) = .ok false) ∧
      ((unfinishedBlock.followedBy (ofString "prose")).candidates {} 20).result =
        ((unfinishedBlock.followedBy (ofString "> \x7b- b")).candidates {} 20).result ∧
      ((unfinishedBlock.followedBy (ofString "prose")).candidates {} 20).diagnostics =
        ((unfinishedBlock.followedBy (ofString "> \x7b- b")).candidates {} 20).diagnostics :=
  ⟨by decide +kernel, candidates_below unfinishedBlock {} _ _ (by decide +kernel)
    (by decide +kernel) (by decide +kernel)⟩

/-! ## The present indentation -/

/-- Indenting a line does not change the tab width. -/
theorem indentLine_tabWidth (d : Document) (pos column : Int) :
    (d.indentLine pos column).1.tabWidth = d.tabWidth := by
  unfold indentLine
  simp only
  split
  · rfl
  · rfl

/-- A candidate that puts no text in indents the line, and does nothing else. -/
theorem applyCandidate_of_insert {c : Candidate} (h : c.insert = none) (d : Document) (pos : Int) :
    d.applyCandidate pos c 0 = d.indentLine pos c.column := by
  unfold applyCandidate
  rw [h]
  rfl

/-- A line of code that is indented anew. -/
theorem respaced_indentLine (hcode : d.isProse pos = false) (column : Int) :
    ∃ blanks code after,
      d.Respaced (d.indentLine pos column).1 (d.text.takeTo (d.text.lineStart pos)) blanks
        (d.blanksTo column) code after
        after := by
  obtain ⟨blanks, -, hstanding⟩ := standing_of_code hcode
  have hpos : d.text.lineStart pos = (d.text.takeTo (d.text.lineStart pos)).length :=
    (length_takeTo (d.text.lineStart_nonneg pos) (d.text.lineStart_le_length pos)).symm
  have happlied := hstanding.applyCandidate hpos (c := ⟨column, none⟩) (by simp)
  exact ⟨blanks, _, _, (Edited.indentLine d pos column).style, d.indentLine_tabWidth pos column,
    hstanding, happlied, rfl⟩

/-- The line that is indented anew starts where it did, and its new indentation point is the one
that is given. -/
theorem lineStart_indentLine (hcode : d.isProse pos = false) (column : Int) :
    (d.indentLine pos column).1.text.lineStart (d.indentLine pos column).2 = d.text.lineStart pos ∧
      (d.indentLine pos column).1.indentationPoint (d.text.lineStart pos) =
        (d.indentLine pos column).2 := by
  obtain ⟨blanks, code, after, h⟩ := respaced_indentLine hcode column
  have hpos := length_takeTo (d.text.lineStart_nonneg pos) (d.text.lineStart_le_length pos)
  have hstart := h.second.cut.lineStart_eq
  have hpoint : (d.indentLine pos column).1.indentationPoint (d.text.lineStart pos) =
      (d.indentLine pos column).2 := by
    have hlead := h.first.leadFor_eq column
    have hip := h.second.indentationPoint_eq hstart
    rw [hpos] at hlead hip
    rw [hip, d.indentLine_point, hlead, h.mark_eq, length_append]
    omega
  refine ⟨?_, hpoint⟩
  rw [← hpoint, lineStart_indentationPoint]
  rw [hpos] at hstart
  exact hstart

/-- A line that has the indentation already is not edited. -/
theorem indentLine_of_slice {column : Int}
    (h : d.text.slice (d.text.lineStart pos) (d.indentationPoint pos) =
      d.leadFor (d.text.lineStart pos) column) : (d.indentLine pos column).1 = d := by
  unfold indentLine
  simp only [h, if_true]

/-- Indenting a line to the same column once more does nothing. -/
theorem indentLine_again (hcode : d.isProse pos = false) (column : Int) :
    (d.indentLine pos column).1.indentLine (d.indentLine pos column).2 column =
      d.indentLine pos column := by
  obtain ⟨blanks, code, after, h⟩ := respaced_indentLine hcode column
  have hpos := length_takeTo (d.text.lineStart_nonneg pos) (d.text.lineStart_le_length pos)
  obtain ⟨hline, hpoint⟩ := lineStart_indentLine hcode column
  have hblanks : (d.indentLine pos column).1.blanksTo column = d.blanksTo column := by
    unfold blanksTo
    rw [h.shares.bird]
  have hlead := h.first.leadFor_eq column
  have hlead' := h.second.leadFor_eq column
  have hslice := (h.second.parts (hline.trans hpos.symm)).2.1
  rw [hpos] at hlead hlead'
  refine Prod.ext (indentLine_of_slice ?_) ?_
  · rw [hslice, hline, hlead', hblanks]
  · rw [indentLine_point, hline, hlead', hblanks, h.mark_eq, d.indentLine_point, hlead]

/-- The candidates of a line do not depend on how it is indented: for a line of code where no
comment starts and whose definition starts above it, indenting the line to any column changes
neither the candidates nor the diagnostics nor the fault. So applying a candidate that puts no text
in leaves all candidates as they were, and applying it once more changes nothing. -/
theorem candidates_indentLine {start : Int} (hcode : d.isProse pos = false)
    (hcomment : d.commentAt (d.indentationPoint pos) = .ok false)
    (hstart : d.definitionStart s (d.indentationPoint pos) = .ok start)
    (habove : start < d.text.lineStart pos) :
    (∀ column,
      (d.indentLine pos column).1.text.lineStart (d.indentLine pos column).2 =
        d.text.lineStart pos ∧
      ∀ pos', (d.indentLine pos column).1.text.lineStart pos' = d.text.lineStart pos →
        ((d.indentLine pos column).1.candidates s pos').result = (d.candidates s pos).result ∧
        ((d.indentLine pos column).1.candidates s pos').diagnostics =
          (d.candidates s pos).diagnostics) ∧
    ∀ cs, (d.candidates s pos).result = .ok cs → ∀ c ∈ cs, c.insert = none →
      ((d.applyCandidate pos c 0).1.candidates s (d.applyCandidate pos c 0).2).result = .ok cs ∧
      ((d.applyCandidate pos c 0).1.candidates s (d.applyCandidate pos c 0).2).diagnostics =
        (d.candidates s pos).diagnostics ∧
      (d.applyCandidate pos c 0).1.applyCandidate (d.applyCandidate pos c 0).2 c 0 =
        d.applyCandidate pos c 0 := by
  have hpos := length_takeTo (d.text.lineStart_nonneg pos) (d.text.lineStart_le_length pos)
  have hsame : ∀ column pos',
      (d.indentLine pos column).1.text.lineStart pos' = d.text.lineStart pos →
      ((d.indentLine pos column).1.candidates s pos').result = (d.candidates s pos).result ∧
        ((d.indentLine pos column).1.candidates s pos').diagnostics =
          (d.candidates s pos).diagnostics := by
    intro column pos' hpos'
    obtain ⟨blanks, code, after, h⟩ := respaced_indentLine hcode column
    refine h.candidates_eq hpos.symm (hpos'.trans hpos.symm) (.inr fun hstart' => ?_) hcomment
    cases hstart.symm.trans hstart'
    exact habove
  refine ⟨fun column => ⟨(lineStart_indentLine hcode column).1, hsame column⟩,
    fun cs hcs c _ hc => ?_⟩
  simp only [applyCandidate_of_insert hc]
  obtain ⟨hresult, hdiagnostics⟩ := hsame c.column _ (lineStart_indentLine hcode c.column).1
  exact ⟨hresult.trans hcs, hdiagnostics, indentLine_again hcode c.column⟩

/-- A literate script whose last line is indented by tabs. -/
def driftedLine : Document := .new (ofString "> f x = do\n>   a\n>\t\tb") .bird 8

/-- On a literate line that is indented by tabs the candidates are the same after the line was
indented to column 40, and after the second of them was applied. -/
theorem candidates_indentLine_driftedLine :
    (driftedLine.isProse 18 = false ∧
      driftedLine.commentAt (driftedLine.indentationPoint 18) = .ok false ∧
      driftedLine.definitionStart {} (driftedLine.indentationPoint 18) = .ok 2 ∧
      2 < driftedLine.text.lineStart 18) ∧
    (driftedLine.candidates {} 18).result = .ok [⟨2, none⟩, ⟨4, none⟩] ∧
    ((driftedLine.indentLine 18 40).1.candidates {} (driftedLine.indentLine 18 40).2).result =
      (driftedLine.candidates {} 18).result ∧
    ((driftedLine.applyCandidate 18 ⟨4, none⟩ 0).1.candidates {}
      (driftedLine.applyCandidate 18 ⟨4, none⟩ 0).2).result =
      .ok [⟨2, none⟩, ⟨4, none⟩] := by
  have hcode : driftedLine.isProse 18 = false := by decide +kernel
  have hcomment : driftedLine.commentAt (driftedLine.indentationPoint 18) = .ok false := by
    decide +kernel
  have hstart : driftedLine.definitionStart {} (driftedLine.indentationPoint 18) = .ok 2 := by
    decide +kernel
  have habove : 2 < driftedLine.text.lineStart 18 := by decide +kernel
  have hcs : (driftedLine.candidates {} 18).result = .ok [⟨2, none⟩, ⟨4, none⟩] := by decide +kernel
  obtain ⟨hmoved, happlied⟩ := candidates_indentLine hcode hcomment hstart habove
  obtain ⟨hline, hsame⟩ := hmoved 40
  exact ⟨⟨hcode, hcomment, hstart, habove⟩, hcs, (hsame _ hline).1,
    (happlied _ hcs ⟨4, none⟩ (by decide) rfl).1⟩

end Document

end LayoutRule
