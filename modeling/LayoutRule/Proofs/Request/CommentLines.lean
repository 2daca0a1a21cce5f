import LayoutRule.Proofs.Request.Attraction
import LayoutRule.Proofs.Request.Respacing

/-!
# Indenting a line that starts with a comment

A line that starts with a comment goes where the code behind the comment could go, the column
nearest to that code first. When the code stands on a line further down, the first candidate is
still the first after the line has been moved to it: it is the answer for the same code, and of all
candidates only those that name the comment have moved, onto the first one
(`Document.CommentLine.head?_of_code`). The same holds when the line goes under a comment right
above it (`Document.CommentLine.head?_of_comment`).

Elsewhere a line with a comment may drift. The code that it goes by may stand on the line itself, or
be the end of a text that ends in the comment (`not_first_candidate_again`).
-/

namespace LayoutRule

/-! ## The first candidate -/

/-- The first candidate that is offered. -/
theorem head?_offerAll (found more : List Candidate) :
    (offerAll found more).head? = (found ++ more.map Candidate.kept).head? :=
  (sameFinds_offerAll found more).head?

namespace Request

variable {r : Request} {stop start p : Int} {cs : List Candidate}

/-- A line comment goes under the comment right above it. -/
theorem head?_commentLine (hline : r.doc.text.charAt? stop ≠ some '\x7b')
    (hbefore : r.commentBefore? stop start = .ok (some p))
    (hcs : (r.commentLine stop start).result = .ok cs) :
    cs.head? = some (Candidate.kept ⟨r.doc.column p, none⟩) := by
  unfold commentLine at hcs
  rw [if_neg hline, hbefore, Noted.lift_ok_bind] at hcs
  simp only [Noted.bind_result, Noted.lift_result] at hcs
  obtain ⟨code, -, hcs⟩ := bind_eq_ok.1 hcs
  obtain ⟨inner, -, hcs⟩ := bind_eq_ok.1 hcs
  cases hcs
  rw [head?_offerAll]
  rfl

/-- Without a comment right above, the line goes where the code behind the comment could go. -/
theorem commentLine_result {code : Int} (hbefore : r.commentBefore? stop start = .ok none)
    (hskip : r.doc.skipGap stop r.doc.text.length = .ok code)
    (hcs : (r.nested false start code).result = .ok cs) :
    (r.commentLine stop start).result =
      .ok (offerAll [] (nearestFirst (r.doc.column code) cs)) := by
  unfold commentLine
  simp only [hbefore, hskip, Noted.lift_ok_bind]
  split <;> simp only [Noted.bind_result, hcs] <;> rfl

end Request

namespace Document

open Text

variable {d e : Document} {s : Settings} {pos start code p column : Int} {c : Candidate}
  {cs : List Candidate}

/-- A line that is indented to a column right of the marker has its code in that column. -/
theorem column_indentLine (hcode : d.isProse pos = false) (hcol : 0 ≤ column)
    (hmargin : d.bird = true → 1 ≤ column) :
    (d.indentLine pos column).1.column (d.indentLine pos column).2 = column := by
  obtain ⟨blanks, code, after, h⟩ := respaced_indentLine hcode column
  obtain ⟨hline, hpoint⟩ := lineStart_indentLine hcode column
  have hpos := length_takeTo (d.text.lineStart_nonneg pos) (d.text.lineStart_le_length pos)
  have hslice := (h.second.parts (hline.trans hpos.symm)).2.1
  rw [← indentationPoint_eq_of_lineStart_eq (lineStart_lineStart _ _), hline, hpoint, h.mark_eq]
    at hslice
  have htab : '\t' ∉ (d.mark ++ d.blanksTo column).chars.toList := by
    rw [chars_append, Array.toList_append, List.mem_append]
    rintro (hmark | hblank)
    · unfold mark at hmark
      split at hmark
      · exact absurd hmark (by decide)
      · exact absurd hmark (by decide)
    · exact absurd (mem_blanksTo (Array.mem_toList_iff.mp hblank)) (by decide)
  have hlength : (d.mark ++ d.blanksTo column).length = column := by
    rw [length_append]
    unfold mark blanksTo
    by_cases hbird : d.bird = true
    · have := hmargin hbird
      rw [if_pos hbird, if_pos hbird]
      simp [Text.length, Text.replicate]
      omega
    · rw [if_neg hbird, if_neg hbird]
      simp [Text.length, Text.replicate, ofString]
      omega
  unfold Document.column
  rw [hline, hslice, ← Array.foldl_toList, foldl_nextColumn htab, Array.length_toList, Nat.zero_add]
  exact hlength

/-! ## Lines that start with a comment -/

/-- The line of `pos` is code and starts with a comment, in the definition that starts at
`start`. -/
structure CommentLine (d : Document) (s : Settings) (pos start : Int) : Prop where
  code : d.isProse pos = false
  definition : d.definitionStart s (d.indentationPoint pos) = .ok start
  string : d.openString? start (d.indentationPoint pos) = .ok none
  comment : d.openComment? start (d.indentationPoint pos) = .ok (some (d.indentationPoint pos))

/-- The first code behind the comment at `point` stands on a line below, in no string and no
comment, and is not the `in` of a `let`. -/
structure CodeBelow (d : Document) (start point code : Int) : Prop where
  skip : d.skipGap point d.text.length = .ok code
  below : d.text.lineStop point < code
  string : d.openString? start code = .ok none
  comment : d.openComment? start code = .ok none
  notIn : d.text.closingPair? code ≠ some .letIn

/-- The line has a line comment, and the comment at `p` ends right above it. -/
structure CommentAbove (d : Document) (s : Settings) (pos start p : Int) : Prop where
  line : d.text.charAt? (d.indentationPoint pos) ≠ some '\x7b'
  above : (Request.atDepth d s 0 false).commentBefore? (d.indentationPoint pos) start = .ok (some p)

namespace CommentLine

/-- The definition starts no later than the comment, and inside the text. -/
theorem bounds (h : d.CommentLine s pos start) : 0 ≤ start ∧ start ≤ d.indentationPoint pos :=
  ⟨((definitionStart_yields d s _).of_eq h.definition).1, definitionStart_le h.definition⟩

/-- A comment starts at the indentation point of the line. -/
theorem commentAt (h : d.CommentLine s pos start) :
    d.commentAt (d.indentationPoint pos) = .ok true := by
  have hyields := openComment?_yields h.bounds.1 (d.indentationPoint_nonneg pos)
    (d.indentationPoint_le_length pos)
  rcases hyields.of_eq h.comment _ rfl with ⟨-, htrue⟩ | ⟨-, hlt⟩
  · exact htrue
  · omega

/-- No string and no comment from above holds the indentation point of the line. -/
theorem closed (h : d.CommentLine s pos start) : d.Closed start (d.indentationPoint pos) :=
  closed_of_open h.bounds.1 (d.indentationPoint_le_length pos) h.string h.comment (by simp)

/-- With code on a line below, the stretch from the comment to that code is hollow. -/
theorem hollow (h : d.CommentLine s pos start)
    (hcode : d.CodeBelow start (d.indentationPoint pos) code) :
    d.Hollow start (d.indentationPoint pos) code := by
  have hle :=
    ((skipGap_yields (d.indentationPoint_nonneg pos) (Int.le_refl _)).of_eq hcode.skip).2.1
  have hlen := d.indentationPoint_le_length pos
  exact ⟨h.bounds.1, h.bounds.2, d.indentationPoint_indentationPoint pos, h.commentAt, h.closed,
    hcode.skip, closed_of_open h.bounds.1 (by omega) hcode.string hcode.comment (by simp)⟩

/-- The request is one for a line with a comment. -/
theorem result_eq (h : d.CommentLine s pos start) (hlevels : s.levelsAt 0 = s.levelsAt 1 + 1) :
    (d.candidates s pos).result =
      ((Request.atDepth d s 0 false).commentLine (d.indentationPoint pos) start).result := by
  rw [candidates_result h.code h.definition, hlevels]
  exact Request.answer_of_comment (r := .atDepth d s 0 false) h.string h.comment

/-- The line still starts with the comment when it is indented anew. The documents are parallel, and
below the line columns are the same. -/
theorem indentLine (h : d.CommentLine s pos start) (column : Int) :
    ∃ (C : Parallel s d (d.indentLine pos column).1) (start' : Int),
      C.Whole ∧ C.Aside (d.indentationPoint pos) (d.indentLine pos column).2 ∧
      C.Place start start' ∧
      (d.indentLine pos column).1.CommentLine s (d.indentLine pos column).2 start' ∧
      (d.indentLine pos column).1.indentationPoint (d.indentLine pos column).2 =
        (d.indentLine pos column).2 ∧
      ∀ {a b}, C.Place a b → d.text.lineStart pos < d.text.lineStart a →
        (d.indentLine pos column).1.column b = d.column a := by
  obtain ⟨blanks, code, after, hrespaced⟩ := respaced_indentLine h.code column
  obtain ⟨hline, hpoint⟩ := lineStart_indentLine h.code column
  have hpos := length_takeTo (d.text.lineStart_nonneg pos) (d.text.lineStart_le_length pos)
  generalize d.indentLine pos column = moved at *
  obtain ⟨e, point⟩ := moved
  let C := hrespaced.whole s
  obtain ⟨n, hsame⟩ : ∃ n, C.Line n (d.text.lineStart pos) (d.text.lineStart pos) :=
    hpos ▸ hrespaced.line_whole
  have hfree : C.free = d.text.lineStart pos := hpos
  have hfirst : e.indentationPoint point = point := by
    rw [← indentationPoint_eq_of_lineStart_eq (e.text.lineStart_lineStart point), hline, hpoint]
  have hplace := hsame.point
  rw [indentationPoint_eq_of_lineStart_eq (d.text.lineStart_lineStart pos), hpoint] at hplace
  have hhere := d.lineStart_indentationPoint pos
  obtain ⟨_, start', hstart, hstart', hplaces, -⟩ :=
    hplace.definitionStart (s := s) (by omega) fun _ hlt => by omega
  cases h.definition.symm.trans hstart
  have hprose := C.prose hsame (Int.le_of_eq hfree.symm)
  rw [isProse_eq_of_lineStart_eq (d.text.lineStart_lineStart pos), h.code] at hprose
  obtain ⟨_, _, hstring, hstring', hrel⟩ := hplaces.openString? hplace
  cases h.string.symm.trans hstring
  cases hrel
  obtain ⟨_, _, hcomment, hcomment', hrel⟩ := hplaces.openComment? hplace
  cases h.comment.symm.trans hcomment
  cases hrel with
  | some hopened =>
    obtain rfl := (hopened.eq_iff hplace).mpr rfl
    refine ⟨C, start', ⟨rfl, rfl⟩,
      ⟨d.indentationPoint_indentationPoint pos, rfl, hfree.trans hhere.symm, hplace⟩, hplaces,
      ⟨?_, ?_, ?_, ?_⟩, hfirst, fun hab hlt => hrespaced.column_below hab (by omega)⟩
    · rw [← hprose]
      exact isProse_eq_of_lineStart_eq (hline ▸ (e.text.lineStart_lineStart _).symm)
    all_goals
      simp only [hfirst]
      assumption

end CommentLine

end Document

/-! ## Requests -/

namespace Parallel.Aside

open Text Document

variable {s : Settings} {d e : Document} {C : Parallel s d e}
  {start start' point point' code code' : Int}

/-- The request for the code behind the comment. -/
theorem candidatesWithin (h : C.Aside point point') (hollow : d.Hollow start point code)
    (hcode : d.CodeBelow start point code) (hclear : d.Clear start code)
    (hfirst : C.Place start start') (hlast : C.Place code code') (levels : Nat) (inhibit : Bool) :
    Noted.Same (Request.Keeps ⟨e.column point', none⟩)
      (candidatesWithin d s levels inhibit start code)
      (candidatesWithin e s levels inhibit start' code') := by
  cases levels with
  | zero => exact .fail _
  | succ levels =>
    show Noted.Same _ (Request.answer ⟨d, s, inhibit, LayoutRule.candidatesWithin d s levels⟩ start
      code) (Request.answer ⟨e, s, inhibit, LayoutRule.candidatesWithin e s levels⟩ start' code')
    obtain ⟨_, _, hstring, hstring', hrel⟩ := hfirst.openString? hlast
    cases hcode.string.symm.trans hstring
    cases hrel
    obtain ⟨_, _, hcomment, hcomment', hrel⟩ := hfirst.openComment? hlast
    cases hcode.comment.symm.trans hcomment
    cases hrel
    unfold Request.answer
    refine .bind_ok hstring hstring' (.bind_ok hcomment hcomment' ?_)
    exact h.codeLine (fun inhibit _ _ _ _ hready => hready.candidatesWithin levels inhibit) hollow
      hfirst hlast hclear hcode.notIn hcode.below

/-- The request for the line with the comment. -/
theorem commentLine (h : C.Aside point point') (hC : C.Whole) (hollow : d.Hollow start point code)
    (hcode : d.CodeBelow start point code) (hclear : d.Clear start code)
    (hfirst : C.Place start start')
    (hcolumn : ∀ {a b}, C.Place a b → d.text.lineStart point < d.text.lineStart a →
      e.column b = d.column a)
    (levels : Nat) (inhibit : Bool) :
    Noted.Same (fun cs cs' => cs.head? = some ⟨e.column point', none⟩ →
      cs'.head? = some ⟨e.column point', none⟩)
      (Request.commentLine ⟨d, s, inhibit, LayoutRule.candidatesWithin d s levels⟩ point start)
      (Request.commentLine ⟨e, s, inhibit, LayoutRule.candidatesWithin e s levels⟩ point'
        start') := by
  have hbounds := hollow.bounds
  have hstart := hollow.start_le
  have hnonneg := hollow.nonneg
  have hbelow : d.text.lineStart point < d.text.lineStart code := by
    have hmono := lineStart_le_lineStart (t := d.text) (by omega : 0 ≤ point) (by omega) hbounds.2.2
    rcases Int.lt_or_eq_of_le hmono with hlt | heq
    · exact hlt
    · have hstop := le_lineStop (t := d.text) (by omega : 0 ≤ code) hbounds.2.2
      have := hcode.below
      rw [lineStop_eq_of_lineStart_eq heq] at this
      omega
  refine hC.commentLine (S := Request.Keeps ⟨e.column point', none⟩) hfirst h.place hstart ?_ ?_ ?_
  · intro code₁ code' hskip hlast
    cases hcode.skip.symm.trans hskip
    exact h.candidatesWithin hollow hcode hclear hfirst hlast levels false
  · intro code₁ code' cs cs' hskip hlast hkeeps hhead
    cases hcode.skip.symm.trans hskip
    rw [head?_offerAll, List.nil_append, List.head?_map] at hhead ⊢
    rw [hcolumn hlast hbelow]
    exact hkeeps _ hhead
  · intro p p' code₁ code' cs cs' hp hlt _ _ _ hhead
    rw [head?_offerAll] at hhead ⊢
    rw [h.eq_of_sameColumn (h.fixed hp hlt).column]
    exact hhead

end Parallel.Aside

namespace Document

open Text

variable {d : Document} {s : Settings} {pos start code p column : Int} {c : Candidate}
  {cs cs' : List Candidate}

namespace CommentLine

/-- The first candidate is the first again when the code stands on a line below. -/
theorem head?_of_code (h : d.CommentLine s pos start)
    (hcode : d.CodeBelow start (d.indentationPoint pos) code)
    (hcs : (d.candidates s pos).result = .ok (c :: cs)) (hinsert : c.insert = none)
    (hmargin : d.bird = true → 1 ≤ c.column) :
    ∃ cs', ((d.indentLine pos c.column).1.candidates s (d.indentLine pos c.column).2).result =
      .ok (c :: cs') := by
  have hlevels : s.levelsAt 0 = s.levelsAt 1 + 1 := by
    rw [candidates_result h.code h.definition] at hcs
    exact levelsAt_of_result hcs
  rw [h.result_eq hlevels] at hcs
  have hcol : 0 ≤ c.column :=
    (Request.commentLine_ensures _ _ _ hcs).column_nonneg c List.mem_cons_self
  have hcolumn := column_indentLine h.code hcol hmargin
  obtain ⟨C, start', hwhole, haside, hfirst, hline, hpoint, hbelow⟩ := h.indentLine c.column
  rw [hline.result_eq hlevels, hpoint]
  have hclear := clear_code h.bounds.1 h.bounds.2 h.commentAt h.closed
    (fun hlen c hc => char_before_definitionStart h.definition hlen hc) hcode.skip
  have hsame := haside.commentLine hwhole (h.hollow hcode) hcode hclear hfirst
    (by rw [d.lineStart_indentationPoint]; exact hbelow) (s.levelsAt 1) false
  have hc : (⟨c.column, none⟩ : Candidate) = c := by rw [← hinsert]
  rw [hcolumn, hc] at hsame
  rcases hsame.result with ⟨l, l', hl, hl', hhead⟩ | ⟨fault, hfault, -⟩
  · cases hcs.symm.trans hl
    obtain ⟨cs', rfl⟩ := List.head?_eq_some_iff.mp (hhead rfl)
    exact ⟨cs', hl'⟩
  · cases hcs.symm.trans hfault

/-- The first candidate is the first again, wherever the line is moved, when it goes under a comment
right above it. -/
theorem head?_of_comment (h : d.CommentLine s pos start) (habove : d.CommentAbove s pos start p)
    (hcs : (d.candidates s pos).result = .ok (c :: cs)) (column : Int)
    (hcs' : ((d.indentLine pos column).1.candidates s (d.indentLine pos column).2).result =
      .ok cs') :
    cs'.head? = some c := by
  have hlevels : s.levelsAt 0 = s.levelsAt 1 + 1 := by
    rw [candidates_result h.code h.definition] at hcs
    exact levelsAt_of_result hcs
  obtain ⟨C, start', hwhole, haside, hfirst, hline, hpoint, -⟩ := h.indentLine column
  rw [h.result_eq hlevels] at hcs
  rw [hline.result_eq hlevels, hpoint] at hcs'
  obtain ⟨_, _, hbefore, hbefore', hrel⟩ :
      Parallel.Both (Option.Rel fun p p' => C.Place p p' ∧ p < d.indentationPoint pos)
        ((Request.atDepth d s 0 false).commentBefore? (d.indentationPoint pos) start)
        ((Request.atDepth (d.indentLine pos column).1 s 0 false).commentBefore?
          (d.indentLine pos column).2 start') :=
    hwhole.commentBefore? hfirst haside.place h.bounds.2
  cases habove.above.symm.trans hbefore
  cases hrel with
  | @some _ p' hp =>
    have hcolumn := haside.eq_of_sameColumn (haside.fixed hp.1 hp.2).column
    have hhead := Request.head?_commentLine habove.line habove.above hcs
    have hhead' := Request.head?_commentLine (haside.place.char ▸ habove.line) hbefore' hcs'
    calc cs'.head? = some (Candidate.kept ⟨(d.indentLine pos column).1.column p', none⟩) := hhead'
      _ = some (Candidate.kept ⟨d.column p, none⟩) := by rw [hcolumn]
      _ = some c := hhead.symm

end CommentLine

/-- A line that starts with a comment stays where its first candidate puts it. When the first code
behind the comment stands on a line below, and the candidate does not lie under the marker of a
literate line, the next request has the candidate first again. So it has when the line goes under a
comment right above it, unless its own answer lies too deep. Applying the candidate once more
changes nothing. -/
theorem first_candidate_again (h : d.CommentLine s pos start)
    (hcs : (d.candidates s pos).result = .ok (c :: cs)) (hinsert : c.insert = none) :
    (∀ code, d.CodeBelow start (d.indentationPoint pos) code → (d.bird = true → 1 ≤ c.column) →
      ∃ cs', ((d.applyCandidate pos c 0).1.candidates s (d.applyCandidate pos c 0).2).result =
        .ok (c :: cs')) ∧
    (∀ p, d.CommentAbove s pos start p →
      (∃ cs', ((d.applyCandidate pos c 0).1.candidates s (d.applyCandidate pos c 0).2).result =
        .ok (c :: cs')) ∨
        ((d.applyCandidate pos c 0).1.candidates s (d.applyCandidate pos c 0).2).result =
          .error (.tooDeep s.maxNestingDepth)) ∧
    (d.applyCandidate pos c 0).1.applyCandidate (d.applyCandidate pos c 0).2 c 0 =
      d.applyCandidate pos c 0 := by
  rw [applyCandidate_of_insert hinsert, applyCandidate_of_insert hinsert]
  refine ⟨fun code hcode hmargin => h.head?_of_code hcode hcs hinsert hmargin, fun p habove => ?_,
    indentLine_again h.code c.column⟩
  refine (candidates_settles _ s _).result.imp_left ?_
  rintro ⟨cs', hcs', -⟩
  obtain ⟨rest, rfl⟩ := List.head?_eq_some_iff.mp (h.head?_of_comment habove hcs c.column hcs')
  exact ⟨rest, hcs'⟩

/-- A definition in a literate script whose right-hand side comes behind a comment. -/
def commentedRhs : Document := .new (ofString "> f =\n>    \x7b-\n> -\x7d\n>  y") .bird 8

/-- The candidates for the comment: the column of the definition is the nearest, and the other one
is that of the comment. -/
theorem commentedRhs_candidates : commentedRhs.CommentLine {} 6 2 ∧
    (commentedRhs.candidates {} 6).result = .ok [⟨2, none⟩, ⟨5, none⟩] := by
  have hline : commentedRhs.CommentLine {} 6 2 :=
    ⟨by decide +kernel, by decide +kernel, by decide +kernel, by decide +kernel⟩
  have hnested : ((Request.atDepth commentedRhs {} 0 false).nested false 2 22).result =
      .ok [⟨2, none⟩, ⟨5, none⟩] := by
    decide +kernel
  have hsorted : Request.nearestFirst (commentedRhs.column 22) [⟨2, none⟩, ⟨5, none⟩] =
      [⟨2, none⟩, ⟨5, none⟩] := List.mergeSort_of_pairwise (by decide +kernel)
  refine ⟨hline, (hline.result_eq (by decide)).trans ?_⟩
  rw [Request.commentLine_result (by decide +kernel) (by decide +kernel) hnested]
  exact congrArg (fun cs => Except.ok (offerAll [] cs)) hsorted

/-- The comment is itself what follows the sign, so one of the candidates moves onto the first. -/
theorem first_candidate_again_commentedRhs :
    (commentedRhs.CommentLine {} 6 2 ∧
      (commentedRhs.candidates {} 6).result = .ok [⟨2, none⟩, ⟨5, none⟩] ∧
      commentedRhs.CodeBelow 2 (commentedRhs.indentationPoint 6) 22) ∧
    ∃ cs', ((commentedRhs.applyCandidate 6 ⟨2, none⟩ 0).1.candidates {}
      (commentedRhs.applyCandidate 6 ⟨2, none⟩ 0).2).result = .ok (⟨2, none⟩ :: cs') := by
  obtain ⟨hline, hcs⟩ := commentedRhs_candidates
  have hcode : commentedRhs.CodeBelow 2 (commentedRhs.indentationPoint 6) 22 :=
    ⟨by decide +kernel, by decide +kernel, by decide +kernel, by decide +kernel, by decide +kernel⟩
  exact ⟨⟨hline, hcs, hcode⟩, (first_candidate_again hline hcs rfl).1 22 hcode fun _ => by decide⟩

/-- A text that ends in a comment. -/
def lastComment : Document := .new (ofString "-- c") .plain 8

/-- A line may drift when the comment reaches the end of the text: this one goes to column 3, and
then to column 6. -/
theorem not_first_candidate_again :
    ¬∀ (d : Document) (s : Settings) (pos start : Int) (c c' : Candidate)
        (cs cs' : List Candidate),
      d.CommentLine s pos start →
      (d.candidates s pos).result = .ok (c :: cs) → c.insert = none →
      ((d.applyCandidate pos c 0).1.candidates s (d.applyCandidate pos c 0).2).result =
        .ok (c' :: cs') →
      ((d.applyCandidate pos c 0).1.applyCandidate (d.applyCandidate pos c 0).2 c' 0).1.text =
        (d.applyCandidate pos c 0).1.text := by
  intro hall
  have hline : lastComment.CommentLine {} 0 0 :=
    ⟨by decide +kernel, by decide +kernel, by decide +kernel, by decide +kernel⟩
  have hsame := hall lastComment {} 0 0 ⟨3, none⟩ ⟨6, none⟩ [] [] hline (by decide +kernel) rfl
    (by decide +kernel)
  revert hsame
  decide +kernel

end Document

end LayoutRule
