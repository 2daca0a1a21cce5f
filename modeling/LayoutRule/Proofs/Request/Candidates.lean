import LayoutRule.Proofs.Request.Settling

/-!
# Candidates of a line

The request for the candidates of a line gives a result for every document, with any settings and at
any position, or fails because too many lines are measured inside one another; the column of the
definition is never a fallback (`candidates_settle`).

On a line that is not blank, candidates put text in exactly when the line starts with a comment that
only a gap follows up to a blank last line, and then the texts are those for that last line
(`insert_before_comment_iff`).
-/

namespace LayoutRule

/-! ## Results of computations with notes -/

namespace Noted

variable {α β : Type}

/-- The result of two computations, one after the other. -/
theorem bind_result (x : Noted α) (f : α → Noted β) :
    (x >>= f).result = x.result >>= fun a => (f a).result := by
  show (Noted.bind x f).result = _
  unfold Noted.bind
  cases x.result <;> rfl

/-- A computation without notes has its own result. -/
theorem lift_result (r : Except Fault α) : (liftM r : Noted α).result = r := rfl

/-- A value without notes is gone on with. -/
theorem lift_ok_bind (a : α) (f : α → Noted β) :
    (liftM (Except.ok a : Except Fault α) >>= f) = f a :=
  rfl

/-- A fault without notes ends the computation. -/
theorem lift_error_bind (e : Fault) (f : α → Noted β) :
    (liftM (Except.error e : Except Fault α) >>= f) = ⟨[], .error e⟩ := rfl

end Noted

namespace Document

open Request

variable {d : Document} {s : Settings} {pos start : Int} {cs : List Candidate}

/-- Whether a position is prose depends on its line. -/
theorem isProse_eq_of_lineStart_eq {pos' : Int} (h : d.text.lineStart pos = d.text.lineStart pos') :
    d.isProse pos = d.isProse pos' := by
  unfold isProse isCodeLine
  rw [h]

/-- The column of the definition is not used in place of an answer that settles. -/
theorem orDefinitionColumn_eq {x : Noted (List Candidate)} {bound : Int} {P : List Candidate → Prop}
    (h : x.Settles bound P) : d.orDefinitionColumn start x = x := by
  unfold orDefinitionColumn
  rcases h.result with ⟨cs, hcs, -⟩ | he
  · rw [hcs]
  · rw [he]

/-- The answer that the request for a line starts from. -/
theorem lineAnswer_settles (d : Document) (s : Settings) (pos : Int)
    (hstart : d.definitionStart s (d.indentationPoint pos) = .ok start) :
    (candidatesWithin d s (s.levelsAt 0) false start (d.indentationPoint pos)).Settles
      s.maxNestingDepth
      (Inserts (MayInsert d start (d.indentationPoint pos))) := by
  obtain ⟨h₀, h₁⟩ := (definitionStart_yields d s _).of_eq hstart
  exact candidatesWithin_settles d s _ false h₀ h₁ (d.indentationPoint_nonneg pos)
    (d.indentationPoint_le_length pos)

/-- The request for the candidates of a line settles, and puts in no texts but those of the
rules. -/
theorem candidates_settles (d : Document) (s : Settings) (pos : Int) :
    (d.candidates s pos).Settles s.maxNestingDepth (Inserts True) := by
  unfold candidates
  split
  · exact (Noted.Settles.note (by simp)).bind fun _ _ => .pure .nil
  obtain ⟨start, hstart, -⟩ := definitionStart_yields d s (d.indentationPoint pos)
  refine .bind_ok hstart ?_
  have hanswer := d.lineAnswer_settles s pos hstart
  rw [orDefinitionColumn_eq hanswer]
  refine hanswer.bind fun cs hcs => ?_
  exact (Noted.Settles.note (by simp)).bind fun _ _ => .pure (hcs.mono fun _ => trivial)

/-- Candidates put in no texts but those of the rules. -/
theorem inserts_of_candidates (h : (d.candidates s pos).result = .ok cs) : Inserts True cs := by
  rcases (d.candidates_settles s pos).result with hyields | hdeep
  · exact hyields.of_eq h
  · rw [h] at hdeep
    cases hdeep

/-- The request for the candidates of a line of code is the answer on the stretch from the
definition to the line. -/
theorem candidates_result (hprose : d.isProse pos = false)
    (hstart : d.definitionStart s (d.indentationPoint pos) = .ok start) :
    (d.candidates s pos).result =
      (candidatesWithin d s (s.levelsAt 0) false start (d.indentationPoint pos)).result := by
  unfold candidates
  rw [hprose]
  simp only [Bool.false_eq_true, if_false, Noted.bind_result, Noted.lift_result, hstart]
  show ((d.orDefinitionColumn start _).result >>= _) = _
  rw [orDefinitionColumn_eq (d.lineAnswer_settles s pos hstart)]
  cases (candidatesWithin d s (s.levelsAt 0) false start (d.indentationPoint pos)).result <;> rfl

/-- Prose has no candidates. -/
theorem candidates_of_prose (h : d.isProse pos = true) :
    (d.candidates s pos).result = .ok [] ∧ (d.candidates s pos).diagnostics = [] := by
  unfold candidates
  rw [h]
  exact ⟨rfl, rfl⟩

/-- The diagnostics of a line of code are those of the answer on the stretch from the definition to
the line. -/
theorem candidates_diagnostics (hprose : d.isProse pos = false)
    (hstart : d.definitionStart s (d.indentationPoint pos) = .ok start) :
    (d.candidates s pos).diagnostics =
      (candidatesWithin d s (s.levelsAt 0) false start (d.indentationPoint pos)).diagnostics := by
  have hsettles := d.lineAnswer_settles s pos hstart
  unfold candidates
  simp only [hprose, Bool.false_eq_true, if_false, hstart, Noted.lift_ok_bind]
  rw [orDefinitionColumn_eq hsettles]
  show (Noted.bind _ _).diagnostics = _
  unfold Noted.bind
  -- the count of the candidates, noted last, is no diagnostic
  rcases hsettles.result with ⟨cs, hcs, -⟩ | hdeep
  · rw [hcs]
    simp [Noted.diagnostics, Noted.note, Noted.pure, Bind.bind, Noted.bind, Pure.pure,
      Note.diagnostic?]
  · rw [hdeep]
    rfl

/-- Every request for candidates gives a result, or lines lie too deep inside one another. No clause
is without a shape, no character is read outside the text, and no move through the text that cannot
be completed gets out of an answer, so that the column of the definition never stands in for it. -/
theorem candidates_settle (d : Document) (s : Settings) (pos : Int) :
    ((∃ cs, (d.candidates s pos).result = .ok cs) ∨
        (d.candidates s pos).result = .error (.tooDeep s.maxNestingDepth)) ∧
      (∀ why, Note.stoppedEarly why ∉ (d.candidates s pos).notes) ∧
      ∀ levels inhibit start stop, 0 ≤ start → start ≤ d.text.length → 0 ≤ stop →
        stop ≤ d.text.length →
        ∀ e, (candidatesWithin d s levels inhibit start stop).result = .error e →
          e = .tooDeep s.maxNestingDepth := by
  have hsettles := d.candidates_settles s pos
  refine ⟨?_, hsettles.notes, ?_⟩
  · rcases hsettles.result with ⟨cs, hcs, -⟩ | he
    · exact .inl ⟨cs, hcs⟩
    · exact .inr he
  · intro levels inhibit start stop hs hs' h₀ h₁ e he
    rcases (candidatesWithin_settles d s levels inhibit hs hs' h₀ h₁).result with
      ⟨cs, hcs, -⟩ | hdeep
    · rw [he] at hcs
      cases hcs
    · rw [he] at hdeep
      cases hdeep
      rfl

/-- A bracket that is never closed. -/
def openBracket : Document := .new (Text.ofString "f = (\n") .plain 8

/-- Below a bracket that is never closed there are candidates or the request lies too deep, and a
request with room for one line fails in no other way. -/
theorem candidates_settle_of_bracket :
    ((∃ cs, (openBracket.candidates {} 6).result = .ok cs) ∨
        (openBracket.candidates {} 6).result = .error (.tooDeep 32)) ∧
      ∀ e, (candidatesWithin openBracket {} 1 false 0 6).result = .error e → e = .tooDeep 32 := by
  obtain ⟨h₁, -, h₂⟩ := candidates_settle openBracket {} 6
  exact ⟨h₁, h₂ 1 false 0 6 (by decide) (by decide +kernel) (by decide) (by decide +kernel)⟩

end Document

/-! ## Texts before a comment -/

/-- What is offered, by the texts that are put in. -/
theorem exists_insert_offerAll {found more : List Candidate} {text : String} :
    (∃ c ∈ offerAll found more, c.insert = some text) ↔
      (∃ c ∈ found, c.insert = some text) ∨ ∃ c ∈ more, c.insert = some text := by
  induction more generalizing found with
  | nil => simp [offerAll]
  | cons c rest ih =>
    have hoffer : (∃ c' ∈ offer found c, c'.insert = some text) ↔
        (∃ c' ∈ found, c'.insert = some text) ∨ c.insert = some text := by
      simp only [offer]
      split
      · next hmem =>
        refine ⟨.inl, ?_⟩
        rintro (h | h)
        · exact h
        · exact ⟨_, hmem, h⟩
      · simp [or_and_right, exists_or]
    show (∃ c' ∈ offerAll (offer found c) rest, c'.insert = some text) ↔ _
    rw [ih, hoffer]
    simp [or_assoc]

namespace Request

variable {r : Request} {start stop code : Int} {cs : List Candidate}

/-- On a line that starts with a comment the answer is made from that for the code after the
comment. -/
theorem answer_of_comment (hstring : r.doc.openString? start stop = .ok none)
    (hopen : r.doc.openComment? start stop = .ok (some stop)) :
    (r.answer start stop).result = (r.commentLine stop start).result := by
  unfold answer
  simp only [Noted.bind_result, Noted.lift_result, hstring, hopen]
  show (r.commentText stop stop start).result = _
  rw [commentText, if_pos rfl]

/-- The texts that are put in before a comment are those for the code after the comment. -/
theorem exists_insert_commentLine (hcs : (r.commentLine stop start).result = .ok cs)
    (hcode : r.doc.skipGap stop r.doc.text.length = .ok code) :
    ∃ cs', (r.nested false start code).result = .ok cs' ∧
      ∀ text, (∃ c ∈ cs, c.insert = some text) ↔ ∃ c ∈ cs', c.insert = some text := by
  have hrest : ∀ found : List Candidate, (∀ c ∈ found, c.insert = none) →
      ((r.nested false start code).result >>= fun cs' =>
        .ok (offerAll found (nearestFirst (r.doc.column code) cs'))) = .ok cs →
      ∃ cs', (r.nested false start code).result = .ok cs' ∧
        ∀ text, (∃ c ∈ cs, c.insert = some text) ↔ ∃ c ∈ cs', c.insert = some text := by
    intro found hfound h
    obtain ⟨cs', hcs', h⟩ := bind_eq_ok.mp h
    cases h
    refine ⟨cs', hcs', fun text => ?_⟩
    have hnone : ¬∃ c ∈ found, c.insert = some text := by
      rintro ⟨c, hc, ht⟩
      rw [hfound c hc] at ht
      cases ht
    rw [exists_insert_offerAll, or_iff_right hnone]
    simp [nearestFirst, List.mem_mergeSort]
  unfold commentLine at hcs
  split at hcs
  · simp only [Noted.bind_result, Noted.lift_result, hcode] at hcs
    exact hrest [] (by simp) hcs
  · simp only [Noted.bind_result, Noted.lift_result, hcode] at hcs
    obtain ⟨previous, -, hcs⟩ := bind_eq_ok.mp hcs
    cases previous with
    | none => exact hrest [] (by simp) hcs
    | some p => exact hrest (offer [] ⟨r.doc.column p, none⟩) (by simp [offer]) hcs

end Request

namespace Document

open Request

variable {d : Document} {s : Settings} {pos start : Int} {cs : List Candidate}

/-- An answer that puts text in on a line that is not blank is not one inside a string. -/
theorem openString?_of_insert {levels : Nat} {inhibit : Bool} {stop : Int} {text : String}
    (hs : 0 ≤ start) (h₁ : stop ≤ d.text.length)
    (hcs : (candidatesWithin d s levels inhibit start stop).result = .ok cs)
    (hc : ∃ c ∈ cs, c.insert = some text) : d.openString? start stop = .ok none := by
  obtain ⟨q, hq, -⟩ := openString?_yields (d := d) hs h₁
  cases levels with
  | zero => cases hcs
  | succ levels =>
    cases q with
    | none => exact hq
    | some q =>
      unfold candidatesWithin answer at hcs
      simp only [Noted.bind_result, Noted.lift_result, hq] at hcs
      cases hcs
      obtain ⟨c, hmem, htext⟩ := hc
      rw [List.mem_singleton.mp hmem] at htext
      cases htext

/-- A request at a depth makes requests one level further in. -/
theorem levelsAt_of_result {inhibit : Bool} {stop : Int}
    (h : (candidatesWithin d s (s.levelsAt 0) inhibit start stop).result = .ok cs) :
    s.levelsAt 0 = s.levelsAt 1 + 1 := by
  have hne : s.levelsAt 0 ≠ 0 := by
    intro hzero
    rw [hzero] at h
    cases h
  unfold Settings.levelsAt at *
  omega

/-- The texts that are put in before a comment at the end of a document are those for its last
line. -/
theorem exists_insert_candidates (hcs : (d.candidates s pos).result = .ok cs)
    (hprose : d.isProse pos = false)
    (hgap : d.skipGap (d.indentationPoint pos) d.text.length = .ok d.text.length)
    (hstart : d.definitionStart s (d.indentationPoint pos) = .ok start)
    (hstring : d.openString? start (d.indentationPoint pos) = .ok none)
    (hopen : d.openComment? start (d.indentationPoint pos) = .ok (some (d.indentationPoint pos))) :
    ∃ cs', (candidatesWithin d s (s.levelsAt 1) false start d.text.length).result = .ok cs' ∧
      ∀ text, (∃ c ∈ cs, c.insert = some text) ↔ ∃ c ∈ cs', c.insert = some text := by
  rw [candidates_result hprose hstart] at hcs
  rw [levelsAt_of_result hcs] at hcs
  have hcomment :=
    answer_of_comment (r := ⟨d, s, false, candidatesWithin d s (s.levelsAt 1)⟩) hstring hopen
  exact exists_insert_commentLine (hcomment.symm.trans hcs) hgap

/-- On a line that is not blank a text is put in exactly when the line is code, starts with a
comment, nothing but a gap follows up to the end of the document, the last line is blank, and the
text is put in on that last line. -/
theorem insert_before_comment_iff (hcs : (d.candidates s pos).result = .ok cs)
    (hline : d.isBlankLine pos = false) (text : String) :
    (∃ c ∈ cs, c.insert = some text) ↔
      d.isProse pos = false ∧
      d.skipGap (d.indentationPoint pos) d.text.length = .ok d.text.length ∧
      d.isBlankLine d.text.length = true ∧
      ∃ start, d.definitionStart s (d.indentationPoint pos) = .ok start ∧
        d.openString? start (d.indentationPoint pos) = .ok none ∧
        d.openComment? start (d.indentationPoint pos) = .ok (some (d.indentationPoint pos)) ∧
        ∃ cs', (candidatesWithin d s (s.levelsAt 1) false start d.text.length).result = .ok cs' ∧
          ∃ c ∈ cs', c.insert = some text := by
  have hip' := d.indentationPoint_le_length pos
  obtain ⟨start, hstart, hs, hs'⟩ := definitionStart_yields d s (d.indentationPoint pos)
  constructor
  · intro hc
    have hprose : d.isProse pos = false := by
      cases hp : d.isProse pos with
      | false => rfl
      | true =>
        unfold candidates at hcs
        rw [hp] at hcs
        cases hcs
        obtain ⟨c, hmem, -⟩ := hc
        cases hmem
    have hwithin := hcs
    rw [candidates_result hprose hstart] at hwithin
    have hstring := openString?_of_insert hs hip' hwithin hc
    obtain ⟨c, hmem, htext⟩ := hc
    have hmay : MayInsert d start (d.indentationPoint pos) := by
      rcases (d.lineAnswer_settles s pos hstart).result with hyields | hdeep
      · exact (hyields.of_eq hwithin c hmem text htext).1
      · rw [hwithin] at hdeep
        cases hdeep
    rcases hmay with hblank | ⟨hopen, hgap, hblank⟩
    · rw [isBlankLine_indentationPoint, hline] at hblank
      cases hblank
    · obtain ⟨cs', hcs', htexts⟩ := exists_insert_candidates hcs hprose hgap hstart hstring hopen
      exact ⟨hprose, hgap, hblank, start, hstart, hstring, hopen, cs', hcs',
        (htexts text).mp ⟨c, hmem, htext⟩⟩
  · rintro ⟨hprose, hgap, -, start', hstart', hstring, hopen, cs', hcs', hc⟩
    rw [hstart] at hstart'
    cases hstart'
    obtain ⟨cs'', hcs'', htexts⟩ := exists_insert_candidates hcs hprose hgap hstart hstring hopen
    rw [hcs'] at hcs''
    cases hcs''
    exact (htexts text).mpr hc

/-- A definition with a comment below it and a blank last line. -/
def commentedDefinition : Document := .new (Text.ofString "f x = 1\n-- c\n") .plain 8

/-- There are candidates for the line with the comment. -/
theorem commentedDefinition_candidates :
    ∃ cs, (commentedDefinition.candidates {} 8).result = .ok cs := by
  rcases (commentedDefinition.candidates_settles {} 8).result with ⟨cs, hcs, -⟩ | hdeep
  · exact ⟨cs, hcs⟩
  · have hsome : (commentedDefinition.candidates {} 8).result.toOption.isSome = true := by
      decide +kernel
    rw [hdeep] at hsome
    cases hsome

/-- The line `-- c` is offered the text `f `. -/
theorem insert_before_comment_iff_commented :
    ∃ cs, (commentedDefinition.candidates {} 8).result = .ok cs ∧
    commentedDefinition.isBlankLine 8 = false ∧ ∃ c ∈ cs, c.insert = some "f " := by
  obtain ⟨cs, hcs⟩ := commentedDefinition_candidates
  refine ⟨cs, hcs, by decide +kernel,
    (insert_before_comment_iff hcs (by decide +kernel) "f ").mpr ?_⟩
  refine ⟨by decide +kernel, by decide +kernel, by decide +kernel, 0, by decide +kernel,
    by decide +kernel, by decide +kernel, [⟨0, none⟩, ⟨0, some "f "⟩, ⟨6, none⟩], by decide +kernel,
    by decide⟩

/-- So it is not true that only blank lines are offered text. -/
theorem not_only_blank_lines_insert :
    ¬∀ (d : Document) (s : Settings) (pos : Int) (cs : List Candidate),
      (d.candidates s pos).result = .ok cs → d.isBlankLine pos = false →
      ∀ c ∈ cs, c.insert = none := by
  intro h
  obtain ⟨cs, hcs⟩ := commentedDefinition_candidates
  have hstart : commentedDefinition.definitionStart {} (commentedDefinition.indentationPoint 8) =
      .ok 0 := by
    decide +kernel
  obtain ⟨cs', hcs', htexts⟩ :=
    exists_insert_candidates hcs (by decide +kernel) (by decide +kernel) hstart (by decide +kernel)
      (by decide +kernel)
  have hlast : (candidatesWithin commentedDefinition {} 32 false 0 13).result =
      .ok [⟨0, none⟩, ⟨0, some "f "⟩, ⟨6, none⟩] := by decide +kernel
  cases hlast.symm.trans hcs'
  obtain ⟨c, hc, htext⟩ := (htexts "f ").mpr (by decide)
  rw [h _ _ _ cs hcs (by decide +kernel) c hc] at htext
  cases htext

end Document

end LayoutRule
