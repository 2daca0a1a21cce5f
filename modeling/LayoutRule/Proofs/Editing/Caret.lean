import LayoutRule.Proofs.Editing.Session

/-!
# The caret stays at its place in the code

A press that applies a candidate tells where the caret goes. The text of the line before the code
changes: another indentation, and another text put in after it. A caret that stood in the code keeps
what follows it; any other caret goes to where the code starts. Both follow from two cuts of the
text, one of the document before the press and one of the document after it, that end with the same
code and what stands after it (`Standing.dropTo_caret`, `Standing.lineStart_caret`).

The main result holds in every run of a session, where any number of keys share the document
(`Session.press_keeps_caret`).
-/

namespace LayoutRule

namespace Text

variable {t a b rest : Text} {i : Int}

/-- What lies beyond the end of the text counts as its end. -/
theorem lineStart_min (h₀ : 0 ≤ i) : t.lineStart (min i t.length) = t.lineStart i := by
  have hbound : t.bound (min i t.length) = t.bound i := by
    have hlen := t.length_nonneg
    have hsize : t.length = t.chars.size := rfl
    unfold bound
    rw [if_pos h₀, if_pos (by omega)]
    omega
  unfold lineStart
  rw [hbound]

/-- Two texts with the same end are the same from the same distance on. -/
theorem dropTo_eq_of_append (h : a.length ≤ i) :
    (b ++ rest).dropTo (b.length + (i - a.length)) = (a ++ rest).dropTo i := by
  obtain ⟨k, hk⟩ : ∃ k : Nat, i = a.length + k := ⟨(i - a.length).toNat, by omega⟩
  rw [hk, show b.length + (a.length + k - a.length) =
    b.length + k by omega, dropTo_append, dropTo_append]

end Text

namespace Document

open Text

variable {d e : Document} {pos : Int} {before blanks blanks' code after : Text} {put put' : String}

/-- The place that an applied candidate gives is behind the text it puts in. -/
theorem applyCandidate_point (d : Document) (pos : Int) (c : Candidate) (removed : Int) :
    (d.applyCandidate pos c removed).2 =
      d.text.lineStart pos + (d.leadFor (d.text.lineStart pos) c.column).length +
        c.insertLength := by
  have hpoint := d.indentLine_point pos c.column
  unfold applyCandidate Candidate.insertLength
  simp only
  split
  · next text htext =>
    rw [htext]
    split
    · next hempty =>
      rw [String.isEmpty_iff.mp hempty, hpoint]
      simp
    · rw [hpoint]
      rfl
  · next hnone =>
    rw [hnone, hpoint]
    simp

namespace Standing

/-- Everything of a line before its code, and what stands before the line. -/
theorem length_before (h : d.Standing before blanks put code after)
    (hpos : d.text.lineStart pos = before.length) :
    (before ++ d.mark ++ blanks ++ ofString put).length = d.indentationPoint pos + put.length := by
  rw [h.indentationPoint_eq hpos]
  simp only [length_append, length_ofString]

/-- The text of a document is what stands before the code of the line, and the code with what
follows. -/
theorem text_cut (h : d.Standing before blanks put code after) :
    d.text = (before ++ d.mark ++ blanks ++ ofString put) ++ (code ++ after) := by
  rw [h.text_eq]
  simp only [append_assoc]

/-- Behind a caret in the code there is the same text, before and after another indentation. -/
theorem dropTo_caret (h : d.Standing before blanks put code after)
    (h' : e.Standing before blanks' put' code after) (hpos : d.text.lineStart pos = before.length)
    (hcode : d.indentationPoint pos + put.length ≤ pos) :
    e.text.dropTo ((before ++ e.mark ++ blanks' ++ ofString put').length +
      (pos - (d.indentationPoint pos + put.length))) =
      d.text.dropTo pos := by
  rw [h.text_cut, h'.text_cut, ← h.length_before hpos]
  refine dropTo_eq_of_append ?_
  rw [h.length_before hpos]
  exact hcode

/-- A caret that keeps its distance from the code stays on the line, and in the text. -/
theorem lineStart_caret (h : d.Standing before blanks put code after)
    (h' : e.Standing before blanks' put' code after) (hpos : d.text.lineStart pos = before.length)
    (hcode : d.indentationPoint pos + put.length ≤ pos) {point : Int}
    (hpoint : point = (before ++ e.mark ++ blanks' ++ ofString put').length +
      (pos - (d.indentationPoint pos + put.length))) :
    e.text.lineStart point = before.length ∧ (pos ≤ d.text.length → point ≤ e.text.length) := by
  have hd := congrArg Text.length h.text_cut
  have he := congrArg Text.length h'.text_cut
  have hstart := h.length_before hpos
  have hnonneg := d.indentationPoint_nonneg pos
  have h₁ := before.length_nonneg
  have h₂ := e.mark.length_nonneg
  have h₃ := blanks'.length_nonneg
  have h₄ := code.length_nonneg
  have h₅ := after.length_nonneg
  simp only [length_append, length_ofString] at hd he hstart hpoint
  refine ⟨?_, fun hin => by omega⟩
  -- a caret beyond the text counts as one at its end, in both documents
  have hin : min pos d.text.length ≤ d.text.lineStop (min pos d.text.length) :=
    le_lineStop (by omega) (by omega)
  rw [h.cut.lineStop_eq ((lineStart_min (by omega)).trans hpos)] at hin
  simp only [length_append, length_ofString] at hin
  rw [← lineStart_min (by omega)]
  refine h'.cut.lineStart_of_between (by omega) ?_
  simp only [length_append, length_ofString]
  omega

/-- The code starts on its line. -/
theorem lineStart_code (h : d.Standing before blanks put code after) :
    d.text.lineStart (before ++ d.mark ++ blanks ++ ofString put).length = before.length := by
  have h₁ := d.mark.length_nonneg
  have h₂ := blanks.length_nonneg
  have h₃ := code.length_nonneg
  refine h.cut.lineStart_of_between ?_ ?_ <;> simp only [length_append, length_ofString] <;> omega

end Standing

end Document

namespace TabKey

variable {k : TabKey} {s : Settings} {d : Document} {pos : Int} {command last : String}
  {c : TabCycle}

/-- A caret in the code keeps its distance from it; any other goes to the given place. -/
theorem caretAfter_eq (d : Document) (pos : Int) (removed : Nat) (point : Int) :
    caretAfter d pos removed point =
      if d.indentationPoint pos + removed < pos
        then point + (pos - (d.indentationPoint pos + removed)) else point := by
  unfold caretAfter
  simp only
  split
  · rw [if_pos (by omega)]
    omega
  · rw [if_neg (by omega)]

/-- A turn that applies an entry: what it leaves, and where the caret goes. -/
theorem turn_applied [Platform] {notes : List Note} {p : TabPress} {i : Nat}
    (hp : (k.turn d pos c notes).press.result = .ok p) (hi : p.index = some i) :
    ∃ chosen, c.candidates[i]? = some chosen ∧ p.candidates = c.candidates ∧
      (k.turn d pos c notes).doc = (d.applyCandidate c.lineStart chosen c.inserted).1 ∧
      p.point = caretAfter d pos c.inserted (d.applyCandidate c.lineStart chosen c.inserted).2 := by
  cases hchosen : c.candidates[c.next]? with
  | none =>
    simp only [turn, hchosen] at hp
    cases hp
    cases hi
  | some chosen =>
    cases hcheck : d.checkIndent c.lineStart chosen.column with
    | error e =>
      rw [turn_of_error hchosen hcheck] at hp
      cases hp
    | ok u =>
      rw [turn_of_ok hchosen hcheck] at hp ⊢
      cases hp
      cases hi
      exact ⟨chosen, hchosen, rfl, rfl, rfl⟩

/-- A press at which the key fits: the line before and after it, with the same code, and the
caret. -/
theorem Fits.press_caret [Platform] (h : k.Fits d last) {p : TabPress} {i : Nat}
    (hp : (k.press s d pos command).press.result = .ok p) (hi : p.index = some i) :
    ∃ chosen before blanks code after, p.candidates[i]? = some chosen ∧
      d.text.lineStart pos = before.length ∧
      d.Standing before blanks (k.putBefore d (d.text.lineStart pos) command last) code after ∧
      (k.press s d pos command).doc.Standing before (d.blanksTo chosen.column)
        (chosen.insert.getD "") code after ∧
      p.point = caretAfter d pos (k.putBefore d (d.text.lineStart pos) command last).length
        (before ++ d.mark ++ d.blanksTo chosen.column ++ Text.ofString
          (chosen.insert.getD "")).length := by
  rcases press_idle_or_uses k s d pos command with ⟨-, -, hindex⟩ | ⟨hprose, c, huse⟩
  · rw [hindex p hp] at hi
    cases hi
  obtain ⟨hfits, hline, hlen, before, blanks, code, after, hstanding, hbefore⟩ :=
    h.of_uses hprose huse
  obtain ⟨notes, hpress⟩ := press_eq_turn hprose huse
  rw [hpress] at hp ⊢
  obtain ⟨chosen, hchosen, hcandidates, hdoc, hpoint⟩ := turn_applied hp hi
  have hinsert : ∀ text ∈ chosen.insert, IsInsert text := fun text ht =>
    (hfits.inserts chosen (List.mem_of_getElem? hchosen) text ht).2
  have hstart : d.text.lineStart c.lineStart = before.length := by
    rw [hline, d.text.lineStart_lineStart, hbefore]
  refine ⟨chosen, before, blanks, code, after, hcandidates ▸ hchosen, hbefore, hstanding, ?_, ?_⟩
  · rw [hdoc, hlen]
    exact hstanding.applyCandidate hstart hinsert
  · rw [hpoint, hlen, Document.applyCandidate_point, hstart, hstanding.leadFor_eq]
    simp only [Text.length_append, Text.length_ofString, Candidate.insertLength, Int.add_assoc]

/-- Where the caret goes: it keeps what follows it, or goes to where the code starts, and stays on
the line. -/
theorem caret_of_standing {e : Document} {before blanks blanks' code after : Text}
    {put put' : String} {point : Int} (h : d.Standing before blanks put code after)
    (h' : e.Standing before blanks' put' code after) (hpos : d.text.lineStart pos = before.length)
    (hpoint : point = caretAfter d pos put.length
      (before ++ e.mark ++ blanks' ++ Text.ofString put').length) :
    e.text.lineStart point = before.length ∧ (pos ≤ d.text.length → point ≤ e.text.length) ∧
      if d.indentationPoint pos + put.length < pos then e.text.dropTo point = d.text.dropTo pos
      else point = (before ++ e.mark ++ blanks' ++ Text.ofString put').length := by
  rw [caretAfter_eq] at hpoint
  split at hpoint
  · next hcode =>
    obtain ⟨hline, hin⟩ := h.lineStart_caret h' hpos (Int.le_of_lt hcode) hpoint
    refine ⟨hline, hin, ?_⟩
    rw [if_pos hcode, hpoint]
    exact h.dropTo_caret h' hpos (Int.le_of_lt hcode)
  · next hcode =>
    have htext := congrArg Text.length h'.text_cut
    have hrest := (code ++ after).length_nonneg
    rw [Text.length_append] at htext
    rw [if_neg hcode, hpoint]
    exact ⟨h'.lineStart_code, fun _ => by omega, rfl⟩

end TabKey

namespace Session

variable {ι : Type} [DecidableEq ι]

/-- In every run, each press that applies a candidate keeps the caret at its place in the code. The
text before and after the press is that of `press_keeps_code`, with code that starts with no blank.
When the caret stood behind the start of the code, that is behind the old indentation and the text
that the press takes out, then the same text follows it as before; otherwise it goes to where the
code starts now. In both cases it stays on the line, and does not leave the text. -/
theorem press_keeps_caret [Platform] (d : Document) (events : List (Event ι)) (who : ι)
    (s : Settings) (pos : Int) (command : String) :
    let σ := Session.run { doc := d } events
    let o := (σ.keys who).press s σ.doc pos command
    let bol := σ.doc.text.lineStart pos
    let before := σ.doc.text.takeTo bol
    let after := σ.doc.text.dropTo (σ.doc.text.lineStop pos)
    let put := if ((σ.keys who).continued? σ.doc bol command).isSome then σ.lastInsert who else ""
    ∀ p i, o.press.result = .ok p → p.index = some i → ∃ c code, p.candidates[i]? = some c ∧
      σ.doc.text = before ++ σ.doc.text.slice bol (σ.doc.indentationPoint pos) ++
        Text.ofString put ++ code ++ after ∧
      o.doc.text = before ++ σ.doc.leadFor bol c.column ++ Text.ofString (c.insert.getD "") ++
        code ++ after ∧
      (∀ x, code.chars[0]? = some x → Document.isBlank x = false) ∧
      o.doc.text.lineStart p.point = bol ∧ (pos ≤ σ.doc.text.length → p.point ≤ o.doc.text.length) ∧
      if σ.doc.indentationPoint pos + put.length < pos
        then o.doc.text.dropTo p.point = σ.doc.text.dropTo pos
      else p.point = (before ++ σ.doc.leadFor bol c.column ++ Text.ofString
        (c.insert.getD "")).length := by
  intro σ o bol before after put p i hp hi
  have hfits : (σ.keys who).Fits σ.doc (σ.lastInsert who) := (fits_new d).run events who
  obtain ⟨c, above, blanks, code, below, hc, hbol, hold, hnew, hpoint⟩ := hfits.press_caret hp hi
  obtain ⟨hbefore, hlead, hafter⟩ := hold.parts hbol
  have hmark : o.doc.mark = σ.doc.mark :=
    Document.mark_eq_of_edited (TabKey.press_edited _ s σ.doc pos command)
  have hnewLead : σ.doc.leadFor bol c.column = σ.doc.mark ++ σ.doc.blanksTo c.column := by
    show σ.doc.leadFor (σ.doc.text.lineStart pos) c.column = _
    rw [hbol, hold.leadFor_eq]
  refine ⟨c, code, hc, ?_, ?_, hold.code, ?_⟩
  · show σ.doc.text = σ.doc.text.takeTo (σ.doc.text.lineStart pos) ++ _ ++ _ ++ code ++
      σ.doc.text.dropTo (σ.doc.text.lineStop pos)
    rw [hbefore, hlead, hafter]
    exact hold.cut.eq.trans (by simp only [Text.append_assoc]; rfl)
  · show o.doc.text = σ.doc.text.takeTo (σ.doc.text.lineStart pos) ++ _ ++ _ ++ code ++
      σ.doc.text.dropTo (σ.doc.text.lineStop pos)
    rw [hbefore, hnewLead, hafter, hnew.text_cut, hmark]
    simp only [Text.append_assoc]
  · show o.doc.text.lineStart p.point = σ.doc.text.lineStart pos ∧ _ ∧
      if _ then _ else p.point = (σ.doc.text.takeTo (σ.doc.text.lineStart pos) ++ _ ++ _).length
    rw [hbefore, hnewLead, hbol, ← Text.append_assoc, ← hmark]
    exact TabKey.caret_of_standing hold hnew hbol (hmark ▸ hpoint)

/-- A call below a definition, after one press moved it to the margin. -/
def afterOne : Session Bool :=
  Session.run { doc := .new (Text.ofString "f x = 1\n    go\n") .plain 8 }
    [.press true {} 13 TabKey.defaultCommand]

/-- The second press, with the caret inside the word, moves both six columns right. -/
theorem press_keeps_caret_second :
    let o := (afterOne.keys true).press {} afterOne.doc 9 TabKey.defaultCommand
    afterOne.doc.indentationPoint 9 = 8 ∧ ∃ p, o.press.result = .ok p ∧ p.index = some 1 ∧
      p.point = 15 ∧
      o.doc.text.lineStart 15 = 8 ∧ o.doc.text.dropTo 15 = afterOne.doc.text.dropTo 9 := by
  intro o
  have hresult : o.press.result = .ok ⟨[⟨0, none⟩, ⟨6, none⟩], some 1, 15⟩ := by decide +kernel
  have hpoint : afterOne.doc.indentationPoint 9 = 8 := by decide +kernel
  have hbol : afterOne.doc.text.lineStart 9 = 8 := by decide +kernel
  have hput : (if ((afterOne.keys true).continued? afterOne.doc 8 TabKey.defaultCommand).isSome then
      afterOne.lastInsert true else "") = "" := by decide +kernel
  obtain ⟨c, code, -, -, -, -, hline, -, hcaret⟩ :=
    press_keeps_caret (.new (Text.ofString "f x = 1\n    go\n") .plain 8)
      [.press true {} 13 TabKey.defaultCommand] true
      {} 9 TabKey.defaultCommand _ 1 hresult rfl
  rw [show Session.run _ _ = afterOne from rfl] at hline hcaret
  rw [hbol] at hline
  rw [hbol, hput, hpoint, if_pos (by decide)] at hcaret
  exact ⟨hpoint, _, hresult, rfl, rfl, hline, hcaret⟩

end Session

end LayoutRule
