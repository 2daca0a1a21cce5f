import LayoutRule.Proofs.Document.Numbering
import LayoutRule.Proofs.Request.Candidates
import LayoutRule.Service.Route

/-!
# How requests to the service are answered

Every request for candidates gets an answer, and its status tells what became of it. A body that is
no JSON or has a wrong field is refused (`Flawed` says which fields are wrong, whatever the order in
which they are looked at); all others ask for the candidates at the start of a line of a text
(`Asks`). Such a request fails only when it lies too deep, and that is answered too. So the service
gives up in one case only, when a column has more digits than the platform writes (`indent_status`).

How the bytes of a body become a value is left to a reader, and no statement here depends on it.
-/

namespace LayoutRule

namespace Service

open Text

variable {base : ServiceSettings} {v : Json} {q : Query} {pos : Int}

/-! ## Fields -/

/-- Only an integer that is at least one is read as a positive integer: no truth value and no number
with a fraction. -/
theorem positive?_eq_some_iff {j : Json} {n : Int} : positive? j = some n ↔ j = .int n ∧ 1 ≤ n := by
  cases j with
  | int m =>
    simp only [positive?, Option.ite_none_right_eq_some, Option.some.injEq, Json.int.injEq]
    constructor
    · rintro ⟨h, rfl⟩
      exact ⟨rfl, h⟩
    · rintro ⟨rfl, h⟩
      exact ⟨h, rfl⟩
  | _ => simp [positive?]

/-- Only a string that names a literate style is read as one. -/
theorem style?_eq_some_iff {j : Json} {style : Literate} :
    style? j = some style ↔ ∃ name, j = .string name ∧ Literate.ofName? name = some style := by
  cases j <;> simp [style?]

/-- The text of a request is read when the field is there and is a string. -/
theorem readText_eq_ok_iff {s : String} :
    readText v = .ok s ↔ v.field? "text" = some (.string s) := by
  unfold readText
  split
  · next t ht => simp [ht]
  · next hnot =>
    simp only [reduceCtorEq, false_iff]
    exact hnot s

/-- The line of a request is read when the field is there and is a positive integer. -/
theorem readLine_eq_ok_iff {n : Int} :
    readLine v = .ok n ↔ v.field? "line" = some (.int n) ∧ 1 ≤ n := by
  have hfield : (v.field? "line").bind positive? = some n ↔
      v.field? "line" = some (.int n) ∧ 1 ≤ n := by
    simp only [Option.bind_eq_some_iff, positive?_eq_some_iff]
    constructor
    · rintro ⟨_, hj, rfl, hn⟩
      exact ⟨hj, hn⟩
    · rintro ⟨hj, hn⟩
      exact ⟨_, hj, rfl, hn⟩
  rw [← hfield]
  unfold readLine
  cases (v.field? "line").bind positive? <;> simp

/-- The style of a request is read when the field names a style. When the field is missing, the
style is that of the service. -/
theorem readStyle_eq_ok_iff {style : Literate} : readStyle base v = .ok style ↔
    v.field? "literate" = none ∧ style = base.style ∨
      ∃ name, v.field? "literate" = some (.string name) ∧ Literate.ofName? name = some style := by
  unfold readStyle
  cases v.field? "literate" with
  | none => simp [eq_comm]
  | some j =>
    have hname := @style?_eq_some_iff j style
    cases hj : style? j with
    | none => simp_all
    | some found => simp_all

/-- The step of a request is read when the field is a positive integer. It may be missing or null,
and then there is none. -/
theorem readStep_eq_ok_iff {step : Option Int} : readStep v = .ok step ↔
    (v.field? "indent_step" = none ∨ v.field? "indent_step" = some .null) ∧ step = none ∨
      ∃ n, v.field? "indent_step" = some (.int n) ∧ 1 ≤ n ∧ step = some n := by
  unfold readStep
  split
  · next h => simp [h, eq_comm]
  · next h => simp [h, eq_comm]
  · next j hnull hj =>
    have hstep : ∀ n, positive? j = some n ↔ j = .int n ∧ 1 ≤ n := fun n => positive?_eq_some_iff
    have hgiven : ¬j = .null := hnull
    simp only [hj, reduceCtorEq, Option.some.injEq, hgiven, or_self, false_and, false_or,
      ← and_assoc, ← hstep]
    cases positive? j <;> simp [eq_comm]

/-- What a value has to say to be read as a query. -/
structure Reads (base : ServiceSettings) (v : Json) (q : Query) : Prop where
  text : v.field? "text" = some (.string q.text)
  line : v.field? "line" = some (.int q.line) ∧ 1 ≤ q.line
  style : v.field? "literate" = none ∧ q.style = base.style ∨
    ∃ name, v.field? "literate" = some (.string name) ∧ Literate.ofName? name = some q.style
  step : (v.field? "indent_step" = none ∨ v.field? "indent_step" = some .null) ∧ q.step = none ∨
    ∃ n, v.field? "indent_step" = some (.int n) ∧ 1 ≤ n ∧ q.step = some n

/-- Only an object has fields. -/
theorem exists_object_of_field? {name : String} {j : Json} (h : v.field? name = some j) :
    ∃ fields, v = .object fields := by
  cases v with
  | object fields => exact ⟨fields, rfl⟩
  | _ => cases h

/-- A value is read as a query exactly when all its fields can be read. -/
theorem readQuery_eq_ok_iff : readQuery base (some v) = .ok q ↔ Reads base v q := by
  have hread : ∀ fields, readQuery base (some (.object fields)) = .ok q ↔
      Reads base (.object fields) q := by
    intro fields
    unfold readQuery
    simp only [bind_eq_ok, readText_eq_ok_iff, readLine_eq_ok_iff, readStyle_eq_ok_iff,
      readStep_eq_ok_iff]
    constructor
    · rintro ⟨_, hobject, text, htext, line, hline, style, hstyle, step, hstep, hq⟩
      cases hobject
      cases hq
      exact ⟨htext, hline, hstyle, hstep⟩
    · rintro ⟨htext, hline, hstyle, hstep⟩
      exact ⟨_, rfl, _, htext, _, hline, _, hstyle, _, hstep, rfl⟩
  constructor
  · intro h
    cases v with
    | object fields => exact (hread fields).mp h
    | _ => cases h
  · intro h
    obtain ⟨fields, rfl⟩ := exists_object_of_field? h.text
    exact (hread fields).mpr h

/-! ## Requests that are refused, and those that ask -/

/-- What is wrong with a value. -/
inductive Flawed (v : Json) : Prop
  | notObject (h : ∀ fields, v ≠ .object fields)
  | text (h : ∀ s, v.field? "text" ≠ some (.string s))
  | line (h : ∀ n, v.field? "line" = some (.int n) → n < 1)
  /-- The text has no such line. -/
  | range (s : String) (n : Int) (htext : v.field? "text" = some (.string s))
    (hline : v.field? "line" = some (.int n))
      (h : s.toList.count '\n' + 1 < n)
  | literate (j : Json) (given : v.field? "literate" = some j)
      (h : j ≠ .string "none" ∧ j ≠ .string "bird" ∧ j ≠ .string "latex")
  | step (j : Json) (given : v.field? "indent_step" = some j) (notNull : j ≠ .null)
    (h : ∀ n, j = .int n → n < 1)

/-- A value asks for the candidates at the start of a line of a text. -/
structure Asks (base : ServiceSettings) (v : Json) (q : Query) (pos : Int) :
    Prop extends Reads base v q where
  /-- The line with the given number, counted from one, starts there. -/
  place : ∃ before line after, (ofString q.text).Cut before line after ∧
    (before.chars.count '\n' : Int) + 1 = q.line ∧ pos = before.length

/-- There are three names of literate styles. -/
theorem ofName?_isSome_iff {name : String} :
    (∃ style, Literate.ofName? name = some style) ↔
      name = "none" ∨ name = "bird" ∨ name = "latex" := by
  unfold Literate.ofName?
  constructor
  · rintro ⟨style, h⟩
    split at h
    · next hname => exact .inl hname
    split at h
    · next hname => exact .inr (.inl hname)
    split at h
    · next hname => exact .inr (.inr hname)
    · cases h
  · rintro (rfl | rfl | rfl)
    · exact ⟨.plain, rfl⟩
    · exact ⟨.bird, rfl⟩
    · exact ⟨.latex, rfl⟩

/-- A text has one line more than newlines. -/
theorem lineCount_ofString (s : String) : (ofString s).lineCount = s.toList.count '\n' + 1 := by
  simp [lineCount, ofString]

/-- A value that asks for candidates has no flaw. -/
theorem Asks.not_flawed (h : Asks base v q pos) : ¬Flawed v := by
  intro hflawed
  cases hflawed with
  | notObject hnot =>
    obtain ⟨fields, rfl⟩ := exists_object_of_field? h.text
    exact hnot fields rfl
  | text hnot => exact hnot q.text h.text
  | line hlt =>
    have := hlt q.line h.line.1
    have := h.line.2
    omega
  | range s n htext hline hlt =>
    cases h.text.symm.trans htext
    cases h.line.1.symm.trans hline
    obtain ⟨before, line, after, hcut, hnumber, -⟩ := h.place
    have hcount := hcut.lineCount_eq
    rw [lineCount_ofString] at hcount
    omega
  | literate j given hnot =>
    rcases h.style with ⟨hnone, -⟩ | ⟨name, hname, hstyle⟩
    · cases given.symm.trans hnone
    · cases given.symm.trans hname
      rcases ofName?_isSome_iff.mp ⟨_, hstyle⟩ with rfl | rfl | rfl
      · exact hnot.1 rfl
      · exact hnot.2.1 rfl
      · exact hnot.2.2 rfl
  | step j given notNull hlt =>
    rcases h.step with ⟨hnone | hnull, -⟩ | ⟨n, hn, hpos, -⟩
    · cases given.symm.trans hnone
    · cases given.symm.trans hnull
      exact notNull rfl
    · cases given.symm.trans hn
      have := hlt n rfl
      omega

/-- A value that is read, and whose line is one of the text, asks for candidates. -/
theorem Reads.asks (h : Reads base v q) (hle : q.line ≤ (ofString q.text).lineCount) :
    ∃ pos, Asks base v q pos := by
  have hone := h.line.2
  obtain ⟨before, line, after, hcut, -, hnumber⟩ :=
    (ofString q.text).exists_cut_of_lt (n := (q.line - 1).toNat) (by omega)
  exact ⟨before.length, h, before, line, after, hcut, by omega, rfl⟩

/-- A text that cannot be read is a flaw. -/
theorem flawed_of_readText {e : Refusal} (h : readText v = .error e) : Flawed v := by
  refine .text fun s hs => ?_
  rw [readText_eq_ok_iff.mpr hs] at h
  cases h

/-- A line that cannot be read is a flaw. -/
theorem flawed_of_readLine {e : Refusal} (h : readLine v = .error e) : Flawed v := by
  refine .line fun n hn => Int.not_le.mp fun hpos => ?_
  rw [readLine_eq_ok_iff.mpr ⟨hn, hpos⟩] at h
  cases h

/-- A style that cannot be read is a flaw. -/
theorem flawed_of_readStyle {e : Refusal} (h : readStyle base v = .error e) : Flawed v := by
  cases hj : v.field? "literate" with
  | none =>
    rw [readStyle_eq_ok_iff.mpr (.inl ⟨hj, rfl⟩)] at h
    cases h
  | some j =>
    have hnot : ∀ name, (∃ style, Literate.ofName? name = some style) → j ≠ .string name := by
      rintro name ⟨style, hstyle⟩ rfl
      rw [readStyle_eq_ok_iff.mpr (.inr ⟨name, hj, hstyle⟩)] at h
      cases h
    exact .literate j hj ⟨hnot _ ⟨_, rfl⟩, hnot _ ⟨_, rfl⟩, hnot _ ⟨_, rfl⟩⟩

/-- A step that cannot be read is a flaw. -/
theorem flawed_of_readStep {e : Refusal} (h : readStep v = .error e) : Flawed v := by
  cases hj : v.field? "indent_step" with
  | none =>
    rw [readStep_eq_ok_iff.mpr (.inl ⟨.inl hj, rfl⟩)] at h
    cases h
  | some j =>
    refine .step j hj ?_ fun n hn => Int.not_le.mp fun hpos => ?_
    · rintro rfl
      rw [readStep_eq_ok_iff.mpr (.inl ⟨.inr hj, rfl⟩)] at h
      cases h
    · subst hn
      rw [readStep_eq_ok_iff.mpr (.inr ⟨n, hj, hpos, rfl⟩)] at h
      cases h

/-- A value that is not read as a query has a flaw. -/
theorem flawed_of_readQuery {e : Refusal} (h : readQuery base (some v) = .error e) : Flawed v := by
  cases htext : readText v with
  | error e => exact flawed_of_readText htext
  | ok text =>
    cases hline : readLine v with
    | error e => exact flawed_of_readLine hline
    | ok line =>
      cases hstyle : readStyle base v with
      | error e => exact flawed_of_readStyle hstyle
      | ok style =>
        cases hstep : readStep v with
        | error e => exact flawed_of_readStep hstep
        | ok step =>
          have hread : readQuery base (some v) = .ok ⟨text, line, style, step⟩ :=
            readQuery_eq_ok_iff.mpr
              ⟨readText_eq_ok_iff.mp htext, readLine_eq_ok_iff.mp hline,
                readStyle_eq_ok_iff.mp hstyle, readStep_eq_ok_iff.mp hstep⟩
          cases hread.symm.trans h

/-! ## Answers -/

/-- The request that a query makes at a position. -/
def Query.candidates (base : ServiceSettings) (q : Query) (pos : Int) : Noted (List Candidate) :=
  (q.document base).candidates (q.settings base) pos

/-- Candidates and diagnostics as JSON. -/
def resultJson (cs : List Candidate) (diagnostics : List String) : Json :=
  .object [("candidates", .array (cs.map candidateJson)),
    ("diagnostics", .array (diagnostics.map .string))]

/-- A value is refused for a flaw, or it asks for candidates. -/
theorem indent_cases [Platform] (base : ServiceSettings) (v : Json) :
    (Flawed v ∧ ∃ why, indent base (some v) = refuse why) ∨ ∃ q pos, Asks base v q pos := by
  unfold indent
  cases hread : readQuery base (some v) with
  | error why => exact .inl ⟨flawed_of_readQuery hread, why, rfl⟩
  | ok q =>
    have hreads := readQuery_eq_ok_iff.mp hread
    simp only
    split
    · next hle =>
      obtain ⟨pos, hasks⟩ := hreads.asks hle
      exact .inr ⟨q, pos, hasks⟩
    · next hgt =>
      refine .inl ⟨.range q.text q.line hreads.text hreads.line.1 ?_, _, rfl⟩
      have hcount := lineCount_ofString q.text
      simp only [Query.document, Document.new] at hgt
      omega

/-- The line that a value asks for starts at the position that it asks about. -/
theorem Asks.positionOf_eq (h : Asks base v q pos) :
    (q.document base).positionOf (q.line - 1) 0 = .ok pos := by
  obtain ⟨before, line, after, hcut, hnumber, rfl⟩ := h.place
  have hposition := Document.positionOf_of_cut (d := q.document base) hcut
  rwa [show (before.chars.count '\n' : Int) = q.line - 1 by omega] at hposition

/-- A value that asks for candidates passes all checks, and its line is answered. -/
theorem Asks.indent_eq [Platform] (h : Asks base v q pos) :
    indent base (some v) = answerLine (q.document base) (q.settings base) q.line := by
  obtain ⟨before, line, after, hcut, hnumber, -⟩ := h.place
  have hcount := hcut.lineCount_eq
  unfold indent
  rw [readQuery_eq_ok_iff.mpr h.toReads]
  simp only
  rw [if_pos (by simp only [Query.document, Document.new]; omega)]

/-- The request that is made for the line is the one at its start. -/
theorem Asks.request_eq (h : Asks base v q pos) :
    (do (q.document base).candidates (q.settings base)
          (← (q.document base).positionOf (q.line - 1) 0) : Noted (List Candidate)) =
      q.candidates base pos := by
  rw [h.positionOf_eq]
  rfl

variable {cs : List Candidate}

/-- Candidates are given, unless a column cannot be written. -/
theorem Asks.indent_of_ok [Platform] (h : Asks base v q pos)
    (hcs : (q.candidates base pos).result = .ok cs) :
    indent base (some v) = if cs.all fun c => IntegerText.isWritable c.column then
      ⟨200, .json (resultJson cs (q.candidates base pos).diagnostics)⟩ else ⟨500, .page⟩ := by
  rw [h.indent_eq]
  unfold answerLine
  rw [h.request_eq]
  simp only [hcs]
  rfl

/-- A request that lies too deep is answered with the reason. -/
theorem Asks.indent_of_tooDeep [Platform] {levels : Int} (h : Asks base v q pos)
    (hdeep : (q.candidates base pos).result = .error (.tooDeep levels)) :
    indent base (some v) = ⟨422, .json (errorJson (Fault.tooDeep levels).message)⟩ := by
  rw [h.indent_eq]
  unfold answerLine
  rw [h.request_eq]
  simp only [hdeep]
  rfl

/-- A query has candidates or lies too deep. -/
theorem Query.candidates_cases (base : ServiceSettings) (q : Query) (pos : Int) :
    (∃ cs, (q.candidates base pos).result = .ok cs) ∨
      (q.candidates base pos).result = .error (.tooDeep base.settings.maxNestingDepth) := by
  have hdepth : (q.settings base).maxNestingDepth = base.settings.maxNestingDepth := by
    unfold Query.settings
    split <;> rfl
  rcases ((q.document base).candidates_settles (q.settings base) pos).result with
    ⟨cs, hcs, -⟩ | hdeep
  · exact .inl ⟨cs, hcs⟩
  · exact .inr (hdepth ▸ hdeep)

/-! ## Statuses -/

/-- Why a request is answered with a status, by the value of its body. Only the last cause is none
of the service's own: a column that the platform cannot write. -/
inductive Cause [Platform] (base : ServiceSettings) (value : Option Json) : Nat → Prop
  /-- The body is no JSON. -/
  | noJson (hvalue : value = none) : Cause base value 400
  /-- A field is wrong. -/
  | flawed {v : Json} (hvalue : value = some v) (hflawed : Flawed v) : Cause base value 400
  /-- The request lies too deep. -/
  | tooDeep {v : Json} {q : Query} {pos : Int} (hvalue : value = some v) (hasks : Asks base v q pos)
      (hdeep : (q.candidates base pos).result =
        .error (.tooDeep base.settings.maxNestingDepth)) : Cause base value 422
  /-- There are candidates, and all of them can be written. -/
  | answered {v : Json} {q : Query} {pos : Int} {cs : List Candidate} (hvalue : value = some v)
      (hasks : Asks base v q pos) (hcs : (q.candidates base pos).result = .ok cs)
      (hall : ∀ c ∈ cs, IntegerText.isWritable c.column = true) : Cause base value 200
  /-- There are candidates, and one of them cannot be written. -/
  | unwritten {v : Json} {q : Query} {pos : Int} {cs : List Candidate} {c : Candidate}
      (hvalue : value = some v) (hasks : Asks base v q pos)
      (hcs : (q.candidates base pos).result = .ok cs) (hc : c ∈ cs)
      (hwide : IntegerText.isWritable c.column = false) : Cause base value 500

/-- Every value has one of the causes: it is refused or asks for candidates, and a request for
candidates fails in no other way than by its depth. -/
theorem exists_cause [Platform] (base : ServiceSettings) (value : Option Json) :
    ∃ status, Cause base value status := by
  cases hvalue : value with
  | none => exact ⟨400, .noJson rfl⟩
  | some v =>
    rcases indent_cases base v with ⟨hflawed, -⟩ | ⟨q, pos, hasks⟩
    · exact ⟨400, .flawed rfl hflawed⟩
    · rcases q.candidates_cases base pos with ⟨cs, hcs⟩ | hdeep
      · by_cases hall : ∀ c ∈ cs, IntegerText.isWritable c.column = true
        · exact ⟨200, .answered rfl hasks hcs hall⟩
        · simp only [Classical.not_forall, Bool.not_eq_true] at hall
          obtain ⟨c, hc, hwide⟩ := hall
          exact ⟨500, .unwritten rfl hasks hcs hc hwide⟩
      · exact ⟨422, .tooDeep rfl hasks hdeep⟩

/-- Candidates that can be written are given. -/
theorem Asks.indent_of_writable [Platform] (h : Asks base v q pos)
    (hcs : (q.candidates base pos).result = .ok cs)
    (hall : ∀ c ∈ cs, IntegerText.isWritable c.column = true) :
    indent base (some v) = ⟨200, .json (resultJson cs (q.candidates base pos).diagnostics)⟩ := by
  rw [h.indent_of_ok hcs, if_pos (List.all_eq_true.mpr hall)]

/-- Each cause leads to its status. -/
theorem Cause.status_eq [Platform] {value : Option Json} {status : Nat}
    (h : Cause base value status) : (indent base value).status = status := by
  cases h with
  | noJson hvalue =>
    subst hvalue
    rfl
  | flawed hvalue hflawed =>
    subst hvalue
    rcases indent_cases base _ with ⟨-, why, hwhy⟩ | ⟨q, pos, hasks⟩
    · rw [hwhy]
      rfl
    · exact absurd hflawed hasks.not_flawed
  | tooDeep hvalue hasks hdeep => rw [hvalue, hasks.indent_of_tooDeep hdeep]
  | answered hvalue hasks hcs hall => rw [hvalue, hasks.indent_of_writable hcs hall]
  | unwritten hvalue hasks hcs hc hwide =>
    rw [hvalue, hasks.indent_of_ok hcs, if_neg]
    intro hall
    cases hwide.symm.trans (List.all_eq_true.mp hall _ hc)

/-- Every request for candidates is answered, and its status has exactly the causes above: 400 for a
body that is no JSON or has a flaw, 422 for a line that lies too deep, 500 for a column with more
digits than the platform writes, and 200 for all others. With 200 come the candidates and the
diagnostics of the line, and with 422 the reason. That is so for every value that the framework
makes of a body, whatever the framework is: once it has read the body, the answer depends on the
value alone. -/
theorem indent_status [Platform] (base : ServiceSettings) (value : Option Json) :
    (∀ status, (indent base value).status = status ↔ Cause base value status) ∧
    (∀ v q pos cs, value = some v → Asks base v q pos → (q.candidates base pos).result = .ok cs →
      (indent base value).status = 200 →
      (indent base value).content = .json (resultJson cs (q.candidates base pos).diagnostics)) ∧
    ((indent base value).status = 422 →
      (indent base value).content =
        .json (errorJson (Fault.tooDeep base.settings.maxNestingDepth).message)) ∧
    ∀ (reader : BodyReader) contentType body, isOneLine contentType = true →
      reader contentType body = .read value →
      respondWith reader base (.indent contentType body) = .ok (indent base value) := by
  have hstatus : ∀ status, (indent base value).status = status ↔ Cause base value status := by
    intro status
    obtain ⟨status', hcause⟩ := exists_cause base value
    constructor
    · intro h
      rw [← h, hcause.status_eq]
      exact hcause
    · exact Cause.status_eq
  refine ⟨hstatus, ?_, ?_, ?_⟩
  · intro v q pos cs hvalue hasks hcs h200
    rw [hvalue, hasks.indent_of_ok hcs] at h200 ⊢
    split at h200
    · next hall => rw [if_pos hall]
    · cases h200
  · intro h422
    cases (hstatus 422).mp h422 with
    | tooDeep hvalue hasks hdeep => rw [hvalue, hasks.indent_of_tooDeep hdeep]
  · intro reader contentType body hheader hread
    simp only [respondWith, hheader, if_true, answerBody, hread]

/-- A body that asks for the line below a definition. -/
def belowBody : ByteArray :=
  "\x7b\"text\": \"f x = 1\\n\", \"line\": 2, \"indent_step\": null\x7d".toUTF8

/-- The body is read as a value, and answered with the answer to this value, because all is well
with it. -/
theorem indent_status_belowBody :
    ∃ value, readBody "application/json" belowBody = .read value ∧
      respond {} (.indent "application/json" belowBody) = .ok (indent {} value) ∧
      Cause {} value 200 := by
  have h200 : (respond {} (.indent "application/json" belowBody)).toOption.map (·.status) =
      some 200 := by decide +kernel
  cases hread : readBody "application/json" belowBody with
  | givenUp =>
    simp only [respond, respondWith, answerBody, hread] at h200
    exact absurd h200 (by decide)
  | read value =>
    obtain ⟨hstatus, -, -, hrespond⟩ := indent_status {} value
    have hanswer := hrespond readBody _ _ (by decide) hread
    refine ⟨value, rfl, hanswer, (hstatus 200).mp ?_⟩
    rw [respond, hanswer] at h200
    exact Option.some.inj h200

/-- A value with the largest step that is read. -/
def wideStep : Json :=
  .object [("text", .string " f\n"), ("line", .int 2),
    ("indent_step", .int (IntegerText.limit - 1))]

/-- What it asks for. -/
def wideQuery : Query := ⟨" f\n", 2, .plain, some (IntegerText.limit - 1)⟩

/-- It has no flaw and there are candidates, but the second of them is given up with all others. -/
theorem indent_wideStep :
    Asks {} wideStep wideQuery 3 ∧
      (wideQuery.candidates {} 3).result = .ok [⟨1, none⟩, ⟨IntegerText.limit, none⟩] ∧
      (indent {} (some wideStep)).status = 500 := by
  have hplace : (ofString " f\n").Cut (ofString " f\n") (ofString "") (ofString "") :=
    ⟨by decide, by simp [ofString], by simp [ofString], by simp [ofString]⟩
  have hreads : Reads {} wideStep wideQuery :=
    ⟨rfl, ⟨rfl, by decide⟩, .inl ⟨rfl, rfl⟩, .inr ⟨_, rfl, by decide +kernel, rfl⟩⟩
  exact ⟨⟨hreads, _, _, _, hplace, by decide, by decide⟩, by decide +kernel, by decide +kernel⟩

end Service

end LayoutRule
