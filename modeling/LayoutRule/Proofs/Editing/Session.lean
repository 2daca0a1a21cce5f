import LayoutRule.Proofs.Editing.Standing

/-!
# Several TAB keys on one document

In a `Session` any number of TAB keys share a document, while the document is edited in other ways
as well. A press takes `inserted` characters out before it puts its own text in, without looking at
them. They are always the text that the same key put in last: a key goes on with its cycle only at
the version that its last press left behind, and at that version the line still stands as that press
left it (`TabCycle.Fits`). So no press ever takes out a character of the code (`press_keeps_code`).
-/

namespace LayoutRule

/-! ## What a press does -/

namespace TabKey

variable {k : TabKey} {s : Settings} {d : Document} {pos : Int} {command : String} {c : TabCycle}

/-- The cycle that a press works with: the one that it goes on with, or a new one with the
candidates of the line. -/
inductive Uses (k : TabKey) (s : Settings) (d : Document) (pos : Int) (command : String)
    (c : TabCycle) : Prop where
  | continued (h : k.continued? d (d.text.lineStart pos) command = some c)
  | fresh (cs : List Candidate) (h : k.continued? d (d.text.lineStart pos) command = none)
    (hcs : (d.candidates s pos).result = .ok cs) (hc : c = ⟨d.text.lineStart pos, cs, 0, 0, 0⟩)

/-- A press on a line of code turns the cycle that it works with. -/
theorem press_eq_turn [Platform] (hprose : d.isProse pos = false) (h : k.Uses s d pos command c) :
    ∃ notes, k.press s d pos command =
      turn { k with lastCommand := some command } d pos c notes := by
  unfold press
  rw [hprose]
  cases h with
  | continued h => exact ⟨[], by simp [h]⟩
  | fresh cs h hcs hc => exact ⟨(d.candidates s pos).notes, by simp [h, hcs, hc]⟩

/-- A press works with no cycle on prose, and when the candidates cannot be found. -/
theorem press_idle_or_uses [Platform] (k : TabKey) (s : Settings) (d : Document) (pos : Int)
    (command : String) :
    ((k.press s d pos command).doc = d ∧ (k.press s d pos command).key.cycle = k.cycle ∧
        ∀ p, (k.press s d pos command).press.result = .ok p → p.index = none) ∨
      d.isProse pos = false ∧ ∃ c, k.Uses s d pos command c := by
  cases hprose : d.isProse pos with
  | true =>
    left
    unfold press
    rw [hprose]
    exact ⟨rfl, rfl, fun p hp => by cases hp; rfl⟩
  | false =>
    cases hc : k.continued? d (d.text.lineStart pos) command with
    | some c => exact .inr ⟨rfl, c, .continued hc⟩
    | none =>
      cases hcs : (d.candidates s pos).result with
      | ok cs => exact .inr ⟨rfl, _, .fresh cs hc hcs rfl⟩
      | error e =>
        left
        unfold press
        simp [hprose, hc, hcs]

/-- A turn whose candidate lies too far right fails, and stays at that candidate. -/
theorem turn_of_error [Platform] {chosen : Candidate} {e : Fault}
    (hchosen : c.candidates[c.next]? = some chosen)
    (hcheck : d.checkIndent c.lineStart chosen.column = .error e) (notes : List Note) :
    k.turn d pos c notes = ⟨d, { k with cycle := some c }, ⟨notes, .error e⟩⟩ := by
  simp only [turn, hchosen, hcheck]

/-- The cycle after a candidate of it was applied. -/
def advanced (d : Document) (c : TabCycle) (chosen : Candidate) : TabCycle :=
  { c with
    next := (c.next + 1) % c.candidates.length
    inserted := chosen.insertLength
    version := (d.applyCandidate c.lineStart chosen c.inserted).1.version }

/-- A turn applies its candidate and goes on to the next one. -/
theorem turn_of_ok [Platform] {chosen : Candidate} (hchosen : c.candidates[c.next]? = some chosen)
    (hcheck : d.checkIndent c.lineStart chosen.column = .ok ()) (notes : List Note) :
    k.turn d pos c notes = ⟨(d.applyCandidate c.lineStart chosen c.inserted).1,
      { k with cycle := some (advanced d c chosen),
               message := Note.cycleMessage c.candidates.length },
      ⟨notes ++ [.cycled c.candidates.length], .ok ⟨c.candidates, some c.next,
        caretAfter d pos c.inserted (d.applyCandidate c.lineStart chosen c.inserted).2⟩⟩⟩ := by
  simp only [turn, hchosen, hcheck]
  rfl

/-- A turn applies the chosen candidate, or leaves the document and the cycle as they are. -/
theorem turn_cases [Platform] (k : TabKey) (d : Document) (pos : Int) (c : TabCycle)
    (notes : List Note) :
    ((k.turn d pos c notes).doc = d ∧ (k.turn d pos c notes).key.cycle = some c ∧
        ∀ p, (k.turn d pos c notes).press.result = .ok p → p.index = none) ∨
      ∃ chosen point, c.candidates[c.next]? = some chosen ∧
        (k.turn d pos c notes).doc = (d.applyCandidate c.lineStart chosen c.inserted).1 ∧
        (k.turn d pos c notes).key.cycle = some (advanced d c chosen) ∧
        (k.turn d pos c notes).press.result = .ok ⟨c.candidates, some c.next, point⟩ := by
  cases hchosen : c.candidates[c.next]? with
  | none =>
    have hturn : k.turn d pos c notes =
        ⟨d, { k with cycle := some c, message := "No indentation" },
          ⟨notes, .ok ⟨[], none, pos⟩⟩⟩ := by
      simp only [turn, hchosen]
    rw [hturn]
    exact .inl ⟨rfl, rfl, fun p hp => by cases hp; rfl⟩
  | some chosen =>
    cases hcheck : d.checkIndent c.lineStart chosen.column with
    | error e =>
      rw [turn_of_error hchosen hcheck]
      exact .inl ⟨rfl, rfl, fun p hp => by cases hp⟩
    | ok u =>
      rw [turn_of_ok hchosen hcheck]
      exact .inr ⟨chosen, _, rfl, rfl, rfl, rfl⟩

end TabKey

/-! ## Sessions -/

/-- The text that a press put in, when it applied a candidate. -/
def TabOutcome.inserted? (o : TabOutcome) : Option String :=
  match o.press.result with
  | .ok p => p.index.bind fun i => p.candidates[i]?.map fun c => c.insert.getD ""
  | .error _ => none

/-- A press that applies no candidate has put nothing in. -/
theorem TabOutcome.inserted?_eq_none {o : TabOutcome}
    (h : ∀ p, o.press.result = .ok p → p.index = none) : o.inserted? = none := by
  unfold inserted?
  cases hr : o.press.result with
  | error e => rfl
  | ok p => simp [h p hr]

/-- What may happen to a document that TAB keys share. -/
inductive Event (ι : Type) where
  | replaceRange (start stop : Int) (new : Text)
  | insertText (pos : Int) (new : Text)
  | deleteText (pos count : Int)
  | setText (new : Text)
  | indentLine (pos column : Int)
  /-- One of the keys takes note of another command. -/
  | noteCommand (who : ι) (command : String)
  /-- One of the keys is pressed. -/
  | press (who : ι) (s : Settings) (pos : Int) (command : String)

/-- A document and the TAB keys that share it, with the text that each of them put in last. -/
structure Session (ι : Type) where
  /-- The document. -/
  doc : Document
  /-- The keys. -/
  keys : ι → TabKey := fun _ => {}
  /-- The text that the last candidate of each key put in. -/
  lastInsert : ι → String := fun _ => ""

namespace Session

variable {ι : Type} [DecidableEq ι]

/-- Exchanges one value of a family. -/
def assign {α : Type} (f : ι → α) (who : ι) (a : α) : ι → α :=
  fun other => if other = who then a else f other

/-- What one event does. A line that cannot be indented so far stays as it is. -/
def step [Platform] (σ : Session ι) : Event ι → Session ι
  | .replaceRange start stop new => { σ with doc := σ.doc.replaceRange start stop new }
  | .insertText pos new => { σ with doc := σ.doc.insertText pos new }
  | .deleteText pos count => { σ with doc := σ.doc.deleteText pos count }
  | .setText new => { σ with doc := σ.doc.setText new }
  | .indentLine pos column =>
    match σ.doc.tryIndentLine pos column with
    | .ok (d, _) => { σ with doc := d }
    | .error _ => σ
  | .noteCommand who command =>
    { σ with keys := assign σ.keys who ((σ.keys who).noteCommand command) }
  | .press who s pos command =>
    let o := (σ.keys who).press s σ.doc pos command
    ⟨o.doc, assign σ.keys who o.key, assign σ.lastInsert who (o.inserted?.getD (σ.lastInsert who))⟩

/-- What a sequence of events does, first to last. -/
def run [Platform] (σ : Session ι) (events : List (Event ι)) : Session ι := events.foldl step σ

end Session

/-! ## Cycles fit their documents -/

/-- At the version that the last press left behind, the line stands as that press left it. -/
structure TabCycle.Fits (c : TabCycle) (d : Document) (last : String) : Prop where
  /-- The version has been reached. -/
  version_le : c.version ≤ d.version
  /-- The candidates put in texts of the rules. -/
  inserts : Inserts True c.candidates
  /-- The line stands as the last press left it. -/
  standing : c.version = d.version → c.inserted = last.length ∧ ∃ before blanks code after,
    d.Standing before blanks last code after ∧ c.lineStart = before.length

/-- Other edits never lead back to the version of a cycle. -/
theorem TabCycle.Fits.edited {c : TabCycle} {d d' : Document} {last : String} (h : c.Fits d last)
    (hd : d.Edited d') : c.Fits d' last := by
  have hle₁ := h.version_le
  have hle₂ := hd.version_le
  refine ⟨by omega, h.inserts, fun hv => ?_⟩
  obtain ⟨hlen, before, blanks, code, after, hstanding, hline⟩ := h.standing (by omega)
  refine ⟨hlen, before, blanks, code, after, ?_, hline⟩
  refine ⟨?_, hstanding.blanks, hstanding.put, hstanding.code⟩
  rw [hd.text (by omega), Document.mark_eq_of_edited hd]
  exact hstanding.cut

/-- What is known of a key at every moment: its cycle fits, and a text was put in only if there was
an edit. -/
structure TabKey.Fits (k : TabKey) (d : Document) (last : String) : Prop where
  /-- The cycle fits the document. -/
  cycle : ∀ c, k.cycle = some c → c.Fits d last
  /-- Text that was put in made a version. -/
  version_pos : last ≠ "" → 0 < d.version

namespace TabKey

variable {k : TabKey} {s : Settings} {d d' : Document} {pos : Int} {command last : String}
  {c : TabCycle}

/-- A key that fits a document fits it after any edit, because an edit makes a new version and the
cycle of the key is not gone on with at that version. -/
theorem Fits.edited (h : k.Fits d last) (hd : d.Edited d') : k.Fits d' last := by
  have hle := hd.version_le
  exact ⟨fun c hc => (h.cycle c hc).edited hd,
    fun hne => Nat.lt_of_lt_of_le (h.version_pos hne) hle⟩

/-- The text before the code that a press takes out: what the key put in last, if it goes on with
its cycle. -/
def putBefore (k : TabKey) (d : Document) (bol : Int) (command last : String) : String :=
  if (k.continued? d bol command).isSome then last else ""

/-- A cycle that a press goes on with belongs to its line and to the version of the document. -/
theorem of_continued? {bol : Int} (h : k.continued? d bol command = some c) :
    k.cycle = some c ∧ c.lineStart = bol ∧ c.version = d.version := by
  unfold continued? at h
  split at h
  · next c' hc =>
    split at h
    · next hcond =>
      cases h
      exact ⟨hc, hcond.2⟩
    · cases h
  · cases h

/-- The cycle that a press works with: what it takes out stands right before the code. -/
theorem Fits.of_uses (h : k.Fits d last) (hprose : d.isProse pos = false)
    (huse : k.Uses s d pos command c) :
    c.Fits d last ∧ c.lineStart = d.text.lineStart pos ∧
      c.inserted = (k.putBefore d (d.text.lineStart pos) command last).length ∧
        ∃ before blanks code after,
        d.Standing before blanks (k.putBefore d (d.text.lineStart pos) command last) code after ∧
        d.text.lineStart pos = before.length := by
  unfold putBefore
  cases huse with
  | continued hcont =>
    obtain ⟨hcycle, hline, hversion⟩ := of_continued? hcont
    have hfits := h.cycle c hcycle
    obtain ⟨hlen, before, blanks, code, after, hstanding, hbefore⟩ := hfits.standing hversion
    rw [hcont]
    exact ⟨hfits, hline, hlen, before, blanks, code, after, hstanding, hline ▸ hbefore⟩
  | fresh cs hcont hcs hc =>
    subst hc
    obtain ⟨blanks, -, hstanding⟩ := Document.standing_of_code hprose
    have hbefore := Text.length_takeTo (d.text.lineStart_nonneg pos)
      (d.text.lineStart_le_length pos)
    rw [hcont]
    refine ⟨⟨Nat.zero_le _, Document.inserts_of_candidates hcs, fun hv => ?_⟩, rfl, rfl, _, blanks,
      _, _, hstanding, hbefore.symm⟩
    -- before the first edit nothing was put in
    have hlast : last = "" := by
      rcases Classical.em (last = "") with hlast | hlast
      · exact hlast
      · have := h.version_pos hlast
        simp only at hv
        omega
    subst hlast
    exact ⟨rfl, _, blanks, _, _, hstanding, hbefore.symm⟩

/-- A press leaves a key that fits. -/
theorem Fits.press [Platform] (h : k.Fits d last) (s : Settings) (pos : Int) (command : String) :
    (k.press s d pos command).key.Fits (k.press s d pos command).doc
      ((k.press s d pos command).inserted?.getD last) := by
  rcases press_idle_or_uses k s d pos command with ⟨hdoc, hcycle, hindex⟩ | ⟨hprose, c, huse⟩
  · rw [hdoc, TabOutcome.inserted?_eq_none hindex]
    exact ⟨fun c hc => h.cycle c (hcycle ▸ hc), h.version_pos⟩
  · obtain ⟨hfits, hline, hlen, before, blanks, code, after, hstanding, hbefore⟩ :=
      h.of_uses hprose huse
    obtain ⟨notes, hpress⟩ := press_eq_turn hprose huse
    rw [hpress]
    rcases turn_cases { k with lastCommand := some command } d pos c notes with
      ⟨hdoc, hcycle, hindex⟩ | ⟨chosen, point, hchosen, hdoc, hcycle, hresult⟩
    · rw [hdoc, TabOutcome.inserted?_eq_none hindex]
      refine ⟨fun c' hc' => ?_, h.version_pos⟩
      rw [hcycle] at hc'
      cases hc'
      exact hfits
    · have hinsert : ∀ text ∈ chosen.insert, IsInsert text := fun text ht =>
        (hfits.inserts chosen (List.mem_of_getElem? hchosen) text ht).2
      have hlast : (turn { k with lastCommand := some command } d pos c notes).inserted?.getD last =
          chosen.insert.getD "" := by
        unfold TabOutcome.inserted?
        rw [hresult]
        simp [hchosen]
      rw [hdoc, hlast]
      refine ⟨fun c' hc' => ?_, fun hne => ?_⟩
      · rw [hcycle] at hc'
        cases hc'
        refine ⟨Nat.le_refl _, hfits.inserts,
          fun _ => ⟨rfl, before, d.blanksTo chosen.column, code, after, ?_, ?_⟩⟩
        · rw [hlen]
          exact hstanding.applyCandidate
            (by rw [hline, d.text.lineStart_lineStart, hbefore]) hinsert
        · exact hline.trans hbefore
      · have := Document.version_lt_of_insert (d := d) c.lineStart c.inserted hne
        omega

/-- A press edits the document or leaves it as it is. -/
theorem press_edited [Platform] (k : TabKey) (s : Settings) (d : Document) (pos : Int)
    (command : String) : d.Edited (k.press s d pos command).doc := by
  rcases press_idle_or_uses k s d pos command with ⟨hdoc, -⟩ | ⟨hprose, c, huse⟩
  · rw [hdoc]
    exact .refl d
  · obtain ⟨notes, hpress⟩ := press_eq_turn hprose huse
    rw [hpress]
    rcases turn_cases { k with lastCommand := some command } d pos c notes with
      ⟨hdoc, -⟩ | ⟨_, _, _, hdoc, -⟩
    · rw [hdoc]
      exact .refl d
    · rw [hdoc]
      exact .applyCandidate d _ _ _

/-- A press that applies no candidate leaves the document as it is. -/
theorem press_doc_of_none [Platform]
    (h : ∀ p, (k.press s d pos command).press.result = .ok p → p.index = none) :
    (k.press s d pos command).doc = d := by
  rcases press_idle_or_uses k s d pos command with ⟨hdoc, -⟩ | ⟨hprose, c, huse⟩
  · exact hdoc
  · obtain ⟨notes, hpress⟩ := press_eq_turn hprose huse
    rw [hpress] at h ⊢
    rcases turn_cases { k with lastCommand := some command } d pos c notes with
      ⟨hdoc, -⟩ | ⟨_, _, _, -, -, hresult⟩
    · exact hdoc
    · cases h _ hresult

/-- A press at which the key fits changes the indentation and the text that the key put in, and
nothing else. -/
theorem Fits.press_text [Platform] (h : k.Fits d last) {p : TabPress} {i : Nat}
    (hp : (k.press s d pos command).press.result = .ok p) (hi : p.index = some i) :
    ∃ c code, p.candidates[i]? = some c ∧
      d.text = d.text.takeTo (d.text.lineStart pos) ++
        d.text.slice (d.text.lineStart pos) (d.indentationPoint pos) ++
        Text.ofString (k.putBefore d (d.text.lineStart pos) command last) ++ code ++
        d.text.dropTo (d.text.lineStop pos) ∧
      (k.press s d pos command).doc.text =
        d.text.takeTo (d.text.lineStart pos) ++ d.leadFor (d.text.lineStart pos) c.column ++
        Text.ofString (c.insert.getD "") ++ code ++ d.text.dropTo (d.text.lineStop pos) := by
  rcases press_idle_or_uses k s d pos command with ⟨-, -, hindex⟩ | ⟨hprose, c, huse⟩
  · rw [hindex p hp] at hi
    cases hi
  obtain ⟨hfits, hline, hlen, before, blanks, code, after, hstanding, hbefore⟩ :=
    h.of_uses hprose huse
  obtain ⟨notes, hpress⟩ := press_eq_turn hprose huse
  rw [hpress] at hp ⊢
  rcases turn_cases { k with lastCommand := some command } d pos c notes with
    ⟨-, -, hindex⟩ | ⟨chosen, point, hchosen, hdoc, -, hresult⟩
  · rw [hindex p hp] at hi
    cases hi
  · rw [hresult] at hp
    cases hp
    cases hi
    have hinsert : ∀ text ∈ chosen.insert, IsInsert text := fun text ht =>
      (hfits.inserts chosen (List.mem_of_getElem? hchosen) text ht).2
    have hstart : d.text.lineStart c.lineStart = before.length := by
      rw [hline, d.text.lineStart_lineStart, hbefore]
    have hmoved := hstanding.applyCandidate hstart hinsert
    obtain ⟨htake, hlead, hdrop⟩ := hstanding.parts hbefore
    refine ⟨chosen, code, hchosen, ?_, ?_⟩
    · rw [htake, hlead, hdrop]
      exact hstanding.cut.eq.trans (by simp only [Text.append_assoc])
    · rw [hdoc, hlen, hmoved.cut.eq, htake, hdrop, hbefore, hstanding.leadFor_eq,
        Document.mark_eq_of_edited (.applyCandidate d _ _ _)]
      simp only [Text.append_assoc]

end TabKey

/-! ## Runs -/

namespace Session

variable {ι : Type} {σ : Session ι}

/-- Every key fits the document. -/
def Fits (σ : Session ι) : Prop := ∀ who, (σ.keys who).Fits σ.doc (σ.lastInsert who)

/-- In a session whose keys all fit the document they do so after an edit of the document. -/
theorem Fits.edited {d : Document} (h : σ.Fits) (hd : σ.doc.Edited d) : Fits { σ with doc := d } :=
  fun who => (h who).edited hd

/-- Keys that were never pressed fit every document. -/
theorem fits_new (d : Document) : Fits ({ doc := d } : Session ι) := by
  intro who
  refine ⟨fun c hc => ?_, fun hne => absurd rfl hne⟩
  cases hc

variable [DecidableEq ι]

/-- One event keeps every key fitting. -/
theorem Fits.step [Platform] (h : σ.Fits) (e : Event ι) : (σ.step e).Fits := by
  cases e with
  | replaceRange start stop new => exact h.edited (.replaceRange σ.doc _ _ _)
  | insertText pos new => exact h.edited (.replaceRange σ.doc _ _ _)
  | deleteText pos count => exact h.edited (.replaceRange σ.doc _ _ _)
  | setText new => exact h.edited (.setText σ.doc new)
  | indentLine pos column =>
    simp only [Session.step]
    cases hd : σ.doc.tryIndentLine pos column with
    | error e => exact h
    | ok r =>
      obtain ⟨-, -, hr⟩ := bind_eq_ok.mp hd
      cases hr
      exact h.edited (.indentLine σ.doc pos column)
  | noteCommand who command =>
    intro other
    simp only [Session.step, assign]
    split
    · next heq =>
      subst heq
      exact ⟨(h other).cycle, (h other).version_pos⟩
    · exact h other
  | press who s pos command =>
    intro other
    simp only [Session.step, assign]
    split
    · next heq =>
      subst heq
      exact (h other).press s pos command
    · exact (h other).edited (TabKey.press_edited _ s σ.doc pos command)

/-- Events keep every key fitting. -/
theorem Fits.run [Platform] (h : σ.Fits) (events : List (Event ι)) : (σ.run events).Fits := by
  induction events generalizing σ with
  | nil => exact h
  | cons e rest ih => exact ih (h.step e)

/-- In every run each press that applies a candidate exchanges the indentation of its line and puts
the text of the candidate in front of the code, in place of the text that the same key put in last
when it goes on with its cycle, and of nothing otherwise. A press that applies no candidate changes
nothing. -/
theorem press_keeps_code [Platform] (d : Document) (events : List (Event ι)) (who : ι)
    (s : Settings) (pos : Int) (command : String) :
    let σ := Session.run { doc := d } events
    let o := (σ.keys who).press s σ.doc pos command
    let bol := σ.doc.text.lineStart pos
    let before := σ.doc.text.takeTo bol
    let after := σ.doc.text.dropTo (σ.doc.text.lineStop pos)
    let put := if ((σ.keys who).continued? σ.doc bol command).isSome then σ.lastInsert who else ""
    (∀ p i, o.press.result = .ok p → p.index = some i → ∃ c code, p.candidates[i]? = some c ∧
      σ.doc.text = before ++ σ.doc.text.slice bol (σ.doc.indentationPoint pos) ++
        Text.ofString put ++ code ++ after ∧
      o.doc.text = before ++ σ.doc.leadFor bol c.column ++ Text.ofString (c.insert.getD "") ++
        code ++ after) ∧
    ((∀ p, o.press.result = .ok p → p.index = none) → o.doc = σ.doc) := by
  intro σ o bol before after put
  have hfits : (σ.keys who).Fits σ.doc (σ.lastInsert who) := (fits_new d).run events who
  exact ⟨fun p i hp hi => hfits.press_text hp hi, TabKey.press_doc_of_none⟩

/-- A blank line below a definition. -/
def belowDefinition : Document := .new (Text.ofString "f x = 1\n\n") .plain 8

/-- Two presses of one key, while another one takes note of a command. -/
def twoPresses : List (Event Bool) :=
  [.press true {} 8 TabKey.defaultCommand, .noteCommand false "save",
    .press true {} 8 TabKey.defaultCommand]

/-- The session after the two presses. -/
def afterTwo : Session Bool := Session.run { doc := belowDefinition } twoPresses

/-- The third press takes out the text `f ` that the second one put in. -/
theorem press_keeps_code_third :
    let o := (afterTwo.keys true).press {} afterTwo.doc 8 TabKey.defaultCommand
    ∃ p c code, o.press.result = .ok p ∧ p.index = some 2 ∧ p.candidates[2]? = some c ∧
      afterTwo.doc.text = afterTwo.doc.text.takeTo 8 ++ Text.ofString "" ++
        Text.ofString "f " ++ code ++ afterTwo.doc.text.dropTo 10 ∧
      o.doc.text = afterTwo.doc.text.takeTo 8 ++ afterTwo.doc.leadFor 8 c.column ++
        Text.ofString (c.insert.getD "") ++ code ++ afterTwo.doc.text.dropTo 10 := by
  have hresult : ((afterTwo.keys true).press {} afterTwo.doc 8 TabKey.defaultCommand).press.result =
      .ok ⟨[⟨0, none⟩, ⟨0, some "f "⟩, ⟨6, none⟩], some 2, 14⟩ := by decide +kernel
  have hbol : afterTwo.doc.text.lineStart 8 = 8 := by decide +kernel
  have hstop : afterTwo.doc.text.lineStop 8 = 10 := by decide +kernel
  have hlead : afterTwo.doc.text.slice 8 (afterTwo.doc.indentationPoint 8) = Text.ofString "" := by
    decide +kernel
  have hput : (if ((afterTwo.keys true).continued? afterTwo.doc 8 TabKey.defaultCommand).isSome then
      afterTwo.lastInsert true else "") = "f " := by decide +kernel
  obtain ⟨c, code, hc, hbefore, hafter⟩ :=
    (press_keeps_code belowDefinition twoPresses true {} 8 TabKey.defaultCommand).1 _ 2 hresult rfl
  rw [show Session.run { doc := belowDefinition } twoPresses = afterTwo from rfl, hbol, hstop]
    at hbefore hafter
  rw [hlead, hput] at hbefore
  exact ⟨_, c, code, hresult, rfl, hc, hbefore, hafter⟩

end Session

end LayoutRule
