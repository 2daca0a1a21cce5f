import LayoutRule.Proofs.Editing.Session

/-!
# A round through the candidates

Pressing the TAB key again and again on a line of code goes through its candidates in order and
around. What a press leaves behind depends on its candidate alone, not on the ones applied before:
the press takes out what the press before put in and sets the indentation anew, and the code stays.

A `Round` is the line with its candidates. `Round.Ready` is what holds between two presses; a press
that can be made keeps it with the next entry (`Ready.press_ok`) and one that cannot with the same
entry (`Ready.press_error`), so it holds after any number of presses, wherever on the line they are
made.
-/

namespace LayoutRule

/-! ## Positions of one line -/

namespace Document

open Text

variable {d d' : Document} {s : Settings} {pos pos' : Int}

/-- The candidates are those of the line. -/
theorem candidates_result_eq_of_lineStart_eq (h : d.text.lineStart pos = d.text.lineStart pos') :
    (d.candidates s pos).result = (d.candidates s pos').result := by
  have hpoint := d.indentationPoint_eq_of_lineStart_eq h
  have hprose := isProse_eq_of_lineStart_eq h
  cases hp : d.isProse pos' with
  | true =>
    unfold candidates
    rw [hprose, hp]
    rfl
  | false =>
    obtain ⟨start, hstart, -⟩ := definitionStart_yields d s (d.indentationPoint pos')
    rw [candidates_result hp hstart, candidates_result (hprose.trans hp) (hpoint ▸ hstart), hpoint]

namespace Standing

variable {before blanks blanks' code code' after after' : Text} {put put' : String}

/-- Whether a line is code depends on the style and on what stands before the line. -/
theorem isProse_eq (h : d.Standing before blanks put code after)
    (h' : d'.Standing before blanks' put' code' after') (hstyle : d'.style = d.style) :
    d'.isProse before.length = d.isProse before.length := by
  have hword : ∀ {d : Document} {blanks code after : Text} {put : String},
      d.Standing before blanks put code after →
      ∀ w, d.text.lastWord? w before.length = before.lastWord? w before.length := by
    intro d blanks code after put h w
    rw [h.text_eq, append_assoc, append_assoc, lastWord?_append]
  have hmarked := h.isMarked_eq
  have hmarked' := h'.isMarked_eq
  unfold isMarked bird at hmarked hmarked'
  unfold isProse isCodeLine
  simp only [h.cut.lineStart_eq, h'.cut.lineStart_eq, hword h, hword h']
  rw [hstyle] at hmarked' ⊢
  cases hs : d.style with
  | plain => rfl
  | bird =>
    rw [hs] at hmarked hmarked'
    simp only [beq_self_eq_true, Bool.true_and] at hmarked hmarked'
    rw [hmarked, hmarked']
  | latex => rfl

/-- How far a line can be indented depends on the style. -/
theorem checkIndent_eq [Platform] (h : d.Standing before blanks put code after)
    (hpos : d.text.lineStart pos = before.length) (column : Int) :
    d.checkIndent pos column = checkRun (if d.bird then column - 1 else column) := by
  unfold checkIndent
  rw [hpos, h.isMarked_eq]

end Standing

end Document

/-! ## Press after press -/

namespace TabKey

/-- What `count` presses leave behind that are made at the given places one after another. -/
def pressed [Platform] (k : TabKey) (s : Settings) (d : Document) (places : Nat → Int)
    (command : String) : Nat → Document × TabKey
  | 0 => (d, k)
  | count + 1 =>
    let (d', k') := k.pressed s d places command count
    let o := k'.press s d' (places count) command
    (o.doc, o.key)

/-- The press after `count` presses. -/
def pressAfter [Platform] (k : TabKey) (s : Settings) (d : Document) (places : Nat → Int)
    (command : String) (count : Nat) : TabOutcome :=
  let (d', k') := k.pressed s d places command count
  k'.press s d' (places count) command

end TabKey

/-! ## A round through the candidates -/

/-- A line of code whose candidates are gone through. -/
structure Round where
  /-- The settings. -/
  settings : Settings
  /-- The command that the presses are. -/
  command : String
  /-- The style of the document. -/
  style : Literate
  /-- The candidates of the line. -/
  candidates : List Candidate
  /-- What stands before the line. -/
  before : Text
  /-- The code of the line. -/
  code : Text
  /-- What stands after the line. -/
  after : Text
  /-- The candidates put in texts of the rules. -/
  inserts : Inserts True candidates

namespace Round

open Document TabKey

variable {r : Round} {d d' : Document} {k : TabKey} {pos : Int} {next : Nat} {chosen : Candidate}

/-- The cycle of the round when the entry `next` is applied next and the text `put` was put in
last. -/
def cycle (r : Round) (next : Nat) (put : String) (version : Nat) : TabCycle :=
  ⟨r.before.length, r.candidates, next, put.length, version⟩

/-- Whether the line can be indented as far as a candidate says. -/
def reach [Platform] (r : Round) (c : Candidate) : Except Fault Unit :=
  checkRun (if r.style == .bird then c.column - 1 else c.column)

/-- The document as applying a candidate leaves it. -/
structure Applied (r : Round) (c : Candidate) (d : Document) : Prop where
  /-- The style is that of the round. -/
  style : d.style = r.style
  /-- The line stands with the text of the candidate. -/
  standing : d.Standing r.before (d.blanksTo c.column) (c.insert.getD "") r.code r.after

/-- The text after a candidate was applied depends on the candidate alone. -/
theorem Applied.text_eq (h : r.Applied chosen d) (h' : r.Applied chosen d') : d'.text = d.text := by
  rw [h.standing.cut.eq, h'.standing.cut.eq]
  unfold mark blanksTo bird
  rw [h.style, h'.style]

/-- What holds between two presses: the line stands with what the last press put in, and the next
press applies the entry `next`. Before the first press nothing was put in and the candidates are
still to be looked up. -/
structure Ready (r : Round) (next : Nat) (d : Document) (k : TabKey) : Prop where
  /-- The style is that of the round. -/
  style : d.style = r.style
  /-- The line is code. -/
  code : d.isProse r.before.length = false
  /-- The line stands, and the next press goes on with the cycle or starts it. -/
  standing : ∃ blanks put, d.Standing r.before blanks put r.code r.after ∧
    (k.continued? d r.before.length r.command = some (r.cycle next put d.version) ∨
      next = 0 ∧ put = "" ∧ (d.candidates r.settings r.before.length).result = .ok r.candidates ∧
        k.continued? d r.before.length r.command = none)

/-- Applying a candidate of the round, whatever was put in before. -/
theorem applied_applyCandidate {blanks : Text} {put : String} (hstyle : d.style = r.style)
    (h : d.Standing r.before blanks put r.code r.after)
    (hpos : d.text.lineStart pos = r.before.length) (hchosen : chosen ∈ r.candidates) :
    r.Applied chosen (d.applyCandidate pos chosen put.length).1 := by
  have hedited := Edited.applyCandidate d pos chosen put.length
  have hmoved := h.applyCandidate hpos fun text ht => (r.inserts chosen hchosen text ht).2
  refine ⟨hedited.style.trans hstyle, ?_⟩
  unfold blanksTo bird at hmoved ⊢
  rw [hedited.style]
  exact hmoved

/-- Whether a candidate can be reached depends on its column and on the literate style only. So it
is the same in every document of the round. -/
theorem Ready.checkIndent_eq [Platform] (h : r.Ready next d k)
    (hpos : d.text.lineStart pos = r.before.length) (c : Candidate) :
    d.checkIndent pos c.column = r.reach c := by
  obtain ⟨blanks, put, hstanding, -⟩ := h.standing
  unfold reach
  rw [hstanding.checkIndent_eq hpos, bird, h.style]

/-- The next press turns the cycle of the round. Only before the first press may the cycle have no
version yet. -/
theorem Ready.press_eq [Platform] (h : r.Ready next d k)
    (hpos : d.text.lineStart pos = r.before.length) :
    ∃ blanks put version notes, d.Standing r.before blanks put r.code r.after ∧
      k.press r.settings d pos r.command =
        turn { k with lastCommand := some r.command } d pos (r.cycle next put version) notes ∧
      (version = d.version ∨ next = 0 ∧ put = "" ∧ version = 0 ∧
        (d.candidates r.settings r.before.length).result = .ok r.candidates) := by
  obtain ⟨blanks, put, hstanding, hcont⟩ := h.standing
  have hline : d.text.lineStart pos = d.text.lineStart r.before.length := by
    rw [hpos, hstanding.cut.lineStart_eq]
  have hprose : d.isProse pos = false := (isProse_eq_of_lineStart_eq hline).trans h.code
  rcases hcont with hcont | ⟨rfl, rfl, hcs, hcont⟩
  · obtain ⟨notes, hpress⟩ := press_eq_turn (s := r.settings) hprose (.continued (hpos ▸ hcont))
    exact ⟨blanks, put, d.version, notes, hstanding, hpress, .inl rfl⟩
  · have hcs' := (candidates_result_eq_of_lineStart_eq hline).trans hcs
    obtain ⟨notes, hpress⟩ := press_eq_turn hprose (.fresh r.candidates (hpos ▸ hcont) hcs' rfl)
    rw [hpos] at hpress
    exact ⟨blanks, "", 0, notes, hstanding, hpress, .inr ⟨rfl, rfl, rfl, hcs⟩⟩

/-- A key goes on with its cycle at the version of the cycle. -/
theorem continued?_eq {command : String} {c : TabCycle} (bol : Int) (hcycle : k.cycle = some c)
    (hcommand : k.lastCommand = some command) (hline : c.lineStart = bol) :
    k.continued? d bol command = if c.version = d.version then some c else none := by
  unfold continued?
  rw [hcycle]
  simp [hcommand, hline]

/-- A press that can be made applies its candidate and goes on to the next one. -/
theorem Ready.press_ok [Platform] (h : r.Ready next d k)
    (hpos : d.text.lineStart pos = r.before.length) (hchosen : r.candidates[next]? = some chosen)
    (hreach : r.reach chosen = .ok ()) :
    (∃ point, (k.press r.settings d pos r.command).press.result =
      .ok ⟨r.candidates, some next, point⟩) ∧
      r.Applied chosen (k.press r.settings d pos r.command).doc ∧
      r.Ready ((next + 1) % r.candidates.length) (k.press r.settings d pos r.command).doc
        (k.press r.settings d pos r.command).key := by
  obtain ⟨blanks, put, version, notes, hstanding, hpress, -⟩ := h.press_eq hpos
  have hstart := hstanding.cut.lineStart_eq
  have hcheck := (h.checkIndent_eq hstart chosen).trans hreach
  have happlied := applied_applyCandidate h.style hstanding hstart (List.mem_of_getElem? hchosen)
  have hstyle := (Edited.applyCandidate d r.before.length chosen put.length).style
  rw [hpress, turn_of_ok (c := r.cycle next put version) hchosen hcheck notes]
  refine ⟨⟨_, rfl⟩, happlied, happlied.style,
    (hstanding.isProse_eq happlied.standing hstyle).trans h.code, ?_⟩
  refine ⟨_, _, happlied.standing, .inl ?_⟩
  have hcont : ∀ message,
      continued? ⟨some (advanced d (r.cycle next put version) chosen), some r.command, message⟩
      (d.applyCandidate r.before.length chosen put.length).1 r.before.length r.command =
      some (advanced d (r.cycle next put version) chosen) := by
    intro message
    rw [continued?_eq r.before.length rfl rfl rfl]
    exact if_pos rfl
  exact hcont _

/-- A press that cannot be made fails, and the next one tries the same candidate. -/
theorem Ready.press_error [Platform] {e : Fault} (h : r.Ready next d k)
    (hpos : d.text.lineStart pos = r.before.length) (hchosen : r.candidates[next]? = some chosen)
    (hreach : r.reach chosen = .error e) :
    (k.press r.settings d pos r.command).press.result = .error e ∧
      (k.press r.settings d pos r.command).doc = d ∧
      r.Ready next (k.press r.settings d pos r.command).doc
        (k.press r.settings d pos r.command).key := by
  obtain ⟨blanks, put, version, notes, hstanding, hpress, hversion⟩ := h.press_eq hpos
  have hcheck := (h.checkIndent_eq hstanding.cut.lineStart_eq chosen).trans hreach
  rw [hpress, turn_of_error (c := r.cycle next put version) hchosen hcheck notes]
  refine ⟨rfl, rfl, h.style, h.code, blanks, put, hstanding, ?_⟩
  rw [continued?_eq (c := r.cycle next put version) r.before.length rfl rfl rfl]
  rcases hversion with rfl | ⟨hnext, hput, rfl, hcs⟩
  · exact .inl (if_pos rfl)
  · by_cases hzero : d.version = 0
    · left
      rw [hzero]
      exact if_pos rfl
    · exact .inr ⟨hnext, hput, hcs, if_neg fun hv => hzero hv.symm⟩

/-! ## Whole rounds -/

/-- The first `count` presses of a round can be made. -/
def Reaches [Platform] (r : Round) (count : Nat) : Prop :=
  ∀ i < count, ∃ c, r.candidates[i % r.candidates.length]? = some c ∧ r.reach c = .ok ()

/-- Every one of the first presses is made on the line of the round. -/
def Meets [Platform] (r : Round) (d : Document) (k : TabKey) (places : Nat → Int) (count : Nat) :
    Prop :=
  ∀ j < count, (k.pressed r.settings d places r.command j).1.text.lineStart (places j) =
    r.before.length

section Presses

variable {places : Nat → Int} {count first : Nat}

/-- After as many presses as can be made, the next one goes on with the round. -/
theorem Ready.pressed [Platform] (h : r.Ready 0 d k) (hplaces : r.Meets d k places count)
    (hreach : r.Reaches count) :
    r.Ready (count % r.candidates.length) (k.pressed r.settings d places r.command count).1
      (k.pressed r.settings d places r.command count).2 := by
  induction count with
  | zero =>
    rw [Nat.zero_mod]
    exact h
  | succ count ih =>
    have hready := ih (fun j hj => hplaces j (by omega)) fun i hi => hreach i (by omega)
    obtain ⟨c, hc, hok⟩ := hreach count (by omega)
    have hnext := (hready.press_ok (hplaces count (by omega)) hc hok).2.2
    rwa [Nat.mod_add_mod] at hnext

/-- A press that can be made after presses that could. -/
theorem Ready.pressAfter_ok [Platform] (h : r.Ready 0 d k)
    (hplaces : r.Meets d k places (count + 1)) (hreach : r.Reaches count)
    (hchosen : r.candidates[count % r.candidates.length]? = some chosen)
    (hok : r.reach chosen = .ok ()) :
    (∃ point, (k.pressAfter r.settings d places r.command count).press.result =
        .ok ⟨r.candidates, some (count % r.candidates.length), point⟩) ∧
      r.Applied chosen (k.pressAfter r.settings d places r.command count).doc := by
  have hready := h.pressed (fun j hj => hplaces j (by omega)) hreach
  obtain ⟨hresult, happlied, -⟩ := hready.press_ok (hplaces count (by omega)) hchosen hok
  exact ⟨hresult, happlied⟩

/-- From the first press on that cannot be made, every press fails in the same way and changes
nothing. -/
theorem Ready.pressAfter_error [Platform] {e : Fault} (h : r.Ready 0 d k) (hle : first ≤ count)
    (hplaces : r.Meets d k places (count + 1)) (hreach : r.Reaches first)
    (hchosen : r.candidates[first % r.candidates.length]? = some chosen)
    (herror : r.reach chosen = .error e) :
    (k.pressAfter r.settings d places r.command count).press.result = .error e ∧
      (k.pressAfter r.settings d places r.command count).doc =
        (k.pressed r.settings d places r.command first).1 := by
  have hready := h.pressed (fun j hj => hplaces j (by omega)) hreach
  -- what was pressed in vain leaves the document and the next entry as they were
  have hstay : ∀ vain, first + vain ≤ count →
      (k.pressed r.settings d places r.command (first + vain)).1 =
        (k.pressed r.settings d places r.command first).1 ∧
        r.Ready (first % r.candidates.length)
          (k.pressed r.settings d places r.command (first + vain)).1
          (k.pressed r.settings d places r.command (first + vain)).2 := by
    intro vain
    induction vain with
    | zero => exact fun _ => ⟨rfl, hready⟩
    | succ vain ih =>
      intro hlt
      obtain ⟨hdoc, hvain⟩ := ih (by omega)
      obtain ⟨-, hsame, hagain⟩ :=
        hvain.press_error (hplaces (first + vain) (by omega)) hchosen herror
      exact ⟨hsame.trans hdoc, hagain⟩
  obtain ⟨vain, rfl⟩ := Nat.exists_eq_add_of_le hle
  obtain ⟨hdoc, hready'⟩ := hstay vain (Nat.le_refl _)
  obtain ⟨hresult, hsame, -⟩ :=
    hready'.press_error (hplaces (first + vain) (by omega)) hchosen herror
  exact ⟨hresult, hsame.trans hdoc⟩

end Presses

/-! ## The first document -/

/-- The round of a line of code. -/
def ofLine {s : Settings} {cs : List Candidate} (d : Document) (pos : Int) (command : String)
    (h : (d.candidates s pos).result = .ok cs) : Round :=
  ⟨s, command, d.style, cs, d.text.takeTo (d.text.lineStart pos),
    d.text.slice (d.indentationPoint pos) (d.text.lineStop pos),
    d.text.dropTo (d.text.lineStop pos),
    inserts_of_candidates h⟩

section OfLine

variable {s : Settings} {cs : List Candidate} {command : String}
  {hcs : (d.candidates s pos).result = .ok cs} {i : Nat} {place : Int}

/-- The line of a round starts where the text before it ends. -/
theorem lineStart_eq_ofLine (command : String) (hcs : (d.candidates s pos).result = .ok cs) :
    d.text.lineStart pos = (ofLine d pos command hcs).before.length :=
  (Text.length_takeTo (d.text.lineStart_nonneg pos) (d.text.lineStart_le_length pos)).symm

/-- A press that starts a cycle starts the round. -/
theorem ready_ofLine (hcode : d.isProse pos = false)
    (hfresh : k.continued? d (d.text.lineStart pos) command = none) :
    (ofLine d pos command hcs).Ready 0 d k := by
  obtain ⟨blanks, -, hstanding⟩ := standing_of_code hcode
  have hpos := lineStart_eq_ofLine command hcs
  have hline : d.text.lineStart (ofLine d pos command hcs).before.length =
      d.text.lineStart pos := by
    rw [← hpos, d.text.lineStart_lineStart]
  refine ⟨rfl, (isProse_eq_of_lineStart_eq hline).trans hcode, blanks, "", hstanding,
    .inr ⟨rfl, rfl, ?_, hpos ▸ hfresh⟩⟩
  exact (candidates_result_eq_of_lineStart_eq hline).trans hcs

/-- Applying an entry to the first document, anywhere on the line, applies the candidate if it can
be reached. -/
theorem applyEntry_ofLine [Platform] (command : String) (hcs : (d.candidates s pos).result = .ok cs)
    (hcode : d.isProse pos = false) (hplace : d.text.lineStart place = d.text.lineStart pos)
    (hchosen : cs[i]? = some chosen) :
    (∃ p, d.applyEntry place cs i 0 = .ok p ∧ (ofLine d pos command hcs).reach chosen = .ok () ∧
        (ofLine d pos command hcs).Applied chosen p.1) ∨
      ∃ e, d.applyEntry place cs i 0 = .error e ∧
        (ofLine d pos command hcs).reach chosen = .error e := by
  obtain ⟨blanks, -, hstanding⟩ := standing_of_code hcode
  have hpos := hplace.trans (lineStart_eq_ofLine command hcs)
  have hcheck : d.checkIndent place chosen.column = (ofLine d pos command hcs).reach chosen :=
    hstanding.checkIndent_eq hpos chosen.column
  have hentry : entry? cs i = some chosen := by
    unfold entry?
    rw [if_pos (by omega), Int.toNat_natCast, hchosen]
  unfold applyEntry
  rw [hentry, ← hcheck]
  cases hc : d.checkIndent place chosen.column with
  | error e => exact .inr ⟨e, by simp only [hc]; rfl, rfl⟩
  | ok u =>
    refine .inl ⟨d.applyCandidate place chosen 0, by simp only [hc]; rfl, rfl, ?_⟩
    have happlied := applied_applyCandidate (r := ofLine d pos command hcs) rfl hstanding hpos
      (List.mem_of_getElem? hchosen)
    rwa [String.length_empty, Int.natCast_zero] at happlied

/-- There is an entry for every press of a round. -/
theorem exists_entry (hne : cs ≠ []) (i : Nat) : ∃ c, cs[i % cs.length]? = some c :=
  ⟨_, List.getElem?_eq_getElem (Nat.mod_lt i (List.length_pos_iff.mpr hne))⟩

/-- As many presses can be made as entries can be applied to the first document. -/
theorem reaches_ofLine [Platform] {count : Nat} (hcode : d.isProse pos = false) (hne : cs ≠ [])
    (h : ∀ i < count, (d.applyEntry pos cs (i % cs.length : Nat) 0).isOk = true) :
    (ofLine d pos command hcs).Reaches count := by
  intro i hi
  obtain ⟨c, hc⟩ := exists_entry hne i
  rcases applyEntry_ofLine command hcs hcode rfl hc with ⟨-, -, hreach, -⟩ | ⟨e, he, -⟩
  · exact ⟨c, hc, hreach⟩
  · have hok := h i hi
    rw [he] at hok
    cases hok

variable {places : Nat → Int} {count first : Nat}

/-- Presses that are made on the line of the first place meet the line of the round, each in the
document as it is then. -/
theorem meets_ofLine [Platform] (hcs : (d.candidates s (places 0)).result = .ok cs)
    (h : ∀ j ≤ count, (k.pressed s d places command j).1.text.lineStart (places j) =
      d.text.lineStart (places 0)) :
    (ofLine d (places 0) command hcs).Meets d k places (count + 1) :=
  fun j hj => (h j (by omega)).trans (lineStart_eq_ofLine command hcs)

/-- A press whose entry can be applied to the first document gives the text that applying it there
gives. -/
theorem pressAfter_ok_ofLine [Platform] {p : Document × Int} (hcode : d.isProse (places 0) = false)
    (hcs : (d.candidates s (places 0)).result = .ok cs) (hne : cs ≠ [])
    (hfresh : k.continued? d (d.text.lineStart (places 0)) command = none)
    (hplaces : ∀ j ≤ count, (k.pressed s d places command j).1.text.lineStart (places j) =
      d.text.lineStart (places 0))
    (hbefore : ∀ i < count, (d.applyEntry (places 0) cs (i % cs.length : Nat) 0).isOk = true)
    (hp : d.applyEntry (places 0) cs (count % cs.length : Nat) 0 = .ok p) :
    (∃ point, (k.pressAfter s d places command count).press.result =
      .ok ⟨cs, some (count % cs.length), point⟩) ∧
      (k.pressAfter s d places command count).doc.text = p.1.text := by
  obtain ⟨c, hc⟩ := exists_entry hne count
  rcases applyEntry_ofLine command hcs hcode rfl hc with ⟨p', hp', hreach, happlied⟩ | ⟨e, he, -⟩
  · rw [hp] at hp'
    cases hp'
    obtain ⟨hresult, hpressed⟩ :=
      (ready_ofLine hcode hfresh).pressAfter_ok (meets_ofLine hcs hplaces)
        (reaches_ofLine hcode hne hbefore) hc hreach
    exact ⟨hresult, happlied.text_eq hpressed⟩
  · rw [hp] at he
    cases he

/-- From the first entry on that cannot be applied to the first document, every press fails as
applying it there does. -/
theorem pressAfter_error_ofLine [Platform] {e : Fault} (hcode : d.isProse (places 0) = false)
    (hcs : (d.candidates s (places 0)).result = .ok cs) (hne : cs ≠ [])
    (hfresh : k.continued? d (d.text.lineStart (places 0)) command = none)
    (hplaces : ∀ j ≤ count, (k.pressed s d places command j).1.text.lineStart (places j) =
      d.text.lineStart (places 0))
    (hle : first ≤ count)
    (hbefore : ∀ i < first, (d.applyEntry (places 0) cs (i % cs.length : Nat) 0).isOk = true)
    (he : d.applyEntry (places 0) cs (first % cs.length : Nat) 0 = .error e) :
    (k.pressAfter s d places command count).press.result = .error e ∧
      (k.pressAfter s d places command count).doc = (k.pressed s d places command first).1 := by
  obtain ⟨c, hc⟩ := exists_entry hne first
  rcases applyEntry_ofLine command hcs hcode rfl hc with ⟨p, hp, -, -⟩ | ⟨e', he', hreach⟩
  · rw [he] at hp
    cases hp
  · rw [he] at he'
    cases he'
    exact (ready_ofLine hcode hfresh).pressAfter_error hle (meets_ofLine hcs hplaces)
      (reaches_ofLine hcode hne hbefore) hc hreach

end OfLine

end Round

end LayoutRule
