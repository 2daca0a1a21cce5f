import LayoutRule.Command.Terminal
import LayoutRule.Proofs.Document.Numbering
import LayoutRule.Proofs.Editing.Cycling

/-!
# Cycling does not depend on the way

After any number of presses of the TAB key on a line of code the text is the one that applying the
last candidate to the first document gives, whatever was applied in between
(`press_path_independent`). The command that presses the key several times shows one step for each
press (`run_showSteps`), and the line of a step is the one in the text that the command which
applies the entry of this step shows or saves (`run_act_shows`).
-/

namespace LayoutRule

/-! ## The numbered line -/

namespace Text

/-- The line that starts at `bol`, without its newline. -/
def lineAt (t : Text) (bol : Int) : String := (t.slice bol (t.lineStop bol)).toString

end Text

namespace Round

open Document Text

variable {r : Round} {d : Document} {line : Int}

/-- The line of the round is the one with the number `line`, counted from one. -/
structure Numbered (r : Round) (line : Int) : Prop where
  /-- The numbers start from one. -/
  pos : 1 ≤ line
  /-- There are as many lines. -/
  le : line ≤ r.before.chars.count '\n' + r.after.chars.count '\n' + 1
  /-- Going down from the front leads to the line, whatever stands on it. -/
  down : ∀ rest, (r.before ++ rest).linesDown (line - 1).toNat 0 = (r.before.length, 0)

/-- The line keeps its number, however it is indented. -/
theorem Numbered.positionOf {blanks : Text} {put : String} (h : r.Numbered line)
    (hd : d.Standing r.before blanks put r.code r.after) :
    line ≤ d.text.lineCount ∧ d.positionOf (line - 1) 0 = .ok r.before.length := by
  have hpos := h.pos
  have hle := h.le
  have hcount := hd.cut.lineCount_eq
  refine ⟨by omega, ?_⟩
  have hdown : d.text.linesDown (line - 1).toNat 0 = (r.before.length, 0) := by
    rw [hd.cut.eq, append_assoc]
    exact h.down _
  unfold Document.positionOf
  rw [if_neg (by omega), hdown]
  simp only [moveToColumn_zero, hd.cut.lineStart_eq]

/-- The number of the first document. -/
theorem numbered_ofLine {s : Settings} {cs : List Candidate} {pos bol : Int} {command : String}
    {hcs : (d.candidates s pos).result = .ok cs} (hone : 1 ≤ line) (hle : line ≤ d.text.lineCount)
    (hbol : d.positionOf (line - 1) 0 = .ok bol) (hline : bol = d.text.lineStart pos) :
    (ofLine d pos command hcs).Numbered line := by
  have hpos := lineStart_eq_ofLine command hcs
  have hcount := (d.text.cut_line pos).lineCount_eq
  refine ⟨hone, by simp only [ofLine]; omega, fun rest => ?_⟩
  unfold Document.positionOf at hbol
  rw [if_neg (by omega)] at hbol
  split at hbol
  · next start hdown =>
    simp only [moveToColumn_zero, Except.ok.injEq] at hbol
    have hzero : d.text.lineStart 0 = 0 :=
      lineStart_eq_self (k := 0) (Nat.zero_le _) fun h => absurd h (by omega)
    rw [lineStart_of_linesDown hzero hdown, hline, hpos] at hbol
    rw [← takeTo_append_dropTo d.text (d.text.lineStart pos), hbol] at hdown
    exact (linesDown_append rest (Int.le_refl 0) hdown).2
  · cases hbol

end Round

/-! ## Steps of the command -/

namespace Command

open Document

variable {α β : Type} {o : CommandOptions} {t t' : Terminal} {line : Int}

/-- After a step that did its part the rest is done. -/
theorem run_bind {x : CommandM α} {a : α} (h : x.run.run t = (.ok a, t')) (f : α → CommandM β) :
    (x >>= f).run.run t = (f a).run.run t' := by
  show (ExceptT.bind x f).run.run t = _
  simp only [ExceptT.run, ExceptT.bind, ExceptT.mk, StateT.run] at h ⊢
  simp [Bind.bind, StateT.bind, h, ExceptT.bindCont]

/-- Looking at the terminal changes nothing, and the rest is done with what was seen. -/
theorem run_get_bind (f : Terminal → CommandM β) : (get >>= f).run.run t = (f t).run.run t := rfl

/-- A step that changes the terminal always succeeds, and the rest is done with the changed one. -/
theorem run_modify_bind (g : Terminal → Terminal) (f : Unit → CommandM β) :
    (modify g >>= f).run.run t = (f ()).run.run (g t) := rfl

/-- A computation that gives a value is performed. Only reports are added. -/
theorem run_perform {x : Noted α} {a : α} (o : CommandOptions) (t : Terminal)
    (h : x.result = .ok a) : ∃ err, (perform o x).run.run t = (.ok a, { t with err := err }) := by
  refine ⟨t.err ++ Note.report o.verbose x.notes, ?_⟩
  unfold perform
  rw [h]
  rfl

variable {r : Round} {k : TabKey} {count first : Nat}

/-- The line of a round is found. -/
theorem run_linePosition {blanks : Text} {put : String} (o : CommandOptions)
    (hline : r.Numbered line) (ht : t.doc.Standing r.before blanks put r.code r.after) :
    ∃ err, (linePosition o line).run.run t = (.ok r.before.length, { t with err := err }) := by
  obtain ⟨hle, hposition⟩ := hline.positionOf ht
  obtain ⟨err, hrun⟩ :=
    run_perform (x := Noted.ofExcept (t.doc.positionOf (line - 1) 0)) o t hposition
  refine ⟨err, ?_⟩
  unfold linePosition
  rw [run_get_bind, if_pos ⟨hline.pos, hle⟩]
  exact hrun

/-- The steps that are shown are those of the round: each with the entry that was applied, and the
line as it was left. -/
def StepsOf (r : Round) (first : Nat) (steps : List CycleStep) : Prop :=
  ∀ j < steps.length, ∃ c d, r.candidates[(first + j) % r.candidates.length]? = some c ∧
    r.Applied c d ∧
    steps[j]? = some ⟨((first + j) % r.candidates.length : Nat), d.text.lineAt r.before.length⟩

/-- Pressing the key several times gives as many steps of the round. -/
theorem run_pressTimes [Platform] (hsettings : o.settings = r.settings)
    (hcommand : r.command = TabKey.defaultCommand) (hline : r.Numbered line)
    (h : r.Ready (first % r.candidates.length) t.doc k)
    (hreach : ∀ i < count, ∃ c, r.candidates[(first + i) % r.candidates.length]? = some c ∧
      r.reach c = .ok ()) :
    ∃ d err steps, (pressTimes o line count k).run.run t =
      (.ok steps, { t with doc := d, err := err }) ∧
      steps.length = count ∧ StepsOf r first steps := by
  induction count generalizing t k first with
  | zero => exact ⟨t.doc, t.err, [], rfl, rfl, fun j hj => absurd hj (Nat.not_lt_zero j)⟩
  | succ count ih =>
    obtain ⟨c, hc, hok⟩ := hreach 0 (Nat.zero_lt_succ _)
    obtain ⟨blanks, put, hstanding, -⟩ := h.standing
    obtain ⟨⟨point, hresult⟩, happlied, hready⟩ := h.press_ok hstanding.cut.lineStart_eq hc hok
    rw [Nat.mod_add_mod] at hready
    rw [← hsettings, hcommand] at hresult happlied hready
    obtain ⟨err₁, hposition⟩ := run_linePosition o hline hstanding
    generalize hoc : k.press o.settings t.doc r.before.length TabKey.defaultCommand = outcome at *
    obtain ⟨err₂, hpress⟩ := run_perform o { t with doc := outcome.doc, err := err₁ } hresult
    obtain ⟨err₃, hbol⟩ := run_perform (x := Noted.ofExcept (outcome.doc.positionOf (line - 1) 0)) o
      { t with doc := outcome.doc, err := err₂ } (hline.positionOf happlied.standing).2
    obtain ⟨d, err, steps, hrest, hlen, hsteps⟩ :=
      ih (t := { t with doc := outcome.doc, err := err₃ }) hready fun i hi => by
        obtain ⟨c', hc'⟩ := hreach (i + 1) (by omega)
        rw [← Nat.add_assoc, Nat.add_right_comm] at hc'
        exact ⟨c', hc'⟩
    refine ⟨d, err,
      ⟨(first % r.candidates.length : Nat), outcome.doc.text.lineAt r.before.length⟩ :: steps,
      ?_, ?_, ?_⟩
    · unfold pressTimes
      rw [run_bind hposition, run_get_bind]
      simp only [hoc]
      rw [run_modify_bind, run_bind hpress, run_bind hbol, run_bind hrest]
      rfl
    · rw [List.length_cons, hlen]
    · intro j hj
      cases j with
      | zero => exact ⟨c, outcome.doc, hc, happlied, rfl⟩
      | succ j =>
        obtain ⟨c', d', hc', happlied', hstep⟩ := hsteps j (by simpa using hj)
        rw [Nat.add_right_comm, Nat.add_assoc] at hc' hstep
        exact ⟨c', d', hc', happlied', by simpa using hstep⟩

/-! ## What is shown and what is given -/

/-- What is shown for the steps of a cycle. As plain text this is one line for each step, with the
entry in brackets before the line as the press left it. As JSON it is one array, with an object of
the entry and the line for each step. -/
def stepsText (json : Bool) (steps : List CycleStep) : String :=
  if json then
    (Json.array (steps.map fun s =>
      .object [("index", .int s.index), ("line", .string s.line)])).pretty 0 ++ "\n"
  else String.join (steps.map fun s => "[" ++ toString s.index ++ "] " ++ s.line ++ "\n")

/-- Lines that are shown one after the other are shown as one text. -/
theorem run_forM_sayLine (f : α → String) (xs : List α) (t : Terminal) :
    (xs.forM fun x => sayLine (f x)).run.run t =
      (.ok (), { t with out := t.out ++ String.join (xs.map fun x => f x ++ "\n") }) := by
  induction xs generalizing t with
  | nil => simp only [List.map_nil, String.join_nil, String.append_empty]; rfl
  | cons x xs ih =>
    have hfirst : (sayLine (f x)).run.run t = (.ok (), { t with out := t.out ++ (f x ++ "\n") }) :=
      rfl
    show (sayLine (f x) >>= fun _ => xs.forM fun x => sayLine (f x)).run.run t = _
    rw [run_bind hfirst, ih, List.map_cons, String.join_cons, String.append_assoc]

/-- Showing the steps of a cycle does nothing but add their text to what was shown before. -/
theorem run_showSteps (o : CommandOptions) (steps : List CycleStep) (t : Terminal) :
    (showSteps o steps).run.run t =
      (.ok (), { t with out := t.out ++ stepsText o.json steps }) := by
  unfold showSteps stepsText
  cases o.json with
  | true => rfl
  | false =>
    simp only [Bool.false_eq_true, if_false]
    exact run_forM_sayLine (fun s : CycleStep => "[" ++ toString s.index ++ "] " ++ s.line) steps t

/-- What the command has shown and saved once it has given an edited text: with the option to write
the text is saved and nothing more is shown, without it the text is shown and nothing is saved. -/
structure Delivered (o : CommandOptions) (text : Text) (t t' : Terminal) : Prop where
  /-- The text is saved. -/
  saved : o.write = true → t'.out = t.out ∧ t'.saved = some text
  /-- The text is shown. -/
  shown : o.write = false → t'.out = t.out ++ text.toString ∧ t'.saved = t.saved

/-- Delivering succeeds and gives the text of the document. -/
theorem run_deliver (o : CommandOptions) (t : Terminal) :
    ∃ t', (deliver o).run.run t = (.ok (), t') ∧ Delivered o t.doc.text t t' := by
  refine ⟨_, rfl, ?_, ?_⟩
  · intro hwrite
    simp only [hwrite, if_true, and_self]
  · intro hshow
    simp only [hshow, Bool.false_eq_true, if_false, and_self]

/-- The command that presses the key several times shows the steps of the round, and saves
nothing. -/
theorem run_act_cycle [Platform] (halign : o.align = none) (happly : o.apply = none)
    (hcycle : 0 < o.cycle) (hsettings : o.settings = r.settings)
    (hcommand : r.command = TabKey.defaultCommand) (hline : r.Numbered line)
    (h : r.Ready 0 t.doc {}) (hreach : r.Reaches o.cycle.toNat) :
    ∃ steps t', (act o line).run.run t = (.ok (), t') ∧ t'.out = t.out ++ stepsText o.json steps ∧
      t'.saved = t.saved ∧ steps.length = o.cycle.toNat ∧ StepsOf r 0 steps := by
  obtain ⟨blanks, put, hstanding, -⟩ := h.standing
  obtain ⟨err₁, hposition⟩ := run_linePosition o hline hstanding
  rw [← Nat.zero_mod r.candidates.length] at h
  obtain ⟨d, err, steps, hpress, hlen, hsteps⟩ :=
    run_pressTimes (t := { t with err := err₁ }) hsettings hcommand hline h fun i hi => by
      simpa only [Nat.zero_add] using hreach i hi
  refine ⟨steps, { t with doc := d, err := err, out := t.out ++ stepsText o.json steps }, ?_, rfl,
    rfl, hlen, hsteps⟩
  unfold act
  rw [run_bind hposition, halign, happly]
  simp only [if_neg (show ¬ o.cycle = 0 by omega)]
  exact (run_bind hpress _).trans (run_showSteps o steps _)

/-- The command that applies one candidate gives the text with it. -/
theorem run_act_apply [Platform] {blanks : Text} {put : String} {cs : List Candidate} {i : Nat}
    {p : Document × Int} (halign : o.align = none) (happly : o.apply = some (i : Int))
    (hline : r.Numbered line) (ht : t.doc.Standing r.before blanks put r.code r.after)
    (hcs : (t.doc.candidates o.settings r.before.length).result = .ok cs) (hi : i < cs.length)
    (hp : t.doc.applyEntry r.before.length cs i 0 = .ok p) :
    ∃ t', (act o line).run.run t = (.ok (), t') ∧ Delivered o p.1.text t t' := by
  obtain ⟨err₁, hposition⟩ := run_linePosition o hline ht
  obtain ⟨err₂, hfound⟩ := run_perform o { t with err := err₁ } hcs
  obtain ⟨err₃, happlied⟩ :=
    run_perform (x := Noted.ofExcept (t.doc.applyEntry r.before.length cs i 0)) o
      { t with err := err₂ } hp
  have hone : (applyOne o r.before.length i).run.run { t with err := err₁ } =
      (.ok (), { t with doc := p.1, err := err₃ }) := by
    unfold applyOne
    rw [run_get_bind, run_bind hfound, if_pos (by omega), run_bind happlied]
    rfl
  unfold act
  rw [run_bind hposition, halign, happly]
  dsimp only
  rw [run_bind hone]
  obtain ⟨t', hdeliver, hsaved, hshown⟩ := run_deliver o { t with doc := p.1, err := err₃ }
  exact ⟨t', hdeliver, hsaved, hshown⟩

/-- The lines that pressing the key several times shows are those of the texts that applying one
candidate each gives. -/
theorem run_act_shows [Platform] {pos : Int} {cs : List Candidate}
    (hcode : t.doc.isProse pos = false)
    (hcs : (t.doc.candidates o.settings pos).result = .ok cs) (hne : cs ≠ [])
    (halign : o.align = none) (happly : o.apply = none) (hcycle : 0 < o.cycle) (hone : 1 ≤ line)
    (hle : line ≤ t.doc.text.lineCount)
    (hposition : t.doc.positionOf (line - 1) 0 = .ok (t.doc.text.lineStart pos))
    (hentries : ∀ i < o.cycle.toNat,
      (t.doc.applyEntry pos cs (i % cs.length : Nat) 0).isOk = true) :
    ∃ steps t', (act o line).run.run t = (.ok (), t') ∧ t'.out = t.out ++ stepsText o.json steps ∧
      t'.saved = t.saved ∧ steps.length = o.cycle.toNat ∧ ∀ j < steps.length, ∃ text t'',
        (act { o with apply := some (j % cs.length : Nat) } line).run.run t = (.ok (), t'') ∧
        Delivered o text t t'' ∧
        steps[j]? = some ⟨(j % cs.length : Nat), text.lineAt (t.doc.text.lineStart pos)⟩ := by
  have hbol := Round.lineStart_eq_ofLine TabKey.defaultCommand hcs
  have hstart := t.doc.text.lineStart_lineStart pos
  have hline : (Round.ofLine t.doc pos TabKey.defaultCommand hcs).Numbered line :=
    Round.numbered_ofLine hone hle hposition rfl
  have hready : (Round.ofLine t.doc pos TabKey.defaultCommand hcs).Ready 0 t.doc {} :=
    Round.ready_ofLine hcode rfl
  have hreaches : (Round.ofLine t.doc pos TabKey.defaultCommand hcs).Reaches o.cycle.toNat :=
    Round.reaches_ofLine hcode hne hentries
  obtain ⟨blanks, put, hstanding, -⟩ := hready.standing
  obtain ⟨steps, t', hrun, hout, hsaved, hlen, hsteps⟩ :=
    run_act_cycle halign happly hcycle rfl rfl hline hready hreaches
  refine ⟨steps, t', hrun, hout, hsaved, hlen, fun j hj => ?_⟩
  obtain ⟨c, d', hc, happlied, hstep⟩ := hsteps j hj
  rw [Nat.zero_add] at hc hstep
  rcases Round.applyEntry_ofLine TabKey.defaultCommand hcs hcode hstart hc with
    ⟨p, hp, -, happlied'⟩ | ⟨e, -, hreach⟩
  · obtain ⟨t'', hrun', hgiven⟩ :=
      run_act_apply (o := { o with apply := some (j % cs.length : Nat) }) halign rfl hline hstanding
        ((candidates_result_eq_of_lineStart_eq (hbol ▸ hstart)).trans hcs)
        (Nat.mod_lt j (List.length_pos_iff.mpr hne)) (hbol ▸ hp)
    refine ⟨p.1.text, t'', hrun', ⟨hgiven.saved, hgiven.shown⟩, ?_⟩
    rw [hstep, hbol, happlied.text_eq happlied']
    rfl
  · -- the entry was applied by a press, so it can be reached
    obtain ⟨c', hc', hok⟩ := hreaches j (by omega)
    rw [hc] at hc'
    cases hc'
    rw [hreach] at hok
    cases hok

end Command

/-! ## The round -/

namespace TabKey

/-- Presses on one line of code, the first of which starts a cycle, do not depend on the way. The
press after `count` others has the candidates of the first document and the entry whose turn it is,
and leaves the text that applying this entry to the first document gives; so two presses with the
same entry leave the same text. A press whose entry cannot be applied there fails in the same way,
and so do all after it.

The command that presses the key several times ends well, adds the text of its steps to what was
shown, and saves nothing. Each step shows the entry and the line, and the line is the one that
stands in the text which the command that applies this entry shows, or saves when it is asked to
write. -/
theorem press_path_independent [Platform] (s : Settings) (d : Document) (k : TabKey)
    (places : Nat → Int) (command : String) (count : Nat) {cs : List Candidate}
    (hcode : d.isProse (places 0) = false) (hcs : (d.candidates s (places 0)).result = .ok cs)
    (hne : cs ≠ []) (hfresh : k.continued? d (d.text.lineStart (places 0)) command = none)
    (hplaces : ∀ j ≤ count, (k.pressed s d places command j).1.text.lineStart (places j) =
      d.text.lineStart (places 0)) :
    let apply := fun i : Nat => d.applyEntry (places 0) cs (i % cs.length : Nat) 0
    let press := k.pressAfter s d places command
    (∀ p, (∀ i < count, (apply i).isOk = true) → apply count = .ok p →
      (∃ point, (press count).press.result = .ok ⟨cs, some (count % cs.length), point⟩) ∧
        (press count).doc.text = p.1.text) ∧
    (∀ j ≤ count, j % cs.length = count % cs.length → (∀ i ≤ count, (apply i).isOk = true) →
      (press count).doc.text = (press j).doc.text) ∧
    (∀ first ≤ count, ∀ e, (∀ i < first, (apply i).isOk = true) → apply first = .error e →
      (press count).press.result = .error e ∧
      (press count).doc = (k.pressed s d places command first).1) ∧
    ∀ (o : CommandOptions) (line : Int) (t : Terminal), o.settings = s → t.doc = d →
      o.align = none → o.apply = none → 0 < o.cycle → 1 ≤ line → line ≤ d.text.lineCount →
      d.positionOf (line - 1) 0 = .ok (d.text.lineStart (places 0)) →
      (∀ i < o.cycle.toNat, (apply i).isOk = true) →
      ∃ steps t', (Command.act o line).run.run t = (.ok (), t') ∧
        t'.out = t.out ++ Command.stepsText o.json steps ∧ t'.saved = t.saved ∧
        steps.length = o.cycle.toNat ∧ ∀ j < steps.length, ∃ text t'',
          (Command.act { o with apply := some (j % cs.length : Nat) } line).run.run t =
            (.ok (), t'') ∧
          Command.Delivered o text t t'' ∧
          steps[j]? = some ⟨(j % cs.length : Nat), text.lineAt (d.text.lineStart (places 0))⟩ := by
  intro apply press
  have hmade : ∀ m ≤ count, ∀ p, (∀ i < m, (apply i).isOk = true) → apply m = .ok p →
      (∃ point, (press m).press.result = .ok ⟨cs, some (m % cs.length), point⟩) ∧
        (press m).doc.text = p.1.text :=
    fun m hm p hbefore hp => Round.pressAfter_ok_ofLine hcode hcs hne hfresh
      (fun j hj => hplaces j (Nat.le_trans hj hm)) hbefore hp
  refine ⟨hmade count (Nat.le_refl _), ?_, ?_, ?_⟩
  · intro j hj hsame hall
    have happly : apply j = apply count := by simp only [apply, hsame]
    cases hp : apply count with
    | error e =>
      have hok := hall count (Nat.le_refl _)
      rw [hp] at hok
      cases hok
    | ok p =>
      rw [(hmade count (Nat.le_refl _) p (fun i hi => hall i (by omega)) hp).2,
        (hmade j hj p (fun i hi => hall i (by omega)) (happly.trans hp)).2]
  · intro first hle e hbefore he
    exact Round.pressAfter_error_ofLine hcode hcs hne hfresh hplaces hle hbefore he
  · intro o line t hs ht halign happly hcycle hone hle hposition hentries
    subst hs ht
    exact Command.run_act_shows hcode hcs hne halign happly hcycle hone hle hposition hentries

/-- Places on the blank line while the key is pressed five times on it. -/
def placesBelow (j : Nat) : Int := [8, 8, 10, 13, 8].getD j 8

/-- The fifth press on a blank line below a definition leaves what the second one did. The command
that presses five times shows for it the line of the text that applying the second candidate
shows. -/
theorem press_path_independent_fifth :
    let press := pressAfter {} {} Session.belowDefinition placesBelow defaultCommand
    (∃ point, (press 4).press.result =
      .ok ⟨[⟨0, none⟩, ⟨0, some "f "⟩, ⟨6, none⟩], some 1, point⟩) ∧
      (press 4).doc.text = (press 1).doc.text ∧
      ∃ steps, ∃ text : Text, ∃ t' t'',
        (Command.act { file := "", cycle := 5 } 2).run.run { doc := Session.belowDefinition } =
          (.ok (), t') ∧
        t'.out = Command.stepsText false steps ∧
        (Command.act { file := "", cycle := 5, apply := some 1 } 2).run.run
          { doc := Session.belowDefinition } = (.ok (), t'') ∧
        t''.out = text.toString ∧ steps[4]? = some ⟨1, text.lineAt 8⟩ := by
  have hcs : (Session.belowDefinition.candidates {} (placesBelow 0)).result =
      .ok [⟨0, none⟩, ⟨0, some "f "⟩, ⟨6, none⟩] := by decide +kernel
  have hok : ∀ i < 5, (Session.belowDefinition.applyEntry (placesBelow 0)
      [⟨0, none⟩, ⟨0, some "f "⟩, ⟨6, none⟩] (i % 3 : Nat) 0).isOk = true := by decide +kernel
  have hbol : Session.belowDefinition.text.lineStart (placesBelow 0) = 8 := by decide +kernel
  obtain ⟨hpress, hsame, -, hcommand⟩ := press_path_independent {} Session.belowDefinition {}
    placesBelow defaultCommand 4 (by decide +kernel) hcs (by decide) rfl (by decide +kernel)
  obtain ⟨p, hp⟩ : ∃ p, Session.belowDefinition.applyEntry (placesBelow 0)
      [⟨0, none⟩, ⟨0, some "f "⟩, ⟨6, none⟩] 1 0 = .ok p := ⟨_, rfl⟩
  obtain ⟨steps, t', hrun, hout, -, hlen, hsteps⟩ := hcommand { file := "", cycle := 5 } 2
    { doc := Session.belowDefinition } rfl rfl rfl rfl (by decide) (by decide) (by decide +kernel)
    (by decide +kernel) hok
  obtain ⟨text, t'', happly, hgiven, hstep⟩ := hsteps 4 (hlen ▸ by decide)
  rw [hbol] at hstep
  exact ⟨(hpress p (fun i hi => hok i (by omega)) hp).1,
    hsame 1 (by decide) rfl fun i hi => hok i (by omega),
    steps, text, t', t'', hrun, hout.trans String.empty_append, happly,
    (hgiven.shown rfl).1.trans String.empty_append, hstep⟩

end TabKey

end LayoutRule
