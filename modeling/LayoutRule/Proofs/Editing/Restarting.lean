import Mathlib.Data.List.Induction
import LayoutRule.Proofs.Editing.Session

/-!
# When a press starts over

A press goes on with the cycle that its key remembers, or it starts over with the candidates of its
line. What a key remembers was left behind by its last press that *turned* a cycle. A press on prose
turns none, and neither does a press whose candidates cannot be found; both leave the remembered
cycle as it was, and so does a noted command.

So the events of a key since its last turn do not count, but for the name of the last command among
them: a press goes on exactly when that name is its own, the last turn was made on its line, and the
document was not edited since (`press_continues_iff`). A press on another line in between does not
make the next one start over when that line is prose (`not_only_right_after_press`).
-/

namespace LayoutRule

namespace Event

variable {ι : Type}

/-- The key that an event belongs to; an edit belongs to none. -/
def who? : Event ι → Option ι
  | .noteCommand who _ => some who
  | .press who _ _ _ => some who
  | _ => none

/-- The command that an event is. -/
def command? : Event ι → Option String
  | .noteCommand _ command => some command
  | .press _ _ _ command => some command
  | _ => none

end Event

namespace TabKey

variable {k : TabKey} {s : Settings} {d : Document} {pos : Int} {command : String} {c : TabCycle}

/-- The press turns a cycle: its line is code, and it goes on with a cycle or finds the candidates
of the line. -/
def Turns (k : TabKey) (s : Settings) (d : Document) (pos : Int) (command : String) : Prop :=
  d.isProse pos = false ∧ ∃ c, k.Uses s d pos command c

/-- Every press is remembered as the last command of its key, whatever else it does. -/
theorem press_lastCommand [Platform] (k : TabKey) (s : Settings) (d : Document) (pos : Int)
    (command : String) : (k.press s d pos command).key.lastCommand = some command := by
  have hturn : ∀ (k : TabKey) (c : TabCycle) (notes : List Note),
      (k.turn d pos c notes).key.lastCommand = k.lastCommand := by
    intro k c notes
    unfold turn
    split
    · rfl
    · split <;> rfl
  unfold press
  simp only
  split
  · rfl
  split
  · exact hturn _ _ _
  · split
    · rfl
    · exact hturn _ _ _

/-- A press that turns no cycle changes neither the document nor the cycle. -/
theorem press_of_not_turns [Platform] (h : ¬k.Turns s d pos command) :
    (k.press s d pos command).doc = d ∧ (k.press s d pos command).key.cycle = k.cycle := by
  rcases press_idle_or_uses k s d pos command with ⟨hdoc, hcycle, -⟩ | hturns
  · exact ⟨hdoc, hcycle⟩
  · exact absurd hturns h

/-- A press that turns a cycle leaves one behind for its line. -/
theorem cycle_of_turns [Platform] (h : k.Turns s d pos command) :
    ∃ c, (k.press s d pos command).key.cycle = some c ∧ c.lineStart = d.text.lineStart pos := by
  obtain ⟨hprose, c, huse⟩ := h
  have hline : c.lineStart = d.text.lineStart pos := by
    cases huse with
    | continued hcont => exact (of_continued? hcont).2.1
    | fresh cs _ _ hc => rw [hc]
  obtain ⟨notes, hpress⟩ := press_eq_turn hprose huse
  rw [hpress]
  rcases turn_cases { k with lastCommand := some command } d pos c notes with
    ⟨-, hcycle, -⟩ | ⟨chosen, _, -, -, hcycle, -⟩
  · exact ⟨c, hcycle, hline⟩
  · exact ⟨_, hcycle, hline⟩

/-- A press goes on with the cycle that its key remembers when the last command has the name of its
own and the cycle belongs to this line and to this version of the document. -/
theorem continued?_eq_some_iff {bol : Int} :
    k.continued? d bol command = some c ↔
      k.cycle = some c ∧ k.lastCommand = some command ∧ c.lineStart = bol ∧
      c.version = d.version := by
  unfold continued?
  cases hcycle : k.cycle with
  | none => simp
  | some c' =>
    simp only [Option.some.injEq]
    constructor
    · intro h
      split at h
      · next hcond =>
        cases h
        exact ⟨rfl, hcond⟩
      · cases h
    · rintro ⟨rfl, hcond⟩
      rw [if_pos hcond]

/-- A press that does not go on with a cycle fails when the candidates of its line cannot be found.
Otherwise it applies the first of them; it applies none when there is none, and fails when the line
cannot be indented so far. -/
theorem press_starts_over [Platform] (hprose : d.isProse pos = false)
    (h : k.continued? d (d.text.lineStart pos) command = none) :
    (∀ e, (d.candidates s pos).result = .error e →
      (k.press s d pos command).press.result = .error e) ∧
    ∀ cs p, (d.candidates s pos).result = .ok cs → (k.press s d pos command).press.result = .ok p →
      (cs = [] ∧ p.index = none) ∨
      ∃ c, cs[0]? = some c ∧ p.candidates = cs ∧ p.index = some 0 ∧
        (k.press s d pos command).doc = (d.applyCandidate (d.text.lineStart pos) c 0).1 := by
  constructor
  · intro e he
    unfold press
    simp [hprose, h, he]
  · intro cs p hcs hp
    obtain ⟨notes, hpress⟩ := press_eq_turn hprose (.fresh cs h hcs rfl)
    rw [hpress] at hp ⊢
    cases hc : cs[0]? with
    | none =>
      left
      have hempty : cs = [] :=
        List.length_eq_zero_iff.mp (Nat.le_zero.mp (List.getElem?_eq_none_iff.mp hc))
      simp only [turn, hc] at hp
      cases hp
      exact ⟨hempty, rfl⟩
    | some c =>
      right
      simp only [turn, hc] at hp ⊢
      cases hcheck : d.checkIndent (d.text.lineStart pos) c.column with
      | error e =>
        rw [hcheck] at hp
        cases hp
      | ok u =>
        rw [hcheck] at hp
        cases hp
        exact ⟨c, rfl, rfl, rfl, rfl⟩

end TabKey

namespace Session

variable {ι : Type} [DecidableEq ι] {σ : Session ι} {who : ι}

/-! ## What a key saw last -/

/-- The last command of a key. -/
def lastCommand (who : ι) (events : List (Event ι)) : Option String :=
  events.foldl (fun last e => if e.who? = some who then e.command? else last) none

/-- The event is a press of the key that turns a cycle. -/
def Turns (σ : Session ι) (who : ι) : Event ι → Prop
  | .press other s pos command => other = who ∧ (σ.keys who).Turns s σ.doc pos command
  | _ => False

/-- None of the events is a press of the key that turns a cycle. -/
def Quiet [Platform] (who : ι) : Session ι → List (Event ι) → Prop
  | _, [] => True
  | σ, e :: rest => ¬σ.Turns who e ∧ Quiet who (σ.step e) rest

/-- A run can be made in two parts. -/
theorem run_append [Platform] (σ : Session ι) (events more : List (Event ι)) :
    σ.run (events ++ more) = (σ.run events).run more :=
  List.foldl_append

/-- Events are quiet in a row when the first ones are, and the others are after them. -/
theorem quiet_append [Platform] {events more : List (Event ι)} :
    Quiet who σ (events ++ more) ↔ Quiet who σ events ∧ Quiet who (σ.run events) more := by
  induction events generalizing σ with
  | nil => simp [Quiet, run]
  | cons e rest ih =>
    simp only [List.cons_append, Quiet, ih]
    rw [and_assoc]
    rfl

/-- An event leaves a key as it is, notes a command for it, or is a press of it. -/
theorem step_keys [Platform] (σ : Session ι) (who : ι) (e : Event ι) :
    (e.who? ≠ some who ∧ (σ.step e).keys who = σ.keys who) ∨
    (∃ command, e = .noteCommand who command ∧
      (σ.step e).keys who = (σ.keys who).noteCommand command) ∨
    ∃ s pos command, e = .press who s pos command ∧
      (σ.step e).keys who = ((σ.keys who).press s σ.doc pos command).key ∧
      (σ.step e).doc = ((σ.keys who).press s σ.doc pos command).doc := by
  cases e with
  | replaceRange start stop new => exact .inl ⟨nofun, rfl⟩
  | insertText pos new => exact .inl ⟨nofun, rfl⟩
  | deleteText pos count => exact .inl ⟨nofun, rfl⟩
  | setText new => exact .inl ⟨nofun, rfl⟩
  | indentLine pos column =>
    refine .inl ⟨nofun, ?_⟩
    simp only [step]
    split <;> rfl
  | noteCommand other command =>
    by_cases hother : other = who
    · subst hother
      exact .inr (.inl ⟨command, rfl, by simp [step, assign]⟩)
    · exact .inl ⟨fun h => hother (Option.some.inj h), by simp [step, assign, Ne.symm hother]⟩
  | press other s pos command =>
    by_cases hother : other = who
    · subst hother
      exact .inr (.inr ⟨s, pos, command, rfl, by simp [step, assign], rfl⟩)
    · exact .inl ⟨fun h => hother (Option.some.inj h), by simp [step, assign, Ne.symm hother]⟩

/-- The key remembers its last command. -/
theorem lastCommand_run [Platform] (d : Document) (events : List (Event ι)) (who : ι) :
    ((run { doc := d } events).keys who).lastCommand = lastCommand who events := by
  induction events using List.reverseRecOn with
  | nil => rfl
  | append_singleton events e ih =>
    rw [run_append, lastCommand, List.foldl_append]
    simp only [List.foldl_cons, List.foldl_nil]
    show ((step (run { doc := d } events) e).keys who).lastCommand = _
    rcases step_keys (run { doc := d } events) who e with
      ⟨hwho, hkey⟩ | ⟨command, rfl, hkey⟩ | ⟨s, pos, command, rfl, hkey, -⟩
    · rw [hkey, if_neg hwho]
      exact ih
    · rw [hkey]
      exact (if_pos rfl).symm
    · rw [hkey, TabKey.press_lastCommand]
      exact (if_pos rfl).symm

/-- An event that turns no cycle of the key leaves its cycle as it is. -/
theorem cycle_step_of_not_turns [Platform] {e : Event ι} (h : ¬σ.Turns who e) :
    ((σ.step e).keys who).cycle = (σ.keys who).cycle := by
  rcases step_keys σ who e with ⟨-, hkey⟩ | ⟨command, rfl, hkey⟩ | ⟨s, pos, command, rfl, hkey, -⟩
  · rw [hkey]
  · rw [hkey]
    rfl
  · rw [hkey]
    exact (TabKey.press_of_not_turns fun hturns => h ⟨rfl, hturns⟩).2

/-- A key remembers the same cycle after events among which none turns a cycle of it. -/
theorem cycle_run_of_quiet [Platform] {events : List (Event ι)} (h : Quiet who σ events) :
    ((σ.run events).keys who).cycle = (σ.keys who).cycle := by
  induction events generalizing σ with
  | nil => rfl
  | cons e rest ih => exact (ih h.2).trans (cycle_step_of_not_turns h.1)

/-- A key that remembers a cycle has turned one, and nothing since. -/
theorem exists_last_turn [Platform] (d : Document) (events : List (Event ι)) (who : ι)
    {c : TabCycle} (h : ((run { doc := d } events).keys who).cycle = some c) :
    ∃ before s pos command between, events = before ++ .press who s pos command :: between ∧
      ((run { doc := d } before).keys who).Turns s (run { doc := d } before).doc pos command ∧
      Quiet who (run { doc := d } (before ++ [.press who s pos command])) between := by
  induction events using List.reverseRecOn with
  | nil => cases h
  | append_singleton events e ih =>
    by_cases hturns : (run { doc := d } events).Turns who e
    · cases e with
      | press other s pos command =>
        obtain ⟨rfl, hturns⟩ := hturns
        exact ⟨events, s, pos, command, [], rfl, hturns, trivial⟩
      | _ => exact absurd hturns id
    · rw [run_append] at h
      obtain ⟨before, s, pos, command, between, rfl, hturn, hquiet⟩ :=
        ih ((cycle_step_of_not_turns hturns).symm.trans h)
      refine ⟨before, s, pos, command, between ++ [e],
        by simp, hturn, quiet_append.mpr ⟨hquiet, ?_, trivial⟩⟩
      rw [← run_append]
      simpa using hturns

/-! ## Versions -/

/-- An event edits the document or leaves it as it is. -/
theorem step_edited [Platform] (σ : Session ι) (e : Event ι) : σ.doc.Edited (σ.step e).doc := by
  cases e with
  | replaceRange start stop new => exact .replaceRange σ.doc _ _ _
  | insertText pos new => exact .replaceRange σ.doc _ _ _
  | deleteText pos count => exact .replaceRange σ.doc _ _ _
  | setText new => exact .setText σ.doc new
  | indentLine pos column =>
    simp only [step]
    cases hd : σ.doc.tryIndentLine pos column with
    | error e => exact .refl σ.doc
    | ok r =>
      obtain ⟨-, -, hr⟩ := bind_eq_ok.mp hd
      cases hr
      exact .indentLine σ.doc pos column
  | noteCommand other command => exact .refl σ.doc
  | press other s pos command => exact TabKey.press_edited _ s σ.doc pos command

/-- A run edits the document or leaves it as it is, so that equal versions mean equal texts. -/
theorem run_edited [Platform] (σ : Session ι) (events : List (Event ι)) :
    σ.doc.Edited (σ.run events).doc := by
  induction events generalizing σ with
  | nil => exact .refl σ.doc
  | cons e rest ih => exact (σ.step_edited e).trans (ih (σ.step e))

/-! ## Going on and starting over -/

/-- The press of the key turns a cycle and leaves it behind at the version of the document. A press
that applies a candidate does so; one that applies none leaves a new cycle at the version of a
document without edits. -/
def Leaves [Platform] (σ : Session ι) (who : ι) (s : Settings) (pos : Int) (command : String) :
    Prop :=
  (σ.keys who).Turns s σ.doc pos command ∧
    ∃ c, ((σ.keys who).press s σ.doc pos command).key.cycle = some c ∧
      c.version = ((σ.keys who).press s σ.doc pos command).doc.version

/-- In every run a press goes on with a cycle exactly when the last command of its key has the name
of its own, the last press of the key that turned a cycle was made on the same line, and the
document was not edited since. Other events of the key since then do not count: noted commands,
presses on prose and presses whose candidates could not be found. When a press does not go on it
starts over with the candidates of its line and applies the first one. -/
theorem press_continues_iff [Platform] (d : Document) (events : List (Event ι)) (who : ι)
    (s : Settings) (pos : Int) (command : String) :
    let σ := Session.run { doc := d } events
    let k := σ.keys who
    let bol := σ.doc.text.lineStart pos
    ((k.continued? σ.doc bol command).isSome ↔
      lastCommand who events = some command ∧
      ∃ before s₀ pos₀ command₀ between, events = before ++ .press who s₀ pos₀ command₀ :: between ∧
        (run { doc := d } before).Leaves who s₀ pos₀ command₀ ∧
        Quiet who (run { doc := d } (before ++ [.press who s₀ pos₀ command₀])) between ∧
        (run { doc := d } before).doc.text.lineStart pos₀ = bol ∧
        (run { doc := d } (before ++ [.press who s₀ pos₀ command₀])).doc.version = σ.doc.version ∧
        (run { doc := d } (before ++ [.press who s₀ pos₀ command₀])).doc.text = σ.doc.text) ∧
    (σ.doc.isProse pos = false → k.continued? σ.doc bol command = none →
      (∀ e, (σ.doc.candidates s pos).result = .error e →
        (k.press s σ.doc pos command).press.result = .error e) ∧
      ∀ cs p, (σ.doc.candidates s pos).result = .ok cs →
        (k.press s σ.doc pos command).press.result = .ok p → (cs = [] ∧ p.index = none) ∨
        ∃ c, cs[0]? = some c ∧ p.candidates = cs ∧ p.index = some 0 ∧
          (k.press s σ.doc pos command).doc = (σ.doc.applyCandidate bol c 0).1) := by
  intro σ k bol
  refine ⟨⟨fun h => ?_, ?_⟩, TabKey.press_starts_over⟩
  · obtain ⟨c, hc⟩ := Option.isSome_iff_exists.mp h
    obtain ⟨hcycle, hcommand, hline, hversion⟩ := TabKey.continued?_eq_some_iff.mp hc
    refine ⟨(lastCommand_run d events who).symm.trans hcommand, ?_⟩
    obtain ⟨before, s₀, pos₀, command₀, between, rfl, hturns, hquiet⟩ :=
      exists_last_turn d events who hcycle
    have hsplit : σ = (run { doc := d } (before ++ [.press who s₀ pos₀ command₀])).run between := by
      rw [← run_append]
      simp [σ]
    have hstep : run { doc := d } (before ++ [.press who s₀ pos₀ command₀]) =
        (run { doc := d } before).step (.press who s₀ pos₀ command₀) := run_append _ _ _
    obtain ⟨c', hc', hline'⟩ := TabKey.cycle_of_turns hturns
    have hkept : ((run { doc := d } (before ++ [.press who s₀ pos₀ command₀])).keys who).cycle =
        some c' := by
      rw [hstep]
      simpa [step, assign] using hc'
    have heq : c' = c := by
      have := cycle_run_of_quiet hquiet
      rw [← hsplit, hkept] at this
      exact Option.some.inj (this.symm.trans hcycle)
    subst heq
    -- the version of the cycle lies between those of the document then and now
    have hedited := run_edited (run { doc := d } (before ++ [.press who s₀ pos₀ command₀])) between
    rw [← hsplit] at hedited
    have hfits :=
      ((fits_new (ι := ι) d).run (before ++ [.press who s₀ pos₀ command₀]) who).cycle c' hkept
    have hle₁ := hfits.version_le
    have hle₂ := hedited.version_le
    have hsame : (run { doc := d } (before ++ [.press who s₀ pos₀ command₀])).doc.version =
        σ.doc.version := by omega
    refine ⟨before, s₀, pos₀, command₀, between, rfl, ⟨hturns, c', hc', ?_⟩, hquiet,
      hline'.symm.trans hline, hsame, (hedited.text hsame.symm).symm⟩
    rw [hversion, ← hsame, hstep]
    rfl
  · rintro ⟨hcommand, before, s₀, pos₀, command₀, between, rfl, ⟨hturns, c, hc, hcversion⟩, hquiet,
      hline, hsame, -⟩
    have hsplit : σ = (run { doc := d } (before ++ [.press who s₀ pos₀ command₀])).run between := by
      rw [← run_append]
      simp [σ]
    have hstep : run { doc := d } (before ++ [.press who s₀ pos₀ command₀]) =
        (run { doc := d } before).step (.press who s₀ pos₀ command₀) := run_append _ _ _
    have hcycle : k.cycle = some c := by
      show (σ.keys who).cycle = some c
      rw [hsplit, cycle_run_of_quiet hquiet, hstep]
      simpa [step, assign] using hc
    obtain ⟨c', hc', hline'⟩ := TabKey.cycle_of_turns hturns
    rw [hc] at hc'
    cases hc'
    refine Option.isSome_iff_exists.mpr
      ⟨c, TabKey.continued?_eq_some_iff.mpr ⟨hcycle, ?_, hline'.trans hline, ?_⟩⟩
    · exact (lastCommand_run d _ who).trans hcommand
    · rw [hcversion, ← hsame, hstep]
      rfl

/-- A definition in marked code with an empty line below it, and prose. -/
def proseBelow : Document := .new (Text.ofString "> f x = 1\n> \nprose") .bird 8

/-- A press on the empty line and one on the prose. -/
def lineThenProse : List (Event Unit) :=
  [.press () {} 10 TabKey.defaultCommand, .press () {} 13 TabKey.defaultCommand]

/-- The session after the two presses and another command. -/
def afterSave : Session Unit :=
  Session.run { doc := proseBelow } (lineThenProse ++ [.noteCommand () "save"])

/-- After a press on prose the next one on the line above goes on; after another command it starts
over. -/
theorem press_continues_iff_proseBelow :
    (∃ before s₀ pos₀ command₀ between,
      lineThenProse = before ++ .press () s₀ pos₀ command₀ :: between ∧
      (run { doc := proseBelow } before).Leaves () s₀ pos₀ command₀ ∧
      (run { doc := proseBelow } before).doc.text.lineStart pos₀ = 10) ∧
    ∃ c p,
      ((afterSave.keys ()).press {} afterSave.doc 10 TabKey.defaultCommand).press.result = .ok p ∧
      p.candidates[0]? = some c ∧ p.index = some 0 := by
  constructor
  · have hline : (Session.run { doc := proseBelow } lineThenProse).doc.text.lineStart 10 = 10 := by
      decide +kernel
    obtain ⟨-, before, s₀, pos₀, command₀, between, hevents, hleaves, -, hsame, -⟩ :=
      (press_continues_iff proseBelow lineThenProse () {} 10 TabKey.defaultCommand).1.mp
        (by decide +kernel)
    exact ⟨before, s₀, pos₀, command₀, between, hevents, hleaves, hsame.trans hline⟩
  · have hcs : (afterSave.doc.candidates {} 10).result =
        .ok [⟨2, none⟩, ⟨2, some "f "⟩, ⟨8, none⟩] := by decide +kernel
    have hp : ((afterSave.keys ()).press {} afterSave.doc 10 TabKey.defaultCommand).press.result =
        .ok ⟨[⟨2, none⟩, ⟨2, some "f "⟩, ⟨8, none⟩], some 0, 12⟩ := by decide +kernel
    have hover :=
      (press_continues_iff proseBelow (lineThenProse ++ [.noteCommand () "save"]) ()
        {} 10 TabKey.defaultCommand).2 (by decide +kernel) (by decide +kernel)
    rw [show Session.run { doc := proseBelow } (lineThenProse ++ [.noteCommand () "save"]) =
      afterSave from rfl] at hover
    rcases hover.2 _ _ hcs hp with ⟨hnil, -⟩ | ⟨c, hc, -, hindex, -⟩
    · cases hnil
    · exact ⟨c, _, hp, hc, hindex⟩

/-- So it is not true that a press goes on only right after a press of its key on its own line. -/
theorem not_only_right_after_press :
    ¬∀ (d : Document) (events : List (Event Unit)) (pos : Int) (command : String),
      let σ := Session.run { doc := d } events
      ((σ.keys ()).continued? σ.doc (σ.doc.text.lineStart pos) command).isSome →
        ∃ before s₀ pos₀ between, events = before ++ .press () s₀ pos₀ command :: between ∧
          (∀ e ∈ between, e.who? ≠ some ()) ∧
          (run { doc := d } before).doc.text.lineStart pos₀ = σ.doc.text.lineStart pos := by
  intro h
  obtain ⟨before, s₀, pos₀, between, hevents, hbetween, hline⟩ :=
    h proseBelow lineThenProse 10 TabKey.defaultCommand (by decide +kernel)
  match before with
  | [] =>
    injection hevents with _ hrest
    exact hbetween (.press () {} 13 TabKey.defaultCommand)
      (by rw [← hrest]; exact List.mem_singleton_self _) rfl
  | first :: more =>
    injection hevents with hfirst hrest
    match more with
    | [] =>
      injection hrest with hlast _
      cases hfirst
      cases hlast
      exact absurd hline (by decide +kernel)
    | second :: more =>
      injection hrest with _ hnil
      exact absurd hnil.symm (by simp)

end Session

end LayoutRule
