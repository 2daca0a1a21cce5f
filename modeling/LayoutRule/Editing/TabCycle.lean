import LayoutRule.Editing.Apply
import LayoutRule.Request.Answer

/-!
# The TAB key

The first press on a line looks up its candidates and applies the first. Pressing again, with no
other command and no edit in between, applies the next one, around to the first, and takes out what
the press before had put in. `TabKey` is what is remembered between presses, and `TabKey.press` one
press.

A press that fails does not change the document, but it still counts as the last command. When the
candidates cannot be found, the list that is being cycled through stays as it was; when the line
cannot be indented as far as the chosen one says, the next press tries it again.
-/

namespace LayoutRule

/-- The candidates that are being cycled through. -/
structure TabCycle where
  /-- The start of the line. -/
  lineStart : Int
  /-- The candidates for it. -/
  candidates : List Candidate
  /-- The entry that the next press applies. -/
  next : Nat := 0
  /-- The length of the text that the last press put in. -/
  inserted : Nat := 0
  /-- The version of the document after the last press. -/
  version : Nat := 0
deriving DecidableEq, Repr

/-- What is remembered between presses. -/
structure TabKey where
  /-- The current cycle. -/
  cycle : Option TabCycle := none
  /-- The last command. -/
  lastCommand : Option String := none
  /-- What was last said to the user. -/
  message : String := ""
deriving DecidableEq, Repr

/-- The result of a press. -/
structure TabPress where
  /-- The candidates of the cycle. -/
  candidates : List Candidate
  /-- The entry that was applied. -/
  index : Option Nat
  /-- The place of the caret afterwards. -/
  point : Int
deriving DecidableEq, Repr

/-- What a press leaves behind, whether it failed or not. -/
structure TabOutcome where
  /-- The document. -/
  doc : Document
  /-- What is remembered. -/
  key : TabKey
  /-- The notes of the request, and the result or the fault. -/
  press : Noted TabPress

namespace TabKey

/-- The command that a press is, unless another name is given. -/
def defaultCommand : String := "cycle-indent"

/-- Remembers a command that is no press. -/
def noteCommand (k : TabKey) (command : String) : TabKey := { k with lastCommand := some command }

/-- The cycle that a press goes on with: same command, same line, no edit since the last press. -/
def continued? (k : TabKey) (d : Document) (bol : Int) (command : String) : Option TabCycle :=
  match k.cycle with
  | some c =>
    if k.lastCommand = some command ∧ c.lineStart = bol ∧
      c.version = d.version then some c else none
  | none => none

/-- Where the caret goes: it keeps its distance from the code when it stood inside the code. -/
def caretAfter (d : Document) (pos : Int) (removed : Nat) (point : Int) : Int :=
  let distance := pos - d.indentationPoint pos
  if 0 < distance ∧ (removed : Int) < distance then point + (distance - removed) else point

/-- Applies the next candidate of a cycle. -/
def turn [Platform] (k : TabKey) (d : Document) (pos : Int) (c : TabCycle) (notes : List Note) :
    TabOutcome :=
  match c.candidates[c.next]? with
  | none =>
    ⟨d, { k with cycle := some c, message := "No indentation" }, ⟨notes, .ok ⟨[], none, pos⟩⟩⟩
  | some chosen =>
    match d.checkIndent c.lineStart chosen.column with
    | .error e => ⟨d, { k with cycle := some c }, ⟨notes, .error e⟩⟩
    | .ok () =>
      let (d', point) := d.applyCandidate c.lineStart chosen c.inserted
      let count := c.candidates.length
      let c' : TabCycle :=
        { c with next := (c.next + 1) % count, inserted := chosen.insertLength,
                 version := d'.version }
      ⟨d', { k with cycle := some c', message := Note.cycleMessage count },
        ⟨notes ++ [.cycled count],
          .ok ⟨c.candidates, some c.next, caretAfter d pos c.inserted point⟩⟩⟩

/-- One press of the key at `pos`. -/
def press [Platform] (k : TabKey) (s : Settings) (d : Document) (pos : Int) (command : String) :
    TabOutcome :=
  let k' := { k with lastCommand := some command }
  if d.isProse pos then ⟨d, k', ⟨[], .ok ⟨[], none, pos⟩⟩⟩
  else
    let bol := d.text.lineStart pos
    match k.continued? d bol command with
    | some c => k'.turn d pos c []
    | none =>
      let found := d.candidates s pos
      match found.result with
      | .error e => ⟨d, k', ⟨found.notes, .error e⟩⟩
      | .ok cs => k'.turn d pos ⟨bol, cs, 0, 0, 0⟩ found.notes

end TabKey

end LayoutRule
