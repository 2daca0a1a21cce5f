import LayoutRule.Command.Folder
import LayoutRule.Command.Options
import LayoutRule.Editing.Alignment
import LayoutRule.Editing.TabCycle
import LayoutRule.Json.Printer

/-!
# The indentation command at work

The command works on one document, writes to two channels, and may save the document. `Terminal` is
what it has done so far, and a `CommandM` step may do more or end the command early with a `Halt`.

What is shown: a table of candidates, or the same as JSON; the line after each press of the TAB key;
or the edited text. Warnings go to the second channel as they are; on request every note goes there
with its level and source.
-/

namespace LayoutRule

/-- What the command is asked to do. -/
structure CommandOptions where
  /-- The file. -/
  file : String
  /-- The line to indent, counted from one. -/
  line : Option Int := none
  /-- How often the TAB key is pressed. -/
  cycle : Int := 0
  /-- The candidate to apply. -/
  apply : Option Int := none
  /-- The signs to align. -/
  align : Option AlignSign := none
  /-- The literate style. -/
  style : Option Literate := none
  /-- The general step. -/
  indentStep : Option Int := none
  /-- Whether edits are saved. -/
  write : Bool := false
  /-- Whether results are shown as JSON. -/
  json : Bool := false
  /-- Whether line numbers are read and answered. -/
  repl : Bool := false
  /-- Whether all notes are shown. -/
  verbose : Bool := false
deriving DecidableEq, Repr

namespace CommandOptions

/-- The options of the command. -/
def specs : List OptionSpec := [
  ⟨["--line"], .integer⟩,
  ⟨["--cycle"], .integer⟩,
  ⟨["--apply"], .integer⟩,
  ⟨["--align"], .choice ["guard", "rhs"]⟩,
  ⟨["--literate"], .choice ["none", "bird", "latex"]⟩,
  ⟨["--indent-step"], .integer⟩,
  ⟨["--write"], .flag⟩,
  ⟨["--json"], .flag⟩,
  ⟨["--repl"], .flag⟩,
  ⟨["--verbose"], .flag⟩]

/-- Reads the arguments of the command. -/
def read [Platform] (args : List String) : Except UsageStop CommandOptions := do
  let a ← readArguments specs (some "file") args
  let o : CommandOptions := {
    file := a.operand.getD ""
    line := a.integer? "--line"
    cycle := (a.integer? "--cycle").getD 0
    apply := a.integer? "--apply"
    align := (a.word? "--align").bind fun name => (AlignSign.ofName name).toOption
    style := (a.word? "--literate").bind Literate.ofName?
    indentStep := a.integer? "--indent-step"
    write := a.has "--write"
    json := a.has "--json"
    repl := a.has "--repl"
    verbose := a.has "--verbose" }
  if o.line.isNone && !o.repl then .error (.refused .lineRequired) else return o

/-- The style of the document: as asked for, or by the name of the file. -/
def styleOf (o : CommandOptions) : Literate :=
  o.style.getD (if (Path.ofString o.file).isBirdScript then .bird else .plain)

/-- The settings of the command. -/
def settings (o : CommandOptions) : Settings :=
  match o.indentStep with
  | some step => { indentStep := step }
  | none => {}

end CommandOptions

/-- Why the command ends early. -/
inductive Halt where
  /-- A request failed. -/
  | failed (why : Fault)
  /-- There is no such line, counted from one, among so many. -/
  | noLine (line : Int) (count : Nat)
  /-- The arguments do not fit the document. -/
  | refused (why : UsageError)
  /-- A column has too many digits to be shown. -/
  | unwritable
deriving DecidableEq, Repr

/-- What the command has done so far. -/
structure Terminal where
  /-- The document. -/
  doc : Document
  /-- What was shown. -/
  out : String := ""
  /-- What was reported. -/
  err : String := ""
  /-- What was saved. -/
  saved : Option Text := none

/-- A step of the command. -/
abbrev CommandM := ExceptT Halt (StateM Terminal)

namespace Halt

/-- What is reported when the command ends so. -/
def message [Platform] : Halt → String
  | .failed why => why.message
  | .noLine line count => "line " ++ toString line ++ " out of range (1.." ++ toString count ++ ")"
  | .refused why => why.message
  | .unwritable =>
    "Exceeds the limit (" ++ toString Platform.maxDigits ++
      " digits) for integer string conversion; " ++
      "use sys.set_int_max_str_digits() to increase the limit"

/-- Who has to deal with an early end. -/
def group : Halt → FaultClass
  | .failed why => why.group
  | .noLine _ _ => .lookup
  | .refused _ => .lookup
  | .unwritable => .abort

end Halt

namespace Note

/-- A note in the log, with its level and source. -/
def logLine (n : Note) : String :=
  (if n.isWarning then "WARNING:" else "INFO:") ++ n.source ++ ":" ++ n.message ++ "\n"

/-- How notes are reported: all with level and source, or the warnings alone. -/
def report (verbose : Bool) (notes : List Note) : String :=
  if verbose then String.join (notes.map logLine)
  else String.join ((notes.filter isWarning).map fun n => n.message ++ "\n")

end Note

namespace Command

/-- Shows text. -/
def say (s : String) : CommandM Unit := modify fun t => { t with out := t.out ++ s }

/-- Shows a line. -/
def sayLine (s : String) : CommandM Unit := say (s ++ "\n")

/-- Reports the notes of a computation and goes on with its value. -/
def perform {α : Type} (o : CommandOptions) (x : Noted α) : CommandM α := do
  modify fun t => { t with err := t.err ++ Note.report o.verbose x.notes }
  match x.result with
  | .ok a => return a
  | .error e => throw (.failed e)

/-- The position of a line, counted from one. -/
def linePosition (o : CommandOptions) (line : Int) : CommandM Int := do
  let d := (← get).doc
  if 1 ≤ line ∧ line ≤ d.text.lineCount then perform o (Noted.ofExcept (d.positionOf (line - 1) 0))
  else throw (.noLine line d.text.lineCount)

/-- A candidate as JSON. -/
def candidateJson (c : Candidate) : Json :=
  .object [("column", .int c.column), ("insert_text", Json.ofOption .string c.insert)]

/-- The candidates and diagnostics of a line as JSON. -/
def resultJson (line : Int) (cs : List Candidate) (diagnostics : List String) : Json :=
  .object [
    ("line", .int line),
    ("candidates", .array (cs.map candidateJson)),
    ("diagnostics", .array (diagnostics.map .string))]

/-- A text filled up with blanks to a width. -/
def padRight (width : Nat) (s : String) : String :=
  s ++ String.ofList (List.replicate (width - s.length) ' ')

/-- A row of the table of candidates. -/
def candidateRow (c : Candidate) (i : Nat) : String :=
  padRight 2 (toString i) ++ " " ++ padRight 7 (toString c.column) ++ " " ++ quoted
    (c.insert.getD "")

/-- Goes on if the column of a candidate can be shown. -/
def checkColumn [Platform] (c : Candidate) : CommandM Unit :=
  if IntegerText.isWritable c.column then return () else throw .unwritable

/-- Shows the table of candidates, row by row, with the diagnostics below it. -/
def showTable [Platform] (cs : List Candidate) (diagnostics : List String) : CommandM Unit :=
  if cs.isEmpty then sayLine "(no candidates)"
  else do
    sayLine "#  Column  Insert"
    cs.zipIdx.forM fun (c, i) => do
      checkColumn c
      sayLine (candidateRow c i)
    diagnostics.forM fun d => sayLine ("note: " ++ d)

/-- Shows the candidates of a line. -/
def showLine [Platform] (o : CommandOptions) (line : Int) : CommandM Unit := do
  let pos ← linePosition o line
  let x := (← get).doc.candidates o.settings pos
  let cs ← perform o x
  if o.json then
    cs.forM checkColumn
    sayLine ((resultJson line cs x.diagnostics).pretty 0)
  else showTable cs x.diagnostics

/-- The line after one press of the TAB key, and the entry that was applied. -/
structure CycleStep where
  /-- The entry, or minus one. -/
  index : Int
  /-- The line. -/
  line : String

/-- Presses the TAB key several times on a line. -/
def pressTimes [Platform] (o : CommandOptions) (line : Int) :
    Nat → TabKey → CommandM (List CycleStep)
  | 0, _ => return []
  | count + 1, key => do
    let pos ← linePosition o line
    let outcome := key.press o.settings (← get).doc pos TabKey.defaultCommand
    modify fun t => { t with doc := outcome.doc }
    let press ← perform o outcome.press
    let bol ← perform o (Noted.ofExcept (outcome.doc.positionOf (line - 1) 0))
    let shown := (outcome.doc.text.slice bol (outcome.doc.text.lineStop bol)).toString
    let index : Int := match press.index with
      | some i => i
      | none => -1
    let steps ← pressTimes o line count outcome.key
    return ⟨index, shown⟩ :: steps

/-- Shows the steps of a cycle. -/
def showSteps (o : CommandOptions) (steps : List CycleStep) : CommandM Unit :=
  if o.json then
    sayLine
      ((Json.array (steps.map fun s => .object
        [("index", .int s.index), ("line", .string s.line)])).pretty 0)
  else steps.forM fun s => sayLine ("[" ++ toString s.index ++ "] " ++ s.line)

/-- Applies a candidate to the line of `pos`. -/
def applyOne [Platform] (o : CommandOptions) (pos index : Int) : CommandM Unit := do
  let d := (← get).doc
  let cs ← perform o (d.candidates o.settings pos)
  if 0 ≤ index ∧ index < cs.length then
    let (d, _) ← perform o (Noted.ofExcept (d.applyEntry pos cs index 0))
    modify fun t => { t with doc := d }
  else throw (.refused (.noSuchCandidate index cs.length))

/-- Saves or shows the edited text. -/
def deliver (o : CommandOptions) : CommandM Unit :=
  modify fun t =>
    if o.write then { t with saved := some t.doc.text }
      else { t with out := t.out ++ t.doc.text.toString }

/-- What is asked for about one line. -/
def act [Platform] (o : CommandOptions) (line : Int) : CommandM Unit := do
  let pos ← linePosition o line
  match o.align, o.apply with
  | some sign, _ =>
    let (d, _) ← perform o ((← get).doc.align o.settings sign pos)
    modify fun t => { t with doc := d }
    deliver o
  | none, some index =>
    applyOne o pos index
    deliver o
  | none, none =>
    if o.cycle = 0 then showLine o line
    else showSteps o (← pressTimes o line o.cycle.toNat {})

/-! ## Answering line numbers -/

/-- The greeting before line numbers are read. -/
def greeting : String := "Type a line number (empty line to exit)."

/-- What is shown before a line number is read. -/
def prompt : String := "> "

/-- What is shown for a text that is no line number. -/
def refusalMessage [Platform] (given : String) : IntegerText.Refusal → String
  | .malformed =>
    "invalid literal for int() with base 10: " ++ String.ofList ((quoted given).toList.take 200)
  | .tooLong digits =>
    "Exceeds the limit (" ++ toString Platform.maxDigits ++
      " digits) for integer string conversion: value has " ++ toString digits ++
      " digits; use sys.set_int_max_str_digits() to increase the limit"

/-- Answers one line of input; an empty one ends the dialogue. -/
def reply [Platform] (o : CommandOptions) (input : String) : CommandM Bool := do
  let given := String.ofList (IntegerText.strip isBlankChar input.toList)
  if given.isEmpty then return false
  match IntegerText.read given with
  | .error why => sayLine ("error: " ++ refusalMessage given why)
  | .ok line =>
    tryCatch (showLine o line) fun halt =>
      if halt.group = .lookup ∨ halt = .unwritable then sayLine ("error: " ++ halt.message)
        else throw halt
  return true

/-- Reads line numbers and answers them. -/
def dialogue [Platform] (o : CommandOptions) : List String → CommandM Unit
  | [] => say prompt
  | input :: rest => do
    say prompt
    if ← reply o input then dialogue o rest

end Command

end LayoutRule
