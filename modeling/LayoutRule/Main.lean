import LayoutRule.Command.Run

/-!
# The command line

Reads the file, runs the steps of the command and writes what they show. All decisions are made in
`Command`; here is only the order of reading and writing, so that a dialogue shows each answer
before it reads the next line.
-/

namespace LayoutRule

/-- The bytes of a file, or why they cannot be read. -/
def readContent (path : Path) : IO (Except FileError ByteArray) := do
  if path.hasZero then return .error .zeroByte
  try
    return .ok (← IO.FS.readBinFile path.toString)
  catch
    | .inappropriateType _ code _ => return .error (if code = 21 then .directory else .notDirectory)
    | .invalidArgument _ _ _ => return .error .tooLong
    | _ => return .error .missing

/-- Writes what was shown and reported so far. -/
def flushTerminal (t : Terminal) : IO Terminal := do
  IO.print t.out
  (← IO.getStdout).flush
  IO.eprint t.err
  return { t with out := "", err := "" }

/-- Takes a step of the command and writes what it shows. -/
def takeStep {α : Type} (t : Terminal) (step : CommandM α) : IO (Except Halt α × Terminal) := do
  let (r, t) := step.run.run t
  return (r, ← flushTerminal t)

/-- Ends the program. -/
def finish [Platform] (ending : Ending) : IO UInt32 := do
  IO.eprint ending.report
  return ending.exitCode.toUInt32

/-- Reads line numbers and answers them until an empty line or the end of the input. -/
partial def converse [Platform] (o : CommandOptions) (t : Terminal) : IO UInt32 := do
  IO.print Command.prompt
  (← IO.getStdout).flush
  let input ← (← IO.getStdin).getLine
  if input.isEmpty then finish .done
  else
    match ← takeStep t (Command.reply o input) with
    | (.ok true, t) => converse o t
    | (.ok false, _) => finish .done
    | (.error halt, _) => finish (.halted halt)

/-- Runs the command on a document. -/
def runCommand [Platform] (o : CommandOptions) (d : Document) : IO UInt32 := do
  let (r, t) ← takeStep { doc := d } (match o.line with
    | some line => Command.act o line
    | none => pure ())
  if let some text := t.saved then IO.FS.writeFile (Path.ofString o.file).toString text.toString
  match r with
  | .error halt => finish (.halted halt)
  | .ok () =>
    if o.repl then
      IO.println Command.greeting
      converse o t
    else finish .done

end LayoutRule

open LayoutRule in
/-- Runs the indentation command. -/
def main (args : List String) : IO UInt32 := do
  match CommandOptions.read args with
  | .error .help => finish .help
  | .error (.refused why) => finish (.refused why)
  | .ok o =>
    let verbose := o.verbose || (← IO.getEnv "OFFSIDE_VERBOSE") == some "1"
    match Command.openDocument o (← readContent (Path.ofString o.file)) with
    | .error ending => finish ending
    | .ok d => runCommand { o with verbose := verbose } d
