import LayoutRule.Command.Terminal

/-!
# A run of the indentation command

From the arguments, the file and the input to everything that can be seen of the run: the exit code,
both channels, and what was saved.
-/

namespace LayoutRule

/-- How a run ended. -/
inductive Ending where
  /-- As asked for. -/
  | done
  /-- With the help text. -/
  | help
  /-- The arguments were refused. -/
  | refused (why : UsageError)
  /-- The file could not be read. -/
  | noFile (why : FileError) (path : Path)
  /-- The file is not UTF-8. -/
  | undecodable
  /-- Early. -/
  | halted (why : Halt)
deriving DecidableEq, Repr

namespace Ending

/-- The exit code. -/
def exitCode : Ending → Nat
  | .done => 0
  | .help => 0
  | .refused _ => 2
  | .noFile why _ => if why = .zeroByte then 1 else 2
  | .undecodable => 1
  | .halted why => if why.group = .lookup then 2 else 1

/-- What is reported at the end. -/
def report [Platform] : Ending → String
  | .done => ""
  | .help => ""
  | .refused why => "offside: error: " ++ why.message ++ "\n"
  | .noFile why path => "error: " ++ why.message path ++ "\n"
  | .undecodable => ""
  | .halted (.refused why) => "offside: error: " ++ why.message ++ "\n"
  | .halted why => "error: " ++ why.message ++ "\n"

/-- Whether the run was given up, as against ended. -/
def isAbort : Ending → Bool
  | .noFile .zeroByte _ => true
  | .undecodable => true
  | .halted why => why.group == .abort
  | _ => false

/-- Whether arguments were refused. -/
def isRefusal : Ending → Bool
  | .refused _ => true
  | .halted (.refused _) => true
  | _ => false

end Ending

/-- What can be seen of a run. -/
structure Outcome where
  /-- How it ended. -/
  ending : Ending
  /-- What was shown. -/
  out : String := ""
  /-- What was reported. -/
  err : String := ""
  /-- What was saved. -/
  saved : Option Text := none

namespace Outcome

/-- The outcome of steps. -/
def ofSteps [Platform] (r : Except Halt Unit × Terminal) : Outcome :=
  let ending : Ending := match r.1 with
    | .ok () => .done
    | .error halt => .halted halt
  ⟨ending, r.2.out, r.2.err ++ ending.report, r.2.saved⟩

/-- A run that ended before it started. -/
def early [Platform] (ending : Ending) : Outcome := { ending := ending, err := ending.report }

end Outcome

namespace Command

/-- The document that the command works on. -/
def openDocument (o : CommandOptions) (content : Except FileError ByteArray) :
    Except Ending Document :=
  match content with
  | .error e => .error (.noFile e (Path.ofString o.file))
  | .ok bytes =>
    match Text.ofBytes? bytes with
    | some text => .ok (Document.new text o.styleOf 8)
    | none => .error .undecodable

/-- All steps of the command. -/
def steps [Platform] (o : CommandOptions) (input : List String) : CommandM Unit := do
  if let some line := o.line then act o line
  if o.repl then
    sayLine greeting
    dialogue o input

/-- The lines of the input. -/
def inputLines (input : String) : List String :=
  let lines := input.toList.splitOn '\n'
  let lines := if lines.getLast? = some [] then lines.dropLast else lines
  lines.map String.ofList

/-- A run on a given file and input. -/
def runOn [Platform] (o : CommandOptions) (content : Except FileError ByteArray) (input : String) :
    Outcome :=
  match openDocument o content with
  | .error ending => .early ending
  | .ok d => .ofSteps ((steps o (inputLines input)).run.run { doc := d })

/-- A run in a folder. -/
def run [Platform] (args : List String) (folder : Folder) (input : String) : Outcome :=
  match CommandOptions.read args with
  | .error .help => .early .help
  | .error (.refused why) => .early (.refused why)
  | .ok o => runOn o (folder.read (Path.ofString o.file)) input

end Command

end LayoutRule
