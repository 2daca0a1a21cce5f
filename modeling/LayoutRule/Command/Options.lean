import LayoutRule.Text.Integer
import LayoutRule.Text.Quoted

/-!
# Options of a command line

A command has options, each a flag or with one value, and possibly one operand. An option may be cut
short as long as it is the only one that starts so; a value follows its option or an equals sign.
Options of one letter can stand together behind a single dash. A negative number and a word with a
blank in it are never options, and everything after `--` is an operand.

`readArguments` sorts the arguments out. Cut options that fit several are refused before anything
else is looked at; then arguments are taken from left to right, and what nobody takes is refused at
the end.
-/

namespace LayoutRule

/-- What an option takes. -/
inductive OptionKind where
  /-- Nothing: it is set or not. -/
  | flag
  /-- Shows the help text and ends the program. -/
  | help
  /-- An integer. -/
  | integer
  /-- One of these words. -/
  | choice (words : List String)
  /-- Any word. -/
  | word
deriving DecidableEq, Repr

namespace OptionKind

/-- Whether an option of this kind is given with a value. -/
def takesValue : OptionKind → Bool
  | .flag => false
  | .help => false
  | _ => true

end OptionKind

/-- An option. -/
structure OptionSpec where
  /-- Its spellings, the last one its name. -/
  spellings : List String
  /-- What it takes. -/
  kind : OptionKind
deriving DecidableEq, Repr

namespace OptionSpec

/-- The name of an option. -/
def name (o : OptionSpec) : String := o.spellings.getLast?.getD ""

/-- All spellings of an option, as messages show them. -/
def title (o : OptionSpec) : String := String.intercalate "/" o.spellings

/-- The option that every command has. -/
def help : OptionSpec := ⟨["-h", "--help"], .help⟩

end OptionSpec

/-- What was given with an option. -/
inductive OptionValue where
  | set
  | integer (n : Int)
  | word (s : String)
deriving DecidableEq, Repr

/-- Why arguments are refused. -/
inductive UsageError where
  | ambiguous (given : String) (fitting : List String)
  | noValue (option : String)
  | notInteger (option given : String)
  | notChoice (option given : String) (words : List String)
  | valueOfFlag (option given : String)
  | noOperand (name : String)
  | unrecognized (given : List String)
  | lineRequired
  | noSuchCandidate (index : Int) (count : Nat)
deriving DecidableEq, Repr

namespace UsageError

/-- What is reported. -/
def message : UsageError → String
  | .ambiguous given fitting =>
    "ambiguous option: " ++ given ++ " could match " ++ String.intercalate ", " fitting
  | .noValue option => "argument " ++ option ++ ": expected one argument"
  | .notInteger option given => "argument " ++ option ++ ": invalid int value: " ++ quoted given
  | .notChoice option given words =>
    "argument " ++ option ++ ": invalid choice: " ++ quoted given ++ " (choose from " ++
      String.intercalate ", " (words.map quoted) ++ ")"
  | .valueOfFlag option given =>
    "argument " ++ option ++ ": ignored explicit argument " ++ quoted given
  | .noOperand name => "the following arguments are required: " ++ name
  | .unrecognized given => "unrecognized arguments: " ++ String.intercalate " " given
  | .lineRequired => "--line is required unless --repl is given"
  | .noSuchCandidate index count =>
    "--apply " ++ toString index ++ ": only " ++ toString count ++ " candidate(s)"

end UsageError

/-- Why a command ends before it starts. -/
inductive UsageStop where
  /-- The help text was asked for. -/
  | help
  /-- The arguments are refused. -/
  | refused (why : UsageError)
deriving DecidableEq, Repr

/-- What an argument is. -/
inductive ArgumentToken where
  /-- A value or an operand. -/
  | plain (s : String)
  /-- The `--` after which there are only operands. -/
  | separator
  /-- An option as it is spelled, with what is attached to the spelling in the same argument. -/
  | option (spelling : String) (spec : OptionSpec) (attached : Option String)
  /-- Written like an option, but there is none like it. -/
  | unknown (s : String)
deriving DecidableEq, Repr

/-- What was found on a command line. -/
structure Arguments where
  /-- The options with their values, the last first. -/
  options : List (String × OptionValue) := []
  /-- The operand. -/
  operand : Option String := none
  /-- What nobody took. -/
  extras : List String := []
deriving DecidableEq, Repr

namespace Arguments

/-- The last integer given with an option. -/
def integer? (a : Arguments) (name : String) : Option Int :=
  match a.options.lookup name with
  | some (.integer n) => some n
  | _ => none

/-- The last word given with an option. -/
def word? (a : Arguments) (name : String) : Option String :=
  match a.options.lookup name with
  | some (.word s) => some s
  | _ => none

/-- Whether a flag was given. -/
def has (a : Arguments) (name : String) : Bool := (a.options.lookup name).isSome

end Arguments

/-! ## Telling options from operands -/

/-- The part of an argument before its first equals sign and the part after it, if it has one. -/
def splitEquals (arg : List Char) : List Char × Option (List Char) :=
  match arg.dropWhile (· ≠ '=') with
  | _ :: value => (arg.takeWhile (· ≠ '='), some value)
  | [] => (arg, none)

/-- The spellings of options, with the option. -/
def spellings (specs : List OptionSpec) : List (String × OptionSpec) :=
  specs.flatMap fun o => o.spellings.map (·, o)

/-- A text without one newline at its end. -/
def dropNewline (s : List Char) : List Char := if s.getLast? = some '\n' then s.dropLast else s

/-- Whether an argument is a negative number, with or without a fraction; a newline may follow
it. -/
def isNegativeNumber : List Char → Bool
  | '-' :: digits =>
    let rest := dropNewline digits
    let whole := rest.takeWhile isDecimalDigit
    match rest.dropWhile isDecimalDigit with
    | [] => !whole.isEmpty
    | '.' :: frac => !frac.isEmpty && frac.all isDecimalDigit
    | _ => false
  | _ => false

/-- The options that an argument may be a short form of, each with its spelling and what is attached
to it. Two dashes start a spelling that ends at an equals sign, a single dash one of a single
letter. -/
def fittingOptions (specs : List OptionSpec) (arg : List Char) :
    List (String × OptionSpec × Option String) :=
  match arg with
  | '-' :: '-' :: _ =>
    let (start, value) := splitEquals arg
    (spellings specs).filterMap fun (spelling, o) =>
      if start.isPrefixOf spelling.toList then some (spelling, o, value.map String.ofList) else none
  | _ =>
    (spellings specs).filterMap fun (spelling, o) =>
      if spelling.toList = arg.take 2 then some (spelling, o, some (String.ofList (arg.drop 2)))
      else if arg.isPrefixOf spelling.toList then some (spelling, o, none)
      else none

/-- The option that is spelled in full, before an equals sign if there is one. -/
def exactOption? (specs : List OptionSpec) (arg : List Char) :
    Option (String × OptionSpec × Option String) :=
  match (spellings specs).lookup (String.ofList arg) with
  | some o => some (String.ofList arg, o, none)
  | none =>
    match splitEquals arg with
    | (start, some value) =>
      let spelling := String.ofList start
      ((spellings specs).lookup spelling).map (spelling, ·, some (String.ofList value))
    | (_, none) => none

/-- What an argument is, before any `--`. -/
def tokenOf (specs : List OptionSpec) (arg : String) : Except UsageStop ArgumentToken :=
  match arg.toList with
  | '-' :: c :: rest =>
    let cs := '-' :: c :: rest
    match exactOption? specs cs with
    | some (spelling, o, attached) => .ok (.option spelling o attached)
    | none =>
      match fittingOptions specs cs with
      | [(spelling, o, attached)] => .ok (.option spelling o attached)
      | [] =>
        if isNegativeNumber cs || cs.contains ' ' then .ok (.plain arg) else .ok (.unknown arg)
      | fitting => .error (.refused (.ambiguous arg (fitting.map (·.1))))
  | _ => .ok (.plain arg)

/-- What each argument is. -/
def tokensOf (specs : List OptionSpec) : List String → Except UsageStop (List ArgumentToken)
  | [] => .ok []
  | arg :: rest =>
    if arg = "--" then .ok (.separator :: rest.map .plain)
    else do
      let token ← tokenOf specs arg
      let tokens ← tokensOf specs rest
      return token :: tokens

/-! ## Taking arguments -/

/-- The value of an option. -/
def optionValue [Platform] (spec : OptionSpec) (given : String) : Except UsageStop OptionValue :=
  match spec.kind with
  | .integer =>
    match IntegerText.read given with
    | .ok n => .ok (.integer n)
    | .error _ => .error (.refused (.notInteger spec.title given))
  | .choice words =>
    if given ∈ words then .ok (.word given)
      else .error (.refused (.notChoice spec.title given words))
  | _ => .ok (.word given)

/-- The options that letters behind a single dash stand for, the first of them already known, each
with its value. An option that takes a value takes all letters that are left; a letter that stands
for nothing is refused, together with what follows it, as a value of the option before it. -/
def letterOptions (specs : List OptionSpec) (spec : OptionSpec) :
    List Char → Except UsageStop (List (OptionSpec × Option String))
  | [] => .ok [(spec, none)]
  | c :: rest =>
    if spec.kind.takesValue then .ok [(spec, some (String.ofList (c :: rest)))]
    else
      match (spellings specs).lookup (String.ofList ['-', c]) with
      | none => .error (.refused (.valueOfFlag spec.title (String.ofList (c :: rest))))
      | some next => do return (spec, none) :: (← letterOptions specs next rest)

/-- The options that one argument stands for, each with its value in the argument. -/
def optionsIn (specs : List OptionSpec) (spelling : String) (spec : OptionSpec) :
    Option String → Except UsageStop (List (OptionSpec × Option String))
  | none => .ok [(spec, none)]
  | some attached =>
    if spec.kind.takesValue then .ok [(spec, some attached)]
    else if attached = "" ∨ spelling.toList.take 2 = ['-', '-'] then
      .error (.refused (.valueOfFlag spec.title attached))
    else letterOptions specs spec attached.toList

/-- Takes options with their values in the argument. Gives what was found, and the last option if
its value is still to be taken from the next argument. -/
def takeOptions [Platform] (a : Arguments) :
    List (OptionSpec × Option String) → Except UsageStop (Arguments × Option OptionSpec)
  | [] => .ok (a, none)
  | (spec, value) :: rest =>
    match spec.kind, value with
    | .flag, _ => takeOptions { a with options := (spec.name, .set) :: a.options } rest
    | .help, _ => .error .help
    | _, none => .ok (a, some spec)
    | _, some given => do
      let v ← optionValue spec given
      takeOptions { a with options := (spec.name, v) :: a.options } rest

/-- Takes arguments from left to right. The first plain argument is the operand, together with a
`--` right before or after it; `wanting` is an option whose value comes next. -/
def takeArguments [Platform] (specs : List OptionSpec) (withOperand : Bool) :
    Option OptionSpec → Arguments → List ArgumentToken → Except UsageStop Arguments
  | some wanting, a, .plain s :: rest => do
    let v ← optionValue wanting s
    takeArguments specs withOperand none { a with options := (wanting.name, v) :: a.options } rest
  | some wanting, _, _ => .error (.refused (.noValue wanting.title))
  | none, a, [] => .ok a
  | none, a, .option spelling spec attached :: rest => do
    let (a, wanting) ← takeOptions a (← optionsIn specs spelling spec attached)
    takeArguments specs withOperand wanting a rest
  | none, a, .unknown s :: rest =>
    takeArguments specs withOperand none { a with extras := a.extras ++ [s] } rest
  | none, a, .plain s :: rest =>
    if withOperand && a.operand.isNone then
      match rest with
      | .separator :: rest => takeArguments specs withOperand none { a with operand := some s } rest
      | rest => takeArguments specs withOperand none { a with operand := some s } rest
    else takeArguments specs withOperand none { a with extras := a.extras ++ [s] } rest
  | none, a, .separator :: rest =>
    if withOperand && a.operand.isNone then takeArguments specs withOperand none a rest
    else takeArguments specs withOperand none { a with extras := a.extras ++ ["--"] } rest

/-- Reads a command line. `operand` is the name of the operand that the command needs, if it takes
one. -/
def readArguments [Platform] (specs : List OptionSpec) (operand : Option String)
    (args : List String) : Except UsageStop Arguments := do
  let specs := OptionSpec.help :: specs
  let a ← takeArguments specs operand.isSome none {} (← tokensOf specs args)
  match operand, a.operand with
  | some name, none => .error (.refused (.noOperand name))
  | _, _ => if a.extras.isEmpty then return a else .error (.refused (.unrecognized a.extras))

end LayoutRule
