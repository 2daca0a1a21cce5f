import LayoutRule.Fault

/-!
# Notes of a request

While it works a request takes notes: punctuation that does not fit its bracket, how many candidates
were found, and so on. A `Noted` computation gives its notes in order together with a value or a
fault; the notes taken before a fault are kept.
-/

namespace LayoutRule

/-- What a request has to say besides its result. -/
inductive Note where
  /-- A separator stands in a bracket that has no such separators. -/
  | mismatch (sign opener : Char)
  /-- The line, counted from one, is prose. -/
  | notCode (line : Int)
  /-- A move through the text could not be completed. -/
  | stoppedEarly (why : ScanFailure)
  /-- The number of candidates for a line, counted from one. -/
  | counted (line : Int) (count : Nat)
  /-- A step of the cycle, among so many candidates. -/
  | cycled (count : Nat)
  /-- So many lines were changed when signs of a kind were aligned at a column. -/
  | aligned (changed : Nat) (sign : String) (column : Int)
deriving DecidableEq, Repr

namespace Note

/-- Whether the note warns the user. -/
def isWarning : Note → Bool
  | .mismatch _ _ => true
  | .stoppedEarly _ => true
  | _ => false

/-- The name of the part that took the note, in the log. -/
def source : Note → String
  | .mismatch _ _ => "offside.resolvers"
  | .notCode _ => "offside.engine"
  | .stoppedEarly _ => "offside.engine"
  | .counted _ _ => "offside.engine"
  | .cycled _ => "offside.cycle"
  | .aligned _ _ _ => "offside.align"

/-- The wording of a step of the cycle. -/
def cycleMessage (count : Nat) : String :=
  if count = 1 then "Sole indentation" else "Indent cycle (" ++ toString count ++ ")..."

/-- The wording of a note. -/
def message : Note → String
  | .mismatch sign opener =>
    "Mismatched punctuation: `" ++ sign.toString ++ "' in " ++ opener.toString ++ "..." ++
      (if opener = '(' then ")" else "\x7d")
  | .notCode line => "line " ++ toString line ++ " is not code; nothing to indent"
  | .stoppedEarly why =>
    "scan stopped early (" ++ why.message ++ "); falling back to the definition column"
  | .counted line count => "line " ++ toString line ++ ": " ++ toString count ++ " candidate(s)"
  | .cycled count => cycleMessage count
  | .aligned changed sign column =>
    "aligned " ++ toString changed ++ " " ++ sign ++ " marker(s) at column " ++ toString column

/-- The wording of a note that is reported with the candidates. -/
def diagnostic? : Note → Option String
  | .mismatch sign opener => some (message (.mismatch sign opener))
  | _ => none

end Note

/-- A computation that takes notes and may fail. -/
structure Noted (α : Type) where
  /-- The notes, first to last. -/
  notes : List Note
  /-- The value or the fault. -/
  result : Except Fault α

namespace Noted

variable {α β : Type}

/-- A value without notes. -/
def pure (a : α) : Noted α := ⟨[], .ok a⟩

/-- One computation after another; a fault ends both. -/
def bind (x : Noted α) (f : α → Noted β) : Noted β :=
  match x.result with
  | .error e => ⟨x.notes, .error e⟩
  | .ok a => ⟨x.notes ++ (f a).notes, (f a).result⟩

instance : Monad Noted where
  pure := Noted.pure
  bind := Noted.bind

/-- A computation that takes no notes. -/
def ofExcept (r : Except Fault α) : Noted α := ⟨[], r⟩

instance : MonadLift (Except Fault) Noted where
  monadLift := Noted.ofExcept

/-- Takes one note. -/
def note (n : Note) : Noted Unit := ⟨[n], .ok ()⟩

/-- A fault. -/
def fail (e : Fault) : Noted α := ⟨[], .error e⟩

/-- What is reported with the candidates. -/
def diagnostics (x : Noted α) : List String := x.notes.filterMap Note.diagnostic?

instance : LawfulMonad Noted := LawfulMonad.mk' Noted
  (fun x => by
    cases x with
    | mk notes result => cases result <;> simp [Functor.map, Noted.bind, Noted.pure])
  (fun a f => by simp [Pure.pure, Bind.bind, Noted.bind, Noted.pure])
  (fun x f g => by
    cases x with
    | mk notes result =>
      cases result with
      | error e => simp [Bind.bind, Noted.bind]
      | ok a =>
        simp only [Bind.bind, Noted.bind]
        cases (f a).result <;> simp)

end Noted

end LayoutRule
