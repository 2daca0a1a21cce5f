import LayoutRule.LineKind
import LayoutRule.Text.Quoted

/-!
# Faults

Every way in which an operation of the library can fail, each as a cause of its own. `Fault.message`
has the wording of all of them; nothing else in the library depends on it.

A `ScanFailure` is a move through the text that could not be completed. It never leaves an
indentation request: the request falls back to the column of the enclosing definition.
-/

namespace LayoutRule

/-- What a scan can find open at the end of the text. -/
inductive Unclosed where
  | string
  | comment
deriving DecidableEq, Repr

/-- A move over one expression that could not be completed. -/
inductive ScanFailure where
  /-- There is no expression before the end of the text. -/
  | endOfText
  /-- A closing bracket stands where an expression should start. -/
  | enclosingEnds
  /-- The expression is a string without an end. -/
  | openString
  /-- The text ends inside the bracket. -/
  | openBracket
  /-- Inside the bracket a string or comment has no end. -/
  | openInside (what : Unclosed) (pos : Int)
deriving DecidableEq, Repr

/-- Why an operation failed. -/
inductive Fault where
  /-- A move through the text could not be completed. -/
  | scan (why : ScanFailure)
  /-- The visible parts of a clause fit no shape of a clause. -/
  | impossible (kind : LineKind) (bits : List Char)
  /-- Measuring one line needed more than this many lines inside one another. -/
  | tooDeep (levels : Int)
  /-- Lines are indented one at a time, never as a region. -/
  | regionRefused
  /-- No literate style has this name. -/
  | unknownStyle (name : String)
  /-- No kind of sign that can be aligned has this name. -/
  | unknownSign (name : String)
  /-- The text has no line of this number, counted from zero. -/
  | noSuchLine (line : Int)
  /-- The list of candidates has no such entry. -/
  | noSuchCandidate
  /-- A character was read outside the text. -/
  | outsideText
  /-- An entry or a character was asked for at a position that no address has. -/
  | unaddressable
  /-- A pattern was to be matched from a position that no address has. -/
  | unmatchable
  /-- A run of blanks was asked for that is longer than any address. -/
  | tooWide
  /-- A run of blanks was asked for that is longer than the memory. -/
  | noMemory
  /-- A closing keyword was looked up before the text, where none is written. -/
  | noKeyword
  /-- A header of a request is not a single line. -/
  | brokenHeader
  /-- The host of an address has a bracket without its partner. -/
  | brokenHost
deriving DecidableEq, Repr

/-- Who has to deal with a fault. -/
inductive FaultClass where
  /-- The request cannot be answered. -/
  | request
  /-- A line, an entry or a character is not there. -/
  | lookup
  /-- Nobody: the work is given up. -/
  | abort
deriving DecidableEq, Repr

namespace Unclosed

/-- The word for it in messages. -/
def label : Unclosed → String
  | .string => "string"
  | .comment => "comment"

end Unclosed

namespace ScanFailure

/-- What is reported. -/
def message : ScanFailure → String
  | .endOfText => "end of buffer"
  | .enclosingEnds => "containing expression ends prematurely"
  | .openString => "unterminated string"
  | .openBracket => "unbalanced bracket"
  | .openInside what pos => "unterminated " ++ what.label ++ " at " ++ toString pos

end ScanFailure

namespace Fault

/-- What is reported. -/
def message : Fault → String
  | .scan why => why.message
  | .impossible kind bits => kind.label ++ ": impossible case " ++ String.ofList bits
  | .tooDeep levels => "nesting deeper than " ++ toString levels ++ " levels"
  | .regionRefused => "region indentation is not supported; indent each line on its own"
  | .unknownStyle name => "unknown literate mode: " ++ quoted name
  | .unknownSign name => "kind must be 'guard' or 'rhs', not " ++ quoted name
  | .noSuchLine line => toString line
  | .noSuchCandidate => "list index out of range"
  | .outsideText => "string index out of range"
  | .unaddressable => "cannot fit 'int' into an index-sized integer"
  | .unmatchable => "Python int too large to convert to C ssize_t"
  | .tooWide => "cannot fit 'int' into an index-sized integer"
  | .noMemory => ""
  | .noKeyword => quoted ""
  | .brokenHeader => "Header values must not contain newline characters."
  | .brokenHost => "Invalid IPv6 URL"

/-- Who has to deal with a fault. -/
def group : Fault → FaultClass
  | .impossible _ _ => .request
  | .tooDeep _ => .request
  | .regionRefused => .request
  | .noSuchLine _ => .lookup
  | .noSuchCandidate => .lookup
  | .outsideText => .lookup
  | .unaddressable => .lookup
  | _ => .abort

end Fault

end LayoutRule
