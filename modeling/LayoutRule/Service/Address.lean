import LayoutRule.Fault
import LayoutRule.Text.Hex

/-!
# Addresses of the service

A request names what it wants by an address: possibly a scheme with a colon, possibly a host after
two slashes, then the path, and a query and a fragment that do not matter here. `Address.ofString`
takes it apart and `Address.resource` is the path with its percent signs resolved. A host with a
square bracket must have both.

The path is taken apart once more before it is used, so a path that itself looks like an address
with a host loses that host.
-/

namespace LayoutRule

/-- An address, as far as the service looks at it. -/
structure Address where
  /-- The scheme, in lower case; empty when there is none. -/
  scheme : List Char
  /-- The path, as written. -/
  path : List Char
deriving DecidableEq, Repr

namespace Address

/-- Whether a character may stand in a scheme after its first letter. -/
def isSchemeChar (c : Char) : Bool := c.isAlphanum || c == '+' || c == '-' || c == '.'

/-- The scheme of an address and what follows its colon: a letter and more characters of a
scheme. -/
def splitScheme (s : List Char) : List Char × List Char :=
  match s.takeWhile isSchemeChar, s.dropWhile isSchemeChar with
  | c :: more, ':' :: rest => if c.isAlpha then ((c :: more).map Char.toLower, rest) else ([], s)
  | _, _ => ([], s)

/-- Whether a character ends a path. -/
def endsPath (c : Char) : Bool := c == '?' || c == '#'

/-- Whether a character ends a host. -/
def endsHost (c : Char) : Bool := c == '/' || endsPath c

/-- The host of an address and what follows it. -/
def splitHost : List Char → List Char × List Char
  | '/' :: '/' :: rest => (rest.takeWhile fun c => !endsHost c, rest.dropWhile fun c => !endsHost c)
  | s => ([], s)

/-- The text of an address without what is never part of one: control characters and blanks in
front, tabs and line ends anywhere. -/
def clean (s : List Char) : List Char :=
  (s.dropWhile fun c => c.toNat ≤ 0x20).filter fun c => c != '\t' && c != '\n' && c != '\r'

/-- The address that a text is. -/
def ofString (s : List Char) : Except Fault Address :=
  let (scheme, rest) := splitScheme (clean s)
  let (host, rest) := splitHost rest
  if host.contains '[' = host.contains ']' then .ok ⟨scheme, rest.takeWhile fun c => !endsPath c⟩
  else .error .brokenHost

/-- The character of a byte. A byte beyond ASCII is part of a character that no path of the service
has, and the replacement character stands for it. -/
def byteChar (n : Nat) : Char := if n < 0x80 then Char.ofNat n else '�'

/-- Resolves percent signs: one with two hexadecimal digits stands for the byte that they are. -/
def percentDecode : List Char → List Char
  | [] => []
  | '%' :: a :: b :: rest =>
    match Hex.value? a, Hex.value? b with
    | some high, some low => byteChar (16 * high + low) :: percentDecode rest
    | _, _ => '%' :: percentDecode (a :: b :: rest)
  | c :: rest => c :: percentDecode rest

/-- What a request for the address asks for. -/
def resource (a : Address) : Except Fault (List Char) :=
  do return percentDecode (← ofString a.path).path

/-- Whether an address is one of a socket, on which the service does not listen. -/
def isSocket (a : Address) : Bool := a.scheme == ['w', 's'] || a.scheme == ['w', 's', 's']

end Address

end LayoutRule
