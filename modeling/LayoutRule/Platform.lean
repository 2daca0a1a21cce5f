/-!
# The platform

What the library leaves to the machine and to the runtime below it is one parameter, `Platform`: how
long a run of characters the memory holds, how many digits an integer may have when it is read or
written, and how deep the reader of JSON can go. No rule of the library sets one of these numbers,
and what is proved holds on every platform. A program that runs takes `Platform.usual`.

Two things below the library are not in it. The width of an address is fixed: a position that
addresses something has 64 bits. And the stack of the program is not modelled at all: calls inside
one another never fail here, so what limits them is a rule of the library, such as the bound that
the settings put on requests inside one another.
-/

namespace LayoutRule

/-- One more than the largest address. -/
def addressLimit : Int := 0x8000000000000000

/-- What the machine and the runtime allow. -/
class Platform where
  /-- One more than the length of the longest run of characters that the memory holds. -/
  runLimit : Int
  /-- The empty run is always there. -/
  runLimit_pos : 0 < runLimit
  /-- A run is addressed character by character. -/
  runLimit_le : runLimit ≤ addressLimit
  /-- The longest integer that is read or written, in digits. -/
  maxDigits : Nat
  /-- How deep arrays and objects of a JSON text may be nested for it to be read. -/
  jsonLevels : Nat

/-- The platform of programs that run: runs of four giga characters, integers of 4300 digits, and
JSON texts of 975 levels. The numbers are those of the machine that the programs are tested on, and
no theorem but one about a fixed input refers to them. -/
instance Platform.usual : Platform where
  runLimit := 0x100000000
  runLimit_pos := by decide
  runLimit_le := by decide
  maxDigits := 4300
  jsonLevels := 975

end LayoutRule
