/-!
# Surrogate pairs

In units of sixteen bits a code point beyond the first 65536 is a pair of two halves, a high one and
a low one. A half that stands alone is no character, and the replacement character is read in its
place.
-/

namespace LayoutRule

namespace Surrogate

/-- Whether a code is the first half of a pair. -/
def isHigh (n : Nat) : Bool := decide (0xD800 ≤ n) && decide (n < 0xDC00)

/-- Whether a code is the second half of a pair. -/
def isLow (n : Nat) : Bool := decide (0xDC00 ≤ n) && decide (n < 0xE000)

/-- The code point of a pair. -/
def join (high low : Nat) : Nat := 0x10000 + (high - 0xD800) * 0x400 + (low - 0xDC00)

/-- The character of a code point, or the replacement character when it is half of a pair. -/
def charOf (n : Nat) : Char := if isHigh n || isLow n then '\uFFFD' else Char.ofNat n

end Surrogate

end LayoutRule
