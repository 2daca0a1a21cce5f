import LayoutRule.Text.Surrogate

/-!
# Encodings of JSON

Bytes that hold JSON say themselves how they are encoded: by a byte order mark, or else by where the
zero bytes of their first characters stand, because a JSON text starts with two ASCII characters.
`Json.decode?` recognises UTF-8, UTF-16 and UTF-32 so, in both byte orders, and gives the text
without the mark. In every encoding half of a surrogate pair may be written as a character of its
own, and the replacement character is read in its place.
-/

namespace LayoutRule

namespace Json

/-- The order of the bytes of a unit. -/
inductive ByteOrder where
  /-- The most significant byte comes first. -/
  | big
  /-- The least significant byte comes first. -/
  | little
deriving DecidableEq, Repr

/-- How characters are written as bytes. -/
inductive Encoding where
  | utf8
  | utf16 (order : ByteOrder)
  | utf32 (order : ByteOrder)
deriving DecidableEq, Repr

/-- The encoding that a byte order mark tells, and the length of the mark. A mark of UTF-32 also
starts like one of UTF-16, and goes first. -/
def marked? : List UInt8 → Option (Encoding × Nat)
  | 0x00 :: 0x00 :: 0xFE :: 0xFF :: _ => some (.utf32 .big, 4)
  | 0xFF :: 0xFE :: 0x00 :: 0x00 :: _ => some (.utf32 .little, 4)
  | 0xFE :: 0xFF :: _ => some (.utf16 .big, 2)
  | 0xFF :: 0xFE :: _ => some (.utf16 .little, 2)
  | 0xEF :: 0xBB :: 0xBF :: _ => some (.utf8, 3)
  | _ => none

/-- The encoding of bytes without a mark, by the zero bytes among the first four, or among two when
there are no more. -/
def unmarked : List UInt8 → Encoding
  | a :: b :: c :: d :: _ =>
    if a = 0 then if b = 0 then .utf32 .big else .utf16 .big
    else if b = 0 then if c = 0 ∧ d = 0 then .utf32 .little else .utf16 .little
    else .utf8
  | [a, b] => if a = 0 then .utf16 .big else if b = 0 then .utf16 .little else .utf8
  | _ => .utf8

/-- The number that two bytes are. -/
def unit16 (order : ByteOrder) (a b : UInt8) : Nat :=
  match order with
  | .big => a.toNat * 0x100 + b.toNat
  | .little => b.toNat * 0x100 + a.toNat

/-- The number that four bytes are. -/
def unit32 (order : ByteOrder) (a b c d : UInt8) : Nat :=
  match order with
  | .big => unit16 .big a b * 0x10000 + unit16 .big c d
  | .little => unit16 .little c d * 0x10000 + unit16 .little a b

/-- The units of two bytes, if no byte is left over. -/
def units16? (order : ByteOrder) : List UInt8 → Option (List Nat)
  | [] => some []
  | [_] => none
  | a :: b :: rest => (units16? order rest).map (unit16 order a b :: ·)

/-- The characters of units of two bytes. -/
def chars16 : List Nat → List Char
  | [] => []
  | [n] => [Surrogate.charOf n]
  | n :: m :: rest =>
    if Surrogate.isHigh n && Surrogate.isLow m then Char.ofNat (Surrogate.join n m) :: chars16 rest
    else Surrogate.charOf n :: chars16 (m :: rest)

/-- The characters of units of four bytes, if no byte is left over and every unit is a code
point. -/
def chars32? (order : ByteOrder) : List UInt8 → Option (List Char)
  | [] => some []
  | a :: b :: c :: d :: rest =>
    let n := unit32 order a b c d
    if n < 0x110000 then (chars32? order rest).map (Surrogate.charOf n :: ·) else none
  | _ => none

/-- The bytes of UTF-8 with every half of a surrogate pair made the replacement character. The first
byte of such a half never stands inside another character. -/
def replaceHalves : List UInt8 → List UInt8
  | [] => []
  | 0xED :: b :: c :: rest =>
    if 0xA0 ≤ b ∧ b ≤ 0xBF ∧ 0x80 ≤ c ∧ c ≤ 0xBF then 0xEF :: 0xBF :: 0xBD :: replaceHalves rest
    else 0xED :: replaceHalves (b :: c :: rest)
  | a :: rest => a :: replaceHalves rest

/-- The text that bytes are in an encoding. -/
def Encoding.text? (e : Encoding) (bytes : List UInt8) : Option String :=
  match e with
  | .utf8 => String.fromUTF8? ⟨(replaceHalves bytes).toArray⟩
  | .utf16 order => (units16? order bytes).map fun units => String.ofList (chars16 units)
  | .utf32 order => (chars32? order bytes).map String.ofList

/-- The text that bytes are in the encoding they tell. -/
def decode? (bytes : ByteArray) : Option String :=
  let bytes := bytes.toList
  match marked? bytes with
  | some (e, mark) => e.text? (bytes.drop mark)
  | none => (unmarked bytes).text? bytes

end Json

end LayoutRule
