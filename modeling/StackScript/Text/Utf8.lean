/-!
Text as bytes. Source text, input and output are UTF-8.
-/

namespace StackScript.Text

def bytes (s : String) : List UInt8 :=
  s.toUTF8.data.toList

/-- The text these bytes encode, if they are valid UTF-8. -/
def ofBytes? (bs : List UInt8) : Option String :=
  String.fromUTF8? bs.toByteArray

/-- The number of bytes that a character led by `b` takes, and the range of its second byte. -/
def lead? (b : UInt8) : Option (Nat × UInt8 × UInt8) :=
  if b < 0x80 then some (1, 0x80, 0xBF)
  else if b < 0xC2 then none
  else if b < 0xE0 then some (2, 0x80, 0xBF)
  else if b = 0xE0 then some (3, 0xA0, 0xBF)
  else if b = 0xED then some (3, 0x80, 0x9F)
  else if b < 0xF0 then some (3, 0x80, 0xBF)
  else if b = 0xF0 then some (4, 0x90, 0xBF)
  else if b < 0xF4 then some (4, 0x80, 0xBF)
  else if b = 0xF4 then some (4, 0x80, 0x8F)
  else none

/-- The bytes after the lead byte that belong to the same character, at most `n` of them: the first
lies between `lo` and `hi`, the others are continuation bytes. -/
def continuation : Nat → UInt8 → UInt8 → List UInt8 → List UInt8
  | n + 1, lo, hi, b :: bs =>
    if lo ≤ b ∧ b ≤ hi then b :: continuation n 0x80 0xBF bs else []
  | _, _, _, _ => []

/-- Splits bytes into characters, each of them whole, cut short or ill-formed. -/
def clusters : Nat → List UInt8 → List (List UInt8)
  | n + 1, b :: bs =>
    let tail := match lead? b with
      | some (size, lo, hi) => continuation (size - 1) lo hi bs
      | none => []
    (b :: tail) :: clusters n (bs.drop tail.length)
  | _, _ => []

/-- Reads bytes as text with a replacement character for each piece that is no character. -/
def ofBytesLossy (bs : List UInt8) : String :=
  match ofBytes? bs with
  | some s => s
  | none => String.join ((clusters bs.length bs).map fun c => (ofBytes? c).getD "\uFFFD")

end StackScript.Text
