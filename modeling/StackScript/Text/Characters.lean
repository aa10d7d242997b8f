import StackScript.Text.Extending
import StackScript.Text.Unprintable

/-!
Classes of characters, and quoted text: how messages mention a string. Quotes and backslashes are
escaped, four controls have short escapes, and what does not show is written by its code point.
-/

namespace StackScript.Text

/-- Is the character in one of these inclusive ranges? -/
def inRanges (ranges : Array (Nat × Nat)) (c : Char) : Bool :=
  ranges.any fun (lo, hi) => lo ≤ c.toNat && c.toNat ≤ hi

/-! ## Blanks -/

/-- The code points with the Unicode property White_Space, as inclusive ranges in order. -/
def blankRanges : Array (Nat × Nat) :=
  #[(0x09, 0x0D), (0x20, 0x20), (0x85, 0x85), (0xA0, 0xA0), (0x1680, 0x1680), (0x2000, 0x200A),
    (0x2028, 0x2029), (0x202F, 0x202F), (0x205F, 0x205F), (0x3000, 0x3000)]

def isBlank (c : Char) : Bool :=
  inRanges blankRanges c

/-- Drops the characters that satisfy `p` from the end. -/
def dropRightWhile (p : Char → Bool) (cs : List Char) : List Char :=
  (cs.reverse.dropWhile p).reverse

/-- Drops blanks at both ends. -/
def trim (cs : List Char) : List Char :=
  dropRightWhile isBlank (cs.dropWhile isBlank)

/-! ## Quoted text -/

/-- The halfwidth sound marks of Katakana attach to the letter before them and yet have a cell of
their own. -/
def isHalfwidthMark (c : Char) : Bool :=
  c = '\uFF9E' || c = '\uFF9F'

/-- A mark that attaches to its neighbour would change how the text around it looks. -/
def isPrintable (c : Char) : Bool :=
  if c.toNat < 0x7F then 0x20 ≤ c.toNat
  else !inRanges unprintableRanges c && (!inRanges extendingRanges c || isHalfwidthMark c)

/-- Lower-case hexadecimal digits, without padding. -/
def hex (n : Nat) : String :=
  String.ofList (Nat.toDigits 16 n)

def escape (c : Char) : String :=
  match c with
  | '"' => "\\\""
  | '\\' => "\\\\"
  | '\n' => "\\n"
  | '\t' => "\\t"
  | '\r' => "\\r"
  | '\x00' => "\\0"
  | c => if isPrintable c then c.toString else "\\u\x7b" ++ hex c.toNat ++ "\x7d"

def quoted (s : String) : String :=
  "\"" ++ String.join (s.toList.map escape) ++ "\""

end StackScript.Text
