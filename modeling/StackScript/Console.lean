import StackScript.Text.Utf8

/-!
The input and output of a run. Input is read by lines, and output may be bounded.
-/

namespace StackScript

inductive IoError
  | invalidText
  | writeRefused
  deriving DecidableEq, Repr

def IoError.message : IoError → String
  | invalidText => "stream did not contain valid UTF-8"
  | writeRefused => "failed to write whole buffer"

structure Console where
  unread : List UInt8
  written : Array UInt8
  /-- How many bytes the output takes in all. -/
  limit : Option Nat
  deriving DecidableEq, Repr

namespace Console

def ofInput (input : List UInt8) (limit : Option Nat) : Console := ⟨input, #[], limit⟩

/-- The bytes up to and with the first newline, and those after it. -/
def splitLine : List UInt8 → List UInt8 × List UInt8
  | [] => ([], [])
  | b :: bs =>
    if b = 0x0A then ([b], bs)
    else
      let (line, rest) := splitLine bs
      (b :: line, rest)

/-- Reads a line with its newline; at the end of input it is empty. A line that is no text is read
all the same. -/
def readLine : EStateM IoError Console String := fun c =>
  let (line, rest) := splitLine c.unread
  match Text.ofBytes? line with
  | some s => .ok s { c with unread := rest }
  | none => .error .invalidText { c with unread := rest }

/-- How many bytes of this many the output still takes. -/
def room (c : Console) (size : Nat) : Nat :=
  match c.limit with
  | some limit => min size (limit - c.written.size)
  | none => size

/-- Writes a text. If it does not fit, as much of it as does is written. -/
def write (s : String) : EStateM IoError Console Unit := fun c =>
  let bytes := s.toUTF8.data
  let room := c.room bytes.size
  let c := { c with written := c.written ++ bytes.take room }
  if room = bytes.size then .ok () c else .error .writeRefused c

end Console

end StackScript
