/-!
Places in source text. A line ends at a newline byte, and a column counts bytes, so the place after
any piece of text is a fold over its bytes.
-/

namespace StackScript

/-- Lines and columns of source text count from one. An instruction that no source text stands
behind is at `0:0`. -/
structure Position where
  line : Nat
  column : Nat
  deriving DecidableEq, Repr

namespace Position

def none : Position := ⟨0, 0⟩

def start : Position := ⟨1, 1⟩

/-- The place just past one byte. -/
def after (p : Position) (b : UInt8) : Position :=
  if b = 0x0A then ⟨p.line + 1, 1⟩ else ⟨p.line, p.column + 1⟩

/-- The place just past a piece of text. -/
def past (p : Position) (bytes : List UInt8) : Position :=
  bytes.foldl after p

def text (p : Position) : String :=
  s!"{p.line}:{p.column}"

@[simp] theorem past_nil (p : Position) : p.past [] = p := rfl

@[simp] theorem past_cons (p : Position) (b : UInt8) (bytes : List UInt8) :
    p.past (b :: bytes) = (p.after b).past bytes := rfl

theorem past_append (p : Position) (a b : List UInt8) :
    p.past (a ++ b) = (p.past a).past b := by
  simp [past]

end Position

end StackScript
