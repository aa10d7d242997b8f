import Mathlib.Data.List.DropRight
import StackScript.Host
import StackScript.Proofs.Digits
import StackScript.Proofs.Lexing.Characters

/-!
# Reading back what was printed

* `Console.splitLine_newline`: a line ends at its first newline;
* `Host.out_single`: one value is printed as one line, if the output takes it;
* `Host.nextLine_eq`: a line is read without what it ends in;
* `Host.readInt_text`, `Host.readLine_eq`: the line that an integer or a text was printed as gives
  that value;
* `Host.items_read_back`: values printed one by one are read back one by one.
-/

namespace StackScript

open Text (encode)

/-! ## Lines -/

theorem Text.dropRightWhile_eq_self {p : Char → Bool} {cs : List Char}
    (h : ∀ c, cs.getLast? = some c → p c = false) : dropRightWhile p cs = cs := by
  refine List.rdropWhile_eq_self_iff.2 fun some => ?_
  rw [h _ (List.getLast?_eq_some_getLast some)]
  decide

theorem Text.trim_eq_self {cs : List Char} (h : ∀ c ∈ cs, isBlank c = false) : trim cs = cs := by
  have front : cs.dropWhile isBlank = cs := List.dropWhile_eq_self_iff.2 fun _ => by
    rw [h _ (List.getElem_mem _)]
    decide
  rw [trim, front]
  exact dropRightWhile_eq_self fun c last => h c (List.mem_of_getLast? last)

namespace Console

theorem splitLine_newline {line : List UInt8} (h : 0x0A ∉ line) (rest : List UInt8) :
    splitLine (line ++ 0x0A :: rest) = (line ++ [0x0A], rest) := by
  induction line with
  | nil => rfl
  | cons b line ih =>
    rw [List.cons_append, splitLine, if_neg (List.ne_of_not_mem_cons h).symm,
      ih (List.not_mem_of_not_mem_cons h)]
    rfl

/-- An output without a limit takes all of a text. -/
theorem write_unbounded (s : String) (unread : List UInt8) (written : Array UInt8) :
    write s ⟨unread, written, none⟩ =
      .ok () ⟨unread, written ++ (Text.bytes s).toArray, none⟩ := by
  have all : s.toUTF8.data.take s.toUTF8.data.size = (Text.bytes s).toArray := by
    rw [Array.take, Array.extract_size]
    rfl
  simp only [write, room, all, if_true]

end Console

namespace Host

theorem out_single (view : View) (v : Value) (unread : List UInt8) (written : Array UInt8) :
    out view [v] ⟨unread, written, none⟩ =
      .ok none ⟨unread, written ++ (encode v.display.toList ++ [0x0A]).toArray, none⟩ := by
  have line : Text.bytes "\n" = [0x0A] := by
    rw [Text.bytes_eq_encode]
    rfl
  simp only [out, bind, EStateM.bind, onConsole, Console.write_unbounded, Value.displayAll, line,
    Text.bytes_eq_encode v.display, Array.append_assoc, List.append_toArray]
  rfl

/-- A text is the next line if it holds no newline, and nothing of it is taken for its ending. -/
theorem nextLine_eq {cs : List Char} (noNewline : '\n' ∉ cs) (noReturn : cs.getLast? ≠ some '\r')
    (rest : List UInt8) (written : Array UInt8) (limit : Option Nat) :
    nextLine ⟨encode cs ++ 0x0A :: rest, written, limit⟩ = .ok cs ⟨rest, written, limit⟩ := by
  have noByte : 0x0A ∉ encode cs := mt (Text.mem_encode (d := '\n') (by decide)).1 noNewline
  have line : encode cs ++ [0x0A] = encode (cs ++ ['\n']) := by
    rw [Text.encode_append]
    rfl
  have ends : ∀ c, cs.getLast? = some c → (decide (c = '\n') || decide (c = '\r')) = false := by
    intro c last
    have newline : c ≠ '\n' := fun same => noNewline (same ▸ List.mem_of_getLast? last)
    have ret : c ≠ '\r' := fun same => noReturn (same ▸ last)
    simp [newline, ret]
  have read : Console.readLine ⟨encode cs ++ 0x0A :: rest, written, limit⟩ =
      .ok (String.ofList (cs ++ ['\n'])) ⟨rest, written, limit⟩ := by
    simp only [Console.readLine, Console.splitLine_newline noByte, line, Text.ofBytes?_encode]
  have stripped : Text.dropRightWhile (fun c => c = '\n' || c = '\r') (cs ++ ['\n']) = cs := by
    rw [Text.dropRightWhile, ← List.rdropWhile, List.rdropWhile_concat_pos _ _ _ (by decide)]
    exact Text.dropRightWhile_eq_self ends
  simp only [nextLine, bind, EStateM.bind, onConsole, read, String.toList_ofList, stripped]
  rfl

theorem readLine_eq {s : String} (noNewline : '\n' ∉ s.toList)
    (noReturn : s.toList.getLast? ≠ some '\r') (view : View) (args : List Value)
    (rest : List UInt8) (written : Array UInt8) (limit : Option Nat) :
    readLine view args ⟨encode s.toList ++ 0x0A :: rest, written, limit⟩ =
      .ok (some (.string s)) ⟨rest, written, limit⟩ := by
  simp only [readLine, bind, EStateM.bind, nextLine_eq noNewline noReturn]
  rw [String.ofList_toList]
  rfl

/-- At the end of the input, the line is empty, and the input stays at its end. -/
theorem readLine_nil (view : View) (args : List Value) (written : Array UInt8)
    (limit : Option Nat) :
    readLine view args ⟨[], written, limit⟩ = .ok (some (.string "")) ⟨[], written, limit⟩ :=
  rfl

theorem readInt_text (n : Int64) (view : View) (args : List Value) (rest : List UInt8)
    (written : Array UInt8) (limit : Option Nat) :
    readInt view args ⟨encode (Integer.text n).toList ++ 0x0A :: rest, written, limit⟩ =
      .ok (some (.int n)) ⟨rest, written, limit⟩ := by
  have noNewline : '\n' ∉ (Integer.text n).toList := fun mem => by
    have := Integer.text_range n _ mem
    revert this
    decide
  have noReturn : (Integer.text n).toList.getLast? ≠ some '\r' := fun last => by
    have := Integer.text_range n _ (List.mem_of_getLast? last)
    revert this
    decide
  have trimmed : Text.trim (Integer.text n).toList = (Integer.text n).toList :=
    Text.trim_eq_self fun c mem => by
      have := Integer.text_range n c mem
      simp [Text.isBlank, Text.inRanges, Text.blankRanges]
      omega
  simp only [readInt, bind, EStateM.bind, nextLine_eq noNewline noReturn, trimmed,
    Integer.read_text]
  rfl

/-! ## Items -/

/-- A value whose line reads as the value. -/
inductive Item
  | int (n : Int64)
  | string (s : String) (noNewline : '\n' ∉ s.toList) (noReturn : s.toList.getLast? ≠ some '\r')

namespace Item

def value : Item → Value
  | int n => .int n
  | string s _ _ => .string s

/-- The function that reads items of this kind. -/
def reader : Item → String
  | int _ => "readInt"
  | string _ _ _ => "readLine"

/-- The line that the item is printed as. -/
def line (i : Item) : List UInt8 := encode i.value.display.toList ++ [0x0A]

end Item

/-- A call of a function of the standard host, and what it gives back. -/
structure Call where
  name : String
  args : List Value
  given : Option Value

/-- The call gives what it is to, whatever machine makes it. -/
def Call.Answered (call : Call) (c d : Console) : Prop :=
  ∃ answer, standard.get? call.name = some (.direct answer) ∧
    ∀ view, answer view call.args c = .ok call.given d

/-- Calls one behind another on one console. -/
inductive Calls : List Call → Console → Console → Prop
  | nil (c : Console) : Calls [] c c
  | cons {call : Call} {calls : List Call} {c d e : Console} :
    call.Answered c d → Calls calls d e → Calls (call :: calls) c e

def Item.printed (i : Item) : Call := ⟨"out", [i.value], none⟩

def Item.readBack (args : List Value) (i : Item) : Call := ⟨i.reader, args, some i.value⟩

def emptyLine (args : List Value) : Call := ⟨"readLine", args, some (.string "")⟩

theorem Item.printed_answered (i : Item) (unread : List UInt8) (written : Array UInt8) :
    i.printed.Answered ⟨unread, written, none⟩
      ⟨unread, written ++ i.line.toArray, none⟩ :=
  ⟨out, rfl, fun view => out_single view i.value unread written⟩

theorem Item.readBack_answered (i : Item) (args : List Value) (rest : List UInt8)
    (written : Array UInt8) (limit : Option Nat) :
    (i.readBack args).Answered ⟨i.line ++ rest, written, limit⟩ ⟨rest, written, limit⟩ := by
  rw [line, List.append_assoc]
  cases i with
  | int n =>
    refine ⟨readInt, rfl, fun view => ?_⟩
    simp only [value, Value.display]
    exact readInt_text n view args rest written limit
  | string s noNewline noReturn =>
    refine ⟨readLine, rfl, fun view => ?_⟩
    simp only [value, Value.display]
    exact readLine_eq noNewline noReturn view args rest written limit

theorem printed_calls (items : List Item) (unread : List UInt8) (written : Array UInt8) :
    Calls (items.map Item.printed) ⟨unread, written, none⟩
      ⟨unread, written ++ (items.flatMap Item.line).toArray, none⟩ := by
  induction items generalizing written with
  | nil =>
    rw [List.flatMap_nil, Array.append_empty]
    exact .nil _
  | cons i items ih =>
    rw [List.flatMap_cons, ← List.append_toArray, ← Array.append_assoc]
    exact .cons (i.printed_answered unread written) (ih _)

theorem readBack_calls (items : List Item) (args : List Value) (written : Array UInt8)
    (limit : Option Nat) :
    Calls (items.map (Item.readBack args)) ⟨items.flatMap Item.line, written, limit⟩
      ⟨[], written, limit⟩ := by
  induction items with
  | nil => exact .nil _
  | cons i items ih =>
    rw [List.flatMap_cons]
    exact .cons (i.readBack_answered args _ written limit) ih

theorem emptyLine_calls (n : Nat) (args : List Value) (written : Array UInt8)
    (limit : Option Nat) :
    Calls (List.replicate n (emptyLine args)) ⟨[], written, limit⟩ ⟨[], written, limit⟩ := by
  induction n with
  | zero => exact .nil _
  | succ n ih =>
    exact .cons ⟨readLine, rfl, fun view => readLine_nil view args written limit⟩ ih

/-- Integers and texts that are printed one by one, as the input of other calls, are read back one
by one to the end of that input, and from then on only empty lines are read. -/
theorem items_read_back (items : List Item) (unread : List UInt8) (written : Array UInt8) :
    ∃ bytes : List UInt8,
      Calls (items.map Item.printed) ⟨unread, written, none⟩
        ⟨unread, written ++ bytes.toArray, none⟩ ∧
      ∀ args limit,
        Calls (items.map (Item.readBack args)) (.ofInput bytes limit) (.ofInput [] limit) ∧
        ∀ n, Calls (List.replicate n (emptyLine args)) (.ofInput [] limit) (.ofInput [] limit) :=
  ⟨items.flatMap Item.line, printed_calls items unread written, fun args limit =>
    ⟨readBack_calls items args #[] limit, fun n => emptyLine_calls n args #[] limit⟩⟩

/-- The smallest integer, an empty line, and a return within a line. -/
example : ([.int (-9223372036854775808), .string "" (by decide) (by decide),
      .string "é\rx" (by decide) (by decide)] : List Item).flatMap Item.line =
    encode "-9223372036854775808\n\né\rx\n".toList := by decide

end Host

end StackScript
