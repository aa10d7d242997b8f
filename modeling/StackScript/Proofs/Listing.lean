import StackScript.Load
import StackScript.Proofs.Conversions
import StackScript.Proofs.Digits
import StackScript.Proofs.Grammar.Completeness
import StackScript.Proofs.Provenance
import StackScript.Proofs.Shape

/-!
# The lines of a listing

Nothing that an instruction shows has a newline in it, but for the string that it pushes, which is
shown as it is.

* `Text.lines`, `Text.newlines`: the lines of a text, and the newlines that make them;
* `Program.lines_listing`: those of a listing are the lines of its instructions;
* `Instr.newlines_text`: an instruction has as many newlines as the string that it pushes;
* `Compiled.oneLine`: and so it is with every instruction of a program;
* `listing_lines`: so a listing has one line per instruction just if no string of the text has a
  newline in it.
-/

namespace StackScript

/-! ## Lines -/

namespace Text

/-- The lines of a text, which are what is between its newlines. The last of them is empty if the
text ends in one. -/
def lines (s : String) : List String := (s.toList.splitOn '\n').map String.ofList

def newlines (s : String) : Nat := s.toList.count '\n'

/-- The newlines of texts, all together. -/
def newlinesOf : List String → Nat
  | [] => 0
  | s :: ss => newlines s + newlinesOf ss

@[simp] theorem newlines_append (s t : String) : newlines (s ++ t) = newlines s + newlines t := by
  simp [newlines]

theorem newlines_eq_zero {s : String} : newlines s = 0 ↔ '\n' ∉ s.toList := List.count_eq_zero

@[simp] theorem newlinesOf_nil : newlinesOf [] = 0 := rfl

@[simp] theorem newlinesOf_cons (s : String) (ss : List String) :
    newlinesOf (s :: ss) = newlines s + newlinesOf ss := rfl

@[simp] theorem newlinesOf_append (ss ts : List String) :
    newlinesOf (ss ++ ts) = newlinesOf ss + newlinesOf ts := by
  induction ss with
  | nil => simp
  | cons s ss ih => simp [ih, Nat.add_assoc]

theorem newlinesOf_perm {ss ts : List String} (h : ss.Perm ts) : newlinesOf ss = newlinesOf ts := by
  induction h with
  | nil => rfl
  | cons s _ ih => rw [newlinesOf_cons, newlinesOf_cons, ih]
  | swap s t ss => simp [Nat.add_left_comm]
  | trans _ _ ih ih' => exact ih.trans ih'

theorem newlinesOf_eq_zero {ss : List String} : newlinesOf ss = 0 ↔ ∀ s ∈ ss, '\n' ∉ s.toList := by
  induction ss with
  | nil => simp
  | cons s ss ih => simp [ih, newlines_eq_zero]

theorem newlines_digits {cs : List Char} (digits : ∀ c ∈ cs, c.isDigit = true) :
    newlines (String.ofList cs) = 0 := by
  rw [newlines_eq_zero, String.toList_ofList]
  intro mem
  have digit := digits _ mem
  simp at digit

theorem newlines_intercalate (ss : List String) :
    newlines (" ".intercalate ss) = newlinesOf ss := by
  rw [newlines, String.toList_intercalate]
  induction ss with
  | nil => simp
  | cons s ss ih =>
    cases ss with
    | nil => simp [newlines]
    | cons t ss =>
      simp only [List.map_cons, List.intercalate_cons_cons, List.count_append] at ih ⊢
      rw [ih]
      simp [newlines]

/-- There is one line more than there are newlines. -/
theorem length_lines (s : String) : (lines s).length = newlines s + 1 := by
  rw [lines, newlines, List.length_map, List.splitOn_eq_splitOnP]
  induction s.toList with
  | nil => simp
  | cons c cs ih =>
    rw [List.splitOnP_cons_eq_if_modifyHead]
    by_cases newline : c = '\n'
    · simp [newline, ih]
    · simp [newline, ih]

theorem lines_of_newlines_eq_zero {s : String} (h : newlines s = 0) : lines s = [s] := by
  rw [lines, List.splitOn_eq_singleton (newlines_eq_zero.1 h)]
  simp

theorem lines_newline (s t : String) : lines (s ++ "\n" ++ t) = lines s ++ lines t := by
  have cut : (s.toList ++ '\n' :: t.toList).splitOnP (· == '\n') = _ :=
    List.splitOnP_append_cons _ _ (by decide)
  simp only [lines, List.splitOn_eq_splitOnP]
  rw [← List.map_append, ← cut]
  simp

end Text

open Text (lines newlines newlinesOf)

/-- The lines that instructions are shown on. -/
def linesOf (code : List Instr) : List String := code.flatMap fun i => lines i.text

theorem linesOf_cons (i : Instr) (code : List Instr) :
    linesOf (i :: code) = lines i.text ++ linesOf code := List.flatMap_cons

theorem linesOf_append (a b : List Instr) : linesOf (a ++ b) = linesOf a ++ linesOf b :=
  List.flatMap_append

theorem Program.lines_listing (p : Program) : lines p.listing = linesOf p.code.toList ++ [""] := by
  rw [listing]
  induction p.code.toList with
  | nil => rfl
  | cons i code ih =>
    rw [List.map_cons, String.join_cons, Text.lines_newline, ih, linesOf_cons, List.append_assoc]

/-! ## Instructions -/

namespace Decimal.Format

theorem newlines_positionalText (f : Format) {digits : List Char}
    (h : ∀ c ∈ digits, c.isDigit = true) (point : Int) :
    newlines (f.positionalText digits point) = 0 := by
  have zeros (n : Nat) : ∀ c ∈ List.replicate n '0', c.isDigit = true := by
    intro c mem
    rw [List.eq_of_mem_replicate mem]
    rfl
  rw [positionalText]
  -- The point stands before the digits, behind them or among them.
  split
  · rw [Text.newlines_append, Text.newlines_digits (List.forall_mem_append.2 ⟨zeros _, h⟩)]
    rfl
  · split
    · rw [Text.newlines_append, Text.newlines_digits (List.forall_mem_append.2 ⟨h, zeros _⟩)]
      split <;> rfl
    · rw [Text.newlines_append, Text.newlines_append,
        Text.newlines_digits fun c mem => h c (List.mem_of_mem_take mem),
        Text.newlines_digits fun c mem => h c (List.mem_of_mem_drop mem)]
      rfl

/-- Without an exponent a number is written in digits, with a point and a minus. -/
theorem newlines_write_plain (x : Binary64) : newlines (plain.write x) = 0 := by
  have always (exponent : Int) : plain.positional exponent = true := rfl
  have magnitude : newlines (plain.magnitudeText x) = 0 := by
    rw [magnitudeText]
    split
    · rfl
    · dsimp only
      rw [if_pos (always _)]
      refine newlines_positionalText plain (fun c mem => ?_) _
      have digit := (List.dropWhile_sublist _).mem (List.mem_reverse.1 mem)
      exact Integer.isDigit_toDigits c (List.mem_reverse.1 digit)
  rw [write]
  split
  · rfl
  · have sign : newlines (if x.negative then "-" else "") = 0 := by split <;> rfl
    dsimp only
    rw [Text.newlines_append, sign, Nat.zero_add]
    split
    · rfl
    · exact magnitude

end Decimal.Format

theorem Integer.newlines_text (n : Int64) : newlines (text n) = 0 := by
  rw [Text.newlines_eq_zero]
  intro mem
  have range := text_range n _ mem
  simp at range

/-- Only a string is shown with newlines. -/
theorem Literal.newlines_display (value : Literal) :
    newlines value.toValue.display = newlinesOf (Op.push value).strings := by
  cases value with
  | int n => exact Integer.newlines_text n
  | float x => exact Decimal.Format.newlines_write_plain x
  | string s => simp [toValue, Value.display, Op.strings]
  | bool b => cases b <;> rfl

/-- The labels and names of an instruction are on one line. -/
structure Instr.OneLine (i : Instr) : Prop where
  label : ∀ label, i.label = some label → newlines label = 0
  target : ∀ label, i.op.target? = some label → newlines label = 0
  names : ∀ name ∈ i.op.names, newlines name = 0

theorem Ty.newlines_name (ty : Ty) : newlines ty.name = 0 := by
  cases ty <;> rfl

theorem Operator.newlines_symbol (op : Operator) : newlines op.symbol = 0 := by
  cases op <;> rfl

theorem Marker.newlines_mnemonic (m : Marker) : newlines m.mnemonic = 0 := by
  cases m <;> rfl

theorem Guard.newlines_mnemonic (g : Guard) : newlines g.mnemonic = 0 := by
  cases g <;> rfl

theorem Op.newlines_mnemonic (op : Op) : newlines op.mnemonic = 0 := by
  cases op with
  | marker m => exact m.newlines_mnemonic
  | jumpUnless guard => exact guard.newlines_mnemonic
  | _ => simp only [mnemonic]; decide

namespace Instr

theorem newlines_operands {i : Instr} (h : i.OneLine) :
    newlinesOf i.op.operands = newlinesOf i.op.strings := by
  have known (ty : Option Ty) : newlinesOf (ty.map Ty.name).toList = 0 := by
    cases ty with
    | none => rfl
    | some ty => simpa using ty.newlines_name
  obtain ⟨op, label, pos⟩ := i
  obtain ⟨-, target, names⟩ := h
  cases op with
  | push value => simpa [Op.operands] using value.newlines_display
  | bindArg ty name => simpa [Op.operands, Op.strings, Op.names, ty.newlines_name] using names
  | assign ty name => simpa [Op.operands, Op.strings, Op.names, known ty] using names
  | call name argc returns =>
    simpa [Op.operands, Op.strings, Op.names, known returns, Integer.newlines_text] using names
  | apply op => simpa [Op.operands, Op.strings] using op.newlines_symbol
  | jumpUnless guard label => simpa [Op.operands, Op.strings, Op.target?] using target
  | jump label => simpa [Op.operands, Op.strings, Op.target?] using target
  | rangeTest name label | rangeStep name label =>
    simp only [Op.names, Op.target?, List.mem_singleton, forall_eq, Option.some.injEq,
      forall_eq'] at names target
    simp [Op.operands, Op.strings, names, target]
  | assignItem name | load name | loadItem name =>
    simpa [Op.operands, Op.strings, Op.names] using names
  | _ => rfl

theorem newlines_parts (i : Instr) :
    newlines i.text = newlinesOf i.label.toList + newlinesOf i.op.operands := by
  rw [text, Text.newlines_append, Text.newlines_append, i.op.newlines_mnemonic, Nat.add_zero]
  refine congrArg₂ (· + ·) ?_ ?_
  · cases i.label with
    | none => rfl
    | some label => exact Text.newlines_append label ": "
  · cases i.op.operands with
    | nil => rfl
    | cons operand operands =>
      rw [Text.newlines_append, Text.newlines_append, Text.newlines_intercalate]
      exact Nat.zero_add _

/-- An instruction has as many newlines as the string that it pushes. -/
theorem newlines_text {i : Instr} (h : i.OneLine) : newlines i.text = newlinesOf i.op.strings := by
  have label : newlinesOf i.label.toList = 0 := by
    cases carries : i.label with
    | none => rfl
    | some label => exact h.label label carries
  rw [newlines_parts, label, newlines_operands h, Nat.zero_add]

end Instr

/-! ## Names and labels -/

/-- A name is read from bytes of a word, and a newline is none of these. -/
theorem Lexer.newlines_names {bytes : List UInt8} {p : Position} {ts : List Located}
    (h : tokens ⟨bytes, p⟩ = .ok ts) : ∀ name ∈ namesIn ts, newlines name = 0 := by
  induction bytes using reading_induction generalizing p ts with
  | ended trailing =>
    rw [tokens_trailing trailing] at h
    cases h
    simp
  | @token blank used rest t hblank spells ih =>
    rw [tokens_blank hblank, spells.tokens_eq_ok (.refl rest)] at h
    obtain ⟨us, later, rfl⟩ := h
    rw [namesIn_cons, List.forall_mem_append]
    refine ⟨?_, ih later⟩
    cases t with
    | name word =>
      obtain ⟨layout, lead, tail, -, -, -, -, read⟩ :=
        next_some (spells.next rest (.refl rest) (p.past blank))
      have oneLine : newlines word = 0 := by
        rw [Text.newlines_eq_zero]
        intro mem
        rw [← Text.mem_encode (by decide), ← Text.bytes_eq_encode] at mem
        have wordByte := token_name read _ mem
        exact absurd wordByte (by decide)
      have bound : newlines "_end" = 0 := rfl
      simp [Token.names, boundName, oneLine, bound]
    | _ => simp [Token.names]
  | @error used rest ne_nil refuse =>
    obtain ⟨e, refused⟩ := refuse p
    rw [tokens_error refused] at h
    cases h

theorem Text.newlines_hex (n : Nat) : newlines (hex n) = 0 := by
  rw [newlines_eq_zero, hex, String.toList_ofList]
  induction n using Nat.strongRecOn with
  | _ n ih =>
    rw [Nat.toDigits_eq_if (by decide)]
    split
    · simp
    · simpa using ih (n / 16) (by omega)

theorem Label.newlines_function (name : String) : newlines (function name) = newlines name := by
  rw [function, Text.newlines_append]
  exact Nat.zero_add _

theorem Label.IsIndexed.newlines_eq_zero {label : String} (h : Label.IsIndexed label) :
    newlines label = 0 := by
  obtain ⟨kind, hkind, index, rfl⟩ := h
  have kinds : ∀ kind ∈ ["if", "while", "for", "forinc", "forinc_e"],
      newlines ("_" ++ kind ++ ".") = 0 := by decide
  rw [indexed, Text.newlines_append, kinds kind hkind, Text.newlines_hex]

namespace Compiled

variable {fs : List Function} {isHost : String → Bool} {p : Program} {i : Instr}

/-- Jumps go to labels that instructions carry. -/
theorem exists_target (hp : Compiled fs isHost p) (hi : i ∈ p.code.toList) {label : String}
    (h : i.op.target? = some label) : ∃ j ∈ p.code.toList, j.label = some label := by
  rw [hp.code] at hi ⊢
  obtain hi | hi := List.mem_append.1 hi
  · obtain ⟨f, hf, base, hi, whole⟩ := Function.mem_codeAll hi
    obtain ⟨k, hk⟩ := List.mem_iff_getElem?.1 hi
    obtain ⟨before, j, after, code, carries, _⟩ := f.code_lands _ base hk h
    have here : j ∈ f.code (signatures fs) base := by simp [code]
    exact ⟨j, List.mem_append_left _ (whole here), carries⟩
  · simp only [startCode, callCode, argsCode, List.nil_append, List.singleton_append,
      List.mem_cons, List.not_mem_nil, or_false] at hi
    obtain rfl | rfl := hi <;> cases h

theorem oneLine {ts : List Located} (hp : Compiled fs isHost p) (h : ProgramStands fs ts)
    (plain : ∀ name ∈ namesIn ts, newlines name = 0) (hi : i ∈ p.code.toList) : i.OneLine := by
  obtain ⟨quotes, named⟩ := hp.quotes h
  have labels {j : Instr} (hj : j ∈ p.code.toList) {label : String}
      (carries : j.label = some label) : newlines label = 0 := by
    obtain ⟨k, hk⟩ := List.mem_iff_getElem?.1 hj
    rw [Array.getElem?_toList] at hk
    obtain ⟨f, hf, rfl⟩ | jump := hp.label_cases hk carries
    · rw [Label.newlines_function]
      exact plain _ (named f hf)
    · exact jump.newlines_eq_zero
  constructor
  · intro label carries
    exact labels hi carries
  · intro label jumps
    obtain ⟨j, hj, carries⟩ := hp.exists_target hi jumps
    exact labels hj carries
  · intro name mem
    exact plain name (quotes.names (List.mem_flatMap.2 ⟨i, hi, mem⟩))

end Compiled

/-! ## Listings -/

theorem Program.ofText_eq_ok_iff {source : String} {host : Host} {p : Program} :
    Program.ofText source host = .ok p ↔
      ∃ fs, parse source = .ok fs ∧ compile fs host.contains = .ok p := by
  rw [ofText]
  cases parse source with
  | error e =>
    constructor
    · intro h
      cases h
    · rintro ⟨_, ⟨⟩, _⟩
  | ok fs =>
    simp only [Except.ok.injEq, exists_eq_left']
    change (compile fs host.contains).mapError LoadError.compile = .ok p ↔ _
    cases compile fs host.contains <;> simp [Except.mapError]

/-- The line that an instruction starts on: before it there are one for each instruction, and one
more for each newline of the strings that these push. -/
def Program.lineOf (p : Program) (i : Nat) : Nat :=
  i + newlinesOf (stringsOf (p.code.toList.take i))

/-- Instructions have a line each, and one more for each newline of the strings that they push. -/
theorem length_linesOf {code : List Instr} (h : ∀ i ∈ code, i.OneLine) :
    (linesOf code).length = code.length + newlinesOf (stringsOf code) := by
  induction code with
  | nil => rfl
  | cons i code ih =>
    obtain ⟨first, others⟩ := List.forall_mem_cons.1 h
    have here := Text.length_lines i.text
    have strings : stringsOf (i :: code) = i.op.strings ++ stringsOf code := rfl
    rw [Instr.newlines_text first] at here
    rw [linesOf_cons, List.length_append, here, ih others, List.length_cons, strings,
      Text.newlinesOf_append]
    omega

/-- Instructions are on one line each just if no string that they push has a newline. -/
theorem linesOf_eq_map_iff {code : List Instr} (h : ∀ i ∈ code, i.OneLine) :
    linesOf code = code.map Instr.text ↔ newlinesOf (stringsOf code) = 0 := by
  constructor
  · intro same
    -- Were there a newline, the lines would be more than the instructions.
    have length := length_linesOf h
    rw [same, List.length_map] at length
    omega
  · intro none
    have single : ∀ i ∈ code, lines i.text = [i.text] := by
      intro i hi
      apply Text.lines_of_newlines_eq_zero
      rw [Instr.newlines_text (h i hi), Text.newlinesOf_eq_zero]
      intro s hs
      exact Text.newlinesOf_eq_zero.1 none s (List.mem_flatMap.2 ⟨i, hi, hs⟩)
    rw [linesOf, List.flatMap_congr single, List.map_eq_flatMap]

/-- The lines of an instruction stand behind those of the instructions before it. -/
theorem Program.lines_at {p : Program} (h : ∀ i ∈ p.code.toList, i.OneLine) {i : Nat}
    (hi : i < p.code.size) : lines p.code[i].text <+: (lines p.listing).drop (p.lineOf i) := by
  have earlier : ∀ j ∈ p.code.toList.take i, j.OneLine := fun j hj => h j (List.mem_of_mem_take hj)
  have before := length_linesOf earlier
  rw [List.length_take_of_le (Nat.le_of_lt hi), ← lineOf] at before
  have whole : linesOf p.code.toList =
      linesOf (p.code.toList.take i) ++
        (lines p.code[i].text ++ linesOf (p.code.toList.drop (i + 1))) := by
    rw [← linesOf_cons, ← linesOf_append, ← Array.getElem_toList hi, ← List.drop_eq_getElem_cons,
      List.take_append_drop]
  rw [p.lines_listing, whole, List.append_assoc, ← before, List.drop_left, List.append_assoc]
  exact List.prefix_append ..

/-- The listing has one line for each instruction just if no string of the text has a newline in it.
In any case it has one more for each newline of these strings, which stand in the lines of the
instructions that push them. -/
theorem listing_lines {source : String} {host : Host} {p : Program}
    (h : Program.ofText source host = .ok p) :
    ∃ ts, tokenize source = .ok ts ∧ (stringsOf p.code.toList).Perm (stringsIn ts) ∧
      (lines p.listing = p.code.toList.map Instr.text ++ [""] ↔
        ∀ s ∈ stringsIn ts, '\n' ∉ s.toList) ∧
      (lines p.listing).length = p.code.size + newlinesOf (stringsIn ts) + 1 ∧
      ∀ i (hi : i < p.code.size),
        lines p.code[i].text <+: (lines p.listing).drop (p.lineOf i) ∧
          (lines p.code[i].text).length = newlinesOf p.code[i].op.strings + 1 := by
  obtain ⟨fs, parsed, compiled⟩ := Program.ofText_eq_ok_iff.1 h
  obtain ⟨ts, read, stands⟩ := parse_eq_ok_iff.1 parsed
  have hp := compiled_of_compile compiled
  have strings := (hp.quotes stands).1.strings
  have oneLine : ∀ i ∈ p.code.toList, i.OneLine := fun _ =>
    hp.oneLine stands (Lexer.newlines_names read)
  have newlines := Text.newlinesOf_perm strings
  refine ⟨ts, read, strings, ?_, ?_, fun i hi => ⟨?_, ?_⟩⟩
  · rw [p.lines_listing, List.append_left_inj, linesOf_eq_map_iff oneLine, newlines,
      Text.newlinesOf_eq_zero]
  · rw [p.lines_listing, List.length_append, length_linesOf oneLine, newlines]
    rfl
  · exact Program.lines_at oneLine hi
  · rw [Text.length_lines, Instr.newlines_text (oneLine _ (by simp))]

/-- Prints a string with a newline in it. -/
def spreading : String := "function main() \x7b out(\"a\\nb\"); \x7d"

/-- The fourth of eleven instructions is on two lines, so the fifth one is not on the fifth line. -/
theorem spreading_listing :
    ∃ p, Program.ofText spreading .standard = .ok p ∧ p.code.size = 11 ∧
      (lines p.listing).length = 12 + 1 ∧ (lines p.listing)[4]? = some "b )" ∧
      p.code[4]?.map Instr.text = some "sub_scope" ∧
      lines p.listing ≠ p.code.toList.map Instr.text ++ [""] :=
  ⟨_, rfl, by decide +kernel⟩

theorem listing_lines_spreading :
    ∃ p, Program.ofText spreading .standard = .ok p ∧ stringsOf p.code.toList = ["a\nb"] ∧
      (lines p.listing).length = p.code.size + 2 ∧
      lines p.listing ≠ p.code.toList.map Instr.text ++ [""] ∧
      ∀ i (hi : i < p.code.size), lines p.code[i].text <+: (lines p.listing).drop (p.lineOf i) := by
  obtain ⟨p, compiled⟩ : ∃ p, Program.ofText spreading .standard = .ok p := ⟨_, rfl⟩
  obtain ⟨ts, read, strings, single, length, starts⟩ := listing_lines compiled
  have known : stringsIn ts = ["a\nb"] := by
    have known : (tokenize spreading).toOption.map stringsIn = some ["a\nb"] := by decide +kernel
    rw [read] at known
    exact Option.some.inj known
  rw [known] at strings single length
  refine ⟨p, compiled, List.perm_singleton.1 strings, length, fun same => ?_, fun i hi => ?_⟩
  · exact single.1 same _ (.head _) (by decide)
  · exact (starts i hi).1

end StackScript
