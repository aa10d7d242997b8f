import Mathlib.Data.List.DropRight
import Mathlib.Data.Nat.Find
import StackScript.Proofs.Concatenation
import StackScript.Proofs.Lexing.Spelling

/-!
# Readings cover a text

* `Position.start_past`: lines and columns are counted;
* `Lexer.next_some`: what a token is read from;
* `Lexer.TakesAscii`, `Lexer.token_text`: a token starts and ends in ASCII characters, so what it is
  read from is a text;
* `Lexer.readings`: the cursor after readings, errors among them;
* `readings_cover`: how every reading goes on from there.
-/

namespace StackScript

/-! ## Lines and columns -/

namespace Position

/-- Newlines make lines, and what is behind the last of them makes columns. -/
theorem start_past (bytes : List UInt8) :
    start.past bytes =
      ⟨1 + bytes.count 0x0A, 1 + (bytes.rtakeWhile fun b => b ≠ 0x0A).length⟩ := by
  induction bytes using List.reverseRecOn with
  | nil => rfl
  | append_singleton bytes b ih =>
    rw [past_append, ih, past_cons, past_nil, after]
    by_cases newline : b = 0x0A
    · simp [newline]
      omega
    · simp [newline]
      omega

end Position

namespace Lexer

/-! ## One token -/

/-- What a token is read from. -/
theorem next_some {c d : Cursor} {t : Located} (h : next c = .ok (some t) d) :
    ∃ layout lead tail, Blank layout ∧ c.rest = layout ++ (lead :: tail ++ d.rest) ∧
      t.pos = c.pos.past layout ∧ Spells (lead :: tail) t.token d.rest ∧
      token t.pos lead ⟨tail ++ d.rest, t.pos.after lead⟩ = .ok t.token d := by
  obtain ⟨bytes, p⟩ := c
  obtain ⟨layout, rest, blank, behind, rfl⟩ := blanks_cases bytes
  cases behind with
  | nothing =>
    rw [List.append_nil, next_trailing (.blank blank)] at h
    cases h
  | line noNewline =>
    rw [next_trailing (.line blank noNewline)] at h
    cases h
  | block unclosed =>
    rw [next_blank blank, next_eq, skipLayout, skipLayout_block_nil unclosed] at h
    cases h
  | token starts =>
    obtain ⟨lead, bs, rfl, _⟩ := id starts
    rw [next_blank blank, next_token starts] at h
    obtain ⟨v, tail, rest, read⟩ | ⟨used, rest, _, refuse⟩ := Uniform.token lead bs
    · obtain ⟨rfl, same⟩ := id read
      have once := same rest (.refl rest) (p.past layout) ((p.past layout).after lead)
      dsimp only at once
      rw [once] at h
      cases h
      exact ⟨layout, lead, tail, blank, rfl, rfl, starts.spells read, once⟩
    · obtain ⟨e, refused⟩ := refuse (p.past layout) ((p.past layout).after lead)
      dsimp only at refused
      rw [refused] at h
      cases h

/-! ## ASCII characters -/

/-- The last of these bytes, if there is one, is an ASCII character. -/
def AsciiEnd (bytes : List UInt8) : Prop := ∀ b, bytes.getLast? = some b → b.toNat < 0x80

theorem AsciiEnd.nil : AsciiEnd [] := fun _ h => nomatch h

theorem AsciiEnd.append {a b : List UInt8} (ha : AsciiEnd a) (hb : AsciiEnd b) :
    AsciiEnd (a ++ b) := by
  intro last h
  rw [List.getLast?_append, Option.or_eq_some_iff] at h
  obtain h | ⟨_, h⟩ := h
  · exact hb last h
  · exact ha last h

theorem AsciiEnd.of_forall {bytes : List UInt8} (h : ∀ b ∈ bytes, b.toNat < 0x80) :
    AsciiEnd bytes := fun b last => h b (List.mem_of_getLast? last)

theorem digit_ascii (b : UInt8) (h : isDigit b = true) : b.toNat < 0x80 := by
  rw [isDigit_iff] at h
  omega

theorem wordByte_ascii (b : UInt8) (h : isWordByte b = true) : b.toNat < 0x80 := by
  rw [isWordByte_iff, isWordStart_iff, isDigit_iff] at h
  omega

/-- What stands for one byte of a string is in front of the others. -/
theorem keep_quote (front : List UInt8) {bs : List UInt8} {b : UInt8}
    {x : EStateM.Result LexError Cursor (List UInt8)} {v : List UInt8} {d : Cursor}
    (h : stringBytes.keep b x = .ok v d)
    (hx : ∀ v, x = .ok v d → ∃ used, bs = used ++ 0x22 :: d.rest) :
    ∃ used, front ++ bs = used ++ 0x22 :: d.rest := by
  cases x with
  | error => cases h
  | ok w d' =>
    cases h
    obtain ⟨used, rfl⟩ := hx w rfl
    exact ⟨front ++ used, by simp⟩

/-- A string ends in its closing quote. -/
theorem stringBytes_quote {start p : Position} {bytes v : List UInt8} {d : Cursor}
    (h : stringBytes start bytes p = .ok v d) : ∃ used, bytes = used ++ 0x22 :: d.rest := by
  fun_induction stringBytes start bytes p generalizing v with
  | case1 | case3 | case4 | case5 => cases h
  | case2 p bs =>
    cases h
    exact ⟨[], rfl⟩
  | case6 e bs p next b known =>
    rename_i ih
    exact keep_quote [0x5C, e] h fun v => ih
  | case7 b bs p _ _ _ _ ih =>
    exact keep_quote [b] h fun v => ih

/-- What this reading takes ends in an ASCII character. -/
def TakesAscii {α : Type} (x : Lexer α) : Prop :=
  ∀ c v d, x c = .ok v d → ∃ used, c.rest = used ++ d.rest ∧ AsciiEnd used

namespace TakesAscii

section

variable {α β : Type}

theorem pure (v : α) : TakesAscii (pure v : Lexer α) := by
  intro c w d h
  cases h
  exact ⟨[], rfl, .nil⟩

theorem throw (e : LexError) : TakesAscii (throw e : Lexer α) := by
  intro c w d h
  cases h

theorem bind {x : Lexer α} {f : α → Lexer β} (hx : TakesAscii x) (hf : ∀ v, TakesAscii (f v)) :
    TakesAscii (x >>= f) := by
  intro c w d h
  cases first : x c with
  | error e c' =>
    rw [bind_error first] at h
    cases h
  | ok v c' =>
    rw [bind_ok first] at h
    obtain ⟨used, taken, ends⟩ := hx c v c' first
    obtain ⟨used', taken', ends'⟩ := hf v c' w d h
    exact ⟨used ++ used', by rw [taken, taken', List.append_assoc], ends.append ends'⟩

end

theorem takeWhile {q : UInt8 → Bool} (ascii : ∀ b, q b = true → b.toNat < 0x80) :
    TakesAscii (takeWhile q) := by
  intro c v d h
  cases h
  refine ⟨c.rest.takeWhile q, List.takeWhile_append_dropWhile.symm, .of_forall fun b mem => ?_⟩
  exact ascii b (List.all_eq_true.1 List.all_takeWhile b mem)

theorem decode (bytes : List UInt8) : TakesAscii (decode bytes) := by
  unfold Lexer.decode
  cases Text.ofBytes? bytes with
  | some s => exact .pure s
  | none => exact .throw .badText

theorem fraction : TakesAscii fraction := by
  rintro ⟨bytes, p⟩ v d h
  by_cases point : ∃ b bs, bytes = 0x2E :: b :: bs ∧ isDigit b = true
  · obtain ⟨b, bs, rfl, digit⟩ := point
    rw [fraction_some digit] at h
    cases h
    refine ⟨0x2E :: (b :: bs).takeWhile isDigit, by simp, .of_forall fun e mem => ?_⟩
    obtain rfl | mem := List.mem_cons.1 mem
    · decide
    · exact digit_ascii e (List.all_eq_true.1 List.all_takeWhile e mem)
  · rw [fraction_none point] at h
    cases h
    exact ⟨[], rfl, .nil⟩

theorem orEquals (withEquals alone : Token) : TakesAscii (orEquals withEquals alone) := by
  rintro ⟨bytes, p⟩ v d h
  by_cases equals : bytes.head? = some 0x3D
  · obtain ⟨rest, rfl⟩ := List.head?_eq_some_iff.1 equals
    cases h
    exact ⟨[0x3D], rfl, .of_forall (List.forall_mem_singleton.2 (by decide))⟩
  · rw [orEquals_alone equals] at h
    cases h
    exact ⟨[], rfl, .nil⟩

theorem string (start : Position) : TakesAscii (string start) := by
  refine bind ?_ fun bytes => (decode bytes).bind fun text => .pure (Token.string text)
  intro c v d h
  obtain ⟨used, taken⟩ := stringBytes_quote h
  refine ⟨used ++ [0x22], by simp [taken], ?_⟩
  intro b last
  rw [List.getLast?_concat] at last
  cases last
  decide

theorem number (lead : UInt8) : TakesAscii (number lead) := by
  refine (takeWhile digit_ascii).bind fun whole => fraction.bind fun fraction =>
    (decode _).bind fun literal => ?_
  split
  · split
    · exact .pure _
    · exact .throw _
  · split
    · exact .pure _
    · exact .throw _

theorem word (lead : UInt8) : TakesAscii (word lead) :=
  (takeWhile wordByte_ascii).bind fun _ => (decode _).bind fun text => .pure (Token.ofWord text)

theorem bang (start : Position) : TakesAscii fun (c : Cursor) => match c.rest with
    | 0x3D :: bs => .ok (Token.operator .ne) ⟨bs, c.pos.after 0x3D⟩
    | _ => .error (.loneBang start) c := by
  rintro ⟨bytes, p⟩ v d h
  dsimp only at h
  split at h
  · rename_i bs
    cases h
    exact ⟨[0x3D], rfl, .of_forall (List.forall_mem_singleton.2 (by decide))⟩
  · cases h

theorem token (start : Position) (lead : UInt8) : TakesAscii (token start lead) := by
  by_cases mark : Char.ofUInt8 lead ∈ marks
  · simp only [marks, List.mem_cons, List.not_mem_nil, or_false] at mark
    obtain h | h | h | h | h | h | h | h | h | h | h | h | h | h | h | h | h := mark
    all_goals simp only [Lexer.token, h]
    · exact string start
    iterate 12 exact .pure _
    iterate 3 exact orEquals _ _
    · exact bang start
  · rw [token_other mark]
    split
    · exact number lead
    · split
      · exact word lead
      · exact .throw _

end TakesAscii

/-- What starts a token is an ASCII character. -/
theorem lead_ascii {start : Position} {lead : UInt8} {c d : Cursor} {t : Token}
    (h : token start lead c = .ok t d) : lead.toNat < 0x80 := by
  by_cases mark : Char.ofUInt8 lead ∈ marks
  · have small : ∀ c ∈ marks, c.toNat < 0x80 := by simp [marks]
    exact small _ mark
  · rw [token_other mark] at h
    split at h
    · exact digit_ascii lead ‹_›
    · split at h
      · exact wordByte_ascii lead ((isWordByte_iff lead).2 (.inl ‹_›))
      · cases h

/-- What a token is read from is a text, wherever in a text it stands. -/
theorem token_text {source : String} {front tail : List UInt8} {start p : Position} {lead : UInt8}
    {d : Cursor} {t : Token} (whole : Text.bytes source = front ++ (lead :: tail ++ d.rest))
    (h : token start lead ⟨tail ++ d.rest, p⟩ = .ok t d) :
    ∃ text : String, Text.bytes text = lead :: tail := by
  obtain ⟨used, same, ends⟩ := TakesAscii.token start lead _ t d h
  cases List.append_cancel_right same
  rw [Text.bytes_eq_encode, List.cons_append] at whole
  obtain ⟨-, c, cs, -, -, first, others⟩ := Text.encode_cut (lead_ascii h) whole
  cases tail using List.reverseRecOn with
  | nil =>
    refine ⟨String.ofList [c], ?_⟩
    rw [Text.bytes_ofList, Text.encode_cons, first, Text.encode_nil, List.append_nil]
  | append_singleton tail last =>
    have ascii := ends last List.getLast?_concat
    rw [List.append_assoc, List.singleton_append] at others
    obtain ⟨body, e, -, -, rfl, final, -⟩ := Text.encode_cut ascii others
    refine ⟨String.ofList (c :: (body ++ [e])), ?_⟩
    rw [Text.bytes_ofList, Text.encode_cons, Text.encode_append, Text.encode_cons, first, final,
      Text.encode_nil, List.append_nil, List.singleton_append]

/-! ## Readings one after the other -/

/-- The cursor after so many readings. One that fails is gone on from, too. -/
def readings (c : Cursor) : Nat → Cursor
  | 0 => c
  | n + 1 => match next (readings c n) with
    | .ok _ d | .error _ d => d

/-- The cursor stands behind these bytes of the text. -/
def HasRead (source : String) (consumed : List UInt8) (c : Cursor) : Prop :=
  Text.bytes source = consumed ++ c.rest ∧ c.pos = Position.start.past consumed

/-- A reading takes bytes from the front of what is left. -/
theorem next_takes (c : Cursor) : match next c with
    | .ok _ d | .error _ d => ∃ used, c.rest = used ++ d.rest ∧ d.pos = c.pos.past used := by
  obtain ⟨bytes, p⟩ := c
  cases next_cases bytes with
  | ended trailing =>
    rw [next_trailing trailing]
    exact ⟨bytes, by simp, rfl⟩
  | @token layout used rest t blank spells =>
    rw [next_blank blank, spells.next rest (.refl rest)]
    exact ⟨layout ++ used, by simp, (Position.past_append p layout used).symm⟩
  | @error used rest _ refuse =>
    obtain ⟨e, refused⟩ := refuse p
    rw [refused]
    exact ⟨used, rfl, rfl⟩

theorem readings_hasRead (source : String) (n : Nat) :
    ∃ consumed, HasRead source consumed (readings (.ofText source) n) := by
  induction n with
  | zero => exact ⟨[], rfl, rfl⟩
  | succ n ih =>
    obtain ⟨consumed, whole, pos⟩ := ih
    have takes := next_takes (readings (.ofText source) n)
    rw [readings]
    generalize next (readings (.ofText source) n) = said at takes ⊢
    match said with
    | .ok _ d | .error _ d =>
      obtain ⟨used, taken, past⟩ := takes
      refine ⟨consumed ++ used, ?_, ?_⟩
      · rw [whole, taken, List.append_assoc]
      · rw [past, pos, Position.past_append]

theorem trailing_of_end {c d : Cursor} (h : next c = .ok none d) :
    Trailing c.rest ∧ d.rest = [] := by
  obtain ⟨bytes, p⟩ := c
  cases next_cases bytes with
  | ended trailing =>
    rw [next_trailing trailing] at h
    cases h
    exact ⟨trailing, rfl⟩
  | @token layout used rest t blank spells =>
    rw [next_blank blank, spells.next rest (.refl rest)] at h
    cases h
  | error _ refuse =>
    obtain ⟨e, refused⟩ := refuse p
    rw [refused] at h
    cases h

/-- The next reading says that there are no more tokens. -/
def AtEnd (c : Cursor) : Prop := ∃ d, next c = .ok none d

theorem AtEnd.readings {c : Cursor} {m n : Nat} (h : AtEnd (readings c m)) (later : m ≤ n) :
    AtEnd (readings c n) := by
  induction later with
  | refl => exact h
  | step _ ih =>
    obtain ⟨d, said⟩ := ih
    have nothing := (trailing_of_end said).2
    refine ⟨⟨[], d.pos.past []⟩, ?_⟩
    rw [Lexer.readings, said]
    obtain ⟨rest, p⟩ := d
    cases nothing
    exact next_trailing (.blank .nil) p

/-- Each reading takes a byte or says the end. -/
theorem end_or_shorter (c : Cursor) (n : Nat) :
    (∃ k < n, AtEnd (readings c k)) ∨ (readings c n).rest.length + n ≤ c.rest.length := by
  induction n with
  | zero => exact .inr (Nat.le_refl _)
  | succ n ih =>
    obtain ⟨k, earlier, ends⟩ | few := ih
    · exact .inl ⟨k, Nat.lt_succ_of_lt earlier, ends⟩
    · have shorter := next_shorter (readings c n)
      rw [readings]
      cases said : next (readings c n) with
      | ok t d =>
        cases t with
        | none => exact .inl ⟨n, Nat.lt_succ_self n, d, said⟩
        | some t =>
          rw [said] at shorter
          dsimp only at shorter ⊢
          exact .inr (by omega)
      | error e d =>
        rw [said] at shorter
        dsimp only at shorter ⊢
        exact .inr (by omega)

/-- The end is said from some reading on, and in time. -/
theorem exists_end (c : Cursor) :
    ∃ k ≤ c.rest.length, ∀ n, AtEnd (readings c n) ↔ k ≤ n := by
  classical
  have ends : ∃ k, AtEnd (readings c k) ∧ k ≤ c.rest.length := by
    obtain ⟨k, few, ends⟩ | tooMany := end_or_shorter c (c.rest.length + 1)
    · exact ⟨k, ends, Nat.le_of_lt_succ few⟩
    · omega
  obtain ⟨first, few⟩ := Nat.find_spec ends
  refine ⟨Nat.find ends, few, fun n => ⟨fun said => ?_, first.readings⟩⟩
  by_contra early
  exact Nat.find_min ends (by omega) ⟨said, by omega⟩

end Lexer

/-- Whatever a text is, and whatever was wrong in front: a reading says the end only where nothing
but layout is left, and says it from the last byte on at the latest. Every other one takes bytes. A
token is behind layout, is on its own what it is there, and its place is counted from the start. -/
theorem readings_cover (source : String) :
    (∃ k ≤ (Text.bytes source).length, ∀ n,
      (∃ d, Lexer.next (Lexer.readings (.ofText source) n) = .ok none d) ↔ k ≤ n) ∧
    ∀ n, ∃ consumed rest, Text.bytes source = consumed ++ rest ∧
      (Lexer.readings (.ofText source) n).rest = rest ∧
      match Lexer.next (Lexer.readings (.ofText source) n) with
      | .ok none _ => Lexer.Trailing rest
      | .error _ d => ∃ used, used ≠ [] ∧ rest = used ++ d.rest
      | .ok (some t) d => ∃ layout text, Lexer.Blank layout ∧ Text.bytes text ≠ [] ∧
        rest = layout ++ (Text.bytes text ++ d.rest) ∧ tokenize text = .ok [⟨t.token, .start⟩] ∧
        t.pos = ⟨1 + (consumed ++ layout).count 0x0A,
          1 + ((consumed ++ layout).rtakeWhile fun b => b ≠ 0x0A).length⟩ := by
  refine ⟨Lexer.exists_end (.ofText source), fun n => ?_⟩
  obtain ⟨consumed, whole, pos⟩ := Lexer.readings_hasRead source n
  generalize Lexer.readings (.ofText source) n = c at whole pos ⊢
  refine ⟨consumed, c.rest, whole, rfl, ?_⟩
  cases said : Lexer.next c with
  | error e d =>
    have takes := Lexer.next_takes c
    have shorter := Lexer.next_shorter c
    rw [said] at takes shorter
    obtain ⟨used, taken, -⟩ := takes
    refine ⟨used, ?_, taken⟩
    rintro rfl
    rw [taken] at shorter
    exact Nat.lt_irrefl _ shorter
  | ok t d =>
    cases t with
    | none => exact (Lexer.trailing_of_end said).1
    | some t =>
      obtain ⟨layout, lead, tail, blank, behind, place, spells, read⟩ := Lexer.next_some said
      rw [behind, ← List.append_assoc] at whole
      obtain ⟨text, spelled⟩ := Lexer.token_text whole read
      refine ⟨layout, text, blank, by simp [spelled], by rw [spelled, behind], ?_, ?_⟩
      · have alone := (spells.tokens_eq_ok (.nil d.rest) (p := .start)).2
          ⟨[], Lexer.tokens_trailing (.blank .nil) _, rfl⟩
        rwa [List.append_nil, ← spelled] at alone
      · rw [place, pos, ← Position.past_append, Position.start_past]

/-- An escape is cut inside a character, and reading goes on in the middle of it. -/
example : Lexer.events (.ofText "\"\\é\n x") =
    [.error (.unknownEscape ⟨1, 1⟩ 0xC3), .error (.unexpectedByte ⟨1, 4⟩ 0xA9),
      .ok ⟨.name "x", ⟨2, 2⟩⟩] := rfl

end StackScript
