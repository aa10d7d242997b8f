import StackScript.Proofs.Lexing.Spelling

/-!
# Printed tokens

* `Token.Prints`: how a token is written;
* `IsLayout`, `Printed`: tokens with space and comments between them;
* `Token.Prints.spells`: what is written for a token is read as that token;
* `tokenize_printed`: reading undoes printing, whatever the layout.
-/

namespace StackScript

/-! ## Tokens -/

/-- A token and the characters that are written for it. -/
inductive Token.Prints : Token → List Char → Prop
  | keyword (k : Keyword) : Prints (.keyword k) k.spelling.toList
  | name {c : Char} {cs : List Char} :
    startsWord c = true → (∀ d ∈ cs, inWord d = true) →
    (∀ k : Keyword, k.spelling ≠ String.ofList (c :: cs)) →
    Prints (.name (String.ofList (c :: cs))) (c :: cs)
  | int {n : Int64} : 0 ≤ n.toInt → Prints (.int n) (Integer.text n).toList
  | float {whole fraction : List Char} {x : Binary64} :
    whole ≠ [] → fraction ≠ [] → (∀ c ∈ whole ++ fraction, c.isDigit = true) →
    Decimal.read? (whole ++ '.' :: fraction) = some x →
    Prints (.float x) (whole ++ '.' :: fraction)
  | string {s cs : List Char} :
    Escaped s cs → Prints (.string (String.ofList s)) ('"' :: (cs ++ ['"']))
  | operator (op : Operator) : Prints (.operator op) op.symbol.toList
  | punctuation (mark : Punctuation) : Prints (.punctuation mark) mark.spelling.toList

/-! ## Layout -/

def spaces : List Char := [' ', '\t', '\r', '\n', '\x0c']

/-- Spaces and closed comments. -/
inductive IsLayout : List Char → Prop
  | nil : IsLayout []
  | space {c : Char} {cs : List Char} : c ∈ spaces → IsLayout cs → IsLayout (c :: cs)
  | line {body cs : List Char} :
    '\n' ∉ body → IsLayout cs → IsLayout ('/' :: '/' :: (body ++ '\n' :: cs))
  | block {body cs : List Char} :
    ¬['*', '/'] <:+: body → IsLayout cs → IsLayout ('/' :: '*' :: (body ++ '*' :: '/' :: cs))

/-- Layout at the end of a text, where a newline may be missing from the last comment. -/
inductive EndsText : List Char → Prop
  | layout {cs : List Char} : IsLayout cs → EndsText cs
  | line {cs body : List Char} : IsLayout cs → '\n' ∉ body → EndsText (cs ++ '/' :: '/' :: body)

/-- What is written behind a token, for the tokens that follow it. -/
inductive Continues : List Token → List Char → Prop
  | nothing : Continues [] []
  | ending {c : Char} {cs : List Char} : c ∈ spaces → EndsText cs → Continues [] (c :: cs)
  | token {t : Token} {ts : List Token} {c : Char} {layout word rest : List Char} :
    c ∈ spaces → IsLayout layout → t.Prints word → Continues ts rest →
    Continues (t :: ts) (c :: (layout ++ (word ++ rest)))

/-- What is written for tokens. -/
inductive Printed : List Token → List Char → Prop
  | nothing {cs : List Char} : EndsText cs → Printed [] cs
  | token {t : Token} {ts : List Token} {layout word rest : List Char} :
    IsLayout layout → t.Prints word → Continues ts rest →
    Printed (t :: ts) (layout ++ (word ++ rest))

/-! ## Reading -/

open Text (encode asciiByte)

theorem isSpace_of_mem {c : Char} (h : c ∈ spaces) :
    c.toNat < 0x80 ∧ Lexer.isSpace (asciiByte c) = true := by
  simp only [spaces, List.mem_cons, List.not_mem_nil, or_false] at h
  obtain rfl | rfl | rfl | rfl | rfl := h <;> decide

theorem IsLayout.blank {cs : List Char} (h : IsLayout cs) : Lexer.Blank (encode cs) := by
  induction h with
  | nil => exact .nil
  | @space c cs space _ ih =>
    rw [Text.encode_cons_ascii (isSpace_of_mem space).1]
    exact .space (isSpace_of_mem space).2 ih
  | @line body cs noNewline _ ih =>
    have body : (0x0A : UInt8) ∉ encode body :=
      mt (Text.mem_encode (d := '\n') (by decide)).1 noNewline
    have blank := Lexer.Blank.line body ih
    rw [Text.encode_cons, Text.encode_cons, Text.encode_append, Text.encode_cons]
    exact blank
  | @block body cs unclosed _ ih =>
    have body : Lexer.Unclosed (encode body) := fun closed =>
      unclosed (Text.infix_of_encode (c := '*') (d := '/') (by decide) (by decide) closed)
    have blank := Lexer.Blank.block body ih
    rw [Text.encode_cons, Text.encode_cons, Text.encode_append, Text.encode_cons, Text.encode_cons]
    exact blank

theorem EndsText.trailing {cs : List Char} (h : EndsText cs) : Lexer.Trailing (encode cs) := by
  cases h with
  | layout h => exact .blank h.blank
  | line h noNewline =>
    have body := mt (Text.mem_encode (d := '\n') (by decide)).1 noNewline
    rw [Text.encode_append, Text.encode_cons, Text.encode_cons]
    exact .line h.blank body

/-- Behind a token there is a space, if anything. -/
theorem Continues.cut {ts : List Token} {cs : List Char} (h : Continues ts cs) :
    Lexer.Cut [] (encode cs) := by
  cases h with
  | nothing => exact .nil []
  | ending space _ | token space _ _ _ =>
    rw [Text.encode_cons_ascii (isSpace_of_mem space).1]
    exact .space [] _ (isSpace_of_mem space).2

/-- What is written for a token is read as that token. -/
theorem Token.Prints.spells {t : Token} {cs : List Char} (h : t.Prints cs) :
    Lexer.Spells (encode cs) t [] := by
  cases h with
  | keyword k =>
    obtain ⟨c, cs, written, first, others⟩ := k.spelling_word
    have spells := Lexer.spells_word first others
    rwa [← written, String.ofList_toList, k.ofWord_spelling] at spells
  | @name c cs first others free =>
    have spells := Lexer.spells_word first others
    rwa [Token.ofWord_of_free free] at spells
  | @int n small =>
    obtain ⟨c, cs, written, digits⟩ := Integer.text_digits small
    have read := Integer.read_text n
    rw [written] at read ⊢
    exact Lexer.spells_int digits read
  | @float whole fraction x someWhole someFraction digits read =>
    obtain ⟨c, cs, rfl⟩ := List.exists_cons_of_ne_nil someWhole
    obtain ⟨d, ds, rfl⟩ := List.exists_cons_of_ne_nil someFraction
    obtain ⟨before, behind⟩ := List.forall_mem_append.1 digits
    exact Lexer.spells_float before behind read
  | string h => exact Lexer.spells_string h
  | operator op => exact Lexer.spells_operator op
  | punctuation mark => exact Lexer.spells_punctuation mark

theorem EndsText.space {c : Char} {cs : List Char} (space : c ∈ spaces) (h : EndsText cs) :
    EndsText (c :: cs) := by
  cases h with
  | layout h => exact .layout (.space space h)
  | line h noNewline => exact .line (.space space h) noNewline

/-- A token behind layout, in front of what is read as others. -/
theorem Token.Prints.tokens {t : Token} {ts : List Token} {layout word rest : List Char}
    (h : t.Prints word) (hlayout : IsLayout layout) (cut : Lexer.Cut [] (encode rest))
    (later : ∀ p, ∃ us, Lexer.tokens ⟨encode rest, p⟩ = .ok us ∧ us.map (·.token) = ts)
    (p : Position) :
    ∃ us, Lexer.tokens ⟨encode (layout ++ (word ++ rest)), p⟩ = .ok us ∧
      us.map (·.token) = t :: ts := by
  obtain ⟨us, hus, rfl⟩ := later ((p.past (encode layout)).past (encode word))
  refine ⟨⟨t, p.past (encode layout)⟩ :: us, ?_, rfl⟩
  rw [Text.encode_append, Text.encode_append, Lexer.tokens_blank hlayout.blank,
    h.spells.tokens_eq_ok cut]
  exact ⟨us, hus, rfl⟩

theorem Continues.tokens {ts : List Token} {cs : List Char} (h : Continues ts cs) (p : Position) :
    ∃ us, Lexer.tokens ⟨encode cs, p⟩ = .ok us ∧ us.map (·.token) = ts := by
  induction h generalizing p with
  | nothing => exact ⟨[], Lexer.tokens_trailing (.blank .nil) p, rfl⟩
  | ending space ends => exact ⟨[], Lexer.tokens_trailing (ends.space space).trailing p, rfl⟩
  | token space hlayout prints follows ih =>
    exact prints.tokens (.space space hlayout) follows.cut ih p

/-- Reading undoes printing, whatever the layout. -/
theorem tokenize_printed {ts : List Token} {text : String} (h : Printed ts text.toList) :
    ∃ us, tokenize text = .ok us ∧ us.map (·.token) = ts := by
  have start : tokenize text = Lexer.tokens ⟨encode text.toList, .start⟩ := by
    rw [← Text.bytes_eq_encode]
    rfl
  rw [start]
  generalize text.toList = cs at h ⊢
  cases h with
  | nothing ends => exact ⟨[], Lexer.tokens_trailing ends.trailing _, rfl⟩
  | token hlayout prints follows => exact prints.tokens hlayout follows.cut follows.tokens .start

/-- Comments with stars, slashes and letters beyond ASCII in them. -/
def remarks : String := "/***/from\t/*/ü*/// ü\n\"ü\\\"\" 10 1.5 //"

theorem tokenize_printed_remarks :
    Printed [.keyword .from_, .string "ü\"", .int 10, .float ⟨0x3FF8000000000000⟩] remarks.toList ∧
      ∃ us, tokenize remarks = .ok us ∧ us.map (·.token) =
        [.keyword .from_, .string "ü\"", .int 10, .float ⟨0x3FF8000000000000⟩] := by
  have leading : IsLayout ['/', '*', '*', '*', '/'] := @IsLayout.block ['*'] [] (by decide) .nil
  have line : IsLayout ['/', '/', ' ', 'ü', '\n'] := @IsLayout.line [' ', 'ü'] [] (by decide) .nil
  have block : IsLayout ['/', '*', '/', 'ü', '*', '/', '/', '/', ' ', 'ü', '\n'] :=
    @IsLayout.block ['/', 'ü'] _ (by decide) line
  have ending : EndsText ['/', '/'] := @EndsText.line [] [] .nil (by decide)
  have text : (Token.string "ü\"").Prints ['"', 'ü', '\\', '"', '"'] :=
    .string (.same (by decide) (by decide) (by decide) (.quote .nil))
  have number : (Token.float ⟨0x3FF8000000000000⟩).Prints ['1', '.', '5'] :=
    @Token.Prints.float ['1'] ['5'] _ (by decide) (by decide) (List.all_eq_true.1 rfl)
      (by decide +kernel)
  have printed : Printed [.keyword .from_, .string "ü\"", .int 10, .float ⟨0x3FF8000000000000⟩]
      remarks.toList :=
    .token leading (.keyword .from_) (.token (by decide) block text
      (.token (by decide) .nil (.int (by decide))
        (.token (by decide) .nil number (.ending (by decide) ending))))
  exact ⟨printed, tokenize_printed printed⟩

end StackScript
