import StackScript.Proofs.Digits
import StackScript.Proofs.Lexing
import StackScript.Proofs.Lexing.Characters

/-!
# How tokens are spelled

* `Lexer.spells_word`, `Keyword.ofWord_spelling`, `Token.ofWord_of_free`: a word is a keyword or a
  name;
* `Lexer.spells_int`, `Lexer.spells_float`: numbers are their digits;
* `Lexer.spells_operator`, `Lexer.spells_punctuation`: marks;
* `Escaped`, `Lexer.spells_string`: strings between quotes.
-/

namespace StackScript

open Text (encode asciiByte)

/-! ## Words and digits -/

def startsWord (c : Char) : Bool := c.isAlpha || c = '_'

def inWord (c : Char) : Bool := startsWord c || c.isDigit

theorem isDigit_iff_toNat (c : Char) : c.isDigit = true ↔ 0x30 ≤ c.toNat ∧ c.toNat ≤ 0x39 := by
  simp [Char.isDigit, UInt32.le_iff_toNat_le]

theorem startsWord_iff_toNat (c : Char) : startsWord c = true ↔
    0x41 ≤ c.toNat ∧ c.toNat ≤ 0x5A ∨ 0x61 ≤ c.toNat ∧ c.toNat ≤ 0x7A ∨ c.toNat = 0x5F := by
  have letter : c.isAlpha = (decide (0x41 ≤ c.val ∧ c.val ≤ 0x5A) ||
      decide (0x61 ≤ c.val) && decide (c.val ≤ 0x7A)) := rfl
  simp [startsWord, letter, UInt32.le_iff_toNat_le, ← Char.toNat_inj, or_assoc]

namespace Lexer

theorem isDigit_iff (b : UInt8) : isDigit b = true ↔ 0x30 ≤ b.toNat ∧ b.toNat ≤ 0x39 := by
  simp [isDigit, UInt8.le_iff_toNat_le]

theorem isWordStart_iff (b : UInt8) : isWordStart b = true ↔
    0x41 ≤ b.toNat ∧ b.toNat ≤ 0x5A ∨ 0x61 ≤ b.toNat ∧ b.toNat ≤ 0x7A ∨ b.toNat = 0x5F := by
  simp [isWordStart, UInt8.le_iff_toNat_le, ← UInt8.toNat_inj, or_assoc]

theorem isWordByte_iff (b : UInt8) :
    isWordByte b = true ↔ isWordStart b = true ∨ isDigit b = true := by
  simp [isWordByte]

/-- No mark is a digit or starts a word. -/
theorem not_mark {lead : UInt8} (h : isWordByte lead = true) : Char.ofUInt8 lead ∉ marks := by
  have code : (Char.ofUInt8 lead).toNat = lead.toNat := rfl
  have apart : ∀ c ∈ marks, c.toNat < 0x30 ∨ 0x39 < c.toNat ∧ c.toNat < 0x41 ∨
      0x5A < c.toNat ∧ c.toNat < 0x5F ∨ 0x7A < c.toNat := by simp [marks]
  intro mark
  have := apart _ mark
  rw [isWordByte_iff, isWordStart_iff, isDigit_iff] at h
  omega

theorem token_digit {lead : UInt8} (h : isDigit lead = true) (start : Position) :
    token start lead = number lead := by
  rw [token_other (not_mark ((isWordByte_iff lead).2 (.inr h))), if_pos h]

theorem token_word {lead : UInt8} (h : isWordStart lead = true) (start : Position) :
    token start lead = word lead := by
  have noDigit : ¬isDigit lead = true := by
    rw [isDigit_iff]
    rw [isWordStart_iff] at h
    omega
  rw [token_other (not_mark ((isWordByte_iff lead).2 (.inl h))), if_neg noDigit, if_pos h]

theorem StartsToken.of_ne {b : UInt8} (noSpace : isSpace b = false) (noSlash : b ≠ 0x2F)
    (bs : List UInt8) : StartsToken (b :: bs) :=
  ⟨b, bs, rfl, noSpace, fun slash => absurd slash noSlash⟩

/-- A byte of a word starts a token. -/
theorem startsToken_of_wordByte {b : UInt8} (h : isWordByte b = true) (bs : List UInt8) :
    StartsToken (b :: bs) := by
  apply StartsToken.of_ne
  · by_contra space
    rw [wordByte_noSpace b (by simpa using space)] at h
    cases h
  · rintro rfl
    cases h

theorem isDigit_asciiByte {c : Char} (h : c.isDigit = true) :
    c.toNat < 0x80 ∧ isDigit (asciiByte c) = true := by
  rw [isDigit_iff_toNat] at h
  have ascii : c.toNat < 0x80 := by omega
  rw [isDigit_iff, Text.asciiByte_toNat ascii]
  omega

theorem isWordStart_asciiByte {c : Char} (h : startsWord c = true) :
    c.toNat < 0x80 ∧ isWordStart (asciiByte c) = true := by
  rw [startsWord_iff_toNat] at h
  have ascii : c.toNat < 0x80 := by omega
  rw [isWordStart_iff, Text.asciiByte_toNat ascii]
  omega

theorem isWordByte_asciiByte {c : Char} (h : inWord c = true) :
    c.toNat < 0x80 ∧ isWordByte (asciiByte c) = true := by
  rw [inWord, Bool.or_eq_true] at h
  rw [isWordByte_iff]
  obtain h | h := h
  · obtain ⟨ascii, start⟩ := isWordStart_asciiByte h
    exact ⟨ascii, .inl start⟩
  · obtain ⟨ascii, digit⟩ := isDigit_asciiByte h
    exact ⟨ascii, .inr digit⟩

/-- The bytes of ASCII characters of a kind are of that kind. -/
theorem forall_mem_encode {kind : Char → Bool} {q : UInt8 → Bool}
    (h : ∀ c, kind c = true → c.toNat < 0x80 ∧ q (asciiByte c) = true) {cs : List Char}
    (all : ∀ c ∈ cs, kind c = true) : ∀ b ∈ encode cs, q b = true := by
  rw [Text.encode_ascii fun c hc => (h c (all c hc)).1]
  exact List.forall_mem_map.2 fun c hc => (h c (all c hc)).2

theorem takeWhile_all {q : UInt8 → Bool} {bs : List UInt8} (h : ∀ b ∈ bs, q b = true)
    (rest : List UInt8) (next : ∀ b, rest.head? = some b → q b = false) (p : Position) :
    takeWhile q ⟨bs ++ rest, p⟩ = .ok bs ⟨rest, p.past bs⟩ := by
  obtain ⟨run, left⟩ := run_append h next
  rw [takeWhile]
  dsimp only
  rw [run, left]

theorem decode_encode (cs : List Char) (c : Cursor) :
    decode (encode cs) c = .ok (String.ofList cs) c := by
  rw [decode, Text.ofBytes?_encode]
  rfl

/-! ## Words -/

theorem spells_word {c : Char} {cs : List Char} (first : startsWord c = true)
    (others : ∀ d ∈ cs, inWord d = true) :
    Spells (encode (c :: cs)) (.ofWord (String.ofList (c :: cs))) [] := by
  obtain ⟨ascii, start⟩ := isWordStart_asciiByte first
  have run := takeWhile_all (forall_mem_encode (fun _ => isWordByte_asciiByte) others) []
    (by simp) .start
  rw [List.append_nil] at run
  have text := decode_encode (c :: cs) ⟨[], Position.start.past (encode cs)⟩
  rw [Text.encode_cons_ascii ascii] at text ⊢
  apply Spells.of_token (startsToken_of_wordByte ((isWordByte_iff _).2 (.inl start)) _)
  rw [token_word start .start, word, bind_ok run, bind_ok text]
  rfl

end Lexer

theorem Keyword.spelling_word (k : Keyword) :
    ∃ c cs, k.spelling.toList = c :: cs ∧ startsWord c = true ∧ ∀ d ∈ cs, inWord d = true := by
  cases k with
  | type ty => cases ty <;> exact ⟨_, _, rfl, rfl, List.all_eq_true.1 rfl⟩
  | _ => exact ⟨_, _, rfl, rfl, List.all_eq_true.1 rfl⟩

theorem Keyword.ofWord_spelling (k : Keyword) : Token.ofWord k.spelling = .keyword k := by
  cases k with
  | type ty => cases ty <;> rfl
  | _ => rfl

/-- A word that is not reserved is a name. -/
theorem Token.ofWord_of_free {word : String} (free : ∀ k : Keyword, k.spelling ≠ word) :
    Token.ofWord word = .name word := by
  have none : Keyword.ofSpelling? word = none := List.find?_eq_none.2 fun k _ => by simp [free k]
  rw [Token.ofWord, none]

/-! ## Numbers -/

namespace Lexer

/-- A number without a fraction. -/
theorem spells_int {c : Char} {cs : List Char} {n : Int64}
    (digits : ∀ d ∈ c :: cs, d.isDigit = true) (read : Integer.read (c :: cs) = .ok n) :
    Spells (encode (c :: cs)) (.int n) [] := by
  obtain ⟨first, others⟩ := List.forall_mem_cons.1 digits
  obtain ⟨ascii, start⟩ := isDigit_asciiByte first
  have run := takeWhile_all (forall_mem_encode (fun _ => isDigit_asciiByte) others) []
    (by simp) .start
  rw [List.append_nil] at run
  have noFraction : fraction ⟨[], Position.start.past (encode cs)⟩ = .ok [] _ := rfl
  have text := decode_encode (c :: cs) ⟨[], Position.start.past (encode cs)⟩
  rw [Text.encode_cons_ascii ascii] at text ⊢
  apply Spells.of_token (startsToken_of_wordByte ((isWordByte_iff _).2 (.inr start)) _)
  rw [token_digit start .start, number, bind_ok run, bind_ok noFraction]
  rw [List.append_nil, bind_ok text, String.toList_ofList, read]
  rfl

/-- A number with a fraction. -/
theorem spells_float {c d : Char} {cs ds : List Char} (whole : ∀ e ∈ c :: cs, e.isDigit = true)
    (digits : ∀ e ∈ d :: ds, e.isDigit = true) {x : Binary64}
    (read : Decimal.read? (c :: (cs ++ '.' :: d :: ds)) = some x) :
    Spells (encode (c :: (cs ++ '.' :: d :: ds))) (.float x) [] := by
  obtain ⟨first, others⟩ := List.forall_mem_cons.1 whole
  obtain ⟨ascii, start⟩ := isDigit_asciiByte first
  have bytes := forall_mem_encode (fun _ => isDigit_asciiByte) digits
  obtain ⟨ascii', digit⟩ := isDigit_asciiByte (digits d (.head _))
  have point : encode ('.' :: d :: ds) = 0x2E :: encode (d :: ds) := rfl
  have run := takeWhile_all (forall_mem_encode (fun _ => isDigit_asciiByte) others)
    (encode ('.' :: d :: ds)) (by simp [point]; decide) .start
  have rest := fraction_some digit (encode ds) (Position.start.past (encode cs))
  have text := decode_encode (c :: (cs ++ '.' :: d :: ds))
  have nothing : ∀ b, ([] : List UInt8).head? = some b → isDigit b = false := by simp
  obtain ⟨all, left⟩ := run_append bytes nothing
  rw [List.append_nil] at all left
  rw [Text.encode_cons_ascii ascii, Text.encode_append, point] at text ⊢
  rw [point] at run
  rw [← Text.encode_cons_ascii ascii', all, left] at rest
  apply Spells.of_token (startsToken_of_wordByte ((isWordByte_iff _).2 (.inr start)) _)
  rw [token_digit start .start, number, bind_ok run, bind_ok rest]
  rw [List.cons_append, bind_ok (text _), String.toList_ofList, read]
  rfl

/-! ## Operators and marks -/

theorem spells_operator (op : Operator) : Spells (encode op.symbol.toList) (.operator op) [] := by
  cases op with
  | div => exact .of_token ⟨_, _, rfl, rfl, by decide⟩ rfl
  | _ => exact .of_token (.of_ne rfl (by decide) _) rfl

theorem spells_punctuation (mark : Punctuation) :
    Spells (encode mark.spelling.toList) (.punctuation mark) [] := by
  cases mark <;> exact .of_token (.of_ne rfl (by decide) _) rfl

end Lexer

/-! ## Strings -/

/-- The characters of a string, and how they are written between quotes. A tab stands for itself or
is escaped. -/
inductive Escaped : List Char → List Char → Prop
  | nil : Escaped [] []
  | quote {s cs : List Char} : Escaped s cs → Escaped ('"' :: s) ('\\' :: '"' :: cs)
  | backslash {s cs : List Char} : Escaped s cs → Escaped ('\\' :: s) ('\\' :: '\\' :: cs)
  | newline {s cs : List Char} : Escaped s cs → Escaped ('\n' :: s) ('\\' :: 'n' :: cs)
  | tab {s cs : List Char} : Escaped s cs → Escaped ('\t' :: s) ('\\' :: 't' :: cs)
  | same {c : Char} {s cs : List Char} :
    c ≠ '"' → c ≠ '\\' → c ≠ '\n' → Escaped s cs → Escaped (c :: s) (c :: cs)

namespace Lexer

/-- Quotes, backslashes and newlines are bytes of their own. -/
theorem plain_encodeChar {c : Char} (quote : c ≠ '"') (backslash : c ≠ '\\') (newline : c ≠ '\n') :
    ∀ b ∈ String.utf8EncodeChar c, b ≠ 0x22 ∧ b ≠ 0x5C ∧ b ≠ 0x0A := by
  have other {d : Char} (ascii : d.toNat < 0x80) (apart : c ≠ d) :
      ∀ b ∈ String.utf8EncodeChar c, b ≠ asciiByte d := by
    rintro _ mem rfl
    exact apart ((Text.mem_encodeChar ascii).1 mem)
  intro b mem
  exact ⟨other (d := '"') (by decide) quote b mem, other (d := '\\') (by decide) backslash b mem,
    other (d := '\n') (by decide) newline b mem⟩

/-- Bytes that stand for themselves. -/
theorem stringBytes_front {front rest v : List UInt8} {c : Cursor} {start p : Position}
    (plain : ∀ b ∈ front, b ≠ 0x22 ∧ b ≠ 0x5C ∧ b ≠ 0x0A)
    (h : stringBytes start rest (p.past front) = .ok v c) :
    stringBytes start (front ++ rest) p = .ok (front ++ v) c := by
  induction front generalizing p with
  | nil => exact h
  | cons b front ih =>
    obtain ⟨⟨quote, backslash, newline⟩, others⟩ := List.forall_mem_cons.1 plain
    rw [List.cons_append, stringBytes_plain quote newline backslash, ih others h]
    rfl

theorem stringBytes_escaped {s cs : List Char} (h : Escaped s cs) (start p : Position) :
    ∃ q, stringBytes start (encode cs ++ [0x22]) p = .ok (encode s) ⟨[], q⟩ := by
  have escape {e b : UInt8} {s cs : List Char} {p : Position} (known : unescape? e = some b)
      (ih : ∃ q, stringBytes start (encode cs ++ [0x22]) (p.past [0x5C, e]) =
        .ok (encode s) ⟨[], q⟩) :
      ∃ q, stringBytes start (0x5C :: e :: (encode cs ++ [0x22])) p =
        .ok (b :: encode s) ⟨[], q⟩ := by
    obtain ⟨q, inner⟩ := ih
    exact ⟨q, by rw [stringBytes_escape known, inner]; rfl⟩
  induction h generalizing p with
  | nil => exact ⟨_, rfl⟩
  | quote _ ih => exact escape rfl (ih _)
  | backslash _ ih => exact escape rfl (ih _)
  | newline _ ih => exact escape rfl (ih _)
  | tab _ ih => exact escape rfl (ih _)
  | @same c s cs quote backslash newline _ ih =>
    obtain ⟨q, inner⟩ := ih (p.past (String.utf8EncodeChar c))
    refine ⟨q, ?_⟩
    rw [Text.encode_cons, Text.encode_cons, List.append_assoc]
    exact stringBytes_front (plain_encodeChar quote backslash newline) inner

theorem spells_string {s cs : List Char} (h : Escaped s cs) :
    Spells (encode ('"' :: (cs ++ ['"']))) (.string (String.ofList s)) [] := by
  obtain ⟨q, read⟩ := stringBytes_escaped h .start .start
  have starts := StartsToken.of_ne (b := 0x22) rfl (by decide) (encode cs ++ [0x22])
  have bytes : encode ('"' :: (cs ++ ['"'])) = 0x22 :: (encode cs ++ [0x22]) := by
    rw [Text.encode_cons_ascii (by decide), Text.encode_append]
    rfl
  rw [bytes]
  apply Spells.of_token starts
  have contents (f : List UInt8 → Lexer Token) := bind_ok
    (x := fun c => stringBytes .start c.rest c.pos) (c := ⟨encode cs ++ [0x22], .start⟩) read f
  exact (contents _).trans (bind_ok (decode_encode s _) _)

end Lexer

end StackScript
