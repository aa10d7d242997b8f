import StackScript.Proofs.Coverage

/-!
# Bytes that are made texts

* `Lexer.Converts`: the bytes of a token that are read as text, and `Lexer.token_badText_iff`: a
  reading fails on them exactly if they encode none;
* `Lexer.stringBytes_encode`: what is read of a text up to a closing quote;
* `Lexer.Converts.text`: behind the ASCII character that starts a token they encode one;
* `Lexer.token_string`, `Lexer.token_name`: what strings and names are read from;
* `conversions_succeed`: so it is wherever readings come to.
-/

namespace StackScript

open Text (encode asciiByte)

namespace Lexer

/-! ## What is converted -/

/-- The bytes that the reading of a token makes a text of: those of a number or a word, or those
that what is between quotes stands for. -/
inductive Converts (start : Position) (lead : UInt8) (c : Cursor) : List UInt8 → Prop
  | number {whole fraction : List UInt8} {d e : Cursor} :
    isDigit lead = true → takeWhile isDigit c = .ok whole d → Lexer.fraction d = .ok fraction e →
    Converts start lead c (lead :: whole ++ fraction)
  | word {tail : List UInt8} {d : Cursor} :
    isWordStart lead = true → takeWhile isWordByte c = .ok tail d →
    Converts start lead c (lead :: tail)
  | string {bytes : List UInt8} {d : Cursor} :
    Char.ofUInt8 lead = '"' → stringBytes start c.rest c.pos = .ok bytes d →
    Converts start lead c bytes

section

variable {α β : Type} {x : Lexer α} {f : α → Lexer β} {c d : Cursor}

theorem bind_eq_ok {w : β} :
    (x >>= f) c = .ok w d ↔ ∃ v c', x c = .ok v c' ∧ f v c' = .ok w d := by
  cases first : x c with
  | ok v c' => simp [bind_ok first]
  | error e c' => simp [bind_error first]

theorem bind_eq_error {e : LexError} :
    (x >>= f) c = .error e d ↔
      x c = .error e d ∨ ∃ v c', x c = .ok v c' ∧ f v c' = .error e d := by
  cases first : x c with
  | ok v c' => simp [bind_ok first]
  | error e c' => simp [bind_error first]

end

theorem decode_eq_ok {bytes : List UInt8} {s : String} {c d : Cursor} :
    decode bytes c = .ok s d ↔ Text.bytes s = bytes ∧ c = d := by
  rw [← Text.ofBytes?_eq_some_iff, decode]
  cases Text.ofBytes? bytes with
  | none =>
    change EStateM.Result.error _ _ = _ ↔ _
    simp
  | some s =>
    change EStateM.Result.ok _ _ = _ ↔ _
    simp

theorem decode_eq_error {bytes : List UInt8} {e : LexError} {c d : Cursor} :
    decode bytes c = .error e d ↔ Text.ofBytes? bytes = none ∧ e = .badText ∧ c = d := by
  rw [decode]
  cases Text.ofBytes? bytes with
  | none =>
    change EStateM.Result.error _ _ = _ ↔ _
    simp [eq_comm]
  | some s =>
    change EStateM.Result.ok _ _ = _ ↔ _
    simp

/-- A mark, or a failure for which no bytes were made a text. -/
inductive Plain : EStateM.Result LexError Cursor Token → Prop
  | operator (op : Operator) (d : Cursor) : Plain (.ok (.operator op) d)
  | punctuation (mark : Punctuation) (d : Cursor) : Plain (.ok (.punctuation mark) d)
  | error {e : LexError} (d : Cursor) : e ≠ .badText → Plain (.error e d)

theorem Plain.orEquals (op : Operator) {alone : Token} {c : Cursor} (h : Plain (.ok alone c)) :
    Plain (orEquals (.operator op) alone c) := by
  obtain ⟨bytes, p⟩ := c
  by_cases equals : bytes.head? = some 0x3D
  · obtain ⟨rest, rfl⟩ := List.head?_eq_some_iff.1 equals
    exact .operator op _
  · rw [orEquals_alone equals]
    exact h

theorem Plain.bang (start : Position) (c : Cursor) : Plain <| match c.rest with
    | 0x3D :: bs => .ok (.operator .ne) ⟨bs, c.pos.after 0x3D⟩
    | _ => .error (.loneBang start) c := by
  split
  · exact .operator .ne _
  · exact .error c (by simp)

/-- What the first byte of a token lets it be. -/
inductive Kind (start : Position) (lead : UInt8) : Prop
  | string : Char.ofUInt8 lead = '"' → token start lead = string start → Kind start lead
  | number : isDigit lead = true → token start lead = number lead → Kind start lead
  | word : isWordStart lead = true → token start lead = word lead → Kind start lead
  | plain : (∀ c, Plain (token start lead c)) → Kind start lead

theorem kind (start : Position) (lead : UInt8) : Kind start lead := by
  by_cases mark : Char.ofUInt8 lead ∈ marks
  · simp only [marks, List.mem_cons, List.not_mem_nil, or_false] at mark
    obtain h | h | h | h | h | h | h | h | h | h | h | h | h | h | h | h | h := mark
    · exact .string h (by rw [token, h]; rfl)
    all_goals
      refine .plain fun c => ?_
      rw [token, h]
    iterate 8 exact .punctuation _ c
    iterate 4 exact .operator _ c
    · exact .orEquals _ (.punctuation _ c)
    iterate 2 exact .orEquals _ (.operator _ c)
    · exact .bang start c
  · have other := token_other mark start
    by_cases digit : isDigit lead = true
    · exact .number digit (token_digit digit start)
    by_cases first : isWordStart lead = true
    · exact .word first (token_word first start)
    · rw [if_neg digit, if_neg first] at other
      refine .plain fun c => ?_
      rw [other]
      exact .error c (by simp)

theorem exists_fraction (c : Cursor) : ∃ digits d, fraction c = .ok digits d := by
  obtain ⟨bytes, p⟩ := c
  by_cases point : ∃ b bs, bytes = 0x2E :: b :: bs ∧ isDigit b = true
  · obtain ⟨b, bs, rfl, digit⟩ := point
    exact ⟨_, _, fraction_some digit bs p⟩
  · exact ⟨_, _, fraction_none point p⟩

/-- A string fails for its quotes and escapes, and not for its bytes. -/
theorem stringBytes_ne_badText (start : Position) (bytes : List UInt8) (p : Position) (d : Cursor) :
    stringBytes start bytes p ≠ .error .badText d := by
  have keep {b : UInt8} {x : EStateM.Result LexError Cursor (List UInt8)}
      (h : x ≠ .error .badText d) : stringBytes.keep b x ≠ .error .badText d := by
    cases x with
    | ok v c =>
      intro h
      cases h
    | error e c => exact h
  fun_induction stringBytes start bytes p with
  | case1 | case2 | case3 | case4 | case5 =>
    intro h
    cases h
  | case6 => exact keep ‹_›
  | case7 => exact keep ‹_›

theorem token_badText_iff {start : Position} {lead : UInt8} {c : Cursor} :
    (∃ d, token start lead c = .error .badText d) ↔
      ∃ bytes, Converts start lead c bytes ∧ Text.ofBytes? bytes = none := by
  constructor
  · rintro ⟨d, h⟩
    cases kind start lead with
    | string quote same =>
      rw [same] at h
      obtain failed | ⟨bytes, e, read, h⟩ :=
        (bind_eq_error (x := fun c => stringBytes start c.rest c.pos)).1 h
      · exact absurd failed (stringBytes_ne_badText start c.rest c.pos d)
      · obtain failed | ⟨s, e, -, h⟩ := bind_eq_error.1 h
        · exact ⟨bytes, .string quote read, (decode_eq_error.1 failed).1⟩
        · cases h
    | number digit same =>
      rw [same, number] at h
      obtain failed | ⟨whole, e, run, h⟩ := bind_eq_error.1 h
      · cases failed
      obtain ⟨fraction, e', rest⟩ := exists_fraction e
      rw [bind_ok rest] at h
      obtain failed | ⟨s, e, -, h⟩ := bind_eq_error.1 h
      · exact ⟨_, .number digit run rest, (decode_eq_error.1 failed).1⟩
      · by_cases whole : fraction.isEmpty = true
        · rw [if_pos whole] at h
          cases read : Integer.read s.toList with
          | ok n => simp only [read] at h; cases h
          | error cause => simp only [read] at h; cases h
        · rw [if_neg whole] at h
          cases read : Decimal.read? s.toList with
          | some x => simp only [read] at h; cases h
          | none => simp only [read] at h; cases h
    | word first same =>
      rw [same, word] at h
      obtain failed | ⟨tail, e, run, h⟩ := bind_eq_error.1 h
      · cases failed
      obtain failed | ⟨s, e, -, h⟩ := bind_eq_error.1 h
      · exact ⟨_, .word first run, (decode_eq_error.1 failed).1⟩
      · cases h
    | plain plain =>
      have other := plain c
      rw [h] at other
      cases other with
      | error _ other => exact absurd rfl other
  · rintro ⟨bytes, converts, bad⟩
    have failed (c : Cursor) : decode bytes c = .error .badText c :=
      decode_eq_error.2 ⟨bad, rfl, rfl⟩
    cases converts with
    | number digit run rest =>
      rw [token_digit digit, number, bind_ok run, bind_ok rest]
      exact ⟨_, bind_error (failed _) _⟩
    | word first run =>
      rw [token_word first, word, bind_ok run]
      exact ⟨_, bind_error (failed _) _⟩
    | @string _ d quote read =>
      have same : token start lead = string start := by rw [token, quote]; rfl
      refine ⟨d, ?_⟩
      rw [same]
      exact (bind_ok (x := fun c => stringBytes start c.rest c.pos) read _).trans
        (bind_error (failed d) _)

/-! ## What is between quotes -/

theorem keep_eq_ok {b : UInt8} {x : EStateM.Result LexError Cursor (List UInt8)} {v : List UInt8}
    {d : Cursor} : stringBytes.keep b x = .ok v d ↔ ∃ w, x = .ok w d ∧ v = b :: w := by
  cases x with
  | ok w c => simp [stringBytes.keep, eq_comm, and_comm]
  | error e c => simp [stringBytes.keep]

/-- Bytes that stand for themselves. -/
theorem stringBytes_front_ok {front rest v : List UInt8} {d : Cursor} {start p : Position}
    (plain : ∀ b ∈ front, b ≠ 0x22 ∧ b ≠ 0x5C ∧ b ≠ 0x0A)
    (h : stringBytes start (front ++ rest) p = .ok v d) :
    ∃ w, stringBytes start rest (p.past front) = .ok w d ∧ v = front ++ w := by
  induction front generalizing p v with
  | nil => exact ⟨v, h, rfl⟩
  | cons b front ih =>
    obtain ⟨⟨quote, backslash, newline⟩, others⟩ := List.forall_mem_cons.1 plain
    rw [List.cons_append, stringBytes_plain quote newline backslash] at h
    obtain ⟨u, later, rfl⟩ := keep_eq_ok.1 h
    obtain ⟨w, read, rfl⟩ := ih others later
    exact ⟨w, read, rfl⟩

/-- The character of an escape and the one that it stands for. -/
theorem unescape?_eq_some {e b : UInt8} (h : unescape? e = some b) :
    ∃ c d : Char, c.toNat < 0x80 ∧ d.toNat < 0x80 ∧ e = asciiByte c ∧ b = asciiByte d ∧
      ∀ s cs, Escaped s cs → Escaped (d :: s) ('\\' :: c :: cs) := by
  have byte (c : Char) (same : Char.ofUInt8 e = c) : e = asciiByte c := by
    rw [← same, Text.asciiByte_ofUInt8]
  unfold unescape? at h
  split at h
  · cases h
    exact ⟨'"', '"', by decide, by decide, byte _ ‹_›, rfl, fun _ _ => .quote⟩
  · cases h
    exact ⟨'\\', '\\', by decide, by decide, byte _ ‹_›, rfl, fun _ _ => .backslash⟩
  · cases h
    exact ⟨'n', '\n', by decide, by decide, byte _ ‹_›, rfl, fun _ _ => .newline⟩
  · cases h
    exact ⟨'t', '\t', by decide, by decide, byte _ ‹_›, rfl, fun _ _ => .tab⟩
  · cases h

/-- What is read of a text up to a closing quote is the text in front of it, with its escapes
replaced. -/
theorem stringBytes_encode (start p : Position) (cs : List Char) {bytes : List UInt8} {d : Cursor}
    (h : stringBytes start (encode cs) p = .ok bytes d) :
    ∃ s inner behind, cs = inner ++ '"' :: behind ∧ Escaped s inner ∧ bytes = encode s ∧
      d.rest = encode behind := by
  match cs with
  | [] => cases h
  | c :: cs =>
    by_cases quote : c = '"'
    · subst quote
      cases h
      exact ⟨[], [], cs, rfl, .nil, rfl, rfl⟩
    by_cases newline : c = '\n'
    · subst newline
      cases h
    by_cases backslash : c = '\\'
    · subst backslash
      rw [Text.encode_cons_ascii (by decide)] at h
      cases next : encode cs with
      | nil =>
        rw [next] at h
        cases h
      | cons e rest =>
        rw [next] at h
        cases known : unescape? e with
        | none =>
          have failed := stringBytes_unknown known rest start p
          cases failed.symm.trans h
        | some b =>
          have kept := (stringBytes_escape known rest start p).symm.trans h
          obtain ⟨w, later, rfl⟩ := keep_eq_ok.1 kept
          obtain ⟨c, c', ascii, ascii', rfl, rfl, escape⟩ := unescape?_eq_some known
          have first : (encode cs).head? = some (asciiByte c) := by rw [next]; rfl
          obtain ⟨cs, rfl⟩ := List.head?_eq_some_iff.1 (Text.head?_of_encode ascii first)
          rw [Text.encode_cons_ascii ascii] at next
          cases next
          obtain ⟨s, inner, behind, rfl, escaped, rfl, left⟩ := stringBytes_encode start _ cs later
          refine ⟨c' :: s, '\\' :: c :: inner, behind, rfl, escape s inner escaped, ?_, left⟩
          rw [Text.encode_cons_ascii ascii']
    · rw [Text.encode_cons] at h
      obtain ⟨w, later, rfl⟩ := stringBytes_front_ok (plain_encodeChar quote backslash newline) h
      obtain ⟨s, inner, behind, rfl, escaped, rfl, left⟩ := stringBytes_encode start _ cs later
      refine ⟨c :: s, c :: inner, behind, rfl, .same quote backslash newline escaped, ?_, left⟩
      rw [Text.encode_cons]
termination_by cs.length

/-! ## What a token is read from -/

theorem fraction_ascii {c d : Cursor} {digits : List UInt8} (h : fraction c = .ok digits d) :
    ∀ b ∈ digits, b.toNat < 0x80 := by
  obtain ⟨bytes, p⟩ := c
  by_cases point : ∃ b bs, bytes = 0x2E :: b :: bs ∧ isDigit b = true
  · obtain ⟨b, bs, rfl, digit⟩ := point
    rw [fraction_some digit] at h
    cases h
    refine List.forall_mem_cons.2 ⟨by decide, fun b mem => ?_⟩
    exact digit_ascii b (List.all_eq_true.1 List.all_takeWhile b mem)
  · rw [fraction_none point] at h
    cases h
    simp

/-- A text goes on behind a quote. -/
theorem encode_behind_quote {source : String} {front rest : List UInt8} {lead : UInt8}
    (quote : Char.ofUInt8 lead = '"') (whole : Text.bytes source = front ++ lead :: rest) :
    ∃ behind, encode behind = rest := by
  have ascii : lead.toNat < 0x80 := by
    rw [← Text.asciiByte_ofUInt8 lead, quote]
    decide
  rw [Text.bytes_eq_encode] at whole
  obtain ⟨-, -, behind, -, -, -, rest⟩ := Text.encode_cut ascii whole
  exact ⟨behind, rest⟩

/-- Numbers and words are ASCII characters, and a string ends where it started, between two
characters of the text. -/
theorem Converts.text {source : String} {front : List UInt8} {start : Position} {lead : UInt8}
    {c : Cursor} {bytes : List UInt8} (whole : Text.bytes source = front ++ lead :: c.rest)
    (h : Converts start lead c bytes) : ∃ text : String, Text.bytes text = bytes := by
  cases h with
  | number digit run rest =>
    cases run
    refine Text.exists_of_ascii (List.forall_mem_append.2 ⟨?_, fraction_ascii rest⟩)
    refine List.forall_mem_cons.2 ⟨digit_ascii lead digit, fun b mem => ?_⟩
    exact digit_ascii b (List.all_eq_true.1 List.all_takeWhile b mem)
  | word first run =>
    cases run
    refine Text.exists_of_ascii (List.forall_mem_cons.2 ⟨?_, fun b mem => ?_⟩)
    · exact wordByte_ascii lead ((isWordByte_iff lead).2 (.inl first))
    · exact wordByte_ascii b (List.all_eq_true.1 List.all_takeWhile b mem)
  | string quote read =>
    obtain ⟨behind, rest⟩ := encode_behind_quote quote whole
    rw [← rest] at read
    obtain ⟨s, -, -, -, -, rfl, -⟩ := stringBytes_encode start c.pos behind read
    exact ⟨String.ofList s, Text.bytes_ofList s⟩

theorem string_eq_ok {start : Position} {c d : Cursor} {t : Token} (h : string start c = .ok t d) :
    ∃ s, t = .string s ∧ stringBytes start c.rest c.pos = .ok (Text.bytes s) d := by
  obtain ⟨bytes, e, read, h⟩ := (bind_eq_ok (x := fun c => stringBytes start c.rest c.pos)).1 h
  obtain ⟨s, e', decoded, h⟩ := bind_eq_ok.1 h
  obtain ⟨rfl, rfl⟩ := decode_eq_ok.1 decoded
  cases h
  exact ⟨s, rfl, read⟩

theorem number_eq_ok {lead : UInt8} {c d : Cursor} {t : Token} (h : number lead c = .ok t d) :
    (∃ n, t = .int n) ∨ ∃ x, t = .float x := by
  obtain ⟨whole, e, -, h⟩ := bind_eq_ok.1 h
  obtain ⟨fraction, e, -, h⟩ := bind_eq_ok.1 h
  obtain ⟨s, e, -, h⟩ := bind_eq_ok.1 h
  by_cases whole : fraction.isEmpty = true
  · rw [if_pos whole] at h
    cases read : Integer.read s.toList with
    | ok n =>
      simp only [read] at h
      cases h
      exact .inl ⟨n, rfl⟩
    | error cause =>
      simp only [read] at h
      cases h
  · rw [if_neg whole] at h
    cases read : Decimal.read? s.toList with
    | some x =>
      simp only [read] at h
      cases h
      exact .inr ⟨x, rfl⟩
    | none =>
      simp only [read] at h
      cases h

theorem word_eq_ok {lead : UInt8} {c d : Cursor} {t : Token} (first : isWordStart lead = true)
    (h : word lead c = .ok t d) :
    ∃ w, t = .ofWord w ∧ ∀ b ∈ Text.bytes w, isWordByte b = true := by
  obtain ⟨tail, e, run, h⟩ := bind_eq_ok.1 h
  obtain ⟨w, e', decoded, last⟩ := bind_eq_ok.1 h
  have spelled := (decode_eq_ok.1 decoded).1
  cases run
  cases last
  refine ⟨w, rfl, ?_⟩
  rw [spelled]
  exact List.forall_mem_cons.2 ⟨(isWordByte_iff lead).2 (.inl first),
    List.all_eq_true.1 List.all_takeWhile⟩

theorem ofWord_cases (w : String) :
    (∃ k, Token.ofWord w = .keyword k) ∨ Token.ofWord w = .name w := by
  rw [Token.ofWord]
  cases Keyword.ofSpelling? w with
  | some k => exact .inl ⟨k, rfl⟩
  | none => exact .inr rfl

/-- A string is read between quotes. -/
theorem token_string {start : Position} {lead : UInt8} {c d : Cursor} {s : String}
    (h : token start lead c = .ok (.string s) d) :
    Char.ofUInt8 lead = '"' ∧ stringBytes start c.rest c.pos = .ok (Text.bytes s) d := by
  cases kind start lead with
  | string quote same =>
    rw [same] at h
    obtain ⟨s, ⟨⟩, read⟩ := string_eq_ok h
    exact ⟨quote, read⟩
  | number digit same =>
    rw [same] at h
    obtain ⟨n, ⟨⟩⟩ | ⟨x, ⟨⟩⟩ := number_eq_ok h
  | word first same =>
    rw [same] at h
    obtain ⟨w, other, -⟩ := word_eq_ok first h
    obtain ⟨k, same⟩ | same := ofWord_cases w <;> cases other.trans same
  | plain plain =>
    have other := plain c
    rw [h] at other
    cases other

/-- A name is read from bytes of a word. -/
theorem token_name {start : Position} {lead : UInt8} {c d : Cursor} {name : String}
    (h : token start lead c = .ok (.name name) d) :
    ∀ b ∈ Text.bytes name, isWordByte b = true := by
  cases kind start lead with
  | string quote same =>
    rw [same] at h
    obtain ⟨s, ⟨⟩, -⟩ := string_eq_ok h
  | number digit same =>
    rw [same] at h
    obtain ⟨n, ⟨⟩⟩ | ⟨x, ⟨⟩⟩ := number_eq_ok h
  | word first same =>
    rw [same] at h
    obtain ⟨w, named, bytes⟩ := word_eq_ok first h
    obtain ⟨k, same⟩ | same := ofWord_cases w
    · cases named.trans same
    · cases named.trans same
      exact bytes
  | plain plain =>
    have other := plain c
    rw [h] at other
    cases other

/-! ## Wherever readings come to -/

/-- Layout is skipped up to a token. -/
theorem skipLayout_eq_ok {bytes rest : List UInt8} {lead : UInt8} {p q : Position}
    (h : skipLayout .blank bytes p = .ok () ⟨lead :: rest, q⟩) :
    ∃ layout, Blank layout ∧ bytes = layout ++ lead :: rest ∧ q = p.past layout := by
  obtain ⟨layout, behind, blank, what, rfl⟩ := blanks_cases bytes
  rw [skipLayout_append blank] at h
  cases what with
  | nothing => cases h
  | token starts =>
    rw [starts.skipLayout] at h
    cases h
    exact ⟨layout, blank, rfl, rfl⟩
  | line noNewline =>
    rw [skipLayout, skipLayout_line_nil noNewline] at h
    cases h
  | block unclosed =>
    rw [skipLayout, skipLayout_block_nil unclosed] at h
    cases h

/-- A reading fails for its bytes only where a token starts. -/
theorem next_eq_badText {c d : Cursor} (h : next c = .error .badText d) :
    ∃ lead rest start, skipLayout .blank c.rest c.pos = .ok () ⟨lead :: rest, start⟩ ∧
      token start lead ⟨rest, start.after lead⟩ = .error .badText d := by
  obtain ⟨bytes, p⟩ := c
  obtain ⟨layout, behind, blank, what, rfl⟩ := blanks_cases bytes
  rw [next_blank blank] at h
  rw [skipLayout_append blank]
  cases what with
  | nothing =>
    rw [next_trailing (.blank .nil)] at h
    cases h
  | token starts =>
    obtain ⟨lead, rest, rfl, _⟩ := id starts
    rw [next_token starts] at h
    refine ⟨lead, rest, p.past layout, starts.skipLayout _, ?_⟩
    cases read : token (p.past layout) lead ⟨rest, (p.past layout).after lead⟩ with
    | ok t d =>
      rw [read] at h
      cases h
    | error e d =>
      rw [read] at h
      cases h
      rfl
  | line noNewline =>
    rw [next_eq, skipLayout, skipLayout_line_nil noNewline] at h
    cases h
  | block unclosed =>
    rw [next_eq, skipLayout, skipLayout_block_nil unclosed] at h
    cases h

end Lexer

/-- However often a text was read, and whatever was wrong in front: bytes that are made a text are
one, so that no reading fails for them, and a string stands for what is between its quotes, with the
escapes replaced. -/
theorem conversions_succeed (source : String) (n : Nat) :
    (∀ lead rest start bytes,
      Lexer.skipLayout .blank (Lexer.readings (.ofText source) n).rest
        (Lexer.readings (.ofText source) n).pos = .ok () ⟨lead :: rest, start⟩ →
      Lexer.Converts start lead ⟨rest, start.after lead⟩ bytes →
      ∃ text, Text.ofBytes? bytes = some text) ∧
    (∀ d, Lexer.next (Lexer.readings (.ofText source) n) ≠ .error .badText d) ∧
    ∀ s pos d, Lexer.next (Lexer.readings (.ofText source) n) = .ok (some ⟨.string s, pos⟩) d →
      ∃ layout inner, Lexer.Blank layout ∧
        pos = (Lexer.readings (.ofText source) n).pos.past layout ∧
        (Lexer.readings (.ofText source) n).rest =
          layout ++ (encode ('"' :: (inner ++ ['"'])) ++ d.rest) ∧
        Escaped s.toList inner := by
  obtain ⟨consumed, whole, -⟩ := Lexer.readings_hasRead source n
  generalize Lexer.readings (.ofText source) n = c at whole ⊢
  have converted {lead : UInt8} {rest bytes : List UInt8} {start : Position}
      (h : Lexer.skipLayout .blank c.rest c.pos = .ok () ⟨lead :: rest, start⟩)
      (converts : Lexer.Converts start lead ⟨rest, start.after lead⟩ bytes) :
      ∃ text, Text.bytes text = bytes := by
    obtain ⟨layout, -, behind, -⟩ := Lexer.skipLayout_eq_ok h
    rw [behind, ← List.append_assoc] at whole
    exact converts.text whole
  refine ⟨fun lead rest start bytes h converts => ?_, fun d failed => ?_, fun s pos d h => ?_⟩
  · obtain ⟨text, rfl⟩ := converted h converts
    exact ⟨text, Text.ofBytes?_bytes text⟩
  · obtain ⟨lead, rest, start, h, failed⟩ := Lexer.next_eq_badText failed
    obtain ⟨bytes, converts, none⟩ := Lexer.token_badText_iff.1 ⟨d, failed⟩
    obtain ⟨text, rfl⟩ := converted h converts
    rw [Text.ofBytes?_bytes] at none
    cases none
  · obtain ⟨layout, lead, tail, blank, behind, place, -, read⟩ := Lexer.next_some h
    obtain ⟨quote, read⟩ := Lexer.token_string read
    rw [List.cons_append] at behind
    rw [behind, ← List.append_assoc] at whole
    obtain ⟨cs, rest⟩ := Lexer.encode_behind_quote quote whole
    dsimp only at read
    rw [← rest] at read behind
    obtain ⟨s', inner, after, rfl, escaped, same, left⟩ := Lexer.stringBytes_encode _ _ cs read
    refine ⟨layout, inner, blank, place, ?_, Text.bytes_eq_encode_iff.1 same ▸ escaped⟩
    have opening : lead = asciiByte '"' := by rw [← quote, Text.asciiByte_ofUInt8]
    rw [behind, left, opening, ← Text.encode_cons_ascii (by decide), ← Text.encode_append]
    simp

/-- A string is read behind an escape that is cut inside a character. -/
def resumed : String := "\"\\é\"a\\n\""

theorem conversions_succeed_resumed :
    ∃ d, Lexer.next (Lexer.readings (.ofText resumed) 2) = .ok (some ⟨.string "a\n", ⟨1, 5⟩⟩) d ∧
      ∃ layout inner, Lexer.Blank layout ∧
        ⟨1, 5⟩ = (Lexer.readings (.ofText resumed) 2).pos.past layout ∧
        (Lexer.readings (.ofText resumed) 2).rest =
          layout ++ (encode ('"' :: (inner ++ ['"'])) ++ d.rest) ∧
        Escaped ['a', '\n'] inner :=
  ⟨_, rfl, (conversions_succeed resumed 2).2.2 _ _ _ rfl⟩

end StackScript
