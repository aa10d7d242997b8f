import StackScript.Proofs.Lexing.Blanks

/-!
# How tokens are read

* `Lexer.Cut`: what is left of a text may end earlier, or behind a space go on in any way;
* `Lexer.Uniform`: a reading takes the same bytes wherever they stand, and does not look beyond a
  space;
* `Lexer.next_cases`: what a reading comes to, and what it takes of the text;
* `Lexer.reading_induction`: a text is read token by token;
* `Lexer.events_eq`, `Lexer.Spells.tokens_eq_ok`: reading goes on behind what was taken.
-/

namespace StackScript.Lexer

/-! ## What follows a token -/

/-- The bytes that follow a token, and others in their place: the same up to where these end or have
a space. -/
inductive Cut : List UInt8 → List UInt8 → Prop
  | nil (bytes : List UInt8) : Cut bytes []
  | space (bytes : List UInt8) {b : UInt8} (rest : List UInt8) :
    isSpace b = true → Cut bytes (b :: rest)
  | cons (b : UInt8) {bytes others : List UInt8} : Cut bytes others → Cut (b :: bytes) (b :: others)

theorem Cut.append {bytes others : List UInt8} (h : Cut bytes others) :
    ∀ front : List UInt8, Cut (front ++ bytes) (front ++ others)
  | [] => h
  | b :: front => .cons b (h.append front)

theorem Cut.refl (bytes : List UInt8) : Cut bytes bytes := by
  have same := (Cut.nil []).append bytes
  rwa [List.append_nil] at same

theorem Cut.behind (bytes : List UInt8) {b : UInt8} (rest : List UInt8) (h : isSpace b = true) :
    Cut bytes (bytes ++ b :: rest) := by
  have same := (Cut.space [] rest h).append bytes
  rwa [List.append_nil] at same

/-- A byte that is no space is next if it was next before. -/
theorem Cut.head? {bytes others : List UInt8} (h : Cut bytes others) {b : UInt8}
    (noSpace : isSpace b = false) (next : others.head? = some b) : bytes.head? = some b := by
  cases h with
  | nil => cases next
  | space _ _ space =>
    cases next
    rw [space] at noSpace
    cases noSpace
  | cons b' _ => exact next

/-- A run of bytes ends where the next one is of another kind. -/
theorem run_append {q : UInt8 → Bool} {run rest : List UInt8} (h : ∀ b ∈ run, q b = true)
    (ends : ∀ b, rest.head? = some b → q b = false) :
    (run ++ rest).takeWhile q = run ∧ (run ++ rest).dropWhile q = rest := by
  rw [List.takeWhile_append_of_pos h, List.dropWhile_append_of_pos h]
  cases rest with
  | nil => simp
  | cons b rest => simp [ends b rfl]

/-- A run of bytes ends where it did. -/
theorem Cut.takeWhile {q : UInt8 → Bool} (noSpace : ∀ b, isSpace b = true → q b = false)
    {bytes others : List UInt8} (cut : Cut (bytes.dropWhile q) others) :
    (bytes.takeWhile q ++ others).takeWhile q = bytes.takeWhile q ∧
      (bytes.takeWhile q ++ others).dropWhile q = others := by
  apply run_append (List.all_eq_true.1 List.all_takeWhile)
  intro b next
  by_cases space : isSpace b = true
  · exact noSpace b space
  · have same := cut.head? (by simpa using space) next
    have stopped := List.head?_dropWhile_not q bytes
    rw [same] at stopped
    simpa using stopped

/-! ## Uniform readings -/

section

variable {α β : Type}

/-- From these bytes the reading takes some and gives a value, whatever is in the place of the
others up to where they are cut. -/
def Reads (x : Position → Lexer α) (bytes : List UInt8) (v : α) (used rest : List UInt8) : Prop :=
  bytes = used ++ rest ∧ ∀ others, Cut rest others → ∀ start p,
    x start ⟨used ++ others, p⟩ = .ok v ⟨others, p.past used⟩

/-- From these bytes the reading takes some and fails. -/
def Refuses (x : Position → Lexer α) (bytes used rest : List UInt8) : Prop :=
  bytes = used ++ rest ∧ ∀ start p, ∃ e, x start ⟨bytes, p⟩ = .error e ⟨rest, p.past used⟩

theorem bind_ok {x : Lexer α} {c d : Cursor} {v : α} (h : x c = .ok v d) (f : α → Lexer β) :
    (x >>= f) c = f v d := by
  change EStateM.bind x f c = _
  rw [EStateM.bind, h]

theorem bind_error {x : Lexer α} {c d : Cursor} {e : LexError} (h : x c = .error e d)
    (f : α → Lexer β) : (x >>= f) c = .error e d := by
  change EStateM.bind x f c = _
  rw [EStateM.bind, h]

/-- Where these bytes stand decides about nothing but what errors say. -/
def UniformAt (x : Position → Lexer α) (bytes : List UInt8) : Prop :=
  (∃ v used rest, Reads x bytes v used rest) ∨ ∃ used rest, Refuses x bytes used rest

/-- A reading that is the same wherever it takes place. -/
def Uniform (x : Position → Lexer α) : Prop := ∀ bytes, UniformAt x bytes

theorem digit_noSpace (b : UInt8) (h : isSpace b = true) : isDigit b = false := by
  simp only [isSpace, Bool.or_eq_true, decide_eq_true_eq] at h
  obtain (((rfl | rfl) | rfl) | rfl) | rfl := h <;> rfl

theorem wordByte_noSpace (b : UInt8) (h : isSpace b = true) : isWordByte b = false := by
  simp only [isSpace, Bool.or_eq_true, decide_eq_true_eq] at h
  obtain (((rfl | rfl) | rfl) | rfl) | rfl := h <;> rfl

theorem fraction_some {b : UInt8} (digit : isDigit b = true) (bs : List UInt8) (p : Position) :
    fraction ⟨0x2E :: b :: bs, p⟩ =
      .ok (0x2E :: (b :: bs).takeWhile isDigit)
        ⟨(b :: bs).dropWhile isDigit, p.past (0x2E :: (b :: bs).takeWhile isDigit)⟩ := by
  rw [fraction]
  simp only [digit, if_true]

theorem fraction_none {bytes : List UInt8}
    (h : ¬∃ b bs, bytes = 0x2E :: b :: bs ∧ isDigit b = true) (p : Position) :
    fraction ⟨bytes, p⟩ = .ok [] ⟨bytes, p⟩ := by
  rw [fraction]
  split
  · rename_i b bs same
    have noDigit : ¬isDigit b = true := fun digit => h ⟨b, bs, same, digit⟩
    rw [if_neg noDigit]
  · rfl

theorem orEquals_alone {bytes : List UInt8} (h : bytes.head? ≠ some 0x3D) (withEquals alone : Token)
    (p : Position) : orEquals withEquals alone ⟨bytes, p⟩ = .ok alone ⟨bytes, p⟩ := by
  rw [orEquals]
  split
  · rename_i bs same
    exact absurd (congrArg List.head? same) h
  · rfl

theorem stringBytes_plain {b : UInt8} (quote : b ≠ 0x22) (newline : b ≠ 0x0A)
    (backslash : b ≠ 0x5C) (bs : List UInt8) (start p : Position) :
    stringBytes start (b :: bs) p = stringBytes.keep b (stringBytes start bs (p.after b)) := by
  rw [stringBytes]
  · exact quote
  · exact newline
  · exact fun h _ => backslash h
  · exact fun _ _ h _ => backslash h

theorem stringBytes_escape {e b : UInt8} (known : unescape? e = some b) (bs : List UInt8)
    (start p : Position) :
    stringBytes start (0x5C :: e :: bs) p =
      stringBytes.keep b (stringBytes start bs (p.past [0x5C, e])) := by
  rw [stringBytes, known]
  rfl

theorem stringBytes_unknown {e : UInt8} (unknown : unescape? e = none) (bs : List UInt8)
    (start p : Position) :
    stringBytes start (0x5C :: e :: bs) p =
      .error (.unknownEscape start e) ⟨bs, p.past [0x5C, e]⟩ := by
  rw [stringBytes, unknown]
  rfl

/-- The characters that decide alone how a token goes on. -/
def marks : List Char :=
  ['"', '(', ')', '\x7b', '\x7d', '[', ']', ',', ';', '+', '-', '*', '/', '=', '>', '<', '!']

theorem token_other {lead : UInt8} (h : Char.ofUInt8 lead ∉ marks) (start : Position) :
    token start lead =
      if isDigit lead then number lead
      else if isWordStart lead then word lead
      else throw (.unexpectedByte start lead) := by
  fun_cases token start lead
  case case18 | case19 | case20 => simp [*]
  all_goals
    rename_i mark
    exact absurd (by rw [mark]; decide) h

namespace Uniform

theorem pure (v : α) : Uniform fun _ => (pure v : Lexer α) := by
  intro bytes
  exact .inl ⟨v, [], bytes, rfl, fun _ _ _ _ => rfl⟩

theorem throw (e : Position → LexError) : Uniform fun start => (throw (e start) : Lexer α) := by
  intro bytes
  exact .inr ⟨[], bytes, rfl, fun start _ => ⟨e start, rfl⟩⟩

theorem bind {x : Position → Lexer α} {f : α → Position → Lexer β} (hx : Uniform x)
    (hf : ∀ v, Uniform (f v)) : Uniform fun start => x start >>= fun v => f v start := by
  intro bytes
  obtain ⟨v, used, rest, rfl, hread⟩ | ⟨used, rest, rfl, hrefuse⟩ := hx bytes
  · obtain ⟨w, used', rest, rfl, hread'⟩ | ⟨used', rest, rfl, hrefuse⟩ := hf v rest
    · refine .inl ⟨w, used ++ used', rest, by simp, fun others cut start p => ?_⟩
      dsimp only
      rw [List.append_assoc, Position.past_append, bind_ok (hread _ (cut.append used') start p)]
      exact hread' others cut start _
    · refine .inr ⟨used ++ used', rest, by simp, fun start p => ?_⟩
      obtain ⟨e, he⟩ := hrefuse start (p.past used)
      refine ⟨e, ?_⟩
      dsimp only
      rw [Position.past_append, bind_ok (hread _ (.refl _) start p)]
      exact he
  · refine .inr ⟨used, rest, rfl, fun start p => ?_⟩
    obtain ⟨e, he⟩ := hrefuse start p
    exact ⟨e, bind_error he _⟩

/-- A run of bytes that no space is among. -/
theorem takeWhile {q : UInt8 → Bool} (noSpace : ∀ b, isSpace b = true → q b = false) :
    Uniform fun _ => takeWhile q := by
  intro bytes
  refine .inl ⟨bytes.takeWhile q, bytes.takeWhile q, bytes.dropWhile q, by simp, ?_⟩
  intro others cut start p
  obtain ⟨run, rest⟩ := cut.takeWhile noSpace
  change EStateM.Result.ok _ _ = _
  rw [run, rest]

theorem decode (bytes : List UInt8) : Uniform fun _ => decode bytes := by
  unfold Lexer.decode
  cases Text.ofBytes? bytes with
  | some s => exact .pure s
  | none => exact .throw fun _ => .badText

theorem fraction : Uniform fun _ => fraction := by
  intro bytes
  by_cases point : ∃ b bs, bytes = 0x2E :: b :: bs ∧ isDigit b = true
  · obtain ⟨b, bs, rfl, digit⟩ := point
    let run := 0x2E :: (b :: bs).takeWhile isDigit
    refine .inl ⟨run, run, (b :: bs).dropWhile isDigit, by simp [run], ?_⟩
    intro others cut start p
    obtain ⟨same, rest⟩ := cut.takeWhile digit_noSpace
    have lead : (b :: bs).takeWhile isDigit = b :: bs.takeWhile isDigit := by simp [digit]
    simp only [run, lead, List.cons_append] at same rest ⊢
    rw [fraction_some digit, same, rest]
  · refine .inl ⟨[], [], bytes, rfl, ?_⟩
    intro others cut start p
    apply fraction_none
    rintro ⟨b, bs, rfl, digit⟩
    apply point
    cases cut with
    | space _ _ space => cases space
    | cons _ cut =>
      have noSpace : isSpace b = false := by
        by_contra space
        rw [digit_noSpace b (by simpa using space)] at digit
        cases digit
      obtain ⟨bs', rfl⟩ := List.head?_eq_some_iff.1 (cut.head? noSpace rfl)
      exact ⟨b, bs', rfl, digit⟩

theorem orEquals (withEquals alone : Token) : Uniform fun _ => orEquals withEquals alone := by
  intro bytes
  by_cases equals : bytes.head? = some 0x3D
  · obtain ⟨rest, rfl⟩ := List.head?_eq_some_iff.1 equals
    exact .inl ⟨withEquals, [0x3D], rest, rfl, fun _ _ _ _ => rfl⟩
  · refine .inl ⟨alone, [], bytes, rfl, ?_⟩
    intro others cut start p
    apply orEquals_alone
    intro next
    exact equals (cut.head? (by decide) next)

/-- What stands for one byte of a string in front of the others. -/
theorem keep (front : List UInt8) {b : UInt8}
    (h : ∀ bs start p, stringBytes start (front ++ bs) p =
      stringBytes.keep b (stringBytes start bs (p.past front))) {bs : List UInt8}
    (hbs : UniformAt (fun start c => stringBytes start c.rest c.pos) bs) :
    UniformAt (fun start c => stringBytes start c.rest c.pos) (front ++ bs) := by
  obtain ⟨v, used, rest, rfl, read⟩ | ⟨used, rest, rfl, refuse⟩ := hbs
  · refine .inl ⟨b :: v, front ++ used, rest, by simp, fun others cut start p => ?_⟩
    dsimp only at read ⊢
    rw [List.append_assoc, h, read others cut, Position.past_append]
    rfl
  · refine .inr ⟨front ++ used, rest, by simp, fun start p => ?_⟩
    obtain ⟨error, refused⟩ := refuse start (p.past front)
    dsimp only at refused ⊢
    rw [h, refused, Position.past_append]
    exact ⟨error, rfl⟩

theorem stringBytes (bytes : List UInt8) :
    UniformAt (fun start c => stringBytes start c.rest c.pos) bytes := by
  match bytes with
  | [] => exact .inr ⟨[], [], rfl, fun _ _ => ⟨_, rfl⟩⟩
  | b :: bs =>
    by_cases quote : b = 0x22
    · subst quote
      exact .inl ⟨[], [0x22], bs, rfl, fun _ _ _ _ => rfl⟩
    by_cases newline : b = 0x0A
    · subst newline
      exact .inr ⟨[0x0A], bs, rfl, fun _ _ => ⟨_, rfl⟩⟩
    by_cases backslash : b = 0x5C
    · subst backslash
      match bs with
      | [] => exact .inr ⟨[0x5C], [], rfl, fun _ _ => ⟨_, rfl⟩⟩
      | e :: bs =>
        cases known : unescape? e with
        | none => exact .inr ⟨[0x5C, e], bs, rfl, fun _ _ => ⟨_, stringBytes_unknown known ..⟩⟩
        | some b => exact keep [0x5C, e] (stringBytes_escape known) (stringBytes bs)
    · exact keep [b] (stringBytes_plain quote newline backslash) (stringBytes bs)
termination_by bytes.length

theorem string : Uniform string :=
  bind stringBytes fun bytes => (decode bytes).bind fun text => .pure (Token.string text)

theorem number (lead : UInt8) : Uniform fun _ => number lead := by
  refine (takeWhile digit_noSpace).bind fun whole => fraction.bind fun fraction =>
    (decode _).bind fun literal => ?_
  split
  · split
    · exact .pure _
    · exact .throw _
  · split
    · exact .pure _
    · exact .throw _

theorem word (lead : UInt8) : Uniform fun _ => word lead :=
  (takeWhile wordByte_noSpace).bind fun _ => (decode _).bind fun text => .pure (Token.ofWord text)

/-- An exclamation mark stands in front of an equals sign. -/
theorem bang : Uniform fun start (c : Cursor) => match c.rest with
    | 0x3D :: bs => .ok (Token.operator .ne) ⟨bs, c.pos.after 0x3D⟩
    | _ => .error (.loneBang start) c := by
  intro bytes
  by_cases equals : bytes.head? = some 0x3D
  · obtain ⟨rest, rfl⟩ := List.head?_eq_some_iff.1 equals
    exact .inl ⟨.operator .ne, [0x3D], rest, rfl, fun _ _ _ _ => rfl⟩
  · refine .inr ⟨[], bytes, rfl, fun start p => ⟨.loneBang start, ?_⟩⟩
    dsimp only
    split
    · exact absurd rfl equals
    · rfl

theorem token (lead : UInt8) : Uniform fun start => token start lead := by
  by_cases mark : Char.ofUInt8 lead ∈ marks
  · simp only [marks, List.mem_cons, List.not_mem_nil, or_false] at mark
    obtain h | h | h | h | h | h | h | h | h | h | h | h | h | h | h | h | h := mark
    all_goals simp only [Lexer.token, h]
    · exact string
    iterate 12 exact .pure _
    iterate 3 exact orEquals _ _
    · exact bang
  · rw [funext (token_other mark)]
    split
    · exact number lead
    · split
      · exact word lead
      · exact .throw _

end Uniform

end

/-! ## One token -/

/-- What is left when there are no more tokens: blanks, and perhaps a comment on the last line. -/
inductive Trailing : List UInt8 → Prop
  | blank {bytes : List UInt8} : Blank bytes → Trailing bytes
  | line {blank body : List UInt8} :
    Blank blank → 0x0A ∉ body → Trailing (blank ++ 0x2F :: 0x2F :: body)

/-- A newline ends whatever there is. -/
theorem Trailing.newline {bytes : List UInt8} (h : Trailing bytes) : Blank (bytes ++ [0x0A]) := by
  cases h with
  | blank h => exact h.append (.space rfl .nil)
  | line h noNewline =>
    rw [List.append_assoc]
    exact h.append (.line noNewline .nil)

theorem next_eq (bytes : List UInt8) (p : Position) :
    next ⟨bytes, p⟩ = match skipLayout .blank bytes p with
      | .error e d => .error e d
      | .ok _ ⟨[], q⟩ => .ok none ⟨[], q⟩
      | .ok _ ⟨b :: bs, q⟩ => match token q b ⟨bs, q.after b⟩ with
        | .ok t d => .ok (some ⟨t, q⟩) d
        | .error e d => .error e d := by
  simp only [next, bind, EStateM.bind]
  cases skipLayout .blank bytes p with
  | error e d => rfl
  | ok _ d =>
    obtain ⟨rest, q⟩ := d
    cases rest with
    | nil => rfl
    | cons b bs =>
      change EStateM.bind (token q b) _ ⟨bs, q.after b⟩ = _
      rw [EStateM.bind]
      dsimp only
      cases token q b ⟨bs, q.after b⟩ with
      | ok t d => rfl
      | error e d => rfl

theorem next_blank {blank : List UInt8} (h : Blank blank) (rest : List UInt8) (p : Position) :
    next ⟨blank ++ rest, p⟩ = next ⟨rest, p.past blank⟩ := by
  rw [next_eq, next_eq, skipLayout_append h]

theorem next_trailing {bytes : List UInt8} (h : Trailing bytes) (p : Position) :
    next ⟨bytes, p⟩ = .ok none ⟨[], p.past bytes⟩ := by
  cases h with
  | blank h =>
    have last := next_blank h [] p
    rw [List.append_nil] at last
    rw [last]
    rfl
  | @line blank body h noNewline =>
    rw [next_blank h, next_eq, skipLayout, skipLayout_line_nil noNewline, Position.past_append]
    rfl

theorem next_token {b : UInt8} {bs : List UInt8} (h : StartsToken (b :: bs)) (p : Position) :
    next ⟨b :: bs, p⟩ = match token p b ⟨bs, p.after b⟩ with
      | .ok t d => .ok (some ⟨t, p⟩) d
      | .error e d => .error e d := by
  rw [next_eq, h.skipLayout]

/-- What starts a token still does when what follows is cut. -/
theorem StartsToken.cut {b : UInt8} {used rest others : List UInt8}
    (h : StartsToken (b :: (used ++ rest))) (cut : Cut rest others) :
    StartsToken (b :: (used ++ others)) := by
  obtain ⟨_, _, same, noSpace, noComment⟩ := h
  obtain ⟨rfl, rfl⟩ := List.cons.inj same
  refine ⟨b, _, rfl, noSpace, fun slash => ?_⟩
  have later := cut.append used
  constructor
  · exact fun next => (noComment slash).1 (later.head? (by decide) next)
  · exact fun next => (noComment slash).2 (later.head? (by decide) next)

/-- A token of these bytes, wherever they stand and whatever follows them up to where it is cut. -/
structure Spells (used : List UInt8) (t : Token) (rest : List UInt8) : Prop where
  ne_nil : used ≠ []
  next : ∀ others, Cut rest others → ∀ p,
    next ⟨used ++ others, p⟩ = .ok (some ⟨t, p⟩) ⟨others, p.past used⟩

theorem StartsToken.spells {b : UInt8} {used rest : List UInt8} {t : Token}
    (h : StartsToken (b :: (used ++ rest)))
    (read : Reads (fun start => token start b) (used ++ rest) t used rest) :
    Spells (b :: used) t rest := by
  constructor
  · simp
  · intro others cut p
    have token := read.2 others cut p (p.after b)
    dsimp only at token
    rw [List.cons_append, next_token (h.cut cut), token]
    rfl

/-- It is enough to read the bytes once, with nothing behind them. -/
theorem Spells.of_token {b : UInt8} {bs : List UInt8} {t : Token} {q : Position}
    (starts : StartsToken (b :: bs)) (h : token .start b ⟨bs, .start⟩ = .ok t ⟨[], q⟩) :
    Spells (b :: bs) t [] := by
  obtain ⟨t', used, rest, read⟩ | ⟨used, rest, refuse⟩ := Uniform.token b bs
  · obtain ⟨rfl, same⟩ := id read
    have once := same rest (.refl rest) .start .start
    dsimp only at once
    rw [once] at h
    cases h
    rw [List.append_nil]
    exact starts.spells read
  · obtain ⟨rfl, refuse⟩ := refuse
    obtain ⟨e, refused⟩ := refuse .start .start
    dsimp only at refused
    rw [refused] at h
    cases h

/-- What a reading comes to: the end, a token behind blanks, or an error. -/
inductive Outcome : List UInt8 → Prop
  | ended {bytes : List UInt8} : Trailing bytes → Outcome bytes
  | token {blank used rest : List UInt8} {t : Token} :
    Blank blank → Spells used t rest → Outcome (blank ++ (used ++ rest))
  | error {used rest : List UInt8} :
    used ≠ [] → (∀ p, ∃ e, next ⟨used ++ rest, p⟩ = .error e ⟨rest, p.past used⟩) →
    Outcome (used ++ rest)

theorem next_cases (bytes : List UInt8) : Outcome bytes := by
  obtain ⟨blank, rest, hblank, behind, rfl⟩ := blanks_cases bytes
  cases behind with
  | nothing =>
    rw [List.append_nil]
    exact .ended (.blank hblank)
  | line noNewline => exact .ended (.line hblank noNewline)
  | @block body unclosed =>
    rw [← List.append_nil (blank ++ _)]
    refine .error (by simp) fun p => ⟨.unclosedComment (p.past blank), ?_⟩
    rw [List.append_nil, next_blank hblank, next_eq, skipLayout, skipLayout_block_nil unclosed,
      Position.past_append]
    rfl
  | token starts =>
    obtain ⟨b, bs, rfl, _⟩ := id starts
    obtain ⟨t, used, rest, read⟩ | ⟨used, rest, refuse⟩ := Uniform.token b bs
    · have same := read.1
      subst same
      exact .token hblank (starts.spells read)
    · obtain ⟨rfl, refuse⟩ := refuse
      rw [show blank ++ b :: (used ++ rest) = (blank ++ b :: used) ++ rest by simp]
      refine .error (by simp) fun p => ?_
      obtain ⟨e, refused⟩ := refuse (p.past blank) ((p.past blank).after b)
      dsimp only at refused
      refine ⟨e, ?_⟩
      rw [List.append_assoc, next_blank hblank, List.cons_append, next_token starts, refused,
        Position.past_append]
      rfl

/-- What holds of a text if it holds of what is left behind its first token holds of every text. -/
@[elab_as_elim] theorem reading_induction {motive : List UInt8 → Prop}
    (ended : ∀ {bytes}, Trailing bytes → motive bytes)
    (token : ∀ {blank used rest t}, Blank blank → Spells used t rest → motive rest →
      motive (blank ++ (used ++ rest)))
    (error : ∀ {used rest}, used ≠ [] →
      (∀ p, ∃ e, next ⟨used ++ rest, p⟩ = .error e ⟨rest, p.past used⟩) → motive rest →
      motive (used ++ rest)) (bytes : List UInt8) : motive bytes := by
  cases next_cases bytes with
  | ended trailing => exact ended trailing
  | @token blank used rest t hblank spells =>
    have shorter := List.length_pos_iff.2 spells.ne_nil
    exact token hblank spells (reading_induction ended token error rest)
  | @error used rest ne_nil refuse =>
    have shorter := List.length_pos_iff.2 ne_nil
    exact error ne_nil refuse (reading_induction ended token error rest)
termination_by bytes.length
decreasing_by
  · simp only [List.length_append]
    omega
  · simp only [List.length_append]
    omega

/-! ## All tokens -/

/-- Every reading before the end takes a byte. -/
theorem next_shorter (c : Cursor) : match next c with
    | .ok none _ => True
    | .ok (some _) d | .error _ d => d.rest.length < c.rest.length := by
  obtain ⟨bytes, p⟩ := c
  cases next_cases bytes with
  | ended h => simp [next_trailing h p]
  | @token blank used rest t hblank spells =>
    have taken := List.length_pos_iff.2 spells.ne_nil
    rw [next_blank hblank, spells.next rest (.refl rest)]
    simp only [List.length_append]
    omega
  | @error used rest ne_nil refuse =>
    have taken := List.length_pos_iff.2 ne_nil
    obtain ⟨e, refused⟩ := refuse p
    rw [refused]
    simp only [List.length_append]
    omega

theorem go_nil (n : Nat) (p : Position) : events.go n ⟨[], p⟩ = [] := by
  cases n with
  | zero => rfl
  | succ n => rw [events.go, next_trailing (.blank .nil)]

/-- More readings than there are bytes say nothing more. -/
theorem go_eq_events {n : Nat} {c : Cursor} (h : c.rest.length ≤ n) :
    events.go n c = events c := by
  have same (m n : Nat) (c : Cursor) (hm : c.rest.length ≤ m) (hn : c.rest.length ≤ n) :
      events.go m c = events.go n c := by
    induction m generalizing n c with
    | zero =>
      obtain ⟨bytes, p⟩ := c
      cases List.length_eq_zero_iff.1 (Nat.le_zero.1 hm)
      rw [go_nil, go_nil]
    | succ m ih =>
      cases n with
      | zero =>
        obtain ⟨bytes, p⟩ := c
        cases List.length_eq_zero_iff.1 (Nat.le_zero.1 hn)
        rw [go_nil, go_nil]
      | succ n =>
        have shorter := next_shorter c
        rw [events.go, events.go]
        split
        · rfl
        · rename_i t d read
          rw [read] at shorter
          rw [ih n d (by omega) (by omega)]
        · rename_i e d refused
          rw [refused] at shorter
          rw [ih n d (by omega) (by omega)]
  exact same n c.rest.length c h (Nat.le_refl _)

theorem events_eq (c : Cursor) : events c = match next c with
    | .ok none _ => []
    | .ok (some t) d => .ok t :: events d
    | .error e d => .error e :: events d := by
  have shorter := next_shorter c
  rw [← go_eq_events (Nat.le_succ _), events.go]
  generalize next c = result at shorter ⊢
  match result with
  | .ok none _ => rfl
  | .ok (some t) d => exact congrArg _ (go_eq_events (Nat.le_of_lt shorter))
  | .error e d => exact congrArg _ (go_eq_events (Nat.le_of_lt shorter))

theorem events_trailing {bytes : List UInt8} (h : Trailing bytes) (p : Position) :
    events ⟨bytes, p⟩ = [] := by
  rw [events_eq, next_trailing h]

theorem events_blank {blank : List UInt8} (h : Blank blank) (rest : List UInt8) (p : Position) :
    events ⟨blank ++ rest, p⟩ = events ⟨rest, p.past blank⟩ := by
  rw [events_eq, next_blank h, ← events_eq]

theorem Spells.events {used rest others : List UInt8} {t : Token} (h : Spells used t rest)
    (cut : Cut rest others) (p : Position) :
    events ⟨used ++ others, p⟩ = .ok ⟨t, p⟩ :: events ⟨others, p.past used⟩ := by
  rw [events_eq, h.next others cut]

/-- The tokens from here on, or the first error. -/
def tokens (c : Cursor) : Except LexError (List Located) := (events c).mapM id

theorem tokens_trailing {bytes : List UInt8} (h : Trailing bytes) (p : Position) :
    tokens ⟨bytes, p⟩ = .ok [] := by
  rw [tokens, events_trailing h]
  rfl

theorem tokens_blank {blank : List UInt8} (h : Blank blank) (rest : List UInt8) (p : Position) :
    tokens ⟨blank ++ rest, p⟩ = tokens ⟨rest, p.past blank⟩ := by
  rw [tokens, events_blank h, ← tokens]

theorem Spells.tokens_eq_ok {used rest others : List UInt8} {t : Token} (h : Spells used t rest)
    (cut : Cut rest others) {p : Position} {ts : List Located} :
    tokens ⟨used ++ others, p⟩ = .ok ts ↔
      ∃ us, tokens ⟨others, p.past used⟩ = .ok us ∧ ts = ⟨t, p⟩ :: us := by
  rw [tokens, h.events cut, List.mapM_cons, ← tokens]
  cases tokens ⟨others, p.past used⟩ with
  | error e =>
    constructor
    · intro h
      cases h
    · rintro ⟨_, ⟨⟩, _⟩
  | ok us =>
    constructor
    · intro h
      cases h
      exact ⟨us, rfl, rfl⟩
    · rintro ⟨_, ⟨⟩, rfl⟩
      rfl

theorem tokens_error {c d : Cursor} {e : LexError} (h : next c = .error e d) :
    tokens c = .error e := by
  rw [tokens, events_eq, h, List.mapM_cons]
  rfl

end StackScript.Lexer
