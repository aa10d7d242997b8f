import StackScript.Proofs.Grammar.Completeness
import StackScript.Proofs.Grammar.Moved
import StackScript.Proofs.Lexing
import StackScript.Proofs.Lexing.Characters

/-!
# Texts one below the other

* `Lexer.tokens_append`: a text that is read to its end leaves the lines below it to themselves;
* `Lexer.tokens_below`: tokens are the same on other lines;
* `ProgramStands.split`: functions are read one by one;
* `concatenation`: both for tokens and for functions.
-/

namespace StackScript

/-! ## Lines -/

namespace Position

/-- The same column so many lines further down. -/
def below (n : Nat) (p : Position) : Position := ⟨p.line + n, p.column⟩

/-- The same column so many lines further up. -/
def above (n : Nat) (p : Position) : Position := ⟨p.line - n, p.column⟩

/-- Where what is under a text is, its newline between them. -/
def under (text : String) : Position → Position := below (text.toList.count '\n' + 1)

@[simp] theorem above_below (n : Nat) (p : Position) : (p.below n).above n = p := by
  simp [below, above]

theorem after_below (n : Nat) (p : Position) (b : UInt8) :
    (p.below n).after b = (p.after b).below n := by
  unfold after below
  split
  · simp [Nat.add_right_comm]
  · rfl

theorem past_below (n : Nat) (p : Position) (bytes : List UInt8) :
    (p.below n).past bytes = (p.past bytes).below n := by
  induction bytes generalizing p with
  | nil => rfl
  | cons b bytes ih => rw [past_cons, after_below, ih, past_cons]

theorem past_line (p : Position) (bytes : List UInt8) :
    (p.past bytes).line = p.line + bytes.count 0x0A := by
  induction bytes generalizing p with
  | nil => rfl
  | cons b bytes ih =>
    rw [past_cons, ih, List.count_cons, after]
    by_cases newline : b = 0x0A
    · simp [newline]
      omega
    · simp [newline]

/-- Behind a newline a text goes on as it starts, some lines below. -/
theorem start_past_newline (bytes : List UInt8) :
    start.past (bytes ++ [0x0A]) = start.below (bytes.count 0x0A + 1) := by
  have line := past_line start bytes
  rw [past_append, past_cons, past_nil, after, if_pos rfl, line, below]
  rfl

end Position

/-! ## Tokens -/

namespace Lexer

/-- Behind a newline reading goes on as if nothing were above. -/
theorem tokens_append (a b : List UInt8) {p : Position} {ts us : List Located}
    (h : tokens ⟨a, p⟩ = .ok ts) :
    tokens ⟨a ++ 0x0A :: b, p⟩ = .ok us ↔
      ∃ vs, tokens ⟨b, p.past (a ++ [0x0A])⟩ = .ok vs ∧ us = ts ++ vs := by
  induction a using reading_induction generalizing p ts us with
  | @ended a trailing =>
    rw [tokens_trailing trailing] at h
    cases h
    have blank := tokens_blank trailing.newline b p
    rw [List.append_assoc, List.singleton_append] at blank
    rw [blank]
    simp
  | @token blank used rest t hblank spells ih =>
    rw [tokens_blank hblank, spells.tokens_eq_ok (.refl rest)] at h
    obtain ⟨ts, hts, rfl⟩ := h
    rw [List.append_assoc, List.append_assoc, tokens_blank hblank,
      spells.tokens_eq_ok (.behind rest b rfl)]
    simp only [ih hts, Position.past_append]
    constructor
    · rintro ⟨_, ⟨vs, hvs, rfl⟩, rfl⟩
      exact ⟨vs, hvs, rfl⟩
    · rintro ⟨vs, hvs, rfl⟩
      exact ⟨_, ⟨vs, hvs, rfl⟩, rfl⟩
  | @error used rest ne_nil refuse =>
    obtain ⟨e, refused⟩ := refuse p
    rw [tokens_error refused] at h
    cases h

/-- Tokens are the same on other lines. -/
theorem tokens_below (n : Nat) (bytes : List UInt8) {p : Position} {us : List Located} :
    tokens ⟨bytes, p.below n⟩ = .ok us ↔
      ∃ ts, tokens ⟨bytes, p⟩ = .ok ts ∧ us = ts.map (Located.moved (Position.below n)) := by
  induction bytes using reading_induction generalizing p us with
  | ended trailing =>
    rw [tokens_trailing trailing, tokens_trailing trailing]
    simp [eq_comm]
  | @token blank used rest t hblank spells ih =>
    rw [tokens_blank hblank, tokens_blank hblank, Position.past_below,
      spells.tokens_eq_ok (.refl rest), Position.past_below]
    simp only [ih, spells.tokens_eq_ok (.refl rest)]
    constructor
    · rintro ⟨_, ⟨ts, hts, rfl⟩, rfl⟩
      exact ⟨_, ⟨ts, hts, rfl⟩, rfl⟩
    · rintro ⟨_, ⟨ts, hts, rfl⟩, rfl⟩
      exact ⟨_, ⟨ts, hts, rfl⟩, rfl⟩
  | @error used rest ne_nil refuse =>
    obtain ⟨e, refused⟩ := refuse p
    obtain ⟨e', refused'⟩ := refuse (p.below n)
    rw [tokens_error refused, tokens_error refused']
    constructor
    · intro h
      cases h
    · rintro ⟨_, ⟨⟩, _⟩

end Lexer

/-- The tokens of a text and of another one below it. -/
theorem tokenize_append {a b : String} {ts us : List Located} (h : tokenize a = .ok ts) :
    tokenize (a ++ "\n" ++ b) = .ok us ↔ ∃ vs, tokenize b = .ok vs ∧
      us = ts ++ vs.map (Located.moved (Position.under a)) := by
  have bytes : Text.bytes (a ++ "\n" ++ b) = Text.bytes a ++ 0x0A :: Text.bytes b := by
    rw [Text.bytes_append, Text.bytes_append, List.append_assoc]
    rfl
  have lexed : Lexer.tokens ⟨Text.bytes a, .start⟩ = .ok ts := h
  change Lexer.tokens ⟨Text.bytes (a ++ "\n" ++ b), .start⟩ = .ok us ↔ _
  rw [bytes, Lexer.tokens_append _ _ lexed, Position.start_past_newline, Text.count_newline]
  simp only [Lexer.tokens_below]
  constructor
  · rintro ⟨_, ⟨vs, hvs, rfl⟩, rfl⟩
    exact ⟨vs, hvs, rfl⟩
  · rintro ⟨vs, hvs, rfl⟩
    exact ⟨_, ⟨vs, hvs, rfl⟩, rfl⟩

/-! ## Functions -/

/-- Functions are read one by one. -/
theorem ProgramStands.split {fs gs : List Function} {ts us : List Located}
    (hfs : ProgramStands fs ts) (hgs : ProgramStands gs (ts ++ us)) :
    ∃ hs, ProgramStands hs us ∧ gs = fs ++ hs := by
  obtain ⟨good, hfs⟩ := hfs
  induction hfs generalizing gs with
  | nil => exact ⟨gs, hgs, rfl⟩
  | @cons f fs tf ts hf _ ih =>
    obtain ⟨goodFirst, goodRest⟩ := List.forall_mem_cons.1 good
    obtain ⟨goodG, hgs⟩ := hgs
    rw [List.append_assoc] at hgs
    have first := Parser.function_gives goodFirst hf (ts ++ us)
    generalize tf ++ (ts ++ us) = all at hgs first
    obtain ⟨last, read⟩ := first .none
    cases hgs with
    | nil => cases read
    | @cons g gs tg rest hg hgs =>
      obtain ⟨goodFirst, goodRest'⟩ := List.forall_mem_cons.1 goodG
      obtain ⟨last', read'⟩ := Parser.function_gives goodFirst hg rest .none
      rw [read'] at read
      cases read
      obtain ⟨hs, stands, rfl⟩ := ih ⟨goodRest', hgs⟩ goodRest
      exact ⟨hs, stands, rfl⟩

theorem ProgramStands.append {fs gs : List Function} {ts us : List Located}
    (hfs : ProgramStands fs ts) (hgs : ProgramStands gs us) :
    ProgramStands (fs ++ gs) (ts ++ us) := by
  constructor
  · exact List.forall_mem_append.2 ⟨hfs.1, hgs.1⟩
  · obtain ⟨-, hfs⟩ := hfs
    induction hfs with
    | nil => exact hgs.2
    | cons hf _ ih =>
      rw [List.append_assoc]
      exact .cons hf ih

theorem moved_above_below (n : Nat) (ts : List Located) :
    (ts.map (Located.moved (Position.below n))).map (Located.moved (Position.above n)) = ts := by
  simp [Located.moved, Function.comp_def]

/-- Tokens further down stand for a program further down. -/
theorem programStands_below {n : Nat} {gs : List Function} {ts : List Located} :
    ProgramStands gs (ts.map (Located.moved (Position.below n))) ↔
      ∃ fs, ProgramStands fs ts ∧ gs = fs.map (Function.moved (Position.below n)) := by
  constructor
  · intro h
    have up := h.moved (Position.above n)
    rw [moved_above_below] at up
    exact ⟨_, up, h.unique (up.moved (Position.below n))⟩
  · rintro ⟨fs, h, rfl⟩
    exact h.moved (Position.below n)

/-- A text below another one is read as it is on its own, and is found so many lines down as the one
above has and its newline. -/
theorem concatenation (a b : String) :
    (∀ ts us, tokenize a = .ok ts →
      (tokenize (a ++ "\n" ++ b) = .ok us ↔
        ∃ vs, tokenize b = .ok vs ∧ us = ts ++ vs.map (Located.moved (Position.under a)))) ∧
    ∀ fs gs, parse a = .ok fs →
      (parse (a ++ "\n" ++ b) = .ok gs ↔
        ∃ hs, parse b = .ok hs ∧ gs = fs ++ hs.map (Function.moved (Position.under a))) := by
  refine ⟨fun ts us h => tokenize_append h, fun fs gs h => ?_⟩
  obtain ⟨ts, hts, stands⟩ := parse_eq_ok_iff.1 h
  simp only [parse_eq_ok_iff, tokenize_append hts]
  constructor
  · rintro ⟨_, ⟨vs, hvs, rfl⟩, all⟩
    obtain ⟨_, later, rfl⟩ := stands.split all
    obtain ⟨hs, hstands, rfl⟩ := programStands_below.1 later
    exact ⟨hs, ⟨vs, hvs, hstands⟩, rfl⟩
  · rintro ⟨hs, ⟨vs, hvs, hstands⟩, rfl⟩
    exact ⟨_, ⟨vs, hvs, rfl⟩, stands.append (programStands_below.2 ⟨hs, hstands, rfl⟩)⟩

/-- Ends in a comment that no newline closes. -/
def commented : String := "function one() \x7b\n  return 1;\n\x7d // one"

theorem concatenation_commented :
    ∃ ts us fs gs, tokenize commented = .ok ts ∧ tokenize "one(); // 1" = .ok us ∧
      tokenize (commented ++ "\n" ++ "one(); // 1") =
        .ok (ts ++ us.map (Located.moved (Position.below 3))) ∧
      parse commented = .ok fs ∧ parse "function main() \x7b\x7d" = .ok gs ∧
      parse (commented ++ "\n" ++ "function main() \x7b\x7d") =
        .ok (fs ++ gs.map (Function.moved (Position.below 3))) := by
  obtain ⟨ts, hts⟩ : ∃ ts, tokenize commented = .ok ts := ⟨_, rfl⟩
  obtain ⟨us, hus⟩ : ∃ us, tokenize "one(); // 1" = .ok us := ⟨_, rfl⟩
  obtain ⟨fs, hfs⟩ : ∃ fs, parse commented = .ok fs := ⟨_, rfl⟩
  obtain ⟨gs, hgs⟩ : ∃ gs, parse "function main() \x7b\x7d" = .ok gs := ⟨_, rfl⟩
  have tokens := ((concatenation commented "one(); // 1").1 ts _ hts).2 ⟨us, hus, rfl⟩
  have functions :=
    ((concatenation commented "function main() \x7b\x7d").2 fs _ hfs).2 ⟨gs, hgs, rfl⟩
  exact ⟨ts, us, fs, gs, hts, hus, tokens, hfs, hgs, functions⟩

end StackScript
