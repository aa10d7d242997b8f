import Mathlib.Data.List.Infix
import StackScript.Token.Lexer

/-!
# What lies between tokens

* `Lexer.Blank`: spaces and closed comments;
* `Lexer.StartsToken`: bytes that are neither space nor comment;
* `Lexer.skipLayout_append`: blanks are skipped, whatever follows;
* `Lexer.blanks_cases`: behind its blanks a text ends, goes on with a token, or with a comment
  that is not closed.
-/

namespace StackScript.Lexer

/-! ## Comments -/

/-- The bytes of a line do not end it. -/
theorem skipLayout_line {body : List UInt8} (h : 0x0A ∉ body) (rest : List UInt8) (p : Position) :
    skipLayout .line (body ++ 0x0A :: rest) p =
      skipLayout .blank rest (p.past (body ++ [0x0A])) := by
  induction body generalizing p with
  | nil => rfl
  | cons b body ih =>
    rw [List.cons_append, skipLayout, if_neg (List.ne_of_not_mem_cons h).symm,
      ih (List.not_mem_of_not_mem_cons h)]
    rfl

/-- A comment that its line does not end is ended by the text. -/
theorem skipLayout_line_nil {body : List UInt8} (h : 0x0A ∉ body) (p : Position) :
    skipLayout .line body p = .ok () ⟨[], p.past body⟩ := by
  induction body generalizing p with
  | nil => rfl
  | cons b body ih =>
    rw [skipLayout, if_neg (List.ne_of_not_mem_cons h).symm, ih (List.not_mem_of_not_mem_cons h)]
    rfl

/-- The mark that closes a comment is not in these bytes. -/
def Unclosed (body : List UInt8) : Prop := ¬[0x2A, 0x2F] <:+: body

theorem Unclosed.tail {b : UInt8} {body : List UInt8} (h : Unclosed (b :: body)) : Unclosed body :=
  fun closed => h (closed.trans (List.suffix_cons b body).isInfix)

/-- A star is not the closing mark, unless a slash is next. -/
theorem skipLayout_block_cons {b : UInt8} {bs : List UInt8} (h : ¬[0x2A, 0x2F] <+: b :: bs)
    (start p : Position) :
    skipLayout (.block start) (b :: bs) p = skipLayout (.block start) bs (p.after b) := by
  rw [skipLayout]
  rintro bs' rfl rfl
  exact h ⟨bs', rfl⟩

theorem Unclosed.not_prefix {b : UInt8} {body : List UInt8} (h : Unclosed (b :: body))
    (rest : List UInt8) : ¬[0x2A, 0x2F] <+: b :: (body ++ 0x2A :: rest) := by
  intro closed
  cases body with
  | nil => simp [List.cons_prefix_cons] at closed
  | cons c body =>
    apply h
    simp only [List.cons_append, List.cons_prefix_cons] at closed
    obtain ⟨rfl, rfl, _⟩ := closed
    exact ⟨[], body, rfl⟩

theorem skipLayout_block {body : List UInt8} (h : Unclosed body) (rest : List UInt8)
    (start p : Position) :
    skipLayout (.block start) (body ++ 0x2A :: 0x2F :: rest) p =
      skipLayout .blank rest (p.past (body ++ [0x2A, 0x2F])) := by
  induction body generalizing p with
  | nil => rfl
  | cons b body ih =>
    rw [List.cons_append, skipLayout_block_cons (h.not_prefix _), ih h.tail]
    rfl

theorem skipLayout_block_nil {body : List UInt8} (h : Unclosed body) (start p : Position) :
    skipLayout (.block start) body p = .error (.unclosedComment start) ⟨[], p.past body⟩ := by
  induction body generalizing p with
  | nil => rfl
  | cons b body ih =>
    rw [skipLayout_block_cons (fun closed => h closed.isInfix), ih h.tail]
    rfl

/-- Bytes with the closing mark in them have a first one. -/
theorem exists_unclosed {bytes : List UInt8} (h : ¬Unclosed bytes) :
    ∃ body rest, Unclosed body ∧ bytes = body ++ 0x2A :: 0x2F :: rest := by
  induction bytes with
  | nil => exact absurd (by simp [Unclosed]) h
  | cons b bytes ih =>
    by_cases closed : [0x2A, 0x2F] <+: b :: bytes
    · obtain ⟨rest, same⟩ := closed
      exact ⟨[], rest, by simp [Unclosed], same.symm⟩
    · have later : ¬Unclosed bytes := by
        intro unclosed
        apply h
        intro closed'
        obtain closed' | closed' := List.infix_cons_iff.1 closed'
        · exact closed closed'
        · exact unclosed closed'
      obtain ⟨body, rest, unclosed, rfl⟩ := ih later
      refine ⟨b :: body, rest, ?_, rfl⟩
      intro closed'
      obtain closed' | closed' := List.infix_cons_iff.1 closed'
      · exact closed (closed'.trans ((List.prefix_append _ _)))
      · exact unclosed closed'

/-! ## Blanks -/

/-- Spaces and comments that are closed. -/
inductive Blank : List UInt8 → Prop
  | nil : Blank []
  | space {b : UInt8} {rest : List UInt8} : isSpace b = true → Blank rest → Blank (b :: rest)
  | line {body rest : List UInt8} :
    0x0A ∉ body → Blank rest → Blank (0x2F :: 0x2F :: (body ++ 0x0A :: rest))
  | block {body rest : List UInt8} :
    Unclosed body → Blank rest → Blank (0x2F :: 0x2A :: (body ++ 0x2A :: 0x2F :: rest))

theorem Blank.append {a b : List UInt8} (ha : Blank a) (hb : Blank b) : Blank (a ++ b) := by
  induction ha with
  | nil => exact hb
  | space isSpace _ ih => exact .space isSpace ih
  | @line body rest noNewline _ ih =>
    have := Blank.line noNewline ih
    simpa using this
  | @block body rest unclosed _ ih =>
    have := Blank.block unclosed ih
    simpa using this

/-- The first byte is neither space nor does it begin a comment. -/
def StartsToken (bytes : List UInt8) : Prop :=
  ∃ b bs, bytes = b :: bs ∧ isSpace b = false ∧
    (b = 0x2F → bs.head? ≠ some 0x2F ∧ bs.head? ≠ some 0x2A)

theorem skipLayout_space {b : UInt8} (h : isSpace b = true) (rest : List UInt8) (p : Position) :
    skipLayout .blank (b :: rest) p = skipLayout .blank rest (p.after b) := by
  have noSlash : b ≠ 0x2F := by
    rintro rfl
    cases h
  rw [skipLayout, if_pos h]
  · rintro _ rfl
    exact absurd rfl noSlash
  · rintro _ rfl
    exact absurd rfl noSlash

/-- Blanks are skipped, whatever follows. -/
theorem skipLayout_append {blank : List UInt8} (h : Blank blank) (rest : List UInt8)
    (p : Position) :
    skipLayout .blank (blank ++ rest) p = skipLayout .blank rest (p.past blank) := by
  induction h generalizing p with
  | nil => rfl
  | space isSpace _ ih =>
    rw [List.cons_append, skipLayout_space isSpace, ih]
    rfl
  | line noNewline _ ih =>
    rw [List.cons_append, List.cons_append, skipLayout, List.append_assoc, List.cons_append,
      skipLayout_line noNewline, ih]
    simp [Position.past_append]
  | block unclosed _ ih =>
    rw [List.cons_append, List.cons_append, skipLayout, List.append_assoc, List.cons_append,
      List.cons_append, skipLayout_block unclosed, ih]
    simp [Position.past_append]

theorem StartsToken.skipLayout {bytes : List UInt8} (h : StartsToken bytes) (p : Position) :
    skipLayout .blank bytes p = .ok () ⟨bytes, p⟩ := by
  obtain ⟨b, bs, rfl, noSpace, noComment⟩ := h
  rw [Lexer.skipLayout, if_neg (by simp [noSpace])]
  · rintro _ rfl rfl
    exact (noComment rfl).1 rfl
  · rintro _ rfl rfl
    exact (noComment rfl).2 rfl

/-- What can stand behind blanks. -/
inductive Behind : List UInt8 → Prop
  | nothing : Behind []
  | token {bytes : List UInt8} : StartsToken bytes → Behind bytes
  /-- A comment on the last line. -/
  | line {body : List UInt8} : 0x0A ∉ body → Behind (0x2F :: 0x2F :: body)
  /-- A comment that is not closed. -/
  | block {body : List UInt8} : Unclosed body → Behind (0x2F :: 0x2A :: body)

theorem startsToken_or (b : UInt8) (bs : List UInt8) :
    StartsToken (b :: bs) ∨ isSpace b = true ∨ (∃ bs', b :: bs = 0x2F :: 0x2F :: bs') ∨
      ∃ bs', b :: bs = 0x2F :: 0x2A :: bs' := by
  by_cases space : isSpace b = true
  · exact .inr (.inl space)
  by_cases comment : b = 0x2F ∧ (bs.head? = some 0x2F ∨ bs.head? = some 0x2A)
  · obtain ⟨rfl, next | next⟩ := comment
    · obtain ⟨bs', rfl⟩ := List.head?_eq_some_iff.1 next
      exact .inr (.inr (.inl ⟨bs', rfl⟩))
    · obtain ⟨bs', rfl⟩ := List.head?_eq_some_iff.1 next
      exact .inr (.inr (.inr ⟨bs', rfl⟩))
  · refine .inl ⟨b, bs, rfl, by simpa using space, fun slash => ?_⟩
    constructor
    · exact fun next => comment ⟨slash, .inl next⟩
    · exact fun next => comment ⟨slash, .inr next⟩

/-- Every text has blanks in front, as many as there are. -/
theorem blanks_cases (bytes : List UInt8) :
    ∃ blank rest, Blank blank ∧ Behind rest ∧ bytes = blank ++ rest := by
  match bytes with
  | [] => exact ⟨[], [], .nil, .nothing, rfl⟩
  | b :: bs =>
    obtain token | space | ⟨bs, same⟩ | ⟨bs, same⟩ := startsToken_or b bs
    · exact ⟨[], _, .nil, .token token, rfl⟩
    · obtain ⟨blank, rest, hblank, behind, rfl⟩ := blanks_cases bs
      exact ⟨b :: blank, rest, .space space hblank, behind, rfl⟩
    · cases same
      by_cases newline : 0x0A ∈ bs
      · obtain ⟨body, later, rfl, noNewline⟩ := List.eq_append_cons_of_mem newline
        obtain ⟨blank, rest, hblank, behind, rfl⟩ := blanks_cases later
        exact ⟨_, rest, .line noNewline hblank, behind, by simp⟩
      · exact ⟨[], _, .nil, .line newline, rfl⟩
    · cases same
      by_cases unclosed : Unclosed bs
      · exact ⟨[], _, .nil, .block unclosed, rfl⟩
      · obtain ⟨body, later, unclosed', rfl⟩ := exists_unclosed unclosed
        obtain ⟨blank, rest, hblank, behind, rfl⟩ := blanks_cases later
        exact ⟨_, rest, .block unclosed' hblank, behind, by simp⟩
termination_by bytes.length
decreasing_by
  · simp
  · subst_vars
    simp
    omega
  · subst_vars
    simp
    omega

end StackScript.Lexer
