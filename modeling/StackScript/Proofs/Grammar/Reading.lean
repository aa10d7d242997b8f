import StackScript.Proofs.Grammar
import StackScript.Syntax.Parser

/-!
# What the moves of the parser read

* `Parser.bind_eq_ok` and its neighbours: what a successful move has read;
* `Parser.Gives`: a move reads its piece off the front of these tokens, whatever was read before.
-/

namespace StackScript

namespace Parser

variable {α β : Type} {s t : Tokens}

theorem bind_eq_ok {x : Parser α} {f : α → Parser β} {b : β} :
    (x >>= f) s = .ok b t ↔ ∃ a u, x s = .ok a u ∧ f a u = .ok b t := by
  have run : (x >>= f) s = match x s with
      | .ok a u => f a u
      | .error e u => .error e u := by
    simp only [bind, EStateM.bind]
    cases x s <;> rfl
  rw [run]
  cases x s with
  | ok a u =>
    constructor
    · intro h
      exact ⟨a, u, rfl, h⟩
    · rintro ⟨_, _, ⟨⟩, h⟩
      exact h
  | error e u => simp

theorem pure_eq_ok {a b : α} : (pure a : Parser α) s = .ok b t ↔ a = b ∧ s = t := by
  constructor
  · intro h
    cases h
    exact ⟨rfl, rfl⟩
  · rintro ⟨rfl, rfl⟩
    rfl

theorem discard_eq_ok {x : Parser α} {u : Unit} :
    (discard x : Parser Unit) s = .ok u t ↔ ∃ a, x s = .ok a t := by
  change EStateM.map _ x s = _ ↔ _
  unfold EStateM.map
  cases x s <;> simp

theorem fail_ne_ok {expected : Expected} {a : α} : fail expected s ≠ .ok a t := by
  intro h
  cases h

theorem throw_ne_ok {e : ParseError} {a : α} : (throw e : Parser α) s ≠ .ok a t := by
  intro h
  cases h

theorem pos_of_rest {first : Located} {ts : List Located} (h : s.rest = first :: ts) :
    s.pos = first.pos := by
  rw [Tokens.pos, h]

/-! ## Moves -/

theorem peek_bind (f : Option Token → Parser α) (s : Tokens) :
    (peek >>= f) s = f (s.rest.head?.map (·.token)) s := rfl

theorem pos_bind (f : Position → Parser α) (s : Tokens) : (pos >>= f) s = f s.pos s := rfl

theorem remaining_bind (f : Nat → Parser α) (s : Tokens) :
    (remaining >>= f) s = f s.rest.length s := rfl

theorem advance_ok {found : Option Located} (h : advance s = .ok found t) :
    (found = none ∧ s.rest = []) ∨ ∃ first, found = some first ∧ s.rest = first :: t.rest := by
  obtain ⟨_ | ⟨first, ts⟩, last⟩ := s
  · cases h
    exact .inl ⟨rfl, rfl⟩
  · cases h
    exact .inr ⟨first, rfl, rfl⟩

theorem discard_advance_ok {token : Token} {u : Unit} (begins : BeginsWith token s.rest)
    (h : (discard advance : Parser Unit) s = .ok u t) : s.rest = ⟨token, s.pos⟩ :: t.rest := by
  obtain ⟨found, h⟩ := discard_eq_ok.1 h
  obtain ⟨_, eq⟩ | ⟨⟨token', p⟩, _, eq⟩ := advance_ok h
  · rw [eq] at begins
    cases begins
  · rw [pos_of_rest eq, eq]
    rw [eq] at begins
    cases begins
    rfl

theorem eat_eq (token : Token) (s : Tokens) :
    eat token s = match s.rest with
      | [] => .ok false s
      | first :: ts => if first.token = token then .ok true ⟨ts, first.pos⟩ else .ok false s := by
  obtain ⟨_ | ⟨first, ts⟩, last⟩ := s
  · rfl
  · dsimp only
    split
    · rename_i same
      rw [eat, peek_bind]
      simp only [List.head?_cons, Option.map_some, same, if_true]
      rfl
    · rename_i other
      rw [eat, peek_bind]
      split
      · rename_i same
        exact absurd (Option.some.inj same) other
      · rfl

theorem eat_true {token : Token} (h : eat token s = .ok true t) :
    s.rest = ⟨token, t.last⟩ :: t.rest := by
  rw [eat_eq] at h
  split at h
  · cases h
  · rename_i first ts eq
    split at h
    · rename_i same
      cases h
      rw [eq, ← same]
    · cases h

theorem eat_false {token : Token} (h : eat token s = .ok false t) :
    s = t ∧ ¬BeginsWith token s.rest := by
  rw [eat_eq] at h
  split at h
  · rename_i eq
    cases h
    exact ⟨rfl, by simp [BeginsWith, eq]⟩
  · rename_i first ts eq
    split at h
    · cases h
    · rename_i other
      cases h
      exact ⟨rfl, by simpa [BeginsWith, eq] using other⟩

/-- Which way a reading goes that looks for a token first. -/
theorem ite_eat_eq_ok {token : Token} {yes no : Parser α} {a : α}
    (h : (do if ← eat token then yes else no : Parser α) s = .ok a t) :
    (∃ u : Tokens, s.rest = ⟨token, u.last⟩ :: u.rest ∧ yes u = .ok a t) ∨
      ¬BeginsWith token s.rest ∧ no s = .ok a t := by
  obtain ⟨eaten, u, heat, next⟩ := bind_eq_ok.1 h
  cases eaten with
  | true => exact .inl ⟨u, eat_true heat, next⟩
  | false =>
    obtain ⟨rfl, other⟩ := eat_false heat
    exact .inr ⟨other, next⟩

theorem punctuation_ok {m : Punctuation} {u : Unit} (h : punctuation m s = .ok u t) :
    s.rest = mark m t.last :: t.rest := by
  obtain ⟨eaten, u, heat, h⟩ := bind_eq_ok.1 h
  cases eaten with
  | true =>
    obtain ⟨_, rfl⟩ := pure_eq_ok.1 h
    exact eat_true heat
  | false => exact (fail_ne_ok h).elim

theorem keyword_ok {k : Keyword} {p : Position} (h : keyword k s = .ok p t) :
    s.rest = word k p :: t.rest := by
  rw [keyword, pos_bind] at h
  obtain ⟨u, eq, h⟩ | ⟨_, h⟩ := ite_eat_eq_ok h
  · obtain ⟨rfl, rfl⟩ := pure_eq_ok.1 h
    rw [pos_of_rest eq]
    exact eq
  · exact (fail_ne_ok h).elim

theorem name_eq (s : Tokens) :
    name s = match s.rest with
      | ⟨.name word, p⟩ :: ts => .ok word ⟨ts, p⟩
      | _ => fail .name s := by
  obtain ⟨_ | ⟨⟨token, p⟩, ts⟩, last⟩ := s
  · rfl
  · cases token <;> rfl

theorem name_ok {x : String} (h : name s = .ok x t) : s.rest = identifier x t.last :: t.rest := by
  rw [name_eq] at h
  split at h
  · rename_i eq
    cases h
    exact eq
  · exact (fail_ne_ok h).elim

theorem type?_eq (s : Tokens) :
    type? s = match s.rest with
      | ⟨.keyword (.type ty), p⟩ :: ts => .ok (some ty) ⟨ts, p⟩
      | _ => .ok none s := by
  obtain ⟨_ | ⟨⟨token, p⟩, ts⟩, last⟩ := s
  · rfl
  · cases token with
    | keyword k => cases k <;> rfl
    | _ => rfl

theorem type?_some {ty : Ty} (h : type? s = .ok (some ty) t) :
    s.rest = word (.type ty) t.last :: t.rest := by
  rw [type?_eq] at h
  split at h
  · rename_i eq
    cases h
    exact eq
  · cases h

theorem type?_none (h : type? s = .ok none t) : s = t := by
  rw [type?_eq] at h
  split at h <;> cases h
  rfl

theorem type_ok {ty : Ty} (h : type s = .ok ty t) : s.rest = word (.type ty) t.last :: t.rest := by
  obtain ⟨found, u, htype, h⟩ := bind_eq_ok.1 h
  cases found with
  | some ty' =>
    obtain ⟨rfl, rfl⟩ := pure_eq_ok.1 h
    exact type?_some htype
  | none => exact (fail_ne_ok h).elim

/-! ## Tokens at the front -/

/-- A reading gives this and leaves the rest of the tokens, whatever was read before. -/
def Gives (p : Parser α) (ts : List Located) (a : α) (rest : List Located) : Prop :=
  ∀ last, ∃ last', p ⟨ts, last⟩ = .ok a ⟨rest, last'⟩

variable {ts us rest : List Located}

theorem Gives.bind {p : Parser α} {f : α → Parser β} {a : α} {b : β} (h : p.Gives ts a us)
    (next : (f a).Gives us b rest) : (p >>= f).Gives ts b rest := by
  intro last
  obtain ⟨between, eq⟩ := h last
  obtain ⟨last', eq'⟩ := next between
  exact ⟨last', bind_eq_ok.2 ⟨_, _, eq, eq'⟩⟩

theorem Gives.pure (a : α) (ts : List Located) : (pure a : Parser α).Gives ts a ts :=
  fun last => ⟨last, rfl⟩

theorem Gives.discard {p : Parser α} {a : α} (h : p.Gives ts a rest) :
    (discard p : Parser Unit).Gives ts () rest := by
  intro last
  obtain ⟨last', eq⟩ := h last
  exact ⟨last', discard_eq_ok.2 ⟨a, eq⟩⟩

theorem pos_gives (first : Located) (ts : List Located) :
    pos.Gives (first :: ts) first.pos (first :: ts) :=
  fun last => ⟨last, rfl⟩

theorem peek_gives (ts : List Located) : peek.Gives ts (ts.head?.map (·.token)) ts :=
  fun last => ⟨last, rfl⟩

theorem remaining_gives (ts : List Located) : remaining.Gives ts ts.length ts :=
  fun last => ⟨last, rfl⟩

theorem advance_gives (first : Located) (ts : List Located) :
    advance.Gives (first :: ts) (some first) ts :=
  fun _ => ⟨first.pos, rfl⟩

theorem eat_gives_true (token : Token) (p : Position) (ts : List Located) :
    (eat token).Gives (⟨token, p⟩ :: ts) true ts := by
  intro last
  refine ⟨p, ?_⟩
  rw [eat_eq]
  simp

theorem eat_gives_false {token : Token} (h : ¬BeginsWith token ts) :
    (eat token).Gives ts false ts := by
  intro last
  refine ⟨last, ?_⟩
  rw [eat_eq]
  cases ts with
  | nil => rfl
  | cons first ts =>
    have other : first.token ≠ token := by simpa [BeginsWith] using h
    simp [other]

theorem Gives.ite_eat_true {token : Token} {yes no : Parser α} {a : α} (p : Position)
    (h : yes.Gives ts a rest) :
    (do if ← eat token then yes else no : Parser α).Gives (⟨token, p⟩ :: ts) a rest :=
  (eat_gives_true token p ts).bind h

theorem Gives.ite_eat_false {token : Token} {yes no : Parser α} {a : α}
    (other : ¬BeginsWith token ts) (h : no.Gives ts a rest) :
    (do if ← eat token then yes else no : Parser α).Gives ts a rest :=
  (eat_gives_false other).bind h

theorem punctuation_gives (m : Punctuation) (p : Position) (ts : List Located) :
    (punctuation m).Gives (mark m p :: ts) () ts :=
  (eat_gives_true _ p ts).bind (.pure () ts)

theorem keyword_gives (k : Keyword) (p : Position) (ts : List Located) :
    (keyword k).Gives (word k p :: ts) p ts :=
  (pos_gives (word k p) ts).bind (.ite_eat_true p (.pure p ts))

theorem name_gives (x : String) (p : Position) (ts : List Located) :
    name.Gives (identifier x p :: ts) x ts := by
  intro last
  exact ⟨p, name_eq _⟩

theorem type?_gives_some (ty : Ty) (p : Position) (ts : List Located) :
    type?.Gives (word (.type ty) p :: ts) (some ty) ts := by
  intro last
  exact ⟨p, type?_eq _⟩

theorem type?_gives_none (other : ∀ ty, ¬BeginsWith (.keyword (.type ty)) ts) :
    type?.Gives ts none ts := by
  intro last
  refine ⟨last, ?_⟩
  rw [type?_eq]
  split
  · rename_i ty p us eq
    cases eq
    exact (other ty rfl).elim
  · rfl

theorem type_gives (ty : Ty) (p : Position) (ts : List Located) :
    type.Gives (word (.type ty) p :: ts) ty ts :=
  (type?_gives_some ty p ts).bind (.pure ty ts)

end Parser

end StackScript
