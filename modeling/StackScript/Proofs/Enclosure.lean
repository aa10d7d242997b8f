import StackScript.Proofs.Assignment
import StackScript.Proofs.Bindings
import StackScript.Proofs.Twins

/-!
# Final scopes seclude

* `Scopes.map_final_after`: the final flags that an operation leaves;
* `Scopes.Sealed`: scopes over a final one, and `Scopes.after_append`: an operation on them leaves
  what lies below alone, unless it reaches one scope down;
* `Scopes.outward`: what operations do to the scopes below, and `Scopes.Sealed.afterAll`, from that
  of one operation;
* `Scopes.AnswersAlike`: scopes in which the same is found and assigned;
* `final_scopes_seclude`: between the opening of a final scope and its closing.
-/

namespace StackScript

namespace Scopes

variable {ss ss' own below : Scopes} {name : String} {v : Value}

theorem afterAll_cons (ss : Scopes) (op : Operation) (ops : List Operation) :
    ss.afterAll (op :: ops) = (ss.after op).afterAll ops := rfl

theorem afterAll_append (ss : Scopes) (ops ops' : List Operation) :
    ss.afterAll (ops ++ ops') = (ss.afterAll ops).afterAll ops' := List.foldl_append

/-! ## Final flags -/

/-- The final flags of the scopes behind an operation, from those before it. -/
def Operation.flags : Operation → List Bool → List Bool
  | .opening final, flags => final :: flags
  | .closing, flags => flags.tail
  | _, flags => flags

theorem map_final_after (ss : Scopes) (op : Operation) :
    (ss.after op).map Scope.final = op.flags (ss.map Scope.final) := by
  unfold after
  cases op with
  | opening final => rfl
  | closing => cases ss <;> rfl
  | push v => cases ss <;> rfl
  | pop => rcases ss with _ | ⟨⟨_ | ⟨v, stack⟩, vars, final⟩, rest⟩ <;> rfl
  | pushBelow v => rcases ss with _ | ⟨s, _ | ⟨below, rest⟩⟩ <;> rfl
  | popBelow =>
    rcases ss with _ | ⟨s, _ | ⟨⟨_ | ⟨v, stack⟩, vars, final⟩, rest⟩⟩ <;> rfl
  | assign name v ty =>
    rw [perform]
    cases h : ss.assign name v ty with
    | ok ss' => exact map_final_assign h
    | error f => rfl
  | edit name change =>
    rw [perform]
    cases ss.items name with
    | ok items => exact map_final_setItems ss name _
    | error f => rfl

/-! ## Operations over a final scope -/

/-- The lowest of the scopes is final. -/
def Sealed (own : Scopes) : Prop := (own.map Scope.final).getLast? = some true

theorem Sealed.final (h : own.Sealed) : true ∈ own.map Scope.final := List.mem_of_getLast? h

theorem Sealed.ne_nil (h : own.Sealed) : own ≠ [] := by
  rintro rfl
  cases h

/-- The lowest scope stays, unless it is closed. -/
theorem Sealed.after (h : own.Sealed) {op : Operation} (kept : op = .closing → own.length ≠ 1) :
    (own.after op).Sealed := by
  unfold Sealed at h ⊢
  rw [map_final_after]
  cases op with
  | opening final =>
    rw [Operation.flags, List.getLast?_cons, h]
    rfl
  | closing =>
    rw [Operation.flags, List.getLast?_tail, List.length_map, if_neg (kept rfl)]
    exact h
  | _ => exact h

/-- An operation that reaches past the innermost scope, as one on the scopes around it. -/
def Operation.outward? : Operation → Option Operation
  | .pushBelow v => some (.push v)
  | .popBelow => some .pop
  | _ => none

/-- Over a final scope, an operation that does not reach down does the same whatever lies below. -/
theorem perform_append (h : own.Sealed) {op : Operation}
    (within : op.outward? = none ∨ own.length ≠ 1) (below : Scopes) :
    perform (own ++ below) op = (own.perform op).map (· ++ below) := by
  obtain ⟨s, own, rfl⟩ := List.exists_cons_of_ne_nil h.ne_nil
  cases op with
  | opening final => rfl
  | closing => rfl
  | push v => rfl
  | pop => obtain ⟨_ | ⟨v, stack⟩, vars, final⟩ := s <;> rfl
  | pushBelow v =>
    cases own with
    | nil => simp [Operation.outward?] at within
    | cons t own => rfl
  | popBelow =>
    cases own with
    | nil => simp [Operation.outward?] at within
    | cons t own => obtain ⟨_ | ⟨v, stack⟩, vars, final⟩ := t <;> rfl
  | assign name v ty => exact assign_append_eq h.final below name v ty
  | edit name change =>
    simp only [perform, items_append h.final, setItems_append_eq h.final]
    cases items (s :: own) name <;> rfl

/-- Under a single scope, an operation on the one around it is that operation without it. -/
theorem perform_outward (s : Scope) {op out : Operation} (h : op.outward? = some out)
    (below : Scopes) : perform (s :: below) op = (below.perform out).map (s :: ·) := by
  cases op with
  | pushBelow v =>
    cases h
    cases below <;> rfl
  | popBelow =>
    cases h
    rcases below with _ | ⟨⟨_ | ⟨v, stack⟩, vars, final⟩, rest⟩ <;> rfl
  | _ => cases h

/-- What an operation on `n` scopes is to those below them: from the lowest of them it may reach
down. -/
def Operation.reaching (op : Operation) (n : Nat) : List Operation :=
  if n = 1 then op.outward?.toList else []

theorem after_append (h : own.Sealed) (op : Operation) (below : Scopes) :
    (own ++ below).after op = own.after op ++ below.afterAll (op.reaching own.length) := by
  by_cases reaches : op.outward? = none ∨ own.length ≠ 1
  · have none : op.reaching own.length = [] := by
      obtain inward | more := reaches
      · simp [Operation.reaching, inward]
      · exact if_neg more
    simp only [after, perform_append h reaches, none]
    cases own.perform op <;> rfl
  · obtain ⟨outward, one⟩ := not_or.1 reaches
    obtain ⟨out, hout⟩ := Option.ne_none_iff_exists'.1 outward
    obtain ⟨s, rfl⟩ := List.length_eq_one_iff.1 (Decidable.not_not.1 one)
    have alone : after [s] op = [s] := by
      rw [after, perform_outward s hout]
      cases op <;> cases hout <;> rfl
    have reach : op.reaching 1 = [out] := by
      rw [Operation.reaching, if_pos rfl, hout, Option.toList_some]
    rw [alone, List.length_singleton, reach, afterAll_cons, List.singleton_append, after,
      perform_outward s hout, after]
    cases below.perform out <;> rfl

/-- How many scopes there are behind an operation on `n` scopes. -/
def Operation.depth : Operation → Nat → Nat
  | .opening _, n => n + 1
  | .closing, n => n - 1
  | _, n => n

theorem length_after (ss : Scopes) (op : Operation) :
    (ss.after op).length = op.depth ss.length := by
  rw [← List.length_map Scope.final, map_final_after]
  cases op <;> simp [Operation.flags, Operation.depth]

/-- What operations on `n` scopes are to those below them, one after the other. -/
def outward : Nat → List Operation → List Operation
  | _, [] => []
  | n, op :: ops => op.reaching n ++ outward (op.depth n) ops

/-- The same scopes, but for the stack of the topmost one. -/
structure Restacked (ss ss' : Scopes) : Prop where
  final : ss'.map Scope.final = ss.map Scope.final
  vars : ss'.map Scope.vars = ss.map Scope.vars
  others : ss'.tail = ss.tail

theorem Restacked.refl (ss : Scopes) : ss.Restacked ss := ⟨rfl, rfl, rfl⟩

theorem Restacked.trans {ss'' : Scopes} (h : ss.Restacked ss') (h' : ss'.Restacked ss'') :
    ss.Restacked ss'' :=
  ⟨h'.final.trans h.final, h'.vars.trans h.vars, h'.others.trans h.others⟩

theorem Restacked.length_eq (h : ss.Restacked ss') : ss'.length = ss.length := by
  simpa using congrArg List.length h.final

theorem restacked_reaching (op : Operation) (n : Nat) (ss : Scopes) :
    ss.Restacked (ss.afterAll (op.reaching n)) := by
  unfold Operation.reaching
  split
  · cases op with
    | pushBelow v => cases ss <;> exact ⟨rfl, rfl, rfl⟩
    | popBelow =>
      rcases ss with _ | ⟨⟨_ | ⟨v, stack⟩, vars, final⟩, rest⟩ <;> exact ⟨rfl, rfl, rfl⟩
    | _ => exact .refl ss
  · exact .refl ss

theorem restacked_outward (ops : List Operation) (n : Nat) (ss : Scopes) :
    ss.Restacked (ss.afterAll (outward n ops)) := by
  induction ops generalizing n ss with
  | nil => exact .refl ss
  | cons op ops ih =>
    rw [outward, afterAll_append]
    exact (restacked_reaching op n ss).trans (ih _ _)

/-- While the depth stays above that of the scopes below, operations on the scopes over them are the
same whatever these are, and do to them what reaches down. -/
theorem Sealed.afterAll (ops : List Operation) {own below : Scopes} (h : own.Sealed)
    (above : ∀ k, below.length < ((own ++ below).afterAll (ops.take k)).length) :
    (own.afterAll ops).Sealed ∧ ∀ others : Scopes, (own ++ others).afterAll ops =
      own.afterAll ops ++ others.afterAll (outward own.length ops) := by
  induction ops generalizing own below with
  | nil => exact ⟨h, fun _ => rfl⟩
  | cons op ops ih =>
    have kept := (restacked_reaching op own.length below).length_eq
    have first : op = .closing → own.length ≠ 1 := by
      rintro rfl one
      have deep : below.length < ((own ++ below).after .closing).length := above 1
      rw [length_after, List.length_append, one, Operation.depth] at deep
      omega
    have later : ∀ k, (below.afterAll (op.reaching own.length)).length <
        ((own.after op ++ below.afterAll (op.reaching own.length)).afterAll
          (ops.take k)).length := by
      intro k
      rw [kept, ← after_append h op below]
      exact above (k + 1)
    obtain ⟨sealed, same⟩ := ih (h.after first) later
    refine ⟨sealed, fun others => ?_⟩
    rw [length_after] at same
    rw [afterAll_cons, after_append h op others, same, afterAll_cons, outward, afterAll_append]

/-- Of both, the same is found under each name, and the same is assigned or fails to be. -/
structure AnswersAlike (ss ss' : Scopes) : Prop where
  get? : ∀ name, ss.get? name = ss'.get? name
  lookup : ∀ name, ss.lookup name = ss'.lookup name
  items : ∀ name, ss.items name = ss'.items name
  assign : ∀ name v ty, discard (ss.assign name v ty) = discard (ss'.assign name v ty)

theorem Sealed.answersAlike (h : own.Sealed) (below below' : Scopes) :
    AnswersAlike (own ++ below) (own ++ below') where
  get? name := by rw [get?_append h.final, get?_append h.final]
  lookup name := by rw [lookup_append h.final, lookup_append h.final]
  items name := by rw [items_append h.final, items_append h.final]
  assign name v ty := by
    rw [assign_append_eq h.final, assign_append_eq h.final]
    cases assign own name v ty <;> rfl

end Scopes

/-- Operations open a final scope over others, stay above these and close it again. The others are
left as they were, but for what was pushed and popped on the stack of the topmost one, while the new
scope was innermost. Questions change nothing, and at any time in between they have the same answers
whatever lies below. -/
theorem final_scopes_seclude (ss : Scopes) (ops : List Scopes.Operation)
    (above : ∀ k, ss.length < ((ss.opened true).afterAll (ops.take k)).length)
    (matching : ((ss.opened true).afterAll ops).length = ss.length + 1) :
    (∃ own ss', ((ss.opened true).afterAll ops).close = .ok (own, ss') ∧
      ss.afterAll (.opening true :: ops ++ [.closing]) = ss' ∧
      ss' = ss.afterAll (Scopes.outward 1 ops) ∧ ss.Restacked ss') ∧
    ∀ (others : Scopes) (k : Nat), Scopes.AnswersAlike ((ss.opened true).afterAll (ops.take k))
      ((others.opened true).afterAll (ops.take k)) := by
  have opened : Scopes.Sealed [.new true] := rfl
  constructor
  · obtain ⟨-, same⟩ := opened.afterAll ops above
    have run : (ss.opened true).afterAll ops =
        Scopes.afterAll [.new true] ops ++ ss.afterAll (Scopes.outward 1 ops) := same ss
    have restacked := Scopes.restacked_outward ops 1 ss
    rw [run, List.length_append, restacked.length_eq, Nat.add_comm, Nat.add_left_cancel_iff]
      at matching
    obtain ⟨own, alone⟩ := List.length_eq_one_iff.1 matching
    rw [alone] at run
    refine ⟨own, _, by rw [run]; rfl, ?_, rfl, restacked⟩
    change ((ss.opened true).afterAll (ops ++ [.closing])) = _
    rw [Scopes.afterAll_append, run]
    rfl
  · intro others k
    have before : ∀ j, ss.length < ((ss.opened true).afterAll ((ops.take k).take j)).length := by
      intro j
      rw [List.take_take]
      exact above _
    obtain ⟨sealed, same⟩ := opened.afterAll (ops.take k) before
    have run (others : Scopes) : (others.opened true).afterAll (ops.take k) =
        Scopes.afterAll [.new true] (ops.take k) ++
          others.afterAll (Scopes.outward 1 (ops.take k)) := same others
    rw [run, run]
    exact sealed.answersAlike _ _

/-- Scopes of a caller. -/
def callers : Scopes :=
  [⟨[.int 7], [("a", ⟨.int 10, .int⟩)], false⟩, ⟨[], [("b", ⟨.array [], .array⟩)], true⟩]

/-- What a callee may do that knows the names of its caller's variables. -/
def intruding : List Scopes.Operation :=
  [.assign "a" (.int 99) none, .assign "a" (.int 99) (some .int), .edit "b" fun _ => [.int 1],
    .opening false, .pushBelow (.int 1), .assign "a" (.int 98) none, .closing, .popBelow,
    .pushBelow (.int 8)]

theorem final_scopes_seclude_intruding :
    callers.afterAll (.opening true :: intruding ++ [.closing]) =
      [⟨[.int 8], [("a", ⟨.int 10, .int⟩)], false⟩, ⟨[], [("b", ⟨.array [], .array⟩)], true⟩] ∧
    Scopes.AnswersAlike ((callers.opened true).afterAll (intruding.take 6))
      ((Scopes.opened [] true).afterAll (intruding.take 6)) := by
  have short : ∀ k < 9, callers.length <
      ((callers.opened true).afterAll (intruding.take k)).length := by decide
  have above : ∀ k, callers.length <
      ((callers.opened true).afterAll (intruding.take k)).length := fun k => by
    by_cases within : k < 9
    · exact short k within
    · rw [List.take_of_length_le (Nat.le_of_not_lt within)]
      decide
  obtain ⟨⟨own, ss', -, run, outward, -⟩, alike⟩ :=
    final_scopes_seclude callers intruding above rfl
  refine ⟨run.trans (outward.trans ?_), alike [] 6⟩
  rfl

end StackScript
