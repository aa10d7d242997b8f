import StackScript.Proofs.Steps
import StackScript.Proofs.Waiting

/-!
# The machine follows the evaluator

* `Machine.Sim`: a machine follows an evaluation, that is it reaches a state for the value, fails
  with the same fault, misses an operand at the same place, or is still running after as many steps
  as the evaluation has fuel;
* `Sim.bind`, `Sim.step`: it does so piece by piece and step by step;
* `State.Stands`: what a piece of code finds and leaves.
-/

namespace StackScript

namespace Machine

/-- From `s` the machine comes to fail in this way, and leaves this console. -/
def Fails (m : Machine) (s : State) (e : ExecutionError) (c : Console) : Prop :=
  ∃ k t u, m.Path k s t ∧ t.running = true ∧ m.step t = .error e u ∧ u.console = c

theorem Fails.path {m : Machine} {s t : State} {k : Nat} {e : ExecutionError} {c : Console}
    (hp : m.Path k s t) (h : m.Fails t e c) : m.Fails s e c := by
  obtain ⟨j, u, w, hj, hr, hw, hc⟩ := h
  exact ⟨k + j, u, w, hp.trans hj, hr, hw, hc⟩

/-- From `s` the machine follows an evaluation that ends like this. -/
def Sim {α : Type} (m : Machine) (n : Nat) (s : State) (Q : α → Console → State → Prop) :
    Outcome α → Prop
  | .done a c => ∃ k t, m.Path k s t ∧ Q a c t
  | .fault e c => m.Fails s e c
  | .lacks pos c => m.Fails s ⟨pos, .emptyStack⟩ c
  | .exhausted => ∃ k t, n ≤ k ∧ m.Path k s t

namespace Sim

variable {α β : Type} {m : Machine} {n : Nat} {s t : State}
  {Q : α → Console → State → Prop} {R : β → Console → State → Prop}

theorem pure {a : α} {c : Console} (h : Q a c s) : m.Sim n s Q ((pure a : Eval α) c) :=
  ⟨0, s, .refl s, h⟩

theorem exhausted (s : State) (Q : α → Console → State → Prop) (c : Console) :
    m.Sim 0 s Q ((Eval.exhausted : Eval α) c) :=
  ⟨0, s, Nat.le_refl 0, .refl s⟩

theorem mono {k : Nat} {x : Outcome α} (hk : k ≤ n) (h : m.Sim n s Q x) : m.Sim k s Q x := by
  cases x with
  | done => exact h
  | fault | lacks => exact h
  | exhausted =>
    obtain ⟨j, t, hj, path⟩ := h
    exact ⟨j, t, by omega, path⟩

/-- Steps behind the evaluation may change what it is followed to. -/
theorem after {Q' : α → Console → State → Prop} {x : Outcome α} (h : m.Sim n s Q x)
    (hQ : ∀ a c t, Q a c t → ∃ k u, m.Path k t u ∧ Q' a c u) : m.Sim n s Q' x := by
  cases x with
  | done a c =>
    obtain ⟨k, t, path, ht⟩ := h
    obtain ⟨j, u, path', hu⟩ := hQ a c t ht
    exact ⟨k + j, u, path.trans path', hu⟩
  | fault | lacks => exact h
  | exhausted => exact h

theorem imp {Q' : α → Console → State → Prop} {x : Outcome α} (h : m.Sim n s Q x)
    (hQ : ∀ a c t, Q a c t → Q' a c t) : m.Sim n s Q' x :=
  h.after fun a c t ht => ⟨0, t, .refl t, hQ a c t ht⟩

theorem path {j : Nat} {x : Outcome α} (hp : m.Path j s t) (h : m.Sim n t Q x) :
    m.Sim (j + n) s Q x := by
  cases x with
  | done a c =>
    obtain ⟨k, u, hk, hu⟩ := h
    exact ⟨_, u, hp.trans hk, hu⟩
  | fault | lacks => exact Fails.path hp h
  | exhausted =>
    obtain ⟨k, u, hn, hk⟩ := h
    exact ⟨_, u, by omega, hp.trans hk⟩

theorem bind {x : Eval α} {f : α → Eval β} {c : Console} (h : m.Sim n s Q (x c))
    (hf : ∀ a c t, Q a c t → m.Sim n t R (f a c)) : m.Sim n s R ((x >>= f) c) := by
  change m.Sim n s R (Eval.andThen x f c)
  unfold Eval.andThen
  cases hx : x c with
  | done a c' =>
    rw [hx] at h
    obtain ⟨k, t, hp, ht⟩ := h
    exact ((hf a c' t ht).path hp).mono (by omega)
  | fault | lacks | exhausted =>
    rw [hx] at h
    exact h

/-- What comes after an evaluation that moves the machine has less fuel. -/
theorem bind_moved {x : Eval α} {f : α → Eval β} {c : Console} (h : m.Sim (n + 1) s Q (x c))
    (moved : ∀ a c, ¬Q a c s) (hf : ∀ a c t, Q a c t → m.Sim n t R (f a c)) :
    m.Sim (n + 1) s R ((x >>= f) c) := by
  change m.Sim (n + 1) s R (Eval.andThen x f c)
  unfold Eval.andThen
  cases hx : x c with
  | done a c' =>
    rw [hx] at h
    obtain ⟨k, t, hp, ht⟩ := h
    cases k with
    | zero =>
      cases hp
      exact absurd ht (moved a c')
    | succ k => exact ((hf a c' t ht).path hp).mono (by omega)
  | fault | lacks | exhausted =>
    rw [hx] at h
    exact h

/-- A step counts against the fuel. -/
theorem step {x : Outcome α} (hr : s.running = true) (hs : m.step s = .ok () t)
    (h : m.Sim n t Q x) : m.Sim (n + 1) s Q x := by
  have := h.path (.step hr hs (.refl t))
  rwa [Nat.zero_add, Nat.add_comm] at this

/-- A step that the evaluation does not see. -/
theorem silent {P : State → Prop} {x : Outcome α} (hr : s.running = true)
    (hs : ∃ t, m.step s = .ok () t ∧ P t) (h : ∀ t, P t → m.Sim n t Q x) : m.Sim n s Q x := by
  obtain ⟨t, hs, ht⟩ := hs
  exact ((h t ht).step hr hs).mono (by omega)

theorem fault {pos : Position} {f : Fault} {c : Console} (hr : s.running = true)
    (hs : ∃ t, m.step s = .error ⟨pos, f⟩ t ∧ t.console = c) :
    m.Sim n s Q ((Eval.fault pos f : Eval α) c) := by
  obtain ⟨t, hs, hc⟩ := hs
  exact ⟨0, s, t, .refl s, hr, hs, hc⟩

/-- An operator that does not find its operands. -/
theorem lacks {pos : Position} {c : Console} (hr : s.running = true)
    (hs : ∃ t, m.step s = .error ⟨pos, .emptyStack⟩ t ∧ t.console = c) :
    m.Sim n s Q ((Eval.lacks pos : Eval α) c) := by
  obtain ⟨t, hs, hc⟩ := hs
  exact ⟨0, s, t, .refl s, hr, hs, hc⟩

theorem ofExcept {pos : Position} {x : Except Fault α} {c : Console} (hr : s.running = true)
    (ok : ∀ a, x = .ok a → ∃ t, m.step s = .ok () t ∧ Q a c t)
    (error : ∀ f, x = .error f → ∃ t, m.step s = .error ⟨pos, f⟩ t ∧ t.console = c) :
    m.Sim n s Q (Eval.ofExcept pos x c) := by
  cases x with
  | ok a => exact silent hr (ok a rfl) fun t ht => .pure ht
  | error f => exact .fault hr (error f rfl)

end Sim

end Machine

/-! ## Where pieces of code meet -/

/-- A running machine at `pc` with these calls, scopes, waiting arguments and console. -/
structure State.Stands (s : State) (pc : Nat) (calls : List Frame) (scopes : Scopes)
    (waiting : List Value) (c : Console) : Prop where
  running : s.running = true
  pc : s.pc = pc
  calls : s.calls = calls
  scopes : s.scopes = scopes
  waiting : s.waiting = waiting
  console : s.console = c

theorem State.Stands.at {s : State} {pc pc' : Nat} {calls : List Frame} {scopes : Scopes}
    {waiting : List Value} {c : Console} (h : s.Stands pc calls scopes waiting c) (eq : pc = pc') :
    s.Stands pc' calls scopes waiting c :=
  eq ▸ h

end StackScript
