import StackScript.Proofs.Labels

/-!
# The table of labels

* `Program.pushing_eq_error_iff`: an instruction is refused exactly for a label that another one
  carries, and then nothing changes;
* `Program.pushing_eq_ok`: what an instruction that is not refused changes;
* `Program.Extends`: what was there stays where it is;
* `label_table_exact`: after any attempts, the table says what the instructions say.
-/

namespace StackScript

namespace Program

/-- What an attempt to append an instruction leaves of the program. -/
def attempt (p : Program) (i : Instr) : Program :=
  match pushing i p with
  | .ok _ q => q
  | .error _ q => q

/-- What is left after attempts to append these instructions from the left. -/
def attempts (p : Program) (instrs : List Instr) : Program := instrs.foldl attempt p

theorem LabelsMatch.resolve_iff {p : Program} (h : p.LabelsMatch) (label : String) (i : Nat) :
    p.resolve label = some i ↔ ∃ bound : i < p.code.size, p.code[i].label = some label := by
  rw [h label i]
  simp only [Array.getElem?_eq_some_iff]
  constructor
  · rintro ⟨_, ⟨bound, rfl⟩, carries⟩
    exact ⟨bound, carries⟩
  · rintro ⟨bound, carries⟩
    exact ⟨_, ⟨bound, rfl⟩, carries⟩

/-- No two instructions carry the same label: there is one index that the table can say. -/
theorem LabelsMatch.unique {p : Program} (h : p.LabelsMatch) {label : String} {i j : Nat}
    (hi : i < p.code.size) (hj : j < p.code.size) (first : p.code[i].label = some label)
    (second : p.code[j].label = some label) : i = j := by
  have to_first := (h.resolve_iff label i).2 ⟨hi, first⟩
  have to_second := (h.resolve_iff label j).2 ⟨hj, second⟩
  exact Option.some.inj (to_first.symm.trans to_second)

/-! ## One attempt -/

/-- An instruction is refused for a label that another one carries, and for nothing else. Then the
program is left as it was. -/
theorem pushing_eq_error_iff {p q : Program} (h : p.LabelsMatch) {instr : Instr}
    {e : CompileError} :
    pushing instr p = .error e q ↔ q = p ∧ ∃ label, instr.label = some label ∧
      e = .duplicateLabel label ∧ ∃ i ∈ p.code.toList, i.label = some label := by
  rw [pushing_eq]
  cases carried : instr.label with
  | none => simp
  | some label =>
    simp only [Option.some.injEq, exists_eq_left', ← mem_labelsOf]
    cases bound : p.resolve label with
    | none =>
      have free := h.resolve_eq_none_iff.1 bound
      simp [free]
    | some k =>
      obtain ⟨there, carries⟩ := (h.resolve_iff label k).1 bound
      have taken := mem_labelsOf.2 ⟨_, Array.getElem_mem_toList there, carries⟩
      simp [taken, and_comm, eq_comm]

/-- An instruction that is not refused becomes the last one, and its label, if it has one, is bound
to it. -/
theorem pushing_eq_ok {p q : Program} {instr : Instr} (h : pushing instr p = .ok () q) :
    q.code = p.code.push instr ∧ q.entry = p.entry ∧ ∀ label,
      q.resolve label = if instr.label = some label then some p.code.size else p.resolve label := by
  rw [pushing_eq] at h
  cases carried : instr.label with
  | none =>
    simp only [carried] at h
    cases h
    exact ⟨rfl, rfl, by simp [resolve]⟩
  | some label =>
    simp only [carried] at h
    split at h
    · cases h
    · cases h
      refine ⟨rfl, rfl, fun other => ?_⟩
      simp only [resolve, List.lookup_cons, Option.some.injEq]
      by_cases same : other = label
      · simp [same]
      · simp [Ne.symm same, beq_eq_false_iff_ne.2 same]

theorem LabelsMatch.attempt {p : Program} (h : p.LabelsMatch) (instr : Instr) :
    (p.attempt instr).LabelsMatch := by
  unfold Program.attempt
  cases tried : pushing instr p with
  | ok _ q => exact h.push (by rw [Program.push, tried])
  | error e q =>
    obtain ⟨rfl, -⟩ := (pushing_eq_error_iff h).1 tried
    exact h

/-! ## All attempts -/

theorem LabelsMatch.attempts {p : Program} (h : p.LabelsMatch) (instrs : List Instr) :
    (p.attempts instrs).LabelsMatch := by
  induction instrs generalizing p with
  | nil => exact h
  | cons instr instrs ih => exact ih (h.attempt instr)

/-- The instructions of `p` are the first ones of `q`, and what is bound in `p` is bound in `q`. -/
structure Extends (p q : Program) : Prop where
  code : p.code.toList <+: q.code.toList
  resolve : ∀ label i, p.resolve label = some i → q.resolve label = some i
  entry : q.entry = p.entry

namespace Extends

theorem refl (p : Program) : p.Extends p := ⟨List.prefix_rfl, fun _ _ h => h, rfl⟩

theorem trans {p q r : Program} (hpq : p.Extends q) (hqr : q.Extends r) : p.Extends r where
  code := hpq.code.trans hqr.code
  resolve label i h := hqr.resolve label i (hpq.resolve label i h)
  entry := hqr.entry.trans hpq.entry

end Extends

/-- A label that is bound is not new, so its binding is kept. -/
theorem LabelsMatch.extends_pushing {p q : Program} (hp : p.LabelsMatch) {instr : Instr}
    (h : pushing instr p = .ok () q) : p.Extends q := by
  obtain ⟨code, entry, resolve⟩ := pushing_eq_ok h
  refine ⟨?_, fun label i bound => ?_, entry⟩
  · rw [code, Array.toList_push]
    exact List.prefix_append _ _
  · rw [resolve, if_neg]
    · exact bound
    intro carried
    obtain ⟨there, carries⟩ := (hp.resolve_iff label i).1 bound
    have taken := Array.getElem_mem_toList there
    have refused := (pushing_eq_error_iff hp).2 ⟨rfl, label, carried, rfl, _, taken, carries⟩
    rw [h] at refused
    cases refused

theorem LabelsMatch.extends_attempt {p : Program} (hp : p.LabelsMatch) (instr : Instr) :
    p.Extends (p.attempt instr) := by
  unfold Program.attempt
  cases tried : pushing instr p with
  | ok _ q => exact hp.extends_pushing tried
  | error e q =>
    obtain ⟨rfl, -⟩ := (pushing_eq_error_iff hp).1 tried
    exact .refl _

theorem LabelsMatch.extends_attempts {p : Program} (hp : p.LabelsMatch) (instrs : List Instr) :
    p.Extends (p.attempts instrs) := by
  induction instrs generalizing p with
  | nil => exact .refl p
  | cons instr instrs ih => exact (hp.extends_attempt instr).trans (ih (hp.attempt instr))

end Program

/-- Whatever is appended to the empty program, and whatever of it is refused: a label is bound to an
index if and only if the instruction at this index carries it. What is there stays there. An
instruction is refused exactly for a label that is carried already; then nothing changes, and
otherwise nothing but that the instruction becomes the last one and its label is bound to it. -/
theorem label_table_exact (instrs : List Instr) :
    let p := Program.attempts .empty instrs
    (∀ label i, p.resolve label = some i ↔ ∃ h : i < p.code.size, p.code[i].label = some label) ∧
    (∀ label i j (hi : i < p.code.size) (hj : j < p.code.size),
      p.code[i].label = some label → p.code[j].label = some label → i = j) ∧
    (∀ later, p.Extends (Program.attempts .empty (instrs ++ later))) ∧
    ∀ instr q,
      (∀ e, Program.pushing instr p = .error e q ↔ q = p ∧ ∃ label, instr.label = some label ∧
        e = .duplicateLabel label ∧ ∃ i ∈ p.code.toList, i.label = some label) ∧
      (Program.pushing instr p = .ok () q → q.code = p.code.push instr ∧
        q.entry = p.entry ∧ ∀ label, q.resolve label =
          if instr.label = some label then some p.code.size else p.resolve label) := by
  intro p
  have mirrors : p.LabelsMatch := Program.labelsMatch_empty.attempts instrs
  refine ⟨mirrors.resolve_iff, fun label i j => mirrors.unique, fun later => ?_, fun instr q => ?_⟩
  · rw [Program.attempts, List.foldl_append]
    exact mirrors.extends_attempts later
  · exact ⟨fun e => Program.pushing_eq_error_iff mirrors, Program.pushing_eq_ok⟩

/-- A label that comes again is refused, and its instruction left out. -/
example :
    let p := Program.attempts .empty [.plain .openScope .none,
      .labeled "_if.1" (.marker .ifEnd) .none, .labeled "_if.1" (.marker .whileEnd) .none,
      .labeled "_if.2" .exit .none]
    p.code.size = 3 ∧ p.resolve "_if.1" = some 1 ∧ p.resolve "_if.2" = some 2 := by
  decide

end StackScript
