import Mathlib.Data.List.Forall2
import StackScript.Proofs.Reordering
import StackScript.Proofs.WellFormed

/-!
# Counting loops are loops

A counting loop does what its first statement and a loop do whose body ends with its step. Written
out like this, a program has the same code but for the names of markers, guards and labels.

* `Stmt.whileForm`, `Function.whileForm`: counting loops are written out, at every depth;
* `Instr.Recast`: instructions of the two programs, one for the other;
* `Function.code_whileForm`: the code of a function and that of its while form;
* `count_is_loop`: the two programs run in lockstep.
-/

namespace StackScript

mutual

/-- The statements that a statement is written out as. Only a counting loop becomes more than one:
the statement before it, and the loop at its place. -/
def Stmt.whileForm : Stmt → List Stmt
  | .cond pos test body => [.cond pos test (whileForms body)]
  | .loop pos test body => [.loop pos test (whileForms body)]
  | .count pos init test step body =>
    init.whileForm ++ [.loop pos test (whileForms body ++ step.whileForm)]
  | .range pos first last name body => [.range pos first last name (whileForms body)]
  | s => [s]

def whileForms : List Stmt → List Stmt
  | [] => []
  | s :: ss => s.whileForm ++ whileForms ss

end

def Function.whileForm (f : Function) : Function := { f with body := whileForms f.body }

def Stmt.IsCount : Stmt → Prop
  | .count .. => True
  | _ => False

/-! ## No counting loop is left -/

mutual

theorem Stmt.whileForm_not_count : ∀ s : Stmt, ∀ t ∈ statementsOf s.whileForm, ¬t.IsCount
  | .cond pos test body => by
    have inner := whileForms_not_count body
    simpa [Stmt.whileForm, statementsOf, Stmt.inside, Stmt.IsCount] using inner
  | .loop pos test body => by
    have inner := whileForms_not_count body
    simpa [Stmt.whileForm, statementsOf, Stmt.inside, Stmt.IsCount] using inner
  | .count pos init test step body => by
    have before := init.whileForm_not_count
    have inner := whileForms_not_count body
    have after := step.whileForm_not_count
    simp only [Stmt.whileForm, statementsOf_append, statementsOf, Stmt.inside, List.append_nil,
      List.forall_mem_append, List.forall_mem_cons]
    exact ⟨before, id, inner, after⟩
  | .range pos first last name body => by
    have inner := whileForms_not_count body
    simpa [Stmt.whileForm, statementsOf, Stmt.inside, Stmt.IsCount] using inner
  | .ret .. | .assignItem .. | .assign .. | .call .. | .expr .. => by
    simp [Stmt.whileForm, statementsOf, Stmt.inside, Stmt.IsCount]

theorem whileForms_not_count : ∀ ss : List Stmt, ∀ t ∈ statementsOf (whileForms ss), ¬t.IsCount
  | [] => by simp [whileForms, statementsOf]
  | s :: ss => by
    rw [whileForms, statementsOf_append, List.forall_mem_append]
    exact ⟨s.whileForm_not_count, whileForms_not_count ss⟩

end

/-! ## Calls -/

theorem callsOfBody_append (a b : List Stmt) :
    callsOfBody (a ++ b) = callsOfBody a ++ callsOfBody b := by
  induction a with
  | nil => rfl
  | cons s a ih => simp [callsOfBody, ih]

mutual

theorem Stmt.calls_whileForm : ∀ s : Stmt, callsOfBody s.whileForm = s.calls
  | .cond pos test body => by
    simp [Stmt.whileForm, callsOfBody, Stmt.calls, callsOfBody_whileForms body]
  | .loop pos test body => by
    simp [Stmt.whileForm, callsOfBody, Stmt.calls, callsOfBody_whileForms body]
  | .count pos init test step body => by
    simp [Stmt.whileForm, callsOfBody, callsOfBody_append, Stmt.calls, init.calls_whileForm,
      step.calls_whileForm, callsOfBody_whileForms body]
  | .range pos first last name body => by
    simp [Stmt.whileForm, callsOfBody, Stmt.calls, callsOfBody_whileForms body]
  | .ret .. | .assignItem .. | .assign .. | .call .. | .expr .. => by
    simp [Stmt.whileForm, callsOfBody]

theorem callsOfBody_whileForms : ∀ ss : List Stmt, callsOfBody (whileForms ss) = callsOfBody ss
  | [] => by rw [whileForms]
  | s :: ss => by
    rw [whileForms, callsOfBody_append, s.calls_whileForm, callsOfBody_whileForms ss, callsOfBody]

end

/-- The same functions are declared and called, in the same order. -/
theorem Accepted.whileForm {functions : List Function} {isHost : String → Bool}
    (h : Accepted functions isHost) : Accepted (functions.map Function.whileForm) isHost := by
  have names : (functions.map Function.whileForm).map (·.name) = functions.map (·.name) := by
    rw [List.map_map]
    rfl
  have calls : programCalls (functions.map Function.whileForm) = programCalls functions := by
    simp [programCalls, List.flatMap_map, Function.whileForm, callsOfBody_whileForms]
  constructor
  · rw [names]
    exact h.once
  · rw [names]
    exact h.entry
  · intro c hc e fails
    rw [calls] at hc
    cases fails with
    | arity mem named differ =>
      obtain ⟨f, hf, rfl⟩ := List.mem_map.1 mem
      exact h.calls c hc _ (.arity hf named differ)
    | unresolved none missing =>
      refine h.calls c hc _ (.unresolved (fun f hf => ?_) missing)
      exact none f.whileForm (List.mem_map_of_mem hf)

theorem signatures_whileForm (functions : List Function) :
    signatures (functions.map Function.whileForm) = signatures functions := by
  funext name
  simp only [signatures, List.find?_map, Option.map_map]
  rfl

/-! ## Labels and instructions -/

/-- A label and what it is in the while form. -/
inductive Label.Recast : String → String → Prop
  | count (index : Nat) : Recast (Label.indexed "for" index) (Label.indexed "while" index)
  | same {label : String} (other : ∀ index, label ≠ Label.indexed "for" index) :
    Recast label label

theorem Label.Recast.unique {label a b : String} (ha : Label.Recast label a)
    (hb : Label.Recast label b) : a = b := by
  generalize eq : label = label' at hb
  cases ha with
  | count index =>
    cases hb with
    | count index' =>
      obtain ⟨_, rfl⟩ := Label.indexed_injective (by simp) (by simp) eq
      rfl
    | same other => exact absurd eq.symm (other index)
  | same other =>
    cases hb with
    | count index => exact absurd eq (other index)
    | same => exact eq

theorem Label.Recast.indexed (kind : String) (hk : kind ∈ ["if", "while", "forinc", "forinc_e"])
    (index : Nat) : Label.Recast (Label.indexed kind index) (Label.indexed kind index) := by
  constructor
  intro other eq
  have known : kind ∈ ["if", "while", "for", "forinc", "forinc_e"] := by
    simp only [List.mem_cons, List.not_mem_nil, or_false] at hk ⊢
    tauto
  obtain ⟨rfl, _⟩ := Label.indexed_injective known (by simp) eq
  simp at hk

theorem Label.Recast.function (name : String) :
    Label.Recast (Label.function name) (Label.function name) := by
  constructor
  intro index eq
  exact Label.IsIndexed.ne_function ⟨"for", by simp, index, rfl⟩ name eq.symm

/-- An instruction and the one in its place in the while form. -/
structure Instr.Recast (i j : Instr) : Prop where
  pos : j.pos = i.pos
  op : i.op.Mirrors j.op
  target : Option.Rel Label.Recast i.op.target? j.op.target?
  label : Option.Rel Label.Recast i.label j.label

theorem Instr.Recast.rangeTest {target target' label label' : String}
    (ht : Label.Recast target target') (h : Label.Recast label label') (name : String)
    (pos : Position) :
    Instr.Recast (.labeled label (.rangeTest name target) pos)
      (.labeled label' (.rangeTest name target') pos) :=
  ⟨rfl, .rangeTest name target target', .some ht, .some h⟩

/-- Code and that of its while form, instruction by instruction. -/
def CodeRecast (code code' : List Instr) : Prop := code.Forall₂ Instr.Recast code'

/-- Instructions without a label that do not jump stay as they are. -/
theorem Instr.Recast.of_none {i : Instr} (stays : i.op.target? = none) (label : i.label = none) :
    i.Recast i :=
  ⟨rfl, .refl i.op, stays ▸ .none, label ▸ .none⟩

theorem Instr.Recast.jumps {op op' : Op} {label label' : String} (mirrors : op.Mirrors op')
    (ht : op.target? = some label) (ht' : op'.target? = some label')
    (h : Label.Recast label label') (pos : Position) :
    Instr.Recast (.plain op pos) (.plain op' pos) :=
  ⟨rfl, mirrors, ht ▸ ht' ▸ .some h, .none⟩

theorem Instr.Recast.marker {label label' : String} (h : Label.Recast label label')
    (k k' : Marker) (pos : Position) :
    Instr.Recast (.labeled label (.marker k) pos) (.labeled label' (.marker k') pos) :=
  ⟨rfl, .marker k k', .none, .some h⟩

namespace CodeRecast

variable {a b a' b' : List Instr}

theorem append (ha : CodeRecast a a') (hb : CodeRecast b b') : CodeRecast (a ++ b) (a' ++ b') :=
  List.rel_append ha hb

theorem one {i j : Instr} (h : i.Recast j) : CodeRecast [i] [j] := .cons h .nil

/-- Code without labels and jumps stays as it is. -/
theorem of_none (h : ∀ i ∈ a, i.op.target? = none ∧ i.label = none) : CodeRecast a a := by
  apply List.forall₂_same.2
  intro i hi
  exact .of_none (h i hi).1 (h i hi).2

theorem of_inExpr {sigs : Signatures} (h : ∀ i ∈ a, i.InExpr sigs) : CodeRecast a a := by
  apply of_none
  intro i hi
  obtain ⟨label, op⟩ := h i hi
  refine ⟨?_, label⟩
  revert op
  cases i.op <;> simp [Op.InExpr, Op.target?]

theorem scopedCode (sigs : Signatures) (e : Expr) :
    CodeRecast (e.scopedCode sigs) (e.scopedCode sigs) :=
  of_inExpr (e.scopedCode_inExpr sigs)

theorem still {op : Op} (stays : op.target? = none) (pos : Position) :
    CodeRecast [.plain op pos] [.plain op pos] :=
  one (.of_none stays rfl)

theorem length_eq (h : CodeRecast a a') : a.length = a'.length :=
  List.Forall₂.length_eq h

/-- The end of a loop: the jump back, and the marker behind it. -/
theorem loopEnd {start start' finish finish' : String} {op op' : Op} (mirrors : op.Mirrors op')
    (ht : op.target? = some start) (ht' : op'.target? = some start')
    (hs : Label.Recast start start') (hf : Label.Recast finish finish') (k k' : Marker)
    (pos : Position) :
    CodeRecast [.plain op pos, .labeled finish (.marker k) pos]
      [.plain op' pos, .labeled finish' (.marker k') pos] :=
  .cons (.jumps mirrors ht ht' hs pos) (one (.marker hf k k' pos))

end CodeRecast

/-! ## Statements -/

theorem bodyCode_append (sigs : Signatures) (base : Nat) (a b : List Stmt) :
    bodyCode sigs base (a ++ b) =
      bodyCode sigs base a ++ bodyCode sigs (base + (bodyCode sigs base a).length) b := by
  induction a generalizing base with
  | nil => rfl
  | cons s a ih =>
    simp only [List.cons_append, bodyCode, ih, List.append_assoc, List.length_append,
      Nat.add_assoc]

theorem bodyCode_singleton (sigs : Signatures) (base : Nat) (s : Stmt) :
    bodyCode sigs base [s] = s.code sigs base := by
  rw [bodyCode, bodyCode, List.append_nil]

mutual

/-- A statement makes the same code as what it is written out as, since the labels of both are named
for the same instructions. -/
theorem Stmt.code_whileForm (sigs : Signatures) :
    ∀ (s : Stmt) (base : Nat), CodeRecast (s.code sigs base) (bodyCode sigs base s.whileForm)
  | .cond pos test body, base => by
    have finish := Label.Recast.indexed "if" (by simp)
      (base + (test.scopedCode sigs).length)
    simp only [Stmt.whileForm, bodyCode_singleton, Stmt.code]
    exact (((CodeRecast.scopedCode sigs test).append
      (.one (.jumps (.refl _) rfl rfl finish pos))).append
      (bodyCode_whileForms sigs body _)).append (.one (.marker finish _ _ pos))
  | .loop pos test body, base => by
    have start := Label.Recast.indexed "while" (by simp) base
    have finish := Label.Recast.indexed "while" (by simp)
      (base + 1 + (test.scopedCode sigs).length)
    simp only [Stmt.whileForm, bodyCode_singleton, Stmt.code]
    exact ((((CodeRecast.one (.marker start _ _ pos)).append (.scopedCode sigs test)).append
      (.one (.jumps (.refl _) rfl rfl finish pos))).append
      (bodyCode_whileForms sigs body _)).append (.loopEnd (.refl _) rfl rfl start finish _ _ pos)
  | .count pos init test step body, base => by
    have before := init.code_whileForm sigs base
    simp only [Stmt.whileForm, bodyCode_append, bodyCode_singleton, ← before.length_eq, Stmt.code]
    generalize init.code sigs base = code at before ⊢
    have start := Label.Recast.count (base + code.length)
    have finish := Label.Recast.count (base + code.length + 1 + (test.scopedCode sigs).length)
    have round := bodyCode_whileForms sigs body
      (base + code.length + 1 + (test.scopedCode sigs).length + 1)
    simp only [← round.length_eq, List.append_assoc]
    exact before.append ((CodeRecast.one (.marker start _ _ pos)).append
      ((CodeRecast.scopedCode sigs test).append
        ((CodeRecast.one (.jumps (.jumpUnless ..) rfl rfl finish pos)).append
          (round.append ((step.code_whileForm sigs _).append
            (.loopEnd (.jump ..) rfl rfl start finish _ _ pos))))))
  | .range pos first last name body, base => by
    simp only [Stmt.whileForm, bodyCode_singleton, Stmt.code]
    have assigned (name : String) : CodeRecast [.plain (.assign (some .int) name) pos]
        [.plain (.assign (some .int) name) pos] := .still rfl pos
    have bounds := (((CodeRecast.scopedCode sigs first).append (assigned name)).append
      (.scopedCode sigs last)).append (assigned (boundName name))
    generalize first.scopedCode sigs ++ [.plain (.assign (some .int) name) pos]
      ++ last.scopedCode sigs ++ [.plain (.assign (some .int) (boundName name)) pos]
      = code at bounds ⊢
    have start := Label.Recast.indexed "forinc" (by simp) (base + code.length)
    have finish := Label.Recast.indexed "forinc_e" (by simp) (base + code.length)
    exact ((bounds.append (.one (.rangeTest finish start name pos))).append
      (bodyCode_whileForms sigs body _)).append (.loopEnd (.refl _) rfl rfl start finish _ _ pos)
  | .ret pos none, base => by
    simp only [Stmt.whileForm, bodyCode_singleton, Stmt.code]
    exact .still rfl pos
  | .ret pos (some value), base => by
    simp only [Stmt.whileForm, bodyCode_singleton, Stmt.code]
    exact (CodeRecast.scopedCode sigs value).append ((CodeRecast.still rfl pos).append
      (.still rfl pos))
  | .assignItem pos name index value, base => by
    simp only [Stmt.whileForm, bodyCode_singleton, Stmt.code]
    exact (((CodeRecast.scopedCode sigs index).append (.still rfl pos)).append
      (.scopedCode sigs value)).append (.still rfl pos)
  | .assign pos ty name value, base => by
    simp only [Stmt.whileForm, bodyCode_singleton, Stmt.code]
    exact (CodeRecast.scopedCode sigs value).append (.still rfl pos)
  | .call pos site name args, base => by
    simp only [Stmt.whileForm, bodyCode_singleton, Stmt.code]
    have call := (CodeRecast.of_inExpr (argsCode_inExpr sigs site args)).append
      (.one (.of_none (i := callInstr sigs site name args.length) rfl rfl))
    exact ((CodeRecast.still rfl pos).append call).append (.still rfl pos)
  | .expr pos value, base => by
    simp only [Stmt.whileForm, bodyCode_singleton, Stmt.code]
    exact .scopedCode sigs value

theorem bodyCode_whileForms (sigs : Signatures) :
    ∀ (ss : List Stmt) (base : Nat),
      CodeRecast (bodyCode sigs base ss) (bodyCode sigs base (whileForms ss))
  | [], base => by
    rw [whileForms]
    exact .nil
  | s :: ss, base => by
    have head := s.code_whileForm sigs base
    rw [whileForms, bodyCode_append, ← head.length_eq, bodyCode]
    exact head.append (bodyCode_whileForms sigs ss _)

end

/-! ## Functions -/

theorem Op.Mirrors.ret_iff {op op' : Op} (h : op.Mirrors op') : op' = .ret ↔ op = .ret := by
  cases h with
  | same => rfl
  | marker | jumpUnless | jump | rangeTest | rangeStep => simp

/-- The while form of code ends with a return if the code does. -/
theorem CodeRecast.getLast_ret {code code' : List Instr} (h : CodeRecast code code') :
    code'.getLast?.map (·.op) = some .ret ↔ code.getLast?.map (·.op) = some .ret := by
  induction h with
  | nil => rfl
  | @cons i j code code' head rest ih =>
    cases rest with
    | nil =>
      simp only [List.getLast?_singleton, Option.map_some, Option.some.injEq]
      exact head.op.ret_iff
    | cons => simpa only [List.getLast?_cons_cons] using ih

theorem Function.code_whileForm (sigs : Signatures) (base : Nat) (f : Function) :
    CodeRecast (f.code sigs base) (f.whileForm.code sigs base) := by
  have prologue : CodeRecast f.prologue f.prologue := by
    refine .cons ⟨rfl, .refl _, .none, .some (.function f.name)⟩ (CodeRecast.of_none ?_)
    intro i hi
    obtain ⟨param, _, rfl⟩ := List.mem_map.1 hi
    exact ⟨rfl, rfl⟩
  have whole := prologue.append (bodyCode_whileForms sigs f.body (base + f.prologue.length))
  have ends := whole.getLast_ret
  unfold Function.code
  change CodeRecast _ (if (f.prologue ++ bodyCode sigs (base + f.prologue.length)
    (whileForms f.body)).getLast?.map (·.op) = some .ret then _ else _)
  simp only [ends]
  split
  · exact whole
  · exact whole.append (.still rfl f.pos)

theorem Function.codeAll_whileForm (sigs : Signatures) (base : Nat) (fs : List Function) :
    CodeRecast (codeAll sigs base fs) (codeAll sigs base (fs.map whileForm)) := by
  induction fs generalizing base with
  | nil => exact .nil
  | cons f fs ih =>
    have head := f.code_whileForm sigs base
    rw [List.map_cons, codeAll, codeAll, ← head.length_eq]
    exact head.append (ih _)

/-! ## Programs -/

/-- The code of compiled programs jumps to labels that are there. -/
theorem Program.Ranges.resolves {p : Program} {start stop : Nat} {fs : List Function}
    (h : p.Ranges start fs stop) {pc : Nat} (hs : start ≤ pc) (hpc : pc < stop) {i : Instr}
    (hi : p.code[pc]? = some i) {label : String} (ht : i.op.target? = some label) :
    ∃ goal, p.resolve label = some goal := by
  induction h with
  | nil => omega
  | @cons start mid stop f fs range _ ih =>
    by_cases inside : pc < mid
    · obtain ⟨goal, _, _, _, bound, _⟩ := range.jumps pc i label hs inside hi ht
      exact ⟨goal, bound⟩
    · exact ih (by omega) hpc

theorem Compiled.resolves {functions : List Function} {isHost : String → Bool} {p : Program}
    (hp : Compiled functions isHost p) {pc : Nat} {i : Instr} (hi : p.code[pc]? = some i)
    {label : String} (ht : i.op.target? = some label) : ∃ goal, p.resolve label = some goal := by
  have ranges := hp.codeAt.1.ranges hp.labels
  rw [Nat.zero_add, ← hp.entry] at ranges
  obtain ⟨call, exit, size⟩ := hp.start_code
  obtain ⟨lt, _⟩ := Array.getElem?_eq_some_iff.1 hi
  by_cases inside : pc < p.entry
  · exact ranges.resolves (Nat.zero_le pc) inside hi ht
  -- What is left are the call of the entry point and the exit.
  obtain rfl | rfl : pc = p.entry ∨ pc = p.entry + 1 := by omega
  · cases call.symm.trans hi
    cases ht
  · cases exit.symm.trans hi
    cases ht

theorem CodeRecast.getElem? {code code' : List Instr} (h : CodeRecast code code') (k : Nat) :
    Option.Rel Instr.Recast code[k]? code'[k]? := by
  induction h generalizing k with
  | nil => exact .none
  | cons head _ ih =>
    cases k with
    | zero => exact .some head
    | succ k => exact ih k

namespace Compiled

variable {functions : List Function} {isHost : String → Bool} {p q : Program}
  (hp : Compiled functions isHost p) (hq : Compiled (functions.map Function.whileForm) isHost q)

include hp hq

theorem recast (pc : Nat) : Option.Rel Instr.Recast p.code[pc]? q.code[pc]? := by
  have start : CodeRecast (startCode (signatures functions)) (startCode (signatures functions)) :=
    .append (.one (.of_none rfl rfl)) (.still rfl .none)
  have whole := (Function.codeAll_whileForm (signatures functions) 0 functions).append start
  rw [hp.code, hq.code, signatures_whileForm, List.getElem?_toArray, List.getElem?_toArray]
  exact whole.getElem? pc

theorem entry_whileForm : q.entry = p.entry := by
  rw [hp.entry, hq.entry, signatures_whileForm]
  exact (Function.codeAll_whileForm (signatures functions) 0 functions).length_eq.symm

/-- A label and what it is in the while form are bound to the same place. -/
theorem resolve_recast {label label' : String} (h : Label.Recast label label') {pc : Nat}
    (bound : p.resolve label = some pc) : q.resolve label' = some pc := by
  obtain ⟨i, hi, carries⟩ := (hp.labels label pc).1 bound
  have here := hp.recast hq pc
  rw [hi] at here
  generalize hj : q.code[pc]? = found at here
  cases here with
  | @some _ j recast =>
    refine (hq.labels label' pc).2 ⟨j, hj, ?_⟩
    have label := recast.label
    rw [carries] at label
    generalize j.label = carried at label
    cases label with
    | some h' => rw [h.unique h']

theorem corresponds_whileForm : p.Corresponds q Eq where
  code := by
    rintro a _ rfl
    have here := hp.recast hq a
    generalize p.code[a]? = x at here ⊢
    generalize q.code[a]? = y at here ⊢
    cases here with
    | none => exact .inl ⟨rfl, rfl⟩
    | @some i j recast => exact .inr ⟨i, j, rfl, rfl, recast.pos, recast.op⟩
  next := by
    rintro a _ i rfl _ _ _
    rfl
  target := by
    rintro a _ i j label label' rfl hi hj ht ht'
    have here := hp.recast hq a
    rw [hi, hj] at here
    cases here with
    | some recast =>
      have targets := recast.target
      rw [ht, ht'] at targets
      cases targets with
      | some h =>
        obtain ⟨goal, bound⟩ := hp.resolves hi ht
        exact .inr ⟨goal, goal, bound, hp.resolve_recast hq h bound, rfl⟩
  function := by
    rintro a _ i name argc declared rfl hi _
    cases bound : p.resolve (Label.function name) with
    | some goal => exact .inr ⟨goal, goal, bound, hp.resolve_recast hq (.function name) bound, rfl⟩
    | none =>
      refine .inl ⟨bound, hq.resolve_function_eq_none ?_, rfl⟩
      intro f hf named
      obtain ⟨g, hg, rfl⟩ := List.mem_map.1 hf
      obtain ⟨base, _, resolves⟩ := hp.function_at hg
      change g.name = name at named
      rw [named, bound] at resolves
      cases resolves

end Compiled

/-- Writing out its counting loops changes nothing about a program. It is accepted again, its code
has the same length, the same entry and the same positions. To hosts to whose functions the programs
make no difference, the two runs go in lockstep on any input and with any budget: after every number
of steps they look the same, and they end in the same way. -/
theorem count_is_loop {functions : List Function} {host : Host} {p : Program}
    (h : compile functions host.contains = .ok p) :
    (∀ f ∈ functions.map Function.whileForm, ∀ s ∈ statementsOf f.body, ¬s.IsCount) ∧
    ∃ q, compile (functions.map Function.whileForm) host.contains = .ok q ∧
      q.code.size = p.code.size ∧ q.entry = p.entry ∧
      (∀ pc : Nat, q.code[pc]?.map Instr.pos = p.code[pc]?.map Instr.pos) ∧
      (host.AnswersAlike p q → ∀ (budget : Option Nat) (console : Console) (n : Nat),
        Paired State.Resembles (fun _ => State.Resembles)
          ((Machine.mk p host budget).run n ((Machine.mk p host budget).start console))
          ((Machine.mk q host budget).run n ((Machine.mk q host budget).start console)) ∧
        (Machine.mk q host budget).outcome? n console =
          (Machine.mk p host budget).outcome? n console) := by
  obtain ⟨q, compiled⟩ := (accepted_iff.1 ⟨p, h⟩).whileForm.exists_compile
  have hp := compiled_of_compile h
  have hq := compiled_of_compile compiled
  have entry := hp.entry_whileForm hq
  refine ⟨?_, q, compiled, ?_, entry, ?_, ?_⟩
  · intro f hf
    obtain ⟨g, _, rfl⟩ := List.mem_map.1 hf
    exact whileForms_not_count g.body
  · obtain ⟨_, _, size⟩ := hp.start_code
    obtain ⟨_, _, size'⟩ := hq.start_code
    rw [size, size', entry]
  · intro pc
    have here := hp.recast hq pc
    generalize p.code[pc]? = i at here ⊢
    generalize q.code[pc]? = j at here ⊢
    cases here with
    | none => rfl
    | some recast => exact congrArg some recast.pos
  · intro alike budget console n
    have l : Lockstep ⟨p, host, budget⟩ ⟨q, host, budget⟩ Eq (fun _ _ => True) :=
      ⟨rfl, alike, rfl, hp.feeds, hp.corresponds_whileForm hq, fun _ _ _ => trivial,
        fun _ _ _ => trivial⟩
    have start : InStep p Eq ((Machine.mk p host budget).start console)
        ((Machine.mk q host budget).start console) :=
      ⟨entry.symm, .nil, rfl, rfl, rfl, rfl, rfl, rfl, fun _ => rfl⟩
    have ran : Paired State.Resembles (fun _ => State.Resembles)
        ((Machine.mk p host budget).run n ((Machine.mk p host budget).start console))
        ((Machine.mk q host budget).run n ((Machine.mk q host budget).start console)) := by
      rw [Machine.run_eq, if_pos (by rfl), Machine.run_eq, if_pos (by rfl)]
      exact (l.runFor n (l.follows start)).reported.imp (fun _ _ h => h.abreast.resembles)
        fun _ _ _ h => h.abreast.resembles
    exact ⟨ran, outcome?_eq_of_paired (fun _ _ _ h => h) ran⟩

/-- Counts in a counting loop, until a division fails in the step of the inner one. -/
def tallies : List Function :=
  [⟨⟨1, 1⟩, "main", [], none,
    [.count ⟨2, 1⟩ (.assign ⟨2, 5⟩ (some .int) "i" (.literal ⟨2, 13⟩ (.int 1)))
      (.binary ⟨2, 18⟩ .ge (.var ⟨2, 16⟩ "i") (.literal ⟨2, 21⟩ (.int 0)))
      (.assign ⟨2, 24⟩ none "i"
        (.binary ⟨2, 30⟩ .sub (.var ⟨2, 28⟩ "i") (.literal ⟨2, 32⟩ (.int 1))))
      [.count ⟨3, 3⟩ (.assign ⟨3, 7⟩ (some .int) "j" (.literal ⟨3, 15⟩ (.int 0)))
        (.binary ⟨3, 20⟩ .lt (.var ⟨3, 18⟩ "j") (.literal ⟨3, 22⟩ (.int 2)))
        (.assign ⟨3, 25⟩ none "j" (.binary ⟨3, 31⟩ .add (.var ⟨3, 29⟩ "j")
          (.binary ⟨3, 35⟩ .div (.literal ⟨3, 33⟩ (.int 2)) (.var ⟨3, 37⟩ "i"))))
        [.call ⟨4, 5⟩ ⟨4, 5⟩ "out" [.var ⟨4, 9⟩ "i", .var ⟨4, 12⟩ "j"]]]]⟩]

theorem count_is_loop_tallies :
    ∃ p q console, compile tallies Host.standard.contains = .ok p ∧
      compile (tallies.map Function.whileForm) Host.standard.contains = .ok q ∧
      p.resolve "_for.5" = some 5 ∧ q.resolve "_while.5" = some 5 ∧
      q.code.size = p.code.size ∧ q.entry = p.entry ∧
      (Machine.mk p .standard none).outcome? 95 (.ofInput [] none) =
        some (.error ⟨⟨3, 35⟩, .divisionByZero⟩ console) ∧
      (Machine.mk q .standard none).outcome? 95 (.ofInput [] none) =
        some (.error ⟨⟨3, 35⟩, .divisionByZero⟩ console) := by
  obtain ⟨p, console, hp, label, run⟩ : ∃ p console,
      compile tallies Host.standard.contains = .ok p ∧ p.resolve "_for.5" = some 5 ∧
      (Machine.mk p .standard none).outcome? 95 (.ofInput [] none) =
        some (.error ⟨⟨3, 35⟩, .divisionByZero⟩ console) := ⟨_, _, rfl, rfl, rfl⟩
  obtain ⟨q, hq, label'⟩ : ∃ q,
      compile (tallies.map Function.whileForm) Host.standard.contains = .ok q ∧
      q.resolve "_while.5" = some 5 := ⟨_, rfl, rfl⟩
  obtain ⟨_, q', hq', size, entry, _, lockstep⟩ := count_is_loop hp
  obtain rfl : q = q' := Except.ok.inj (hq.symm.trans hq')
  have alike := Host.standard_answersAlike p q
  exact ⟨p, q, console, hp, hq, label, label', size, entry, run,
    (lockstep alike none _ 95).2.trans run⟩

end StackScript
