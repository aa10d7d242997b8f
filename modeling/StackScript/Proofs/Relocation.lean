import Mathlib.Data.List.Forall2
import StackScript.Proofs.Refusals
import StackScript.Proofs.Lockstep

/-!
# Code that is moved

The code of a function behind other instructions, next to other functions: only the numbers of its
labels change.

* `Label.Moved`: a label and what becomes of it;
* `Op.Renamed`, `Instr.Moved`: instructions that are the same but for their labels;
* `Expr.code_congr`: expressions make the same code if their calls have the same signatures;
* `Function.code_moved`: so do functions, but for the numbers of their labels.
-/

namespace StackScript

/-! ## Labels and instructions -/

/-- The label of a construct behind `b` instructions, and that of the same construct when it is
moved behind `b'` of them. -/
inductive Label.Moved (b b' : Nat) : String → String → Prop
  | indexed {kind : String} (hk : kind ∈ ["if", "while", "for", "forinc", "forinc_e"]) {i j : Nat}
    (h : i + b' = j + b) : Moved b b' (Label.indexed kind i) (Label.indexed kind j)

/-- What an instruction carries when it is moved. -/
inductive Label.Carried (b b' : Nat) : Option String → Option String → Prop
  | none : Carried b b' none none
  | function (name : String) :
    Carried b b' (some (Label.function name)) (some (Label.function name))
  | moved {label label' : String} (h : Label.Moved b b' label label') :
    Carried b b' (some label) (some label')

/-- Labels of the same kind of construct. -/
def Label.Renumbered (label label' : String) : Prop :=
  ∃ kind i j, label = Label.indexed kind i ∧ label' = Label.indexed kind j

/-- Operations that are the same but for labels, which are in `L`. -/
inductive Op.Renamed (L : String → String → Prop) : Op → Op → Prop
  | same {op : Op} (stays : op.target? = none) : Renamed L op op
  | jumpUnless (guard : Guard) {label label' : String} (h : L label label') :
    Renamed L (.jumpUnless guard label) (.jumpUnless guard label')
  | jump {label label' : String} (h : L label label') : Renamed L (.jump label) (.jump label')
  | rangeTest (name : String) {label label' : String} (h : L label label') :
    Renamed L (.rangeTest name label) (.rangeTest name label')
  | rangeStep (name : String) {label label' : String} (h : L label label') :
    Renamed L (.rangeStep name label) (.rangeStep name label')

/-- The same instruction in code that is moved. -/
structure Instr.Moved (b b' : Nat) (i j : Instr) : Prop where
  pos : j.pos = i.pos
  op : i.op.Renamed (Label.Moved b b') j.op
  label : Label.Carried b b' i.label j.label

/-- The same code, moved. -/
abbrev CodeMoved (b b' : Nat) (code code' : List Instr) : Prop :=
  code.Forall₂ (Instr.Moved b b') code'

section

variable {b b' : Nat} {sigs sigs' : Signatures}

theorem Op.Renamed.imp {L L' : String → String → Prop} {op op' : Op} (h : op.Renamed L op')
    (hL : ∀ label label', op.target? = some label → L label label' → L' label label') :
    op.Renamed L' op' := by
  cases h with
  | same stays => exact .same stays
  | jumpUnless guard h => exact .jumpUnless guard (hL _ _ rfl h)
  | jump h => exact .jump (hL _ _ rfl h)
  | rangeTest name h => exact .rangeTest name (hL _ _ rfl h)
  | rangeStep name h => exact .rangeStep name (hL _ _ rfl h)

theorem Op.Renamed.mirrors {L : String → String → Prop} {op op' : Op} (h : op.Renamed L op') :
    op.Mirrors op' := by
  cases h with
  | same stays => exact .same stays
  | jumpUnless guard => exact .jumpUnless ..
  | jump => exact .jump ..
  | rangeTest name => exact .rangeTest ..
  | rangeStep name => exact .rangeStep ..

theorem Op.Renamed.ret_iff {L : String → String → Prop} {op op' : Op} (h : op.Renamed L op') :
    op' = .ret ↔ op = .ret := by
  cases h with
  | same => rfl
  | jumpUnless | jump | rangeTest | rangeStep => simp

theorem Op.Renamed.target {L : String → String → Prop} {op op' : Op} (h : op.Renamed L op')
    {label label' : String} (ht : op.target? = some label) (ht' : op'.target? = some label') :
    L label label' := by
  cases h with
  | same stays => cases stays.symm.trans ht
  | jumpUnless _ h | jump h | rangeTest _ h | rangeStep _ h =>
    cases ht
    cases ht'
    exact h

theorem Label.Moved.renumbered {label label' : String} (h : Label.Moved b b' label label') :
    Label.Renumbered label label' := by
  cases h with
  | indexed => exact ⟨_, _, _, rfl, rfl⟩

/-- Where a label is moved to is determined by it. -/
theorem Label.Moved.carried_eq {label label' : String} (h : Label.Moved b b' label label')
    {carried : Option String} (hc : Label.Carried b b' (some label) carried) :
    carried = some label' := by
  generalize ho : some label = o at hc
  cases h with
  | @indexed kind hk i j h =>
    cases hc with
    | none => cases ho
    | function name =>
      exact absurd (Option.some.inj ho) (Label.IsIndexed.ne_function ⟨kind, hk, i, rfl⟩ name)
    | moved h' =>
      cases h' with
      | @indexed kind' hk' i' j' h' =>
        obtain ⟨rfl, rfl⟩ := Label.indexed_injective hk hk' (Option.some.inj ho)
        obtain rfl : j = j' := by omega
        rfl

theorem Instr.Moved.plain {op : Op} (stays : op.target? = none) (pos : Position) :
    Instr.Moved b b' (.plain op pos) (.plain op pos) :=
  ⟨rfl, .same stays, .none⟩

theorem Instr.Moved.renamed {op op' : Op} (h : op.Renamed (Label.Moved b b') op')
    (pos : Position) : Instr.Moved b b' (.plain op pos) (.plain op' pos) :=
  ⟨rfl, h, .none⟩

theorem Instr.Moved.labeled {label label' : String} (h : Label.Moved b b' label label')
    {op op' : Op} (hop : op.Renamed (Label.Moved b b') op') (pos : Position) :
    Instr.Moved b b' (.labeled label op pos) (.labeled label' op' pos) :=
  ⟨rfl, hop, .moved h⟩

/-- Code of expressions has no labels. -/
theorem CodeMoved.of_inExpr {code : List Instr} (h : ∀ i ∈ code, i.InExpr sigs) :
    CodeMoved b b' code code := by
  refine List.forall₂_same.2 fun i hi => ?_
  obtain ⟨label, op⟩ := h i hi
  refine ⟨rfl, .same ?_, label ▸ .none⟩
  revert op
  cases i.op <;> simp [Op.InExpr, Op.target?]

/-! ## Expressions -/

/-- The calls have the same signatures. -/
def Signatures.Agree (sigs sigs' : Signatures) (calls : List Call) : Prop :=
  ∀ c ∈ calls, sigs' c.name = sigs c.name

theorem Signatures.agree_append {calls calls' : List Call} :
    sigs.Agree sigs' (calls ++ calls') ↔ sigs.Agree sigs' calls ∧ sigs.Agree sigs' calls' :=
  List.forall_mem_append

theorem callInstr_congr {name : String} {argc : Nat} (h : sigs.Agree sigs' [⟨name, argc⟩])
    (site : Position) : callInstr sigs' site name argc = callInstr sigs site name argc := by
  rw [callInstr, callInstr, h _ (List.mem_singleton.2 rfl)]

mutual

theorem Expr.code_congr : ∀ e : Expr, sigs.Agree sigs' e.calls → e.code sigs' = e.code sigs
  | .binary pos op lhs rhs, h => by
    simp only [Expr.calls, Signatures.agree_append] at h
    rw [Expr.code, Expr.code, lhs.code_congr h.1, rhs.code_congr h.2]
  | .literal .., _ => by rw [Expr.code, Expr.code]
  | .var .., _ => by rw [Expr.code, Expr.code]
  | .call _ site name args, h => by
    simp only [Expr.calls, Signatures.agree_append] at h
    rw [Expr.code, Expr.code, argsCode_congr args h.1, callInstr_congr h.2]
  | .index pos name index, h => by
    simp only [Expr.calls] at h
    rw [Expr.code, Expr.code, index.code_congr h]
  | .array pos items, h => by
    simp only [Expr.calls] at h
    rw [Expr.code, Expr.code, itemsCode_congr items h]
  | .paren _ inner, h => by
    simp only [Expr.calls] at h
    rw [Expr.code, Expr.code, inner.code_congr h]

theorem argsCode_congr {site : Position} :
    ∀ es : List Expr, sigs.Agree sigs' (callsOfAll es) →
      argsCode sigs' site es = argsCode sigs site es
  | [], _ => by rw [argsCode, argsCode]
  | e :: es, h => by
    simp only [callsOfAll, Signatures.agree_append] at h
    rw [argsCode, argsCode, e.code_congr h.1, argsCode_congr es h.2]

theorem itemsCode_congr :
    ∀ es : List Expr, sigs.Agree sigs' (callsOfAll es) → itemsCode sigs' es = itemsCode sigs es
  | [], _ => by rw [itemsCode, itemsCode]
  | e :: es, h => by
    simp only [callsOfAll, Signatures.agree_append] at h
    rw [itemsCode, itemsCode, e.code_congr h.1, itemsCode_congr es h.2]

end

theorem Expr.scopedCode_congr (e : Expr) (h : sigs.Agree sigs' e.calls) :
    e.scopedCode sigs' = e.scopedCode sigs := by
  rw [Expr.scopedCode, Expr.scopedCode, e.code_congr h]

theorem Expr.scopedCode_moved (e : Expr) (sigs : Signatures) :
    CodeMoved b b' (e.scopedCode sigs) (e.scopedCode sigs) :=
  .of_inExpr (e.scopedCode_inExpr sigs)

/-! ## Statements -/

mutual

theorem Stmt.code_moved : ∀ (s : Stmt) {base base' : Nat}, base + b' = base' + b →
    sigs.Agree sigs' s.calls → CodeMoved b b' (s.code sigs base) (s.code sigs' base')
  | .cond pos test body, base, base', hb, h => by
    simp only [Stmt.calls, Signatures.agree_append] at h
    have finish : Label.Moved b b' (Label.indexed "if" (base + (test.scopedCode sigs).length))
        (Label.indexed "if" (base' + (test.scopedCode sigs).length)) :=
      .indexed (by simp) (by omega)
    simp only [Stmt.code, test.scopedCode_congr h.1]
    refine List.rel_append (List.rel_append (List.rel_append (test.scopedCode_moved sigs) ?_) ?_) ?_
    · exact .cons (.renamed (.jumpUnless _ finish) pos) .nil
    · exact bodyCode_moved body (by omega) h.2
    · exact .cons (.labeled finish (.same rfl) pos) .nil
  | .loop pos test body, base, base', hb, h => by
    simp only [Stmt.calls, Signatures.agree_append] at h
    have start : Label.Moved b b' (Label.indexed "while" base) (Label.indexed "while" base') :=
      .indexed (by simp) hb
    have finish : Label.Moved b b'
        (Label.indexed "while" (base + 1 + (test.scopedCode sigs).length))
        (Label.indexed "while" (base' + 1 + (test.scopedCode sigs).length)) :=
      .indexed (by simp) (by omega)
    simp only [Stmt.code, test.scopedCode_congr h.1]
    refine List.rel_append (List.rel_append (List.rel_append (List.rel_append ?_
      (test.scopedCode_moved sigs)) ?_) ?_) ?_
    · exact .cons (.labeled start (.same rfl) pos) .nil
    · exact .cons (.renamed (.jumpUnless _ finish) pos) .nil
    · exact bodyCode_moved body (by omega) h.2
    · exact .cons (.renamed (.jump start) pos) (.cons (.labeled finish (.same rfl) pos) .nil)
  | .count pos init test step body, base, base', hb, h => by
    simp only [Stmt.calls, Signatures.agree_append] at h
    obtain ⟨⟨⟨hinit, htest⟩, hbody⟩, hstep⟩ := h
    have inits := init.code_moved hb hinit
    have lengths := inits.length_eq
    generalize hn : (init.code sigs base).length = n at lengths
    have bodies : CodeMoved b b'
        (bodyCode sigs (base + n + 1 + (test.scopedCode sigs).length + 1) body)
        (bodyCode sigs' (base' + n + 1 + (test.scopedCode sigs).length + 1) body) :=
      bodyCode_moved body (by omega) hbody
    have start : Label.Moved b b' (Label.indexed "for" (base + n))
        (Label.indexed "for" (base' + n)) := .indexed (by simp) (by omega)
    have finish : Label.Moved b b'
        (Label.indexed "for" (base + n + 1 + (test.scopedCode sigs).length))
        (Label.indexed "for" (base' + n + 1 + (test.scopedCode sigs).length)) :=
      .indexed (by simp) (by omega)
    simp only [Stmt.code, test.scopedCode_congr htest, hn, ← lengths, ← bodies.length_eq]
    refine List.rel_append (List.rel_append (List.rel_append (List.rel_append (List.rel_append
      (List.rel_append inits ?_) (test.scopedCode_moved sigs)) ?_) bodies) ?_) ?_
    · exact .cons (.labeled start (.same rfl) pos) .nil
    · exact .cons (.renamed (.jumpUnless _ finish) pos) .nil
    · exact step.code_moved (by omega) hstep
    · exact .cons (.renamed (.jump start) pos) (.cons (.labeled finish (.same rfl) pos) .nil)
  | .range pos first last name body, base, base', hb, h => by
    simp only [Stmt.calls, Signatures.agree_append] at h
    obtain ⟨⟨hfirst, hlast⟩, hbody⟩ := h
    have bounds : CodeMoved b b'
        (first.scopedCode sigs ++ [.plain (.assign (some .int) name) pos] ++ last.scopedCode sigs
          ++ [.plain (.assign (some .int) (boundName name)) pos])
        (first.scopedCode sigs ++ [.plain (.assign (some .int) name) pos] ++ last.scopedCode sigs
          ++ [.plain (.assign (some .int) (boundName name)) pos]) :=
      List.rel_append (List.rel_append (List.rel_append (first.scopedCode_moved sigs)
        (.cons (.plain rfl pos) .nil)) (last.scopedCode_moved sigs)) (.cons (.plain rfl pos) .nil)
    simp only [Stmt.code, first.scopedCode_congr hfirst, last.scopedCode_congr hlast]
    generalize first.scopedCode sigs ++ [.plain (.assign (some .int) name) pos]
      ++ last.scopedCode sigs ++ [.plain (.assign (some .int) (boundName name)) pos]
      = code at bounds ⊢
    have start : Label.Moved b b' (Label.indexed "forinc" (base + code.length))
        (Label.indexed "forinc" (base' + code.length)) := .indexed (by simp) (by omega)
    have finish : Label.Moved b b' (Label.indexed "forinc_e" (base + code.length))
        (Label.indexed "forinc_e" (base' + code.length)) := .indexed (by simp) (by omega)
    refine List.rel_append (List.rel_append (List.rel_append bounds ?_) ?_) ?_
    · exact .cons (.labeled start (.rangeTest name finish) pos) .nil
    · exact bodyCode_moved body (by omega) hbody
    · exact .cons (.renamed (.rangeStep name start) pos)
        (.cons (.labeled finish (.same rfl) pos) .nil)
  | .ret pos none, base, base', _, _ => by
    simp only [Stmt.code]
    exact .cons (.plain rfl pos) .nil
  | .ret pos (some value), base, base', _, h => by
    simp only [Stmt.calls] at h
    simp only [Stmt.code, value.scopedCode_congr h]
    refine List.rel_append (value.scopedCode_moved sigs) ?_
    exact .cons (.plain rfl pos) (.cons (.plain rfl pos) .nil)
  | .assignItem pos name index value, base, base', _, h => by
    simp only [Stmt.calls, Signatures.agree_append] at h
    simp only [Stmt.code, index.scopedCode_congr h.1, value.scopedCode_congr h.2]
    refine List.rel_append (List.rel_append (List.rel_append (index.scopedCode_moved sigs) ?_)
      (value.scopedCode_moved sigs)) ?_
    · exact .cons (.plain rfl pos) .nil
    · exact .cons (.plain rfl pos) .nil
  | .assign pos ty name value, base, base', _, h => by
    simp only [Stmt.calls] at h
    simp only [Stmt.code, value.scopedCode_congr h]
    exact List.rel_append (value.scopedCode_moved sigs) (.cons (.plain rfl pos) .nil)
  | .call pos site name args, base, base', _, h => by
    simp only [Stmt.calls, Signatures.agree_append] at h
    simp only [Stmt.code, callCode, argsCode_congr args h.1, callInstr_congr h.2]
    have inExpr : ∀ i ∈ inScope pos
        (argsCode sigs site args ++ [callInstr sigs site name args.length]), i.InExpr sigs := by
      simp only [inScope, List.forall_mem_append, List.forall_mem_singleton]
      exact ⟨⟨⟨rfl, trivial⟩, argsCode_inExpr sigs site args, ⟨rfl, rfl⟩⟩, ⟨rfl, trivial⟩⟩
    exact .of_inExpr inExpr
  | .expr _ value, base, base', _, h => by
    simp only [Stmt.calls] at h
    simp only [Stmt.code, value.scopedCode_congr h]
    exact value.scopedCode_moved sigs

theorem bodyCode_moved : ∀ (ss : List Stmt) {base base' : Nat}, base + b' = base' + b →
    sigs.Agree sigs' (callsOfBody ss) →
      CodeMoved b b' (bodyCode sigs base ss) (bodyCode sigs' base' ss)
  | [], base, base', _, _ => by
    simp only [bodyCode]
    exact .nil
  | s :: ss, base, base', hb, h => by
    simp only [callsOfBody, Signatures.agree_append] at h
    simp only [bodyCode]
    have head := s.code_moved hb h.1
    exact List.rel_append head (bodyCode_moved ss (by rw [head.length_eq]; omega) h.2)

end

/-! ## Functions -/

/-- Where one code has an instruction, the moved code has the same one. -/
theorem CodeMoved.getElem? {code code' : List Instr} (h : CodeMoved b b' code code') {k : Nat}
    {i : Instr} (hi : code[k]? = some i) : ∃ j, code'[k]? = some j ∧ i.Moved b b' j := by
  induction h generalizing k with
  | nil => cases hi
  | @cons i' j _ _ moved _ ih =>
    cases k with
    | zero =>
      cases hi
      exact ⟨j, rfl, moved⟩
    | succ k => exact ih hi

/-- Moved code ends with a return if the code does. -/
theorem CodeMoved.getLast_ret {code code' : List Instr} (h : CodeMoved b b' code code') :
    code'.getLast?.map (·.op) = some .ret ↔ code.getLast?.map (·.op) = some .ret := by
  induction h with
  | nil => rfl
  | @cons i j code code' moved rest ih =>
    cases rest with
    | nil =>
      simp only [List.getLast?_singleton, Option.map_some, Option.some.injEq]
      exact moved.op.ret_iff
    | cons => simpa only [List.getLast?_cons_cons] using ih

/-- A function makes the same code wherever it stands, but for the numbers of its labels. -/
theorem Function.code_moved (f : Function) (h : sigs.Agree sigs' (callsOfBody f.body)) :
    CodeMoved b b' (f.code sigs b) (f.code sigs' b') := by
  have prologue : CodeMoved b b' f.prologue f.prologue := by
    refine .cons ⟨rfl, .same rfl, .function f.name⟩ (List.forall₂_same.2 fun i hi => ?_)
    obtain ⟨param, _, rfl⟩ := List.mem_map.1 hi
    exact .plain rfl param.pos
  have whole := List.rel_append prologue
    (bodyCode_moved f.body (by omega : b + f.prologue.length + b' = b' + f.prologue.length + b) h)
  unfold Function.code
  simp only [CodeMoved.getLast_ret whole]
  split
  · exact whole
  · exact List.rel_append whole (.cons (.plain rfl f.pos) .nil)

end

end StackScript
