import StackScript.Instr
import StackScript.Syntax
import StackScript.Text.Characters

/-!
The code of each part of a tree. Expressions are postfix code, and each one that is evaluated as a
whole stands in a scope of its own: the value on top when that scope closes is what the next
instruction takes. Jumps go by labels, which are named for their construct and for the number of
instructions before it.
-/

namespace StackScript

/-- What a call has to know of a function of the program. -/
structure Signature where
  arity : Nat
  returns : Option Ty
  deriving DecidableEq, Repr

def Function.signature (f : Function) : Signature := ⟨f.params.length, f.returns⟩

abbrev Signatures := String → Option Signature

namespace Label

def function (name : String) : String := "_function." ++ name

/-- The label of a construct at the instruction with this index. -/
def indexed (kind : String) (index : Nat) : String :=
  "_" ++ kind ++ "." ++ Text.hex index

end Label

/-- The variable that holds the bound of a range loop. -/
def boundName (name : String) : String := name ++ "_end"

/-- Code in a scope of its own. -/
def inScope (pos : Position) (code : List Instr) : List Instr :=
  [.plain .openScope pos] ++ code ++ [.plain .closeScope pos]

/-- The call itself. Only functions of the program have a return type that is checked. -/
def callInstr (sigs : Signatures) (site : Position) (name : String) (argc : Nat) : Instr :=
  .plain (.call name argc ((sigs name).bind Signature.returns)) site

mutual

def Expr.code (sigs : Signatures) : Expr → List Instr
  | .binary pos op lhs rhs => lhs.code sigs ++ rhs.code sigs ++ [.plain (.apply op) pos]
  | .literal pos value => [.plain (.push value) pos]
  | .var pos name => [.plain (.load name) pos]
  | .call _ site name args =>
    argsCode sigs site args ++ [callInstr sigs site name args.length]
  | .index pos name index => inScope index.pos (index.code sigs) ++ [.plain (.loadItem name) pos]
  | .array pos items => [.plain .emptyArray pos] ++ itemsCode sigs items
  | .paren _ inner => inner.code sigs

/-- Each argument is evaluated and passed. -/
def argsCode (sigs : Signatures) (site : Position) : List Expr → List Instr
  | [] => []
  | e :: es => inScope e.pos (e.code sigs) ++ [.plain .passArg site] ++ argsCode sigs site es

/-- Each item is evaluated and appended. -/
def itemsCode (sigs : Signatures) : List Expr → List Instr
  | [] => []
  | e :: es => inScope e.pos (e.code sigs) ++ [.plain .append e.pos] ++ itemsCode sigs es

end

def Expr.scopedCode (sigs : Signatures) (e : Expr) : List Instr :=
  inScope e.pos (e.code sigs)

/-- The code of a call: its arguments, then the call. -/
def callCode (sigs : Signatures) (site : Position) (name : String) (args : List Expr) :
    List Instr :=
  argsCode sigs site args ++ [callInstr sigs site name args.length]

mutual

/-- The code of a statement behind `base` instructions. -/
def Stmt.code (sigs : Signatures) (base : Nat) : Stmt → List Instr
  | .cond pos test body =>
    let test := test.scopedCode sigs
    let finish := Label.indexed "if" (base + test.length)
    test ++ [.plain (.jumpUnless .if_ finish) pos]
      ++ bodyCode sigs (base + test.length + 1) body
      ++ [.labeled finish (.marker .ifEnd) pos]
  | .loop pos test body =>
    let test := test.scopedCode sigs
    let start := Label.indexed "while" base
    let finish := Label.indexed "while" (base + 1 + test.length)
    [.labeled start (.marker .whileStart) pos] ++ test ++ [.plain (.jumpUnless .while_ finish) pos]
      ++ bodyCode sigs (base + 1 + test.length + 1) body
      ++ [.plain (.jump start) pos, .labeled finish (.marker .whileEnd) pos]
  | .count pos init test step body =>
    let init := init.code sigs base
    let test := test.scopedCode sigs
    let start := Label.indexed "for" (base + init.length)
    let finish := Label.indexed "for" (base + init.length + 1 + test.length)
    let body := bodyCode sigs (base + init.length + 1 + test.length + 1) body
    init ++ [.labeled start (.marker .forStart) pos] ++ test
      ++ [.plain (.jumpUnless .for_ finish) pos] ++ body ++ step.code sigs (base + init.length + 1 + test.length + 1 + body.length)
      ++ [.plain (.jump start) pos, .labeled finish (.marker .forEnd) pos]
  | .range pos first last name body =>
    let bounds := first.scopedCode sigs ++ [.plain (.assign (some .int) name) pos]
      ++ last.scopedCode sigs ++ [.plain (.assign (some .int) (boundName name)) pos]
    let start := Label.indexed "forinc" (base + bounds.length)
    let finish := Label.indexed "forinc_e" (base + bounds.length)
    bounds ++ [.labeled start (.rangeTest name finish) pos]
      ++ bodyCode sigs (base + bounds.length + 1) body
      ++ [.plain (.rangeStep name start) pos, .labeled finish (.marker .rangeEnd) pos]
  | .ret pos none => [.plain .ret pos]
  | .ret pos (some value) => value.scopedCode sigs ++ [.plain .handBack pos, .plain .ret pos]
  | .assignItem pos name index value =>
    index.scopedCode sigs ++ [.plain .pushResult pos]
      ++ value.scopedCode sigs ++ [.plain (.assignItem name) pos]
  | .assign pos ty name value => value.scopedCode sigs ++ [.plain (.assign ty name) pos]
  | .call pos site name args => inScope pos (callCode sigs site name args)
  | .expr _ value => value.scopedCode sigs

/-- The code of statements behind `base` instructions. -/
def bodyCode (sigs : Signatures) (base : Nat) : List Stmt → List Instr
  | [] => []
  | s :: ss =>
    let head := s.code sigs base
    head ++ bodyCode sigs (base + head.length) ss

end

namespace Function

/-- The marker of a function and the binding of its parameters. -/
def prologue (f : Function) : List Instr :=
  .labeled (Label.function f.name) (.marker .function) f.pos
    :: f.params.map fun p => .plain (.bindArg p.ty p.name) p.pos

/-- A function returns at its end, unless it does so anyway. -/
def code (sigs : Signatures) (base : Nat) (f : Function) : List Instr :=
  let code := f.prologue ++ bodyCode sigs (base + f.prologue.length) f.body
  if code.getLast?.map (·.op) = some .ret then code else code ++ [.plain .ret f.pos]

end Function

end StackScript
