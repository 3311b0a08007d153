import Mathlib.Data.Int.Notation
import MicroPython.CodeFragment

/-!
# Code of conditions

The compiler turns a condition into jumps without building its value: `not`
swaps the senses of the jumps, `and` and `or` become chains of them, and what
it takes for a known truth value needs no code at all. Other expressions are
compiled for their value, which a conditional jump then tests.
-/

namespace MicroPython.ConditionCode

open CodeFragment

/-- An expression. Operations stand for everything that is not one of the other
forms, such as names, calls, operators and lambdas. -/
inductive Expr where
  /-- `True` or `False`. -/
  | token (b : Bool)
  | smallInt (n : ℤ)
  /-- Another constant, which is true or not. -/
  | const (id : ℕ) (truth : Bool)
  /-- An operation on the values of its operands. -/
  | op (id : ℕ) (args : List Expr)
  /-- `PN_atom_paren` of a tuple. Parentheses around a single expression do not
  reach the compiler. -/
  | tuple (items : List Expr)
  /-- `PN_atom_paren` of a generator expression, with its outermost iterable. -/
  | genExpr (id : ℕ) (iterable : Expr)
  /-- `PN_or_test` -/
  | orTest (first : Expr) (rest : List Expr)
  /-- `PN_and_test` -/
  | andTest (first : Expr) (rest : List Expr)
  /-- `PN_not_test_2` -/
  | notTest (e : Expr)

/-- The instructions of conditions, with labels in place of offsets. -/
inductive Instr where
  /-- `LOAD_CONST_FALSE` and `LOAD_CONST_TRUE` -/
  | loadConstTok (b : Bool)
  /-- `LOAD_CONST_SMALL_INT` -/
  | loadConstSmallInt (n : ℤ)
  /-- `LOAD_CONST_NONE`, `LOAD_CONST_STRING` and `LOAD_CONST_OBJ` -/
  | loadConstObj (id : ℕ) (truth : Bool)
  /-- The instructions of an operation, after those of its operands. -/
  | op (id : ℕ) (nArgs : ℕ)
  /-- `BUILD_TUPLE` -/
  | buildTuple (nArgs : ℕ)
  | genExpr (id : ℕ)
  /-- `UNARY_OP_MULTI` of `MP_UNARY_OP_NOT` -/
  | unaryNot
  /-- `JUMP` -/
  | jump (label : ℕ)
  /-- `POP_JUMP_IF_TRUE` and `POP_JUMP_IF_FALSE` -/
  | popJumpIf (cond : Bool) (label : ℕ)
  /-- `JUMP_IF_TRUE_OR_POP` and `JUMP_IF_FALSE_OR_POP` -/
  | jumpIfOrPop (cond : Bool) (label : ℕ)
  /-- `mp_emit_bc_label_assign`, which takes no room in the bytecode. -/
  | label (label : ℕ)

/-- `mp_parse_node_is_const_false`. -/
def isConstFalse : Expr→Bool
  | .token b => !b
  | .smallInt n => decide (n=0)
  | _ => false

/-- `mp_parse_node_is_const_true`. -/
def isConstTrue : Expr→Bool
  | .token b => b
  | .smallInt n => decide (n≠0)
  | _ => false

mutual
/-- `compile_node` of an expression: the instructions and the next label. -/
def compileNode : Expr→ℕ→List Instr×ℕ
  | .token b,l => ([.loadConstTok b],l)
  | .smallInt n,l => ([.loadConstSmallInt n],l)
  | .const id truth,l => ([.loadConstObj id truth],l)
  | .op id args,l =>
    let c := compileNodes args l
    (c.1++[.op id args.length],c.2)
  | .tuple items,l =>
    -- `c_tuple`
    let c := compileNodes items l
    (c.1++[.buildTuple items.length],c.2)
  | .genExpr id iterable,l =>
    let c := compileNode iterable l
    (c.1++[.genExpr id],c.2)
  | .orTest e es,l =>
    -- `compile_or_and_test`, where `l` is the end label
    let c := compileNode e (l+1)
    let d := compileOrAndRest es true l c.2
    (c.1++d.1++[.label l],d.2)
  | .andTest e es,l =>
    let c := compileNode e (l+1)
    let d := compileOrAndRest es false l c.2
    (c.1++d.1++[.label l],d.2)
  | .notTest e,l =>
    let c := compileNode e l
    (c.1++[.unaryNot],c.2)

/-- The operands of an operation or the items of a tuple. -/
def compileNodes : List Expr→ℕ→List Instr×ℕ
  | [],l => ([],l)
  | e::es,l =>
    let c := compileNode e l
    let d := compileNodes es c.2
    (c.1++d.1,d.2)

/-- The operands of `compile_or_and_test` after the first, each behind the jump
that follows the operand before. -/
def compileOrAndRest : List Expr→Bool→ℕ→ℕ→List Instr×ℕ
  | [],_,_,l => ([],l)
  | e::es,cond,lEnd,l =>
    let c := compileNode e l
    let d := compileOrAndRest es cond lEnd c.2
    (.jumpIfOrPop cond lEnd::(c.1++d.1),d.2)
end

mutual
/-- `c_if_cond`: the instructions and the next label. -/
def cIfCond : Expr→Bool→ℕ→ℕ→List Instr×ℕ
  | .orTest e es,jumpIf,label,l =>
    if jumpIf=false then
      -- `and_or_logic1`, where `l` is `label2`
      let c := if es.isEmpty then cIfCond e jumpIf label (l+1) else cIfCond e (!jumpIf) l (l+1)
      let d := cIfCondLogic1 es jumpIf label l c.2
      (c.1++d.1++[.label l],d.2)
    else
      -- `and_or_logic2`
      let c := cIfCond e jumpIf label l
      let d := cIfCondLogic2 es jumpIf label c.2
      (c.1++d.1,d.2)
  | .andTest e es,jumpIf,label,l =>
    if jumpIf=false then
      let c := cIfCond e jumpIf label l
      let d := cIfCondLogic2 es jumpIf label c.2
      (c.1++d.1,d.2)
    else
      let c := if es.isEmpty then cIfCond e jumpIf label (l+1) else cIfCond e (!jumpIf) l (l+1)
      let d := cIfCondLogic1 es jumpIf label l c.2
      (c.1++d.1++[.label l],d.2)
  | .notTest e,jumpIf,label,l => cIfCond e (!jumpIf) label l
  | .tuple items,jumpIf,label,l =>
    if items.isEmpty then
      -- an empty tuple acts as false
      (if jumpIf=false then [.jump label] else [],l)
    else
      -- a tuple that is not empty acts as true
      (if jumpIf=true then [.jump label] else [],l)
  | .genExpr _ _,jumpIf,label,l =>
    -- `PN_testlist_comp` as well, so it counts as such a tuple
    (if jumpIf=true then [.jump label] else [],l)
  | e,jumpIf,label,l =>
    if isConstFalse e then (if jumpIf=false then [.jump label] else [],l)
    else if isConstTrue e then (if jumpIf=true then [.jump label] else [],l)
    else
      -- compile the value and jump on it
      let c := compileNode e l
      (c.1++[.popJumpIf jumpIf label],c.2)

/-- The operands of `and_or_logic1` after the first. The last one has the sense
and label of the whole. -/
def cIfCondLogic1 : List Expr→Bool→ℕ→ℕ→ℕ→List Instr×ℕ
  | [],_,_,_,l => ([],l)
  | e::es,jumpIf,label,label2,l =>
    let c := if es.isEmpty then cIfCond e jumpIf label l else cIfCond e (!jumpIf) label2 l
    let d := cIfCondLogic1 es jumpIf label label2 c.2
    (c.1++d.1,d.2)

/-- The operands of `and_or_logic2` after the first. -/
def cIfCondLogic2 : List Expr→Bool→ℕ→ℕ→List Instr×ℕ
  | [],_,_,l => ([],l)
  | e::es,jumpIf,label,l =>
    let c := cIfCond e jumpIf label l
    let d := cIfCondLogic2 es jumpIf label c.2
    (c.1++d.1,d.2)
end

/-- Values, where `V` has those of which the code at hand knows nothing. -/
inductive Obj (V : Type) where
  /-- `mp_const_false` and `mp_const_true` -/
  | bool (b : Bool)
  | smallInt (n : ℤ)
  | const (id : ℕ) (truth : Bool)
  | tuple (items : List (Obj V))
  | generator (v : V)
  | other (v : V)

/-- What operations and truth tests do, where `W` is the rest of the machine
and `X` has the exceptions. -/
structure Runtime (V W X : Type) where
  /-- An operation on the values of its operands. -/
  apply : ℕ→List (Obj V)→W→Except X (Obj V)×W
  /-- The creation of a generator from the iterable. -/
  makeGenerator : ℕ→Obj V→W→Except X V×W
  /-- The slots of the type of an object that `mp_obj_is_true` asks. -/
  test : V→W→Except X Bool×W
  /-- A second test in a row says the same and does nothing more, so that an
  object has a truth value. -/
  test_again : ∀ v w b w',test v w=(.ok b,w') → test v w'=(.ok b,w')

/-- The machine and the operations that it has executed so far. -/
structure Obs (W : Type) where
  /-- The rest of the machine. -/
  world : W
  /-- The operations in order. -/
  trace : List ℕ

/-- An evaluation gives a result or an exception. -/
abbrev Act (W X α : Type) := Obs W→Except X α×Obs W

variable {V W X α β : Type}

/-- One evaluation after another. -/
def Act.bind (a : Act W X α) (f : α→Act W X β) : Act W X β := fun o =>
  match a o with
  | (.ok x,o) => f x o
  | (.error e,o) => (.error e,o)

/-- No evaluation. -/
def Act.pure (x : α) : Act W X α := fun o => (.ok x,o)

/-- Leave the trace as it is. -/
def Act.silent (a : W→Except X α×W) : Act W X α := fun o =>
  ((a o.world).1,⟨(a o.world).2,o.trace⟩)

/-- Add an operation to the trace. -/
def Act.traced (id : ℕ) (a : W→Except X α×W) : Act W X α := fun o =>
  ((a o.world).1,⟨(a o.world).2,o.trace++[id]⟩)

section Runtime

variable (R : Runtime V W X)

/-- `mp_obj_is_true`. -/
def isTrue : Obj V→Act W X Bool
  | .bool b => .pure b
  | .smallInt n => .pure (decide (n≠0))
  | .const _ truth => .pure truth
  -- `mp_obj_len_maybe` of a tuple
  | .tuple items => .pure (!items.isEmpty)
  -- a generator has neither a boolean slot nor a length
  | .generator _ => .pure true
  | .other v => .silent (R.test v)

mutual
/-- The value of an expression, by the rules of Python. -/
def eval : Expr→Act W X (Obj V)
  | .token b => .pure (.bool b)
  | .smallInt n => .pure (.smallInt n)
  | .const id truth => .pure (.const id truth)
  | .op id args => (evalAll args).bind fun vs => .traced id (R.apply id vs)
  | .tuple items => (evalAll items).bind fun vs => .pure (.tuple vs)
  | .genExpr id iterable => (eval iterable).bind fun v =>
    (Act.traced id (R.makeGenerator id v)).bind fun g => .pure (.generator g)
  | .orTest e es => (eval e).bind (evalRest true es)
  | .andTest e es => (eval e).bind (evalRest false es)
  | .notTest e => (eval e).bind fun v => (isTrue R v).bind fun b => .pure (.bool !b)

/-- The values of expressions from left to right. -/
def evalAll : List Expr→Act W X (List (Obj V))
  | [] => .pure []
  | e::es => (eval e).bind fun v => (evalAll es).bind fun vs => .pure (v::vs)

/-- The operands of `or` and `and` after one with the value `v`, which is the
value of all when its truth value is `stop`. -/
def evalRest (stop : Bool) : List Expr→Obj V→Act W X (Obj V)
  | [],v => .pure v
  | e::es,v => (isTrue R v).bind fun b =>
    if b=stop then .pure v else (eval e).bind (evalRest stop es)
end

/-- The truth value of an expression: evaluate it, then test the value. -/
def tested (e : Expr) : Act W X Bool := (eval R e).bind (isTrue R)

/-- State of the virtual machine in the code of a condition. -/
structure State (V W : Type) where
  /-- The value stack, top first. -/
  stack : List (Obj V)
  /-- The rest. -/
  obs : Obs W

/-- The end of an instruction whose last action is `a`. The stack after an
exception is the matter of its handler. -/
def finish (o : Obs W) (a : Act W X α) (next : α→ℕ×List (Obj V)) : Outcome (State V W) X :=
  match a o with
  | (.ok x,o) => .next (next x).1 ⟨(next x).2,o⟩
  | (.error e,o) => .raise e ⟨[],o⟩

/-- An instruction, from `mp_execute_bytecode`. The compiler leaves enough
values on the stack; without them nothing happens here. -/
def step (target : ℕ→ℕ) : Instr→ℕ→State V W→Outcome (State V W) X
  | .loadConstTok b,ip,⟨st,o⟩ => .next ip ⟨.bool b::st,o⟩
  | .loadConstSmallInt n,ip,⟨st,o⟩ => .next ip ⟨.smallInt n::st,o⟩
  | .loadConstObj id truth,ip,⟨st,o⟩ => .next ip ⟨.const id truth::st,o⟩
  | .op id nArgs,ip,⟨st,o⟩ =>
    finish o (.traced id (R.apply id (st.take nArgs).reverse)) fun v => (ip,v::st.drop nArgs)
  | .buildTuple nArgs,ip,⟨st,o⟩ => .next ip ⟨.tuple (st.take nArgs).reverse::st.drop nArgs,o⟩
  | .genExpr id,ip,⟨v::st,o⟩ =>
    finish o (.traced id (R.makeGenerator id v)) fun g => (ip,.generator g::st)
  | .unaryNot,ip,⟨v::st,o⟩ => finish o (isTrue R v) fun b => (ip,.bool (!b)::st)
  | .jump l,_,s => .next (target l) s
  | .popJumpIf cond l,ip,⟨v::st,o⟩ =>
    finish o (isTrue R v) fun b => (if b=cond then target l else ip,st)
  | .jumpIfOrPop cond l,ip,⟨v::st,o⟩ =>
    finish o (isTrue R v) fun b => if b=cond then (target l,v::st) else (ip,st)
  | .label _,ip,s => .next ip s
  | _,ip,⟨[],o⟩ => .next ip ⟨[],o⟩

/-- The label that an instruction marks. -/
def Instr.marks : Instr→Option ℕ
  | .label l => some l
  | _ => none

/-- The instructions of conditions as a language. -/
def language : Language Instr (State V W) X := ⟨Instr.marks,step R⟩

end Runtime

end MicroPython.ConditionCode
