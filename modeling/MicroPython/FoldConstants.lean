import Mathlib.Data.Int.Bitwise
import Mathlib.Data.List.Basic
import Mathlib.Control.Lawful

/-!
# Constant folding in the parser

When the parser has matched a rule it calls `push_result_rule`, which drops
needless parentheses and tries to fold the operands on the result stack into
one constant before it makes a node. Trees are compared through the code that
the compiler generates for them. Long integers are taken as exact, and the
exhaustion of memory is left out.
-/

namespace MicroPython.FoldConstants

open Nat List

/-- An int object, by representation. -/
inductive IntObj where
  | small (n : ℤ)
  /-- A long int; its value may be one that would fit a small int. -/
  | mpz (n : ℤ)
  deriving DecidableEq

/-- The number an int object stands for. -/
def IntObj.val : IntObj→ℤ
  | .small n => n
  | .mpz n => n

/-- `MP_SMALL_INT_MIN` for a machine word of the given size. -/
def smallIntMin (wordBits : ℕ) : ℤ := -2^(wordBits-2)

/-- `MP_SMALL_INT_MAX`. -/
def smallIntMax (wordBits : ℕ) : ℤ := 2^(wordBits-2)-1

/-- `mp_obj_new_int`: a small int where the value fits. -/
def mpObjNewInt (wordBits : ℕ) (value : ℤ) : IntObj :=
  if smallIntMin wordBits≤value ∧ value ≤ smallIntMax wordBits then .small value else .mpz value

/-- `mp_obj_int_get_checked`: the value as a machine word. A long int passes
if its magnitude has no more bits than a word without its sign. -/
def mpObjIntGetChecked (wordBits : ℕ) : IntObj→Option ℤ
  | .small n => some n
  | .mpz n => if n.natAbs<2^(wordBits-1) then some n else none

/-- `mp_obj_int_sign`. -/
def mpObjIntSign (arg : IntObj) : ℤ := arg.val.sign

/-- The binary operators of the folded rules, and true division. -/
inductive BinaryOp where
  /-- `|` -/
  | or
  /-- `^` -/
  | xor
  /-- `&` -/
  | and
  /-- `<<` -/
  | lshift
  /-- `>>` -/
  | rshift
  /-- `+` -/
  | add
  /-- `-` -/
  | subtract
  /-- `*` -/
  | multiply
  /-- `//` -/
  | floorDivide
  /-- `/` -/
  | trueDivide
  /-- `%` -/
  | modulo
  deriving DecidableEq

/-- Exceptions that integer operators raise. -/
inductive IntError where
  /-- ValueError "negative shift count". -/
  | negativeShift
  /-- ZeroDivisionError "division by zero". -/
  | zeroDivision
  /-- OverflowError "overflow converting long int to machine word". -/
  | overflow
  /-- TypeError for an operator that the int type does not have. -/
  | unsupported
  deriving DecidableEq

/-- `mp_obj_int_binary_op`, which always makes a long int. -/
def mpObjIntBinaryOp (wordBits : ℕ) (op : BinaryOp) (lhs rhs : IntObj) : Except IntError IntObj :=
  match op with
  | .or => .ok (.mpz (Int.lor lhs.val rhs.val))
  | .xor => .ok (.mpz (Int.xor lhs.val rhs.val))
  | .and => .ok (.mpz (Int.land lhs.val rhs.val))
  | .add => .ok (.mpz (lhs.val+rhs.val))
  | .subtract => .ok (.mpz (lhs.val-rhs.val))
  | .multiply => .ok (.mpz (lhs.val*rhs.val))
  | .floorDivide => if rhs.val=0 then .error .zeroDivision else .ok (.mpz (lhs.val.fdiv rhs.val))
  | .modulo => if rhs.val=0 then .error .zeroDivision else .ok (.mpz (lhs.val.fmod rhs.val))
  | .trueDivide => .error .unsupported
  | .lshift => match mpObjIntGetChecked wordBits rhs with
    | none => .error .overflow
    | some irhs => if irhs<0 then .error .negativeShift else .ok (.mpz (lhs.val*2^irhs.toNat))
  | .rshift => match mpObjIntGetChecked wordBits rhs with
    | none => .error .overflow
    | some irhs => if irhs<0 then .error .negativeShift else .ok (.mpz (lhs.val/2^irhs.toNat))

/-- `mp_binary_op` on two ints: small ints where the result is small, and
otherwise the operation of the int type. -/
def mpBinaryOp (wordBits : ℕ) (op : BinaryOp) (lhs rhs : IntObj) : Except IntError IntObj :=
  match lhs,rhs with
  | .small l,.small r =>
    match op with
    | .or => .ok (mpObjNewInt wordBits (Int.lor l r))
    | .xor => .ok (mpObjNewInt wordBits (Int.xor l r))
    | .and => .ok (mpObjNewInt wordBits (Int.land l r))
    | .add => .ok (mpObjNewInt wordBits (l+r))
    | .subtract => .ok (mpObjNewInt wordBits (l-r))
    | .multiply => .ok (mpObjNewInt wordBits (l*r))
    | .floorDivide =>
      if r=0 then .error .zeroDivision else .ok (mpObjNewInt wordBits (l.fdiv r))
    | .modulo => if r=0 then .error .zeroDivision else .ok (mpObjNewInt wordBits (l.fmod r))
    | .trueDivide => .error .unsupported
    | .lshift =>
      if r<0 then .error .negativeShift
      else if wordBits ≤ r ∨ smallIntMax wordBits/2^r.toNat<l ∨ l < smallIntMin wordBits/2^r.toNat then
        mpObjIntBinaryOp wordBits .lshift (.mpz l) rhs
      else .ok (mpObjNewInt wordBits (l*2^r.toNat))
    | .rshift =>
      if r<0 then .error .negativeShift
      else .ok (mpObjNewInt wordBits (l/2^(if wordBits ≤ r then wordBits-1 else r.toNat)))
  | _,_ => mpObjIntBinaryOp wordBits op lhs rhs

/-- The unary operators of a factor. -/
inductive UnaryOp where
  /-- `+` -/
  | positive
  /-- `-` -/
  | negative
  /-- `~` -/
  | invert
  deriving DecidableEq

/-- `mp_unary_op` on an int. -/
def mpUnaryOp (wordBits : ℕ) : UnaryOp→IntObj→IntObj
  | .positive,arg => arg
  | .negative,.small n =>
    if n=smallIntMin wordBits then mpObjNewInt wordBits (-n) else .small (-n)
  | .invert,.small n => .small (-n-1)
  | .negative,.mpz n => .mpz (-n)
  | .invert,.mpz n => .mpz (-n-1)

/-- The grammar rules concerned. -/
inductive Rule where
  /-- `or_test` -/
  | orTest
  /-- `and_test` -/
  | andTest
  /-- `not_test_2` -/
  | notTest2
  /-- `expr`, the rule of `|` -/
  | expr
  /-- `xor_expr` -/
  | xorExpr
  /-- `and_expr` -/
  | andExpr
  /-- `shift_expr` -/
  | shiftExpr
  /-- `arith_expr` -/
  | arithExpr
  /-- `term` -/
  | term
  /-- `factor_2` -/
  | factor2
  /-- `atom_paren` -/
  | atomParen
  deriving DecidableEq

/-- Tokens that become leaves of the tree. -/
inductive Token where
  /-- `True` -/
  | kwTrue
  /-- `False` -/
  | kwFalse
  /-- `+` -/
  | opPlus
  /-- `-` -/
  | opMinus
  /-- `*` -/
  | opStar
  /-- `/` -/
  | opSlash
  /-- `//` -/
  | opDblSlash
  /-- `%` -/
  | opPercent
  /-- `<<` -/
  | opDblLess
  /-- `>>` -/
  | opDblMore
  /-- `~` -/
  | opTilde
  deriving DecidableEq

/-- Parse nodes. -/
inductive Node where
  | smallInt (n : ℤ)
  /-- A `const_object` node with a long int. -/
  | constObject (n : ℤ)
  | token (tok : Token)
  /-- Any other tree: a name, a call, a tuple, a comparison and so on. -/
  | operand (i : ℕ)
  | struct (rule : Rule) (nodes : List Node)

/-- The leaf for an int object. -/
def newIntNode : IntObj→Node
  | .small n => .smallInt n
  | .mpz n => .constObject n

/-- `mp_parse_node_is_const_false`. -/
def isConstFalse : Node→Bool
  | .token .kwFalse => true
  | .smallInt n => n=0
  | _ => false

/-- `mp_parse_node_is_const_true`. -/
def isConstTrue : Node→Bool
  | .token .kwTrue => true
  | .smallInt n => n≠0
  | _ => false

/-- `mp_parse_node_get_int_maybe`. -/
def getIntMaybe : Node→Option IntObj
  | .smallInt n => some (.small n)
  | .constObject n => some (.mpz n)
  | _ => none

/-- `peek_result`: the node at a distance from the top of the result stack,
which is the head of the list. The parser asserts that there is one. -/
def peekResult (stack : List Node) (pos : ℕ) : Node := stack.getD pos (.token .kwFalse)

/-- The loop over the operands of `or` and `and`, with `i` of them left. The
node that is kept is copied to the place `copyTo` below the top. -/
def foldLogicalLoop (rule : Rule) : ℕ→ℕ→List Node→List Node×ℕ
  | 0,copyTo,stack => (stack,copyTo)
  | i+1,copyTo,stack =>
    let pn := peekResult stack i
    let stack := stack.set (copyTo-1) pn
    if i=0 then (stack,copyTo)
    else if rule=.orTest then
      if isConstTrue pn=true then (stack,copyTo)
      else if isConstFalse pn=false then foldLogicalLoop rule i (copyTo-1) stack
      else foldLogicalLoop rule i copyTo stack
    else
      if isConstFalse pn=true then (stack,copyTo)
      else if isConstTrue pn=false then foldLogicalLoop rule i (copyTo-1) stack
      else foldLogicalLoop rule i copyTo stack

/-- `fold_logical_constants`: the stack, the new number of arguments, and
whether nothing is left to be done. -/
def foldLogicalConstants (rule : Rule) (numArgs : ℕ) (stack : List Node) : List Node×ℕ×Bool :=
  if rule=.orTest ∨ rule=.andTest then
    let (stack,copyTo) := foldLogicalLoop rule numArgs numArgs stack
    let copyTo := copyTo-1
    (stack.drop copyTo,numArgs-copyTo,numArgs-copyTo=1)
  else if rule=.notTest2 then
    let pn := peekResult stack 0
    if isConstFalse pn=true then (.token .kwTrue::stack.drop 1,numArgs,true)
    else if isConstTrue pn=true then (.token .kwFalse::stack.drop 1,numArgs,true)
    else (stack,numArgs,false)
  else (stack,numArgs,false)

/-- The loop over the operands of `|`, `^` and `&`, with `i` of them left.
Nothing results where an operand is no int. -/
def foldBitLoop (wordBits : ℕ) (op : BinaryOp) (stack : List Node) :
    ℕ→IntObj→Except IntError (Option IntObj)
  | 0,arg0 => .ok (some arg0)
  | i+1,arg0 => match getIntMaybe (peekResult stack i) with
    | none => .ok none
    | some arg1 => match mpBinaryOp wordBits op arg0 arg1 with
      | .error e => .error e
      | .ok arg0 => foldBitLoop wordBits op stack i arg0

/-- `token_to_op`, without the entries 255. -/
def tokenToOp : Token→Option BinaryOp
  | .opPlus => some .add
  | .opMinus => some .subtract
  | .opStar => some .multiply
  | .opDblSlash => some .floorDivide
  | .opPercent => some .modulo
  | .opDblLess => some .lshift
  | .opDblMore => some .rshift
  | _ => none

/-- The guards of the loop: shifts have no negative right operand, and the
divisions have no zero one. -/
def foldGuard (op : BinaryOp) (rhsSign : ℤ) : Bool :=
  if op=.lshift ∨ op=.rshift then 0 ≤ rhsSign
  else if op=.floorDivide ∨ op=.modulo then rhsSign≠0
  else true

/-- One turn of the loop over operators and operands, on the operator token
and the operand. -/
def foldTermStep (wordBits : ℕ) (arg0 : IntObj) (tok pn : Node) : Except IntError (Option IntObj) :=
  match getIntMaybe pn,tok with
  | some arg1,.token tok => match tokenToOp tok with
    | none => .ok none
    | some op =>
      if foldGuard op (mpObjIntSign arg1)=false then .ok none
      else match mpBinaryOp wordBits op arg0 arg1 with
        | .error e => .error e
        | .ok arg0 => .ok (some arg0)
  | _,_ => .ok none

/-- The loop over operators and operands of `<<`, `>>`, `+`, `-`, `*`, `/`,
`//` and `%`, with `i` nodes left. -/
def foldTermLoop (wordBits : ℕ) (stack : List Node) : ℕ→IntObj→Except IntError (Option IntObj)
  | i+2,arg0 => match foldTermStep wordBits arg0 (peekResult stack (i+1)) (peekResult stack i) with
    | .error e => .error e
    | .ok none => .ok none
    | .ok (some arg0) => foldTermLoop wordBits stack i arg0
  | _,arg0 => .ok (some arg0)

/-- The operator that `fold_constants` and the compiler take for a token of a
factor. -/
def factorOp : Node→UnaryOp
  | .token .opPlus => .positive
  | .token .opMinus => .negative
  | _ => .invert

/-- The value that `fold_constants` computes for a rule, if it folds it. -/
def foldValue (wordBits : ℕ) (rule : Rule) (numArgs : ℕ) (stack : List Node) :
    Except IntError (Option IntObj) :=
  match rule with
  | .expr => foldFrom (foldBitLoop wordBits .or)
  | .xorExpr => foldFrom (foldBitLoop wordBits .xor)
  | .andExpr => foldFrom (foldBitLoop wordBits .and)
  | .shiftExpr | .arithExpr | .term => foldFrom (foldTermLoop wordBits)
  | .factor2 => match getIntMaybe (peekResult stack 0) with
    | none => .ok none
    | some arg0 => .ok (some (mpUnaryOp wordBits (factorOp (peekResult stack 1)) arg0))
  | _ => .ok none
where
  /-- Start a loop with the first operand. -/
  foldFrom (loop : List Node→ℕ→IntObj→Except IntError (Option IntObj)) :
      Except IntError (Option IntObj) :=
    match getIntMaybe (peekResult stack (numArgs-1)) with
    | none => .ok none
    | some arg0 => loop stack (numArgs-1) arg0

/-- `fold_constants`: the stack with the constant in place of the arguments,
or nothing when the rule is not folded. -/
def foldConstants (wordBits : ℕ) (rule : Rule) (numArgs : ℕ) (stack : List Node) :
    Except IntError (Option (List Node)) :=
  match foldValue wordBits rule numArgs stack with
  | .error e => .error e
  | .ok none => .ok none
  | .ok (some arg0) => .ok (some (newIntNode arg0::stack.drop numArgs))

/-- The end of `push_result_rule`: a node with the arguments on the stack. -/
def makeNode (rule : Rule) (numArgs : ℕ) (stack : List Node) : List Node :=
  .struct rule (stack.take numArgs).reverse::stack.drop numArgs

/-- `push_result_rule`, with folding compiled in or not. Parentheses around
a single expression are dropped; those of a tuple belong to an operand here. -/
def pushResultRule (wordBits : ℕ) (folding : Bool) (rule : Rule) (numArgs : ℕ)
    (stack : List Node) : Except IntError (List Node) :=
  if rule=.atomParen then .ok stack
  else if folding=false then .ok (makeNode rule numArgs stack)
  else match foldLogicalConstants rule numArgs stack with
    | (stack,_,true) => .ok stack
    | (stack,numArgs,false) => match foldConstants wordBits rule numArgs stack with
      | .error e => .error e
      | .ok (some stack) => .ok stack
      | .ok none => .ok (makeNode rule numArgs stack)

/-- The rules that are lists separated by a token. -/
inductive ListRule where
  /-- Operands of `or`. -/
  | orTest
  /-- Operands of `and`. -/
  | andTest
  /-- Operands of `|`. -/
  | expr
  /-- Operands of `^`. -/
  | xorExpr
  /-- Operands of `&`. -/
  | andExpr

/-- The rule of a list. -/
def ListRule.rule : ListRule→Rule
  | .orTest => .orTest
  | .andTest => .andTest
  | .expr => .expr
  | .xorExpr => .xorExpr
  | .andExpr => .andExpr

/-- The rules that are lists separated by a rule for the operators. -/
inductive ChainRule where
  /-- `<<` and `>>`. -/
  | shiftExpr
  /-- `+` and `-`. -/
  | arithExpr
  /-- `*`, `/`, `//` and `%`. -/
  | term

/-- The rule of a chain. -/
def ChainRule.rule : ChainRule→Rule
  | .shiftExpr => .shiftExpr
  | .arithExpr => .arithExpr
  | .term => .term

mutual
/-- Expressions as the grammar groups them. Any expression may stand in any
place, so that precedence is not an assumption. -/
inductive Expr where
  | int (n : ℕ)
  /-- `True` or `False`. -/
  | bool (b : Bool)
  | operand (i : ℕ)
  /-- Operands separated by one operator. -/
  | list (rule : ListRule) (first : Expr) (rest : Exprs)
  /-- Operands separated by operators of one rule. -/
  | chain (rule : ChainRule) (first : Expr) (rest : Chain)
  /-- A unary operator and its operand. -/
  | factor (tok : Token) (arg : Expr)
  /-- `not` and its operand. -/
  | not (arg : Expr)
  | paren (arg : Expr)

/-- The further operands of a list. -/
inductive Exprs where
  | nil
  | cons (arg : Expr) (rest : Exprs)

/-- The further operators and operands of a chain. -/
inductive Chain where
  | nil
  /-- One operator and its operand, then others. -/
  | cons (tok : Token) (arg : Expr) (rest : Chain)
end

/-- Number of operands. -/
def Exprs.length : Exprs→ℕ
  | .nil => 0
  | .cons _ rest => rest.length+1

/-- Number of operators. -/
def Chain.length : Chain→ℕ
  | .nil => 0
  | .cons _ _ rest => rest.length+1

/-- The end of a list rule: a single item is left as it is. -/
def endList (wordBits : ℕ) (folding : Bool) (rule : Rule) (numArgs : ℕ) (stack : List Node) :
    Except IntError (List Node) :=
  if numArgs=1 then .ok stack else pushResultRule wordBits folding rule numArgs stack

mutual
/-- The result stack of `mp_parse` after an expression has been matched. -/
def pushExpr (wordBits : ℕ) (folding : Bool) : Expr→List Node→Except IntError (List Node)
  | .int n,stack => .ok (newIntNode (mpObjNewInt wordBits n)::stack)
  | .bool b,stack => .ok (.token (if b=true then .kwTrue else .kwFalse)::stack)
  | .operand i,stack => .ok (.operand i::stack)
  | .list rule first rest,stack => do
    let stack ← pushExpr wordBits folding first stack
    let stack ← pushExprs wordBits folding rest stack
    endList wordBits folding rule.rule (1+rest.length) stack
  | .chain rule first rest,stack => do
    let stack ← pushExpr wordBits folding first stack
    let stack ← pushChain wordBits folding rest stack
    endList wordBits folding rule.rule (1+2*rest.length) stack
  | .factor tok arg,stack => do
    let stack ← pushExpr wordBits folding arg (.token tok::stack)
    pushResultRule wordBits folding .factor2 2 stack
  | .not arg,stack => do
    let stack ← pushExpr wordBits folding arg stack
    pushResultRule wordBits folding .notTest2 1 stack
  | .paren arg,stack => do
    let stack ← pushExpr wordBits folding arg stack
    pushResultRule wordBits folding .atomParen 1 stack

/-- Operands of a list; the separators are not pushed. -/
def pushExprs (wordBits : ℕ) (folding : Bool) : Exprs→List Node→Except IntError (List Node)
  | .nil,stack => .ok stack
  | .cons arg rest,stack => do
    let stack ← pushExpr wordBits folding arg stack
    pushExprs wordBits folding rest stack

/-- Operators and operands of a chain. -/
def pushChain (wordBits : ℕ) (folding : Bool) : Chain→List Node→Except IntError (List Node)
  | .nil,stack => .ok stack
  | .cons tok arg rest,stack => do
    let stack ← pushExpr wordBits folding arg (.token tok::stack)
    pushChain wordBits folding rest stack
end

/-- `mp_parse` of an expression: the result stack at the end, whose only entry
is the root. -/
def mpParse (wordBits : ℕ) (folding : Bool) (e : Expr) : Except IntError (List Node) :=
  pushExpr wordBits folding e []

/-- Objects at run time. -/
inductive Value (Ω : Type) where
  | int (obj : IntObj)
  | bool (b : Bool)
  | other (obj : Ω)

/-- A computation on states `σ` that may raise an exception `ε`. -/
abbrev Run (σ ε : Type) := ExceptT ε (StateM σ)

/-- Everything about the runtime that folding knows nothing of. -/
structure Machine (σ Ω ε : Type) where
  operand : ℕ→Run σ ε (Value Ω)
  /-- Binary operators unless they compute an int from two ints. -/
  binaryOp : BinaryOp→Value Ω→Value Ω→Run σ ε (Value Ω)
  /-- Unary operators on objects other than ints. -/
  unaryOp : UnaryOp→Value Ω→Run σ ε (Value Ω)
  /-- `mp_obj_is_true` on objects other than ints and bools. -/
  isTrue : Ω→Run σ ε Bool
  /-- The exception object of an error. -/
  raised : IntError→ε

variable {σ Ω ε : Type} (wordBits : ℕ) (m : Machine σ Ω ε)

/-- `mp_binary_op`. -/
def binaryOp (op : BinaryOp) (lhs rhs : Value Ω) : Run σ ε (Value Ω) :=
  match op,lhs,rhs with
  | .trueDivide,lhs,rhs => m.binaryOp .trueDivide lhs rhs
  | op,.int l,.int r => match mpBinaryOp wordBits op l r with
    | .error e => throw (m.raised e)
    | .ok obj => pure (.int obj)
  | op,lhs,rhs => m.binaryOp op lhs rhs

/-- `mp_unary_op`. -/
def unaryOp (op : UnaryOp) (arg : Value Ω) : Run σ ε (Value Ω) :=
  match arg with
  | .int obj => pure (.int (mpUnaryOp wordBits op obj))
  | arg => m.unaryOp op arg

/-- `mp_obj_is_true`. -/
def isTrue : Value Ω→Run σ ε Bool
  | .int obj => pure (obj.val≠0)
  | .bool b => pure b
  | .other obj => m.isTrue obj

/-- The operator that `compile_term` takes for a token. -/
def termOp : Node→BinaryOp
  | .token .opPlus => .add
  | .token .opMinus => .subtract
  | .token .opStar => .multiply
  | .token .opDblSlash => .floorDivide
  | .token .opSlash => .trueDivide
  | .token .opPercent => .modulo
  | .token .opDblLess => .lshift
  | _ => .rshift

mutual
/-- The run of the code that the compiler generates for a tree. -/
def eval : Node→Run σ ε (Value Ω)
  | .smallInt n => pure (.int (.small n))
  | .constObject n => pure (.int (.mpz n))
  | .token tok => pure (.bool (tok=.kwTrue))
  | .operand i => m.operand i
  | .struct .orTest nodes => evalOrAndTest true nodes
  | .struct .andTest nodes => evalOrAndTest false nodes
  | .struct .notTest2 (arg::_) => do
    let v ← eval arg
    let b ← isTrue m v
    pure (.bool (b=false))
  | .struct .factor2 (tok::arg::_) => do
    let v ← eval arg
    unaryOp wordBits m (factorOp tok) v
  | .struct .expr (first::rest) => do
    let v ← eval first
    evalBinaryOp .or v rest
  | .struct .xorExpr (first::rest) => do
    let v ← eval first
    evalBinaryOp .xor v rest
  | .struct .andExpr (first::rest) => do
    let v ← eval first
    evalBinaryOp .and v rest
  | .struct _ (first::rest) => do
    let v ← eval first
    evalTerm v rest
  | .struct _ [] => pure (.bool false)

/-- `compile_or_and_test`: stop at the first operand with truth value `cond`. -/
def evalOrAndTest (cond : Bool) : List Node→Run σ ε (Value Ω)
  | [] => pure (.bool false)
  | [node] => eval node
  | node::next::nodes => do
    let v ← eval node
    let b ← isTrue m v
    if b=cond then pure v else evalOrAndTest cond (next::nodes)

/-- `c_binary_op` after its first operand. -/
def evalBinaryOp (op : BinaryOp) (v : Value Ω) : List Node→Run σ ε (Value Ω)
  | [] => pure v
  | node::nodes => do
    let rhs ← eval node
    let v ← binaryOp wordBits m op v rhs
    evalBinaryOp op v nodes

/-- `compile_term` after its first operand. -/
def evalTerm (v : Value Ω) : List Node→Run σ ε (Value Ω)
  | tok::node::nodes => do
    let rhs ← eval node
    let v ← binaryOp wordBits m (termOp tok) v rhs
    evalTerm v nodes
  | _ => pure v
end

theorem eval_newIntNode (obj : IntObj) : eval wordBits m (newIntNode obj)=pure (.int obj) := by
  cases obj <;> simp only [newIntNode,eval]

/-- The constant that the parser makes of an expression, if it makes one. -/
def foldedInt (e : Expr) : Option IntObj :=
  match mpParse wordBits true e with
  | .ok (root::_) => getIntMaybe root
  | _ => none

/-- Folding a chain from a constant on meets a shift by a constant that is
not negative and not a machine word. -/
def countTooLarge (arg0 : IntObj) : Chain→Bool
  | .nil => false
  | .cons tok arg rest => match foldedInt wordBits arg with
    | none => false
    | some arg1 =>
      ((tok=.opDblLess ∨ tok=.opDblMore) ∧ 0≤arg1.val ∧ mpObjIntGetChecked wordBits arg1=none) ||
      match foldTermStep wordBits arg0 (.token tok) (newIntNode arg1) with
      | .ok (some arg0) => countTooLarge arg0 rest
      | _ => false

mutual
/-- Some chain in the expression starts with constants the parser folds, up to
a shift by a constant that is not negative and not a machine word. -/
def oversizedShift : Expr→Bool
  | .int _ | .bool _ | .operand _ => false
  | .list _ first rest => oversizedShift first || oversizedShifts rest
  | .chain _ first rest => oversizedShift first || oversizedInChain rest ||
    match foldedInt wordBits first with
    | none => false
    | some arg0 => countTooLarge wordBits arg0 rest
  | .factor _ arg | .not arg | .paren arg => oversizedShift arg

/-- The same for the operands of a list. -/
def oversizedShifts : Exprs→Bool
  | .nil => false
  | .cons arg rest => oversizedShift arg || oversizedShifts rest

/-- The same inside the operands of a chain. -/
def oversizedInChain : Chain→Bool
  | .nil => false
  | .cons _ arg rest => oversizedShift arg || oversizedInChain rest
end

/-- Two trees whose code does the same on every machine. -/
def SameCode (node plain : Node) : Prop :=
  ∀ (σ Ω ε : Type) (m : Machine σ Ω ε),eval wordBits m node=eval wordBits m plain

/-- Folding keeps the meaning of an expression: the parser makes a tree, and
its code does what the code of the tree made without folding does. -/
def FoldsFaithfully (e : Expr) : Prop :=
  ∃ root plain,mpParse wordBits true e=.ok [root] ∧ mpParse wordBits false e=.ok [plain] ∧
    SameCode wordBits root plain

/-- The operand decides the value of the list. -/
def absorbing (rule : Rule) (node : Node) : Bool :=
  if rule=.orTest then isConstTrue node else isConstFalse node

/-- The operand has no influence unless it is the last one. -/
def neutral (rule : Rule) (node : Node) : Bool :=
  if rule=.orTest then isConstFalse node else isConstTrue node

/-- The operands that are left of a list. -/
def keptOperands (rule : Rule) : List Node→List Node
  | [] => []
  | [node] => [node]
  | node::next::nodes =>
    if absorbing rule node=true then [node]
    else if neutral rule node=true then keptOperands rule (next::nodes)
    else node::keptOperands rule (next::nodes)

/-- Copying a node to its place leaves it below the entries in between. -/
theorem set_copyTo (node : Node) (nodes between stack : List Node) : ∃ between',
    between'.length=between.length ∧
    ((node::nodes).reverse++(between++stack)).set (nodes.length+between.length) node=
      nodes.reverse++(between'++node::stack) := by
  rcases eq_nil_or_concat between with rfl | ⟨front,last,rfl⟩
  · refine ⟨[],rfl,?_⟩
    simp
  · refine ⟨node::front,by simp,?_⟩
    simp

/-- One turn of the loop: an operand that decides the value ends it, and one
without influence is overwritten by the next. -/
theorem foldLogicalLoop_succ (rule : Rule) (i copyTo : ℕ) (stack : List Node) :
    foldLogicalLoop rule (i+1) copyTo stack=
      if i=0 ∨ absorbing rule (peekResult stack i)=true then
        (stack.set (copyTo-1) (peekResult stack i),copyTo)
      else if neutral rule (peekResult stack i)=true then
        foldLogicalLoop rule i copyTo (stack.set (copyTo-1) (peekResult stack i))
      else foldLogicalLoop rule i (copyTo-1) (stack.set (copyTo-1) (peekResult stack i)) := by
  rw [foldLogicalLoop]
  by_cases hi : i=0
  · rw [if_pos hi,if_pos (Or.inl hi)]
  · by_cases hor : rule=.orTest
    · cases ht : isConstTrue (peekResult stack i) <;> cases hf : isConstFalse (peekResult stack i) <;>
        simp [absorbing,neutral,hi,hor,ht,hf]
    · cases ht : isConstTrue (peekResult stack i) <;> cases hf : isConstFalse (peekResult stack i) <;>
        simp [absorbing,neutral,hi,hor,ht,hf]

/-- The loop leaves the operands that are kept, below entries to be popped. -/
theorem foldLogicalLoop_spec (rule : Rule) (nodes : List Node) :
    ∀ between stack : List Node,nodes≠[]→∃ between',
      between'.length+(keptOperands rule nodes).length=nodes.length+between.length ∧
      foldLogicalLoop rule nodes.length (nodes.length+between.length)
        (nodes.reverse++(between++stack))=
      (between'++((keptOperands rule nodes).reverse++stack),between'.length+1) := by
  induction nodes with
  | nil => exact fun _ _ h => absurd rfl h
  | cons node nodes ih =>
    intro between stack _
    obtain ⟨between₁,hlen,hset⟩ := set_copyTo node nodes between stack
    have hpeek : peekResult ((node::nodes).reverse++(between++stack)) nodes.length=node := by
      simp [peekResult]
    have hidx : nodes.length+1+between.length-1=nodes.length+between.length := by omega
    rw [length_cons,foldLogicalLoop_succ,hpeek,hidx,hset]
    by_cases hstop : nodes.length=0 ∨ absorbing rule node=true
    · have hkept : keptOperands rule (node::nodes)=[node] := by
        cases nodes with
        | nil => rfl
        | cons next nodes =>
          rw [keptOperands,if_pos (hstop.resolve_left (succ_ne_zero _))]
      refine ⟨nodes.reverse++between₁,?_,?_⟩
      · rw [hkept,length_append,length_reverse,length_singleton]
        omega
      · have hcount : nodes.length+1+between.length=(nodes.reverse++between₁).length+1 := by
          rw [length_append,length_reverse]
          omega
        rw [if_pos hstop,hkept,hcount,append_assoc]
        rfl
    · obtain ⟨hmore,hnotAbsorbing⟩ := not_or.mp hstop
      have hne : nodes≠[] := fun h => hmore (by rw [h]; rfl)
      rw [if_neg hstop]
      by_cases hneutral : neutral rule node=true
      · have hkept : keptOperands rule (node::nodes)=keptOperands rule nodes := by
          obtain ⟨next,nodes,rfl⟩ := exists_cons_of_ne_nil hne
          rw [keptOperands,if_neg hnotAbsorbing,if_pos hneutral]
        obtain ⟨between',hlen',hloop⟩ := ih (between₁++[node]) stack hne
        have hcount : nodes.length+1+between.length=nodes.length+(between₁++[node]).length := by
          rw [length_append,length_singleton]
          omega
        have hshape : between₁++node::stack=(between₁++[node])++stack := by simp
        refine ⟨between',?_,?_⟩
        · rw [hkept,hlen']
          omega
        · rw [if_pos hneutral,hkept,hcount,hshape,hloop]
      · have hkept : keptOperands rule (node::nodes)=node::keptOperands rule nodes := by
          obtain ⟨next,nodes,rfl⟩ := exists_cons_of_ne_nil hne
          rw [keptOperands,if_neg hnotAbsorbing,if_neg hneutral]
        obtain ⟨between',hlen',hloop⟩ := ih between₁ (node::stack) hne
        refine ⟨between',?_,?_⟩
        · rw [hkept,length_cons]
          omega
        · rw [if_neg hneutral,hkept,← hlen,hloop,reverse_cons,append_assoc]
          rfl

variable {nodes : List Node}

/-- Something is kept of a list that is not empty. -/
theorem keptOperands_ne_nil (rule : Rule) (hne : nodes≠[]) : keptOperands rule nodes≠[] := by
  fun_induction keptOperands rule nodes with
  | case1 => exact absurd rfl hne
  | case2 node => exact cons_ne_nil _ _
  | case3 node next nodes habsorbing => exact cons_ne_nil _ _
  | case4 node next nodes habsorbing hneutral ih => exact ih (cons_ne_nil _ _)
  | case5 node next nodes habsorbing hneutral ih => exact cons_ne_nil _ _

variable {rule : Rule} {node : Node} {op : BinaryOp}

/-- Folding of `or` and `and` leaves the kept operands on the stack, and is
complete if there is only one. -/
theorem foldLogicalConstants_list (hrule : rule=.orTest ∨ rule=.andTest)
    (hne : nodes≠[]) (stack : List Node) :
    foldLogicalConstants rule nodes.length (nodes.reverse++stack)=
      ((keptOperands rule nodes).reverse++stack,(keptOperands rule nodes).length,
        decide ((keptOperands rule nodes).length=1)) := by
  obtain ⟨between,hlen,hloop⟩ := foldLogicalLoop_spec rule nodes [] stack hne
  rw [length_nil,add_zero] at hlen
  rw [length_nil,add_zero,nil_append] at hloop
  have hleft : nodes.length-between.length=(keptOperands rule nodes).length := by omega
  rw [foldLogicalConstants,if_pos hrule,hloop]
  dsimp only
  rw [Nat.add_sub_cancel,drop_left,hleft]

theorem eval_constTrue (h : isConstTrue node=true) :
    ∃ v,eval wordBits m node=pure v ∧ isTrue m v=pure true := by
  fun_cases isConstTrue node with
  | case1 => exact ⟨.bool true,rfl,rfl⟩
  | case2 n =>
    refine ⟨.int (.small n),by rw [eval],?_⟩
    have hn : n≠0 := by simpa [isConstTrue] using h
    simp [isTrue,IntObj.val,hn]
  | case3 _ _ => simp_all [isConstTrue]

theorem eval_constFalse (h : isConstFalse node=true) :
    ∃ v,eval wordBits m node=pure v ∧ isTrue m v=pure false := by
  fun_cases isConstFalse node with
  | case1 => exact ⟨.bool false,rfl,rfl⟩
  | case2 n =>
    refine ⟨.int (.small n),by rw [eval],?_⟩
    have hn : n=0 := by simpa [isConstFalse] using h
    simp [isTrue,IntObj.val,hn]
  | case3 _ _ => simp_all [isConstFalse]

/-- The rule whose code stops at the truth value `cond`. -/
def logicalRule (cond : Bool) : Rule := if cond=true then .orTest else .andTest

theorem eval_absorbing {cond : Bool} (h : absorbing (logicalRule cond) node=true) :
    ∃ v,eval wordBits m node=pure v ∧ isTrue m v=pure cond := by
  cases cond with
  | true => exact eval_constTrue wordBits m h
  | false => exact eval_constFalse wordBits m h

theorem eval_neutral {cond : Bool} (h : neutral (logicalRule cond) node=true) :
    ∃ v,eval wordBits m node=pure v ∧ isTrue m v=pure (!cond) := by
  cases cond with
  | true => exact eval_constFalse wordBits m h
  | false => exact eval_constTrue wordBits m h

/-- The code of the kept operands does what the code of all operands does. -/
theorem evalOrAndTest_keptOperands (cond : Bool) (nodes : List Node) :
    evalOrAndTest wordBits m cond (keptOperands (logicalRule cond) nodes)=
      evalOrAndTest wordBits m cond nodes := by
  fun_induction keptOperands (logicalRule cond) nodes with
  | case1 => rfl
  | case2 node => rfl
  | case3 node next nodes habsorbing =>
    obtain ⟨v,heval,htrue⟩ := eval_absorbing wordBits m habsorbing
    simp only [evalOrAndTest,heval,htrue,pure_bind,if_true]
  | case4 node next nodes habsorbing hneutral ih =>
    obtain ⟨v,heval,htrue⟩ := eval_neutral wordBits m hneutral
    rw [ih,evalOrAndTest.eq_def wordBits m cond (node::next::nodes)]
    simp [heval,htrue]
  | case5 node next nodes habsorbing hneutral ih =>
    have hne := keptOperands_ne_nil (logicalRule cond) (cons_ne_nil next nodes)
    obtain ⟨kept,rest,hkept⟩ := exists_cons_of_ne_nil hne
    rw [hkept] at ih ⊢
    simp only [evalOrAndTest]
    rw [ih]

theorem makeNode_reverse (rule : Rule) (nodes stack : List Node) :
    makeNode rule nodes.length (nodes.reverse++stack)=.struct rule nodes::stack := by
  rw [makeNode,take_left' length_reverse,drop_left' length_reverse,reverse_reverse]

/-- Folding of `or` and `and` raises nothing, and its code is that of all
operands. -/
theorem pushResultRule_logical (cond : Bool) (hne : nodes≠[]) :
    ∃ node,(∀ stack,pushResultRule wordBits true (logicalRule cond) nodes.length
        (nodes.reverse++stack)=.ok (node::stack)) ∧
      ∀ {σ Ω ε : Type} (m : Machine σ Ω ε),
        eval wordBits m node=evalOrAndTest wordBits m cond nodes := by
  have hrule : logicalRule cond=.orTest ∨ logicalRule cond=.andTest := by
    cases cond
    · exact Or.inr rfl
    · exact Or.inl rfl
  have hparen : logicalRule cond≠.atomParen := by cases cond <;> decide
  have hfold (stack : List Node) := foldLogicalConstants_list hrule hne stack
  by_cases hone : (keptOperands (logicalRule cond) nodes).length=1
  · obtain ⟨node,hnode⟩ := length_eq_one_iff.mp hone
    refine ⟨node,fun stack => ?_,fun m => ?_⟩
    · rw [pushResultRule,if_neg hparen,if_neg (by decide),hfold,hone,hnode]
      rfl
    · rw [← evalOrAndTest_keptOperands,hnode,evalOrAndTest]
  · refine ⟨.struct (logicalRule cond) (keptOperands (logicalRule cond) nodes),fun stack => ?_,
      fun m => ?_⟩
    · rw [pushResultRule,if_neg hparen,if_neg (by decide),hfold,decide_eq_false hone]
      have hnone : foldConstants wordBits (logicalRule cond)
          (keptOperands (logicalRule cond) nodes).length
          ((keptOperands (logicalRule cond) nodes).reverse++stack)=.ok none := by
        cases cond <;> rfl
      dsimp only
      rw [hnone]
      dsimp only
      rw [makeNode_reverse]
    · rw [← evalOrAndTest_keptOperands]
      cases cond <;> simp [logicalRule,eval]

/-- Operators on ints that never raise. -/
theorem mpBinaryOp_total (hop : op=.or ∨ op=.xor ∨ op=.and)
    (lhs rhs : IntObj) : ∃ obj,mpBinaryOp wordBits op lhs rhs=.ok obj := by
  rcases hop with rfl | rfl | rfl <;> cases lhs <;> cases rhs <;> exact ⟨_,rfl⟩

/-- A node from which folding takes an int evaluates to it. -/
theorem eval_getIntMaybe {obj : IntObj} (h : getIntMaybe node=some obj) :
    eval wordBits m node=pure (.int obj) := by
  fun_cases getIntMaybe node with
  | case1 n =>
    cases h
    rw [eval]
  | case2 n =>
    cases h
    rw [eval]
  | case3 _ _ => simp_all [getIntMaybe]

/-- Folding takes the int from its own leaf. -/
@[simp] theorem getIntMaybe_newIntNode (obj : IntObj) : getIntMaybe (newIntNode obj)=some obj := by
  cases obj <;> rfl

/-- The loop over the operands of a bit operator raises nothing, and what it
computes is what the code of the operands computes. -/
theorem foldBitLoop_spec (hop : op=.or ∨ op=.xor ∨ op=.and) (nodes : List Node) :
    ∀ arg0,∃ folded,(∀ stack,foldBitLoop wordBits op (nodes.reverse++stack) nodes.length arg0=
        .ok folded) ∧
      ∀ obj,folded=some obj→∀ {σ Ω ε : Type} (m : Machine σ Ω ε),
        evalBinaryOp wordBits m op (.int arg0) nodes=pure (.int obj) := by
  induction nodes with
  | nil =>
    refine fun arg0 => ⟨some arg0,fun _ => rfl,fun obj hobj _ _ _ m => ?_⟩
    rw [evalBinaryOp,Option.some.inj hobj]
  | cons node nodes ih =>
    intro arg0
    have hpeek (stack : List Node) : peekResult ((node::nodes).reverse++stack) nodes.length=node := by
      simp [peekResult]
    cases hint : getIntMaybe node with
    | none =>
      refine ⟨none,fun stack => ?_,fun obj hobj => by cases hobj⟩
      rw [length_cons,foldBitLoop,hpeek,hint]
    | some arg1 =>
      obtain ⟨arg,harg⟩ := mpBinaryOp_total wordBits hop arg0 arg1
      obtain ⟨folded,hloop,hcode⟩ := ih arg
      refine ⟨folded,fun stack => ?_,fun obj hobj _ _ _ m => ?_⟩
      · rw [length_cons,foldBitLoop,hpeek,hint]
        dsimp only
        rw [harg,reverse_cons,append_assoc]
        exact hloop _
      · rw [evalBinaryOp,eval_getIntMaybe wordBits m hint,pure_bind]
        have hop' : binaryOp wordBits m op (.int arg0) (.int arg1)=pure (.int arg) := by
          rcases hop with rfl | rfl | rfl <;> simp only [binaryOp,harg]
        rw [hop',pure_bind,hcode obj hobj m]

variable {rhs : IntObj}

variable {e : IntError} {tok : Token}

/-- A shift of a long int raises past the guard only for a count that is not a
machine word. -/
theorem mpObjIntBinaryOp_error (hop : op≠.trueDivide) {lhs : IntObj}
    (hguard : foldGuard op (mpObjIntSign rhs)=true)
    (h : mpObjIntBinaryOp wordBits op lhs rhs=.error e) :
    (op=.lshift ∨ op=.rshift) ∧ mpObjIntGetChecked wordBits rhs=none ∧ e=.overflow := by
  have hnonneg (hshift : op=.lshift ∨ op=.rshift) : 0 ≤ rhs.val := by
    rw [foldGuard,if_pos hshift] at hguard
    exact Int.sign_nonneg_iff.mp (of_decide_eq_true hguard)
  have hnonzero (hdivide : op=.floorDivide ∨ op=.modulo) : rhs.val≠0 := by
    rcases hdivide with rfl | rfl <;> exact fun h0 => by simp [foldGuard,mpObjIntSign,h0] at hguard
  -- a count that is a machine word is the value, so it is not negative
  have hcount (hshift : op=.lshift ∨ op=.rshift) {irhs : ℤ}
      (hchecked : mpObjIntGetChecked wordBits rhs=some irhs) : ¬irhs<0 := by
    have hval : irhs=rhs.val := by
      fun_cases mpObjIntGetChecked wordBits rhs with
      | case1 n => simpa [mpObjIntGetChecked,IntObj.val] using hchecked.symm
      | case2 n hn => simpa [mpObjIntGetChecked,hn,IntObj.val] using hchecked.symm
      | case3 n hn => simp [mpObjIntGetChecked,hn] at hchecked
    have := hnonneg hshift
    omega
  cases op with
  | trueDivide => exact absurd rfl hop
  | floorDivide => simp [mpObjIntBinaryOp,hnonzero (Or.inl rfl)] at h
  | modulo => simp [mpObjIntBinaryOp,hnonzero (Or.inr rfl)] at h
  | lshift =>
    cases hchecked : mpObjIntGetChecked wordBits rhs with
    | none =>
      simp only [mpObjIntBinaryOp,hchecked] at h
      exact ⟨Or.inl rfl,rfl,(Except.error.inj h).symm⟩
    | some irhs => simp [mpObjIntBinaryOp,hchecked,hcount (Or.inl rfl) hchecked] at h
  | rshift =>
    cases hchecked : mpObjIntGetChecked wordBits rhs with
    | none =>
      simp only [mpObjIntBinaryOp,hchecked] at h
      exact ⟨Or.inr rfl,rfl,(Except.error.inj h).symm⟩
    | some irhs => simp [mpObjIntBinaryOp,hchecked,hcount (Or.inr rfl) hchecked] at h
  | or | xor | and | add | subtract | multiply => simp [mpObjIntBinaryOp] at h

/-- Past the guards an int operator raises only for a shift by a count that is
not a machine word. -/
theorem mpBinaryOp_error (hop : op≠.trueDivide) {lhs : IntObj}
    (hguard : foldGuard op (mpObjIntSign rhs)=true) (h : mpBinaryOp wordBits op lhs rhs=.error e) :
    (op=.lshift ∨ op=.rshift) ∧ mpObjIntGetChecked wordBits rhs=none ∧ e=.overflow := by
  cases lhs with
  | mpz l => exact mpObjIntBinaryOp_error wordBits hop hguard h
  | small l =>
    cases rhs with
    | mpz r => exact mpObjIntBinaryOp_error wordBits hop hguard h
    | small r =>
      cases op with
      | trueDivide => exact absurd rfl hop
      | lshift =>
        have hr : ¬r<0 := by
          simpa [foldGuard,mpObjIntSign,IntObj.val,Int.sign_nonneg_iff] using hguard
        simp only [mpBinaryOp,if_neg hr] at h
        split at h
        · exact mpObjIntBinaryOp_error wordBits hop hguard h
        · cases h
      | rshift =>
        have hr : ¬r<0 := by
          simpa [foldGuard,mpObjIntSign,IntObj.val,Int.sign_nonneg_iff] using hguard
        simp only [mpBinaryOp,if_neg hr] at h
        cases h
      | floorDivide =>
        have hr : r≠0 := by simpa [foldGuard,mpObjIntSign,IntObj.val] using hguard
        simp [mpBinaryOp,hr] at h
      | modulo =>
        have hr : r≠0 := by simpa [foldGuard,mpObjIntSign,IntObj.val] using hguard
        simp [mpBinaryOp,hr] at h
      | or | xor | and | add | subtract | multiply => simp [mpBinaryOp] at h

/-- A shift by a count that is not a machine word overflows. -/
theorem mpBinaryOp_overflow (hop : op=.lshift ∨ op=.rshift) (lhs : IntObj)
    (hcount : mpObjIntGetChecked wordBits rhs=none) :
    mpBinaryOp wordBits op lhs rhs=.error .overflow := by
  cases rhs with
  | small r => cases hcount
  | mpz r =>
    rcases hop with rfl | rfl <;> cases lhs <;> simp only [mpBinaryOp,mpObjIntBinaryOp,hcount]

theorem tokenToOp_shift (h : tokenToOp tok=some op) :
    (op=.lshift ∨ op=.rshift ↔ tok=.opDblLess ∨ tok=.opDblMore) ∧ op≠.trueDivide ∧
      termOp (.token tok)=op := by
  cases tok <;> cases h <;> simp [termOp]

/-- A step of the chain loop raises exactly for a shift by a constant that is
not negative and not a machine word. -/
theorem foldTermStep_error {arg0 : IntObj} {pn : Node} :
    foldTermStep wordBits arg0 (.token tok) pn=.error e ↔
      e=.overflow ∧ ∃ arg1,getIntMaybe pn=some arg1 ∧ (tok=.opDblLess ∨ tok=.opDblMore) ∧
        0≤arg1.val ∧ mpObjIntGetChecked wordBits arg1=none := by
  unfold foldTermStep
  cases hint : getIntMaybe pn with
  | none => simp
  | some arg1 =>
    dsimp only
    cases htok : tokenToOp tok with
    | none =>
      have hnot : ¬(tok=.opDblLess ∨ tok=.opDblMore) := fun hshift => by
        rcases hshift with rfl | rfl <;> cases htok
      simp [hnot]
    | some op =>
      obtain ⟨hshift,hop,_⟩ := tokenToOp_shift htok
      dsimp only
      cases hguard : foldGuard op (mpObjIntSign arg1) with
      | false =>
        rw [if_pos rfl]
        refine ⟨nofun,fun ⟨_,arg,harg,htoks,hpos,_⟩ => ?_⟩
        obtain rfl := Option.some.inj harg
        rw [foldGuard,if_pos (hshift.mpr htoks)] at hguard
        exact absurd (Int.sign_nonneg_iff.mpr hpos) (of_decide_eq_false hguard)
      | true =>
        rw [if_neg (by decide)]
        cases hres : mpBinaryOp wordBits op arg0 arg1 with
        | error e' =>
          obtain ⟨hop',hcount,rfl⟩ := mpBinaryOp_error wordBits hop hguard hres
          have hpos : 0≤arg1.val := by
            rw [foldGuard,if_pos hop'] at hguard
            exact Int.sign_nonneg_iff.mp (of_decide_eq_true hguard)
          constructor
          · intro h
            exact ⟨(Except.error.inj h).symm,arg1,rfl,hshift.mp hop',hpos,hcount⟩
          · intro ⟨he,_⟩
            rw [he]
        | ok obj =>
          refine ⟨nofun,fun ⟨_,arg,harg,htoks,_,hcount⟩ => ?_⟩
          obtain rfl := Option.some.inj harg
          rw [mpBinaryOp_overflow wordBits (hshift.mpr htoks) arg0 hcount] at hres
          cases hres

/-- A step of the chain loop computes what the code of the operator does. -/
theorem foldTermStep_ok {arg0 obj : IntObj} {pn : Node}
    (h : foldTermStep wordBits arg0 (.token tok) pn=.ok (some obj)) :
    ∃ arg1,getIntMaybe pn=some arg1 ∧
      binaryOp wordBits m (termOp (.token tok)) (.int arg0) (.int arg1)=pure (.int obj) := by
  unfold foldTermStep at h
  cases hint : getIntMaybe pn with
  | none => simp [hint] at h
  | some arg1 =>
    refine ⟨arg1,rfl,?_⟩
    rw [hint] at h
    dsimp only at h
    cases htok : tokenToOp tok with
    | none => simp [htok] at h
    | some op =>
      obtain ⟨_,hop,hterm⟩ := tokenToOp_shift htok
      rw [htok] at h
      dsimp only at h
      split at h
      · cases h
      · cases hres : mpBinaryOp wordBits op arg0 arg1 with
        | error e => simp [hres] at h
        | ok obj' =>
          rw [hres] at h
          obtain rfl := Option.some.inj (Except.ok.inj h)
          rw [hterm]
          cases op <;> first
            | exact absurd rfl hop
            | simp only [binaryOp,hres]

mutual
/-- The tree that the parser makes without folding. -/
def plainNode : Expr→Node
  | .int n => newIntNode (mpObjNewInt wordBits n)
  | .bool b => .token (if b=true then .kwTrue else .kwFalse)
  | .operand i => .operand i
  | .list rule first rest =>
    if rest.length=0 then plainNode first
    else .struct rule.rule (plainNode first::plainNodes rest)
  | .chain rule first rest =>
    if rest.length=0 then plainNode first
    else .struct rule.rule (plainNode first::plainChain rest)
  | .factor tok arg => .struct .factor2 [.token tok,plainNode arg]
  | .not arg => .struct .notTest2 [plainNode arg]
  | .paren arg => plainNode arg

/-- The trees of the operands of a list. -/
def plainNodes : Exprs→List Node
  | .nil => []
  | .cons arg rest => plainNode arg::plainNodes rest

/-- The leaves and trees of a chain. -/
def plainChain : Chain→List Node
  | .nil => []
  | .cons tok arg rest => .token tok::plainNode arg::plainChain rest
end

/-- One tree for each operand. -/
theorem plainNodes_length : ∀ rest : Exprs,(plainNodes wordBits rest).length=rest.length
  | .nil => rfl
  | .cons arg rest => by rw [plainNodes,length_cons,plainNodes_length rest,Exprs.length]

/-- A leaf and a tree for each operator. -/
theorem plainChain_length : ∀ rest : Chain,(plainChain wordBits rest).length=2*rest.length
  | .nil => rfl
  | .cons tok arg rest => by
    rw [plainChain,length_cons,length_cons,plainChain_length rest,Chain.length]
    omega

/-- Without folding a rule makes a node of its arguments. -/
theorem endList_plain (hrule : rule≠.atomParen) (first : Node) (rest stack : List Node) :
    endList wordBits false rule (rest.length+1) (rest.reverse++first::stack)=
      .ok ((if rest.length=0 then first else .struct rule (first::rest))::stack) := by
  rw [endList]
  by_cases hnil : rest.length=0
  · rw [if_pos (by omega),if_pos hnil,length_eq_zero_iff.mp hnil]
    rfl
  · have hshape : rest.reverse++first::stack=(first::rest).reverse++stack := by simp
    have hlen : rest.length+1=(first::rest).length := rfl
    rw [if_neg (by omega),if_neg hnil,pushResultRule,if_neg hrule,if_pos rfl,hshape,hlen,
      makeNode_reverse]

mutual
/-- The parser without folding makes the plain tree. -/
theorem pushExpr_plain : ∀ (e : Expr) (stack : List Node),
    pushExpr wordBits false e stack=.ok (plainNode wordBits e::stack)
  | .int n,stack => by rw [pushExpr,plainNode]
  | .bool b,stack => by rw [pushExpr,plainNode]
  | .operand i,stack => by rw [pushExpr,plainNode]
  | .list rule first rest,stack => by
    have hparen : rule.rule≠.atomParen := by cases rule <;> decide
    have hend := endList_plain wordBits hparen (plainNode wordBits first)
      (plainNodes wordBits rest) stack
    rw [plainNodes_length] at hend
    rw [pushExpr,pushExpr_plain first,plainNode]
    simp only [bind,Except.bind]
    rw [pushExprs_plain rest]
    dsimp only
    rw [add_comm 1,hend]
  | .chain rule first rest,stack => by
    have hparen : rule.rule≠.atomParen := by cases rule <;> decide
    have hend := endList_plain wordBits hparen (plainNode wordBits first)
      (plainChain wordBits rest) stack
    rw [plainChain_length] at hend
    rw [pushExpr,pushExpr_plain first,plainNode]
    simp only [bind,Except.bind]
    rw [pushChain_plain rest]
    dsimp only
    rw [add_comm 1,hend]
    simp only [mul_eq_zero,OfNat.ofNat_ne_zero,false_or]
  | .factor tok arg,stack => by
    rw [pushExpr,pushExpr_plain arg,plainNode]
    rfl
  | .not arg,stack => by
    rw [pushExpr,pushExpr_plain arg,plainNode]
    rfl
  | .paren arg,stack => by
    rw [pushExpr,pushExpr_plain arg,plainNode]
    rfl

/-- The same for the operands of a list. -/
theorem pushExprs_plain : ∀ (rest : Exprs) (stack : List Node),
    pushExprs wordBits false rest stack=.ok ((plainNodes wordBits rest).reverse++stack)
  | .nil,stack => by
    rw [pushExprs,plainNodes]
    rfl
  | .cons arg rest,stack => by
    rw [pushExprs,pushExpr_plain arg,plainNodes]
    simp only [bind,Except.bind]
    rw [pushExprs_plain rest,reverse_cons,append_assoc]
    rfl

/-- The same for a chain. -/
theorem pushChain_plain : ∀ (rest : Chain) (stack : List Node),
    pushChain wordBits false rest stack=.ok ((plainChain wordBits rest).reverse++stack)
  | .nil,stack => by
    rw [pushChain,plainChain]
    rfl
  | .cons tok arg rest,stack => by
    rw [pushChain,pushExpr_plain arg,plainChain]
    simp only [bind,Except.bind]
    rw [pushChain_plain rest,reverse_cons,reverse_cons,append_assoc,append_assoc]
    rfl
end

/-- The nodes that the parser leaves for the operands of a list, each with the
code of the plain tree. -/
inductive ListNodes : Exprs→List Node→Prop where
  | nil : ListNodes .nil []
  | cons {arg : Expr} {node : Node} {rest : Exprs} {nodes : List Node}
    (hpush : ∀ stack,pushExpr wordBits true arg stack=.ok (node::stack))
    (hsame : SameCode wordBits node (plainNode wordBits arg)) (hrest : ListNodes rest nodes) :
    ListNodes (.cons arg rest) (node::nodes)

/-- The nodes that the parser leaves for a chain. -/
inductive ChainNodes : Chain→List Node→Prop where
  | nil : ChainNodes .nil []
  /-- One operator and its operand, then others. -/
  | cons {tok : Token} {arg : Expr} {node : Node} {rest : Chain} {nodes : List Node}
    (hpush : ∀ stack,pushExpr wordBits true arg stack=.ok (node::stack))
    (hsame : SameCode wordBits node (plainNode wordBits arg)) (hrest : ChainNodes rest nodes) :
    ChainNodes (.cons tok arg rest) (.token tok::node::nodes)

variable {wordBits}

theorem ListNodes.push {rest : Exprs} (h : ListNodes wordBits rest nodes) :
    nodes.length=rest.length ∧
    ∀ stack,pushExprs wordBits true rest stack=.ok (nodes.reverse++stack) := by
  induction h with
  | nil => exact ⟨rfl,fun stack => rfl⟩
  | cons hpush hsame hrest ih =>
    refine ⟨by rw [length_cons,ih.1,Exprs.length],fun stack => ?_⟩
    rw [pushExprs,hpush,reverse_cons,append_assoc]
    exact ih.2 _

variable {rest : Chain} {plain : Node}

theorem ChainNodes.push (h : ChainNodes wordBits rest nodes) :
    nodes.length=2*rest.length ∧
    ∀ stack,pushChain wordBits true rest stack=.ok (nodes.reverse++stack) := by
  induction h with
  | nil => exact ⟨rfl,fun stack => rfl⟩
  | cons hpush hsame hrest ih =>
    refine ⟨by rw [length_cons,length_cons,ih.1,Chain.length]; omega,fun stack => ?_⟩
    rw [pushChain,hpush,reverse_cons,reverse_cons,append_assoc,append_assoc]
    exact ih.2 _

/-- The code of the operands of `or` and `and` is that of the plain trees. -/
theorem ListNodes.evalOrAndTest_eq {rest : Exprs} (h : ListNodes wordBits rest nodes) (cond : Bool)
    (hsame : SameCode wordBits node plain) :
    evalOrAndTest wordBits m cond (node::nodes)=
      evalOrAndTest wordBits m cond (plain::plainNodes wordBits rest) := by
  induction h generalizing node plain with
  | nil => simp only [plainNodes,evalOrAndTest,hsame σ Ω ε m]
  | cons hpush hsame' hrest ih =>
    simp only [plainNodes,evalOrAndTest,hsame σ Ω ε m]
    rw [ih hsame']

/-- The same for the operands of a bit operator. -/
theorem ListNodes.evalBinaryOp_eq {rest : Exprs}
    (h : ListNodes wordBits rest nodes) (op : BinaryOp) (v : Value Ω) :
    evalBinaryOp wordBits m op v nodes=evalBinaryOp wordBits m op v (plainNodes wordBits rest) := by
  induction h generalizing v with
  | nil => rfl
  | cons hpush hsame hrest ih => simp only [plainNodes,evalBinaryOp,hsame σ Ω ε m,ih]

theorem ChainNodes.evalTerm_eq (h : ChainNodes wordBits rest nodes) (v : Value Ω) :
    evalTerm wordBits m v nodes=evalTerm wordBits m v (plainChain wordBits rest) := by
  induction h generalizing v with
  | nil => rfl
  | cons hpush hsame hrest ih => simp only [plainChain,evalTerm,hsame σ Ω ε m,ih]

theorem foldedInt_of_push {arg : Expr}
    (hpush : ∀ stack,pushExpr wordBits true arg stack=.ok (node::stack)) :
    foldedInt wordBits arg=getIntMaybe node := by
  rw [foldedInt,mpParse,hpush]

theorem foldTermStep_congr {node' : Node} (h : getIntMaybe node=getIntMaybe node')
    (arg0 : IntObj) (tok : Node) :
    foldTermStep wordBits arg0 tok node=foldTermStep wordBits arg0 tok node' := by
  unfold foldTermStep
  rw [h]

/-- The loop over a chain raises an overflow exactly for a count that is too
large, and what it computes is what the code of the chain computes. -/
theorem ChainNodes.foldTermLoop_spec (h : ChainNodes wordBits rest nodes) : ∀ arg0,
    (countTooLarge wordBits arg0 rest=true→
      ∀ stack,foldTermLoop wordBits (nodes.reverse++stack) nodes.length arg0=.error .overflow) ∧
    (countTooLarge wordBits arg0 rest=false→∃ folded,
      (∀ stack,foldTermLoop wordBits (nodes.reverse++stack) nodes.length arg0=.ok folded) ∧
      ∀ obj,folded=some obj→∀ {σ Ω ε : Type} (m : Machine σ Ω ε),
        evalTerm wordBits m (.int arg0) nodes=pure (.int obj)) := by
  induction h with
  | nil =>
    refine fun arg0 => ⟨nofun,fun _ => ⟨some arg0,fun _ => rfl,?_⟩⟩
    intro obj hobj σ Ω ε m
    rw [evalTerm.eq_def,Option.some.inj hobj]
  | @cons tok arg node rest nodes hpush hsame hrest ih =>
    intro arg0
    have hnode := foldedInt_of_push hpush
    -- one turn of the loop, with the rest of the nodes below the top
    have hturn (stack : List Node) :
        foldTermLoop wordBits ((.token tok::node::nodes).reverse++stack)
          (Node.token tok::node::nodes).length arg0=
        match foldTermStep wordBits arg0 (.token tok) node with
        | .error e => .error e
        | .ok none => .ok none
        | .ok (some arg0) =>
          foldTermLoop wordBits (nodes.reverse++(node::.token tok::stack)) nodes.length arg0 := by
      have hshape : (.token tok::node::nodes).reverse++stack=
          nodes.reverse++(node::.token tok::stack) := by simp
      have hpeek : peekResult (nodes.reverse++(node::.token tok::stack)) nodes.length=node := by
        simp [peekResult]
      have hpeekTok : peekResult (nodes.reverse++(node::.token tok::stack)) (nodes.length+1)=
          .token tok := by simp [peekResult]
      rw [hshape,length_cons,length_cons,foldTermLoop,hpeek,hpeekTok]
    rw [countTooLarge,hnode]
    cases hint : getIntMaybe node with
    | none =>
      refine ⟨nofun,fun _ => ⟨none,fun stack => ?_,fun obj hobj => nomatch hobj⟩⟩
      rw [hturn]
      unfold foldTermStep
      rw [hint]
    | some arg1 =>
      have hleaf : foldTermStep wordBits arg0 (.token tok) (newIntNode arg1)=
          foldTermStep wordBits arg0 (.token tok) node :=
        foldTermStep_congr (by rw [getIntMaybe_newIntNode,hint]) arg0 (.token tok)
      dsimp only
      rw [hleaf]
      by_cases hlarge : (tok=.opDblLess ∨ tok=.opDblMore) ∧ 0≤arg1.val ∧
          mpObjIntGetChecked wordBits arg1=none
      · have herror : foldTermStep wordBits arg0 (.token tok) node=.error .overflow :=
          (foldTermStep_error wordBits).mpr ⟨rfl,arg1,hint,hlarge⟩
        refine ⟨fun _ stack => ?_,fun h => ?_⟩
        · rw [hturn,herror]
        · rw [decide_eq_true hlarge,Bool.true_or] at h
          cases h
      · rw [decide_eq_false hlarge,Bool.false_or]
        cases hstep : foldTermStep wordBits arg0 (.token tok) node with
        | error e =>
          obtain ⟨_,arg,harg,hcount⟩ := (foldTermStep_error wordBits).mp hstep
          rw [hint] at harg
          obtain rfl := Option.some.inj harg
          exact absurd hcount hlarge
        | ok folded =>
          cases folded with
          | none =>
            refine ⟨nofun,fun _ => ⟨none,fun stack => ?_,fun obj hobj => nomatch hobj⟩⟩
            rw [hturn,hstep]
          | some obj₁ =>
            obtain ⟨hyes,hno⟩ := ih obj₁
            refine ⟨fun h stack => ?_,fun h => ?_⟩
            · rw [hturn,hstep]
              exact hyes h _
            · obtain ⟨folded,hloop,hcode⟩ := hno h
              refine ⟨folded,fun stack => ?_,fun obj hobj _ _ _ m => ?_⟩
              · rw [hturn,hstep]
                exact hloop _
              · obtain ⟨arg,harg,hop⟩ := foldTermStep_ok wordBits m hstep
                rw [evalTerm,eval_getIntMaybe wordBits m harg,pure_bind,hop,pure_bind,
                  hcode obj hobj m]

/-- Rules other than `or`, `and`, `not` and parentheses are folded to an int,
or become a node. -/
theorem pushResultRule_arith
    (hrule : rule≠.orTest ∧ rule≠.andTest ∧ rule≠.notTest2 ∧ rule≠.atomParen)
    (numArgs : ℕ) (stack : List Node) :
    pushResultRule wordBits true rule numArgs stack=
      match foldValue wordBits rule numArgs stack with
      | .error e => .error e
      | .ok (some obj) => .ok (newIntNode obj::stack.drop numArgs)
      | .ok none => .ok (makeNode rule numArgs stack) := by
  obtain ⟨hor,hand,hnot,hparen⟩ := hrule
  have hlogical : foldLogicalConstants rule numArgs stack=(stack,numArgs,false) := by
    rw [foldLogicalConstants,if_neg (not_or.mpr ⟨hor,hand⟩),if_neg hnot]
  rw [pushResultRule,if_neg hparen,if_neg (by decide),hlogical]
  dsimp only
  rw [foldConstants]
  cases foldValue wordBits rule numArgs stack with
  | error e => rfl
  | ok folded => cases folded <;> rfl

/-- The first operand is the one that lies deepest. -/
theorem foldFrom_reverse (first : Node) (nodes stack : List Node)
    (loop : List Node→ℕ→IntObj→Except IntError (Option IntObj)) :
    foldValue.foldFrom (nodes.length+1) ((first::nodes).reverse++stack) loop=
      match getIntMaybe first with
      | none => .ok none
      | some arg0 => loop (nodes.reverse++first::stack) nodes.length arg0 := by
  have hshape : (first::nodes).reverse++stack=nodes.reverse++first::stack := by simp
  have hpeek : peekResult (nodes.reverse++first::stack) nodes.length=first := by simp [peekResult]
  rw [hshape,foldValue.foldFrom,Nat.add_sub_cancel,hpeek]

theorem drop_args (first : Node) (nodes stack : List Node) :
    ((first::nodes).reverse++stack).drop (nodes.length+1)=stack :=
  drop_left' (by rw [length_reverse,length_cons])

/-- The operator of a bit rule. -/
def bitOp : ListRule→BinaryOp
  | .xorExpr => .xor
  | .andExpr => .and
  | _ => .or

/-- A rule whose operands a loop folds leaves a node with the code of the rule, when the loop
raises nothing and what it folds has that code. -/
theorem pushResultRule_folded
    (hrule : rule≠.orTest ∧ rule≠.andTest ∧ rule≠.notTest2 ∧ rule≠.atomParen) (first : Node)
    (nodes : List Node) {loop : List Node→ℕ→IntObj→Except IntError (Option IntObj)}
    (hvalue : ∀ numArgs stack,
      foldValue wordBits rule numArgs stack=foldValue.foldFrom numArgs stack loop)
    (hloop : ∀ arg0,getIntMaybe first=some arg0 → ∃ folded,
      (∀ stack,loop (nodes.reverse++stack) nodes.length arg0=.ok folded) ∧
      ∀ obj,folded=some obj→SameCode wordBits (newIntNode obj) (.struct rule (first::nodes))) :
    ∃ node,(∀ stack,pushResultRule wordBits true rule (nodes.length+1)
        ((first::nodes).reverse++stack)=.ok (node::stack)) ∧
      SameCode wordBits node (.struct rule (first::nodes)) := by
  have hmake (stack : List Node) : makeNode rule (nodes.length+1)
      ((first::nodes).reverse++stack)=.struct rule (first::nodes)::stack :=
    makeNode_reverse rule (first::nodes) stack
  cases hint : getIntMaybe first with
  | none =>
    refine ⟨_,fun stack => ?_,fun _ _ _ m => rfl⟩
    rw [pushResultRule_arith hrule,hvalue,foldFrom_reverse,hint]
    rw [hmake]
  | some arg0 =>
    obtain ⟨folded,hfolded,hcode⟩ := hloop arg0 hint
    cases folded with
    | none =>
      refine ⟨_,fun stack => ?_,fun _ _ _ m => rfl⟩
      rw [pushResultRule_arith hrule,hvalue,foldFrom_reverse,hint]
      dsimp only
      rw [hfolded]
      dsimp only
      rw [hmake]
    | some obj =>
      refine ⟨newIntNode obj,fun stack => ?_,hcode obj rfl⟩
      rw [pushResultRule_arith hrule,hvalue,foldFrom_reverse,hint]
      dsimp only
      rw [hfolded]
      dsimp only
      rw [drop_args]

/-- Folding of `|`, `^` and `&` raises nothing, and its code is that of the
operands. -/
theorem pushResultRule_bit {rule : ListRule} (hrule : rule.rule≠.orTest ∧ rule.rule≠.andTest)
    (first : Node) (nodes : List Node) :
    ∃ node,(∀ stack,pushResultRule wordBits true rule.rule (nodes.length+1)
        ((first::nodes).reverse++stack)=.ok (node::stack)) ∧
      SameCode wordBits node (.struct rule.rule (first::nodes)) := by
  obtain ⟨hor,hand⟩ := hrule
  have hbit : bitOp rule=.or ∨ bitOp rule=.xor ∨ bitOp rule=.and := by
    cases rule <;> simp [bitOp]
  refine @pushResultRule_folded wordBits rule.rule ⟨hor,hand,?_,?_⟩ first nodes
    (foldBitLoop wordBits (bitOp rule)) (fun _ _ => ?_) fun arg0 hint => ?_
  · cases rule <;> decide
  · cases rule <;> decide
  · cases rule <;> first
      | exact absurd rfl hor
      | exact absurd rfl hand
      | rfl
  · obtain ⟨folded,hloop,hcode⟩ := foldBitLoop_spec wordBits hbit nodes arg0
    refine ⟨folded,hloop,fun obj hobj σ Ω ε m => ?_⟩
    have hstruct : eval wordBits m (.struct rule.rule (first::nodes))=
        eval wordBits m first >>= fun v => evalBinaryOp wordBits m (bitOp rule) v nodes := by
      cases rule <;> first
        | exact absurd rfl hor
        | exact absurd rfl hand
        | rfl
    rw [hstruct,eval_newIntNode,eval_getIntMaybe wordBits m hint,pure_bind,hcode obj hobj m]

/-- Folding of a chain overflows exactly for a count that is too large, and
otherwise its code is that of the operators and operands. -/
theorem pushResultRule_chain (rule : ChainRule) (first : Node)
    (h : ChainNodes wordBits rest nodes) :
    ((∃ arg0,getIntMaybe first=some arg0 ∧ countTooLarge wordBits arg0 rest=true)→
      ∀ stack,pushResultRule wordBits true rule.rule (nodes.length+1)
        ((first::nodes).reverse++stack)=.error .overflow) ∧
    ((∀ arg0,getIntMaybe first=some arg0 → countTooLarge wordBits arg0 rest=false)→
      ∃ node,(∀ stack,pushResultRule wordBits true rule.rule (nodes.length+1)
          ((first::nodes).reverse++stack)=.ok (node::stack)) ∧
        SameCode wordBits node (.struct rule.rule (first::nodes))) := by
  have harith : rule.rule≠.orTest ∧ rule.rule≠.andTest ∧ rule.rule≠.notTest2 ∧
      rule.rule≠.atomParen := by cases rule <;> decide
  have hvalue (numArgs : ℕ) (stack : List Node) : foldValue wordBits rule.rule numArgs stack=
      foldValue.foldFrom numArgs stack (foldTermLoop wordBits) := by cases rule <;> rfl
  constructor
  · intro ⟨arg0,hint,hlarge⟩ stack
    rw [pushResultRule_arith harith,hvalue,foldFrom_reverse,hint]
    dsimp only
    rw [(h.foldTermLoop_spec arg0).1 hlarge]
  · intro hsmall
    refine pushResultRule_folded harith first nodes hvalue fun arg0 hint => ?_
    obtain ⟨folded,hloop,hcode⟩ := (h.foldTermLoop_spec arg0).2 (hsmall arg0 hint)
    refine ⟨folded,hloop,fun obj hobj σ Ω ε m => ?_⟩
    have hstruct : eval wordBits m (.struct rule.rule (first::nodes))=
        eval wordBits m first >>= fun v => evalTerm wordBits m v nodes := by
      cases rule <;> rfl
    rw [hstruct,eval_newIntNode,eval_getIntMaybe wordBits m hint,pure_bind,hcode obj hobj m]

/-- Folding of a factor raises nothing, and its code is that of the operator. -/
theorem pushResultRule_factor (tok : Token) (arg : Node) : ∃ node,
    (∀ stack,pushResultRule wordBits true .factor2 2 (arg::.token tok::stack)=.ok (node::stack)) ∧
    ∀ {σ Ω ε : Type} (m : Machine σ Ω ε),eval wordBits m node=
      eval wordBits m arg >>= fun v => unaryOp wordBits m (factorOp (.token tok)) v := by
  have harith : Rule.factor2≠.orTest ∧ Rule.factor2≠.andTest ∧ Rule.factor2≠.notTest2 ∧
      Rule.factor2≠.atomParen := by decide
  have hvalue (stack : List Node) : foldValue wordBits .factor2 2 (arg::.token tok::stack)=
      match getIntMaybe arg with
      | none => .ok none
      | some arg0 => .ok (some (mpUnaryOp wordBits (factorOp (.token tok)) arg0)) := rfl
  cases hint : getIntMaybe arg with
  | none =>
    refine ⟨.struct .factor2 [.token tok,arg],fun stack => ?_,fun m => rfl⟩
    rw [pushResultRule_arith harith,hvalue,hint]
    rfl
  | some arg0 =>
    refine ⟨newIntNode (mpUnaryOp wordBits (factorOp (.token tok)) arg0),fun stack => ?_,
      fun m => ?_⟩
    · rw [pushResultRule_arith harith,hvalue,hint]
      rfl
    · rw [eval_newIntNode,eval_getIntMaybe wordBits m hint,pure_bind]
      rfl

/-- Folding of `not` raises nothing, and its code is that of the operator. -/
theorem pushResultRule_not (arg : Node) : ∃ node,
    (∀ stack,pushResultRule wordBits true .notTest2 1 (arg::stack)=.ok (node::stack)) ∧
    ∀ {σ Ω ε : Type} (m : Machine σ Ω ε),eval wordBits m node=
      eval wordBits m arg >>= fun v => isTrue m v >>= fun b => pure (.bool (decide (b=false))) := by
  have hpeek (stack : List Node) : peekResult (arg::stack) 0=arg := rfl
  by_cases hfalse : isConstFalse arg=true
  · refine ⟨.token .kwTrue,fun stack => ?_,fun m => ?_⟩
    · rw [pushResultRule,if_neg (by decide),if_neg (by decide),foldLogicalConstants,
        if_neg (by decide),if_pos rfl,hpeek]
      simp only [hfalse,if_true]
      rfl
    · obtain ⟨v,heval,htrue⟩ := eval_constFalse wordBits m hfalse
      rw [heval,pure_bind,htrue,pure_bind]
      rfl
  · by_cases htrue : isConstTrue arg=true
    · refine ⟨.token .kwFalse,fun stack => ?_,fun m => ?_⟩
      · rw [pushResultRule,if_neg (by decide),if_neg (by decide),foldLogicalConstants,
          if_neg (by decide),if_pos rfl,hpeek]
        simp only [hfalse,htrue,if_true]
        rfl
      · obtain ⟨v,heval,htrue⟩ := eval_constTrue wordBits m htrue
        rw [heval,pure_bind,htrue,pure_bind]
        rfl
    · refine ⟨.struct .notTest2 [arg],fun stack => ?_,fun m => rfl⟩
      rw [pushResultRule,if_neg (by decide),if_neg (by decide),foldLogicalConstants,
        if_neg (by decide),if_pos rfl,hpeek]
      simp only [hfalse,htrue]
      rfl

/-- What the parser with folding does on an expression, by the shifts in it. -/
def PushSpec (wordBits : ℕ) (e : Expr) : Prop :=
  (oversizedShift wordBits e=true→
    ∀ stack,pushExpr wordBits true e stack=.error .overflow) ∧
  (oversizedShift wordBits e=false→∃ node,
    (∀ stack,pushExpr wordBits true e stack=.ok (node::stack)) ∧
    SameCode wordBits node (plainNode wordBits e))

/-- A list rule over operands that fold well folds well. -/
theorem endList_list (rule : ListRule) (hsame : SameCode wordBits node plain)
    {rest : Exprs} (h : ListNodes wordBits rest nodes) :
    ∃ result,(∀ stack,endList wordBits true rule.rule (1+rest.length)
        (nodes.reverse++node::stack)=.ok (result::stack)) ∧
      SameCode wordBits result (if rest.length=0 then plain
        else .struct rule.rule (plain::plainNodes wordBits rest)) := by
  have hlen : nodes.length=rest.length := h.push.1
  have hcount : 1+rest.length=nodes.length+1 := by omega
  have hshape (stack : List Node) : nodes.reverse++node::stack=(node::nodes).reverse++stack := by
    simp
  by_cases hnil : rest.length=0
  · refine ⟨node,fun stack => ?_,by rw [if_pos hnil]; exact hsame⟩
    rw [endList,if_pos (by omega),length_eq_zero_iff.mp (hlen.trans hnil)]
    rfl
  · rw [if_neg hnil]
    have hlogical (cond : Bool) (hrule : rule.rule=logicalRule cond) : ∃ result,
        (∀ stack,endList wordBits true rule.rule (1+rest.length)
          (nodes.reverse++node::stack)=.ok (result::stack)) ∧
        SameCode wordBits result (.struct rule.rule (plain::plainNodes wordBits rest)) := by
      obtain ⟨result,hpush,hcode⟩ := pushResultRule_logical wordBits cond (cons_ne_nil node nodes)
      refine ⟨result,fun stack => ?_,fun σ Ω ε m => ?_⟩
      · rw [endList,if_neg (by omega),hcount,hshape,hrule]
        exact hpush stack
      · rw [hcode m,h.evalOrAndTest_eq m cond hsame,hrule]
        cases cond <;> simp [logicalRule,eval]
    have hbit (hrule : rule.rule≠.orTest ∧ rule.rule≠.andTest) : ∃ result,
        (∀ stack,endList wordBits true rule.rule (1+rest.length)
          (nodes.reverse++node::stack)=.ok (result::stack)) ∧
        SameCode wordBits result (.struct rule.rule (plain::plainNodes wordBits rest)) := by
      obtain ⟨result,hpush,hcode⟩ := pushResultRule_bit hrule node nodes
      refine ⟨result,fun stack => ?_,fun σ Ω ε m => ?_⟩
      · rw [endList,if_neg (by omega),hcount,hshape]
        exact hpush stack
      · rw [hcode σ Ω ε m]
        cases rule <;> first
          | exact absurd rfl hrule.1
          | exact absurd rfl hrule.2
          | simp [ListRule.rule,eval,hsame σ Ω ε m,h.evalBinaryOp_eq m]
    cases rule with
    | orTest => exact hlogical true rfl
    | andTest => exact hlogical false rfl
    | expr => exact hbit (by decide)
    | xorExpr => exact hbit (by decide)
    | andExpr => exact hbit (by decide)

/-- A chain rule over operands that fold well overflows exactly for a count
that is too large, and folds well otherwise. -/
theorem endList_chain (rule : ChainRule) (hsame : SameCode wordBits node plain)
    (h : ChainNodes wordBits rest nodes) :
    ((∃ arg0,getIntMaybe node=some arg0 ∧ countTooLarge wordBits arg0 rest=true)→
      ∀ stack,endList wordBits true rule.rule (1+2*rest.length) (nodes.reverse++node::stack)=
        .error .overflow) ∧
    ((∀ arg0,getIntMaybe node=some arg0 → countTooLarge wordBits arg0 rest=false)→
      ∃ result,(∀ stack,endList wordBits true rule.rule (1+2*rest.length)
          (nodes.reverse++node::stack)=.ok (result::stack)) ∧
        SameCode wordBits result (if rest.length=0 then plain
          else .struct rule.rule (plain::plainChain wordBits rest))) := by
  have hlen : nodes.length=2*rest.length := h.push.1
  have hcount : 1+2*rest.length=nodes.length+1 := by omega
  have hshape (stack : List Node) : nodes.reverse++node::stack=(node::nodes).reverse++stack := by
    simp
  obtain ⟨hlarge,hsmall⟩ := pushResultRule_chain rule node h
  by_cases hnil : rest.length=0
  · have hrest : rest=.nil := by
      cases rest with
      | nil => rfl
      | cons tok arg rest => exact absurd hnil (succ_ne_zero _)
    subst hrest
    refine ⟨(fun ⟨arg0,_,hcountLarge⟩ => nomatch hcountLarge),fun _ => ?_⟩
    refine ⟨node,fun stack => ?_,by rw [if_pos hnil]; exact hsame⟩
    have hnodes : nodes=[] := length_eq_zero_iff.mp (by omega)
    rw [endList,if_pos (by omega),hnodes]
    rfl
  · rw [if_neg hnil]
    refine ⟨fun hcond stack => ?_,fun hcond => ?_⟩
    · rw [endList,if_neg (by omega),hcount,hshape]
      exact hlarge hcond stack
    · obtain ⟨result,hpush,hcode⟩ := hsmall hcond
      refine ⟨result,fun stack => ?_,fun σ Ω ε m => ?_⟩
      · rw [endList,if_neg (by omega),hcount,hshape]
        exact hpush stack
      · rw [hcode σ Ω ε m]
        cases rule <;> simp [ChainRule.rule,eval,hsame σ Ω ε m,h.evalTerm_eq m]

mutual
/-- The parser with folding raises an overflow exactly for an oversized shift,
and otherwise leaves a node with the code of the plain tree. -/
theorem pushExpr_spec : ∀ e : Expr,PushSpec wordBits e
  | .int n => by
    refine ⟨nofun,fun _ => ⟨newIntNode (mpObjNewInt wordBits n),fun stack => ?_,?_⟩⟩
    · rw [pushExpr]
    · rw [plainNode]
      exact fun _ _ _ _ => rfl
  | .bool b => by
    refine ⟨nofun,fun _ => ⟨.token (if b=true then .kwTrue else .kwFalse),fun stack => ?_,?_⟩⟩
    · rw [pushExpr]
    · rw [plainNode]
      exact fun _ _ _ _ => rfl
  | .operand i => by
    refine ⟨nofun,fun _ => ⟨.operand i,fun stack => ?_,?_⟩⟩
    · rw [pushExpr]
    · rw [plainNode]
      exact fun _ _ _ _ => rfl
  | .list rule first rest => by
    obtain ⟨hfirstError,hfirstOk⟩ := pushExpr_spec first
    obtain ⟨hrestError,hrestOk⟩ := pushExprs_spec rest
    cases hfirst : oversizedShift wordBits first with
    | true =>
      refine ⟨fun _ stack => ?_,fun h => by simp [oversizedShift,hfirst] at h⟩
      rw [pushExpr,hfirstError hfirst]
      rfl
    | false =>
      obtain ⟨node,hpush,hsame⟩ := hfirstOk hfirst
      cases hrest : oversizedShifts wordBits rest with
      | true =>
        refine ⟨fun _ stack => ?_,fun h => by simp [oversizedShift,hfirst,hrest] at h⟩
        rw [pushExpr,hpush]
        simp only [bind,Except.bind]
        rw [hrestError hrest]
      | false =>
        obtain ⟨nodes,hnodes⟩ := hrestOk hrest
        obtain ⟨result,hend,hcode⟩ := endList_list rule hsame hnodes
        refine ⟨fun h => by simp [oversizedShift,hfirst,hrest] at h,
          fun _ => ⟨result,fun stack => ?_,?_⟩⟩
        · rw [pushExpr,hpush]
          simp only [bind,Except.bind]
          rw [hnodes.push.2]
          exact hend stack
        · rw [plainNode]
          exact hcode
  | .chain rule first rest => by
    obtain ⟨hfirstError,hfirstOk⟩ := pushExpr_spec first
    obtain ⟨hrestError,hrestOk⟩ := pushChain_spec rest
    cases hfirst : oversizedShift wordBits first with
    | true =>
      refine ⟨fun _ stack => ?_,fun h => by simp [oversizedShift,hfirst] at h⟩
      rw [pushExpr,hfirstError hfirst]
      rfl
    | false =>
      obtain ⟨node,hpush,hsame⟩ := hfirstOk hfirst
      cases hrest : oversizedInChain wordBits rest with
      | true =>
        refine ⟨fun _ stack => ?_,fun h => by simp [oversizedShift,hfirst,hrest] at h⟩
        rw [pushExpr,hpush]
        simp only [bind,Except.bind]
        rw [hrestError hrest]
      | false =>
        obtain ⟨nodes,hnodes⟩ := hrestOk hrest
        obtain ⟨hlarge,hsmall⟩ := endList_chain rule hsame hnodes
        have hint := foldedInt_of_push hpush
        have hrun (stack : List Node) : pushExpr wordBits true (.chain rule first rest) stack=
            endList wordBits true rule.rule (1+2*rest.length) (nodes.reverse++node::stack) := by
          rw [pushExpr,hpush]
          simp only [bind,Except.bind]
          rw [hnodes.push.2]
        refine ⟨fun h stack => ?_,fun h => ?_⟩
        · rw [oversizedShift,hfirst,hrest,hint] at h
          rw [hrun]
          cases hfold : getIntMaybe node with
          | none => simp [hfold] at h
          | some arg0 => exact hlarge ⟨arg0,hfold,by simpa [hfold] using h⟩ stack
        · rw [oversizedShift,hfirst,hrest,hint] at h
          obtain ⟨result,hend,hcode⟩ := hsmall fun arg0 hfold => by simpa [hfold] using h
          refine ⟨result,fun stack => by rw [hrun,hend],?_⟩
          rw [plainNode]
          exact hcode
  | .factor tok arg => by
    obtain ⟨herror,hok⟩ := pushExpr_spec arg
    refine ⟨fun h stack => ?_,fun h => ?_⟩
    · rw [oversizedShift] at h
      rw [pushExpr,herror h]
      rfl
    · rw [oversizedShift] at h
      obtain ⟨node,hpush,hsame⟩ := hok h
      obtain ⟨result,hrule,hcode⟩ := @pushResultRule_factor wordBits tok node
      refine ⟨result,fun stack => ?_,fun σ Ω ε m => ?_⟩
      · rw [pushExpr,hpush]
        exact hrule stack
      · rw [hcode m,hsame σ Ω ε m,plainNode]
        rfl
  | .not arg => by
    obtain ⟨herror,hok⟩ := pushExpr_spec arg
    refine ⟨fun h stack => ?_,fun h => ?_⟩
    · rw [oversizedShift] at h
      rw [pushExpr,herror h]
      rfl
    · rw [oversizedShift] at h
      obtain ⟨node,hpush,hsame⟩ := hok h
      obtain ⟨result,hrule,hcode⟩ := @pushResultRule_not wordBits node
      refine ⟨result,fun stack => ?_,fun σ Ω ε m => ?_⟩
      · rw [pushExpr,hpush]
        exact hrule stack
      · rw [hcode m,hsame σ Ω ε m,plainNode]
        rfl
  | .paren arg => by
    obtain ⟨herror,hok⟩ := pushExpr_spec arg
    refine ⟨fun h stack => ?_,fun h => ?_⟩
    · rw [oversizedShift] at h
      rw [pushExpr,herror h]
      rfl
    · rw [oversizedShift] at h
      obtain ⟨node,hpush,hsame⟩ := hok h
      refine ⟨node,fun stack => ?_,?_⟩
      · rw [pushExpr,hpush]
        rfl
      · rw [plainNode]
        exact hsame

/-- The same for the operands of a list. -/
theorem pushExprs_spec : ∀ rest : Exprs,(oversizedShifts wordBits rest=true→
      ∀ stack,pushExprs wordBits true rest stack=.error .overflow) ∧
    (oversizedShifts wordBits rest=false→∃ nodes,ListNodes wordBits rest nodes)
  | .nil => ⟨nofun,fun _ => ⟨[],.nil⟩⟩
  | .cons arg rest => by
    obtain ⟨hargError,hargOk⟩ := pushExpr_spec arg
    obtain ⟨hrestError,hrestOk⟩ := pushExprs_spec rest
    cases harg : oversizedShift wordBits arg with
    | true =>
      refine ⟨fun _ stack => ?_,fun h => by simp [oversizedShifts,harg] at h⟩
      rw [pushExprs,hargError harg]
      rfl
    | false =>
      obtain ⟨node,hpush,hsame⟩ := hargOk harg
      refine ⟨fun h stack => ?_,fun h => ?_⟩
      · rw [oversizedShifts,harg,Bool.false_or] at h
        rw [pushExprs,hpush]
        exact hrestError h _
      · rw [oversizedShifts,harg,Bool.false_or] at h
        obtain ⟨nodes,hnodes⟩ := hrestOk h
        exact ⟨node::nodes,.cons hpush hsame hnodes⟩

/-- The same for a chain. -/
theorem pushChain_spec : ∀ rest : Chain,(oversizedInChain wordBits rest=true→
      ∀ stack,pushChain wordBits true rest stack=.error .overflow) ∧
    (oversizedInChain wordBits rest=false→∃ nodes,ChainNodes wordBits rest nodes)
  | .nil => ⟨nofun,fun _ => ⟨[],.nil⟩⟩
  | .cons tok arg rest => by
    obtain ⟨hargError,hargOk⟩ := pushExpr_spec arg
    obtain ⟨hrestError,hrestOk⟩ := pushChain_spec rest
    cases harg : oversizedShift wordBits arg with
    | true =>
      refine ⟨fun _ stack => ?_,fun h => by simp [oversizedInChain,harg] at h⟩
      rw [pushChain,hargError harg]
      rfl
    | false =>
      obtain ⟨node,hpush,hsame⟩ := hargOk harg
      refine ⟨fun h stack => ?_,fun h => ?_⟩
      · rw [oversizedInChain,harg,Bool.false_or] at h
        rw [pushChain,hpush]
        exact hrestError h _
      · rw [oversizedInChain,harg,Bool.false_or] at h
        obtain ⟨nodes,hnodes⟩ := hrestOk h
        exact ⟨.token tok::node::nodes,.cons hpush hsame hnodes⟩
end

/-- Folding keeps the meaning of an expression exactly if the parser meets no
shift of constants whose count is not a machine word. -/
theorem foldsFaithfully_iff (e : Expr) :
    FoldsFaithfully wordBits e ↔ oversizedShift wordBits e=false := by
  obtain ⟨herror,hok⟩ := @pushExpr_spec wordBits e
  constructor
  · intro ⟨root,plain,hfold,_,_⟩
    cases hshift : oversizedShift wordBits e with
    | false => rfl
    | true =>
      rw [mpParse,herror hshift] at hfold
      cases hfold
  · intro hshift
    obtain ⟨root,hpush,hsame⟩ := hok hshift
    exact ⟨root,plainNode wordBits e,hpush [],pushExpr_plain wordBits e [],hsame⟩

/-- `f() | (1 << 1099511627776)` with words of 32 bits: the parser raises an
OverflowError, where the plain tree evaluates `f()` first. -/
theorem hugeShift_unfaithful : ¬FoldsFaithfully 32 (.list .expr (.operand 0)
      (.cons (.paren (.chain .shiftExpr (.int 1) (.cons .opDblLess (.int 1099511627776) .nil)))
        .nil)) := by
  intro ⟨root,plain,hfold,_,_⟩
  have herror : mpParse 32 true (.list .expr (.operand 0)
      (.cons (.paren (.chain .shiftExpr (.int 1) (.cons .opDblLess (.int 1099511627776) .nil)))
        .nil))=.error .overflow := by rfl
  rw [herror] at hfold
  cases hfold

end MicroPython.FoldConstants
