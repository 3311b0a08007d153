import Mathlib.Algebra.GroupWithZero.Nat
import Mathlib.Data.List.Basic

/-!
# Classification of names in the scope pass

The first pass of the compiler runs over the scopes of a module in the order
in which they are met. Each use of a name classifies it in its scope at once,
with the help of the tables of the enclosing scopes, and a declaration may
only come first. Python instead collects all uses of a name in a scope before
it classifies the name.
-/

namespace MicroPython.ScopePass

/-- `scope_kind_t`. -/
inductive ScopeKind where
  /-- `SCOPE_MODULE` -/
  | module
  /-- `SCOPE_CLASS` -/
  | classDef
  /-- `SCOPE_LAMBDA` -/
  | lambda
  /-- `SCOPE_LIST_COMP` -/
  | listComp
  /-- `SCOPE_DICT_COMP` -/
  | dictComp
  /-- `SCOPE_SET_COMP` -/
  | setComp
  /-- `SCOPE_GEN_EXPR` -/
  | genExpr
  /-- `SCOPE_FUNCTION` -/
  | function
  deriving DecidableEq

/-- `SCOPE_IS_FUNC_LIKE`. -/
def ScopeKind.isFuncLike : ScopeKind→Bool
  | .module | .classDef => false
  | _ => true

/-- The kinds of an identifier in the table of a scope. -/
inductive IdKind where
  /-- `ID_INFO_KIND_GLOBAL_IMPLICIT`, accessed by name at run time. -/
  | globalImplicit
  /-- `ID_INFO_KIND_GLOBAL_EXPLICIT` -/
  | globalExplicit
  /-- `ID_INFO_KIND_LOCAL` -/
  | local
  /-- `ID_INFO_KIND_CELL`, a local used by an inner scope. -/
  | cell
  /-- `ID_INFO_KIND_FREE`, closed over from an outer scope. -/
  | free
  deriving DecidableEq

/-- What the body of a scope does with names, in source order. -/
inductive Use where
  | param (x : String)
  | load (x : String)
  /-- A store, including definitions, imports and loop targets. -/
  | store (x : String)
  | delete (x : String)
  /-- A `global` declaration. -/
  | global (x : String)
  /-- A `nonlocal` declaration. -/
  | nonlocal (x : String)
  | scope (kind : ScopeKind) (body : List Use)

/-- The uses that the compiler adds before those of the source: the iterator
of a comprehension, and the attributes that every class body sets. -/
def implicitUses : ScopeKind→List Use
  | .classDef => [.load "__name__",.store "__module__",.store "__qualname__"]
  | .listComp | .dictComp | .setComp | .genExpr => [.param "",.load ""]
  | _ => []

/-- A scope in the list of the compiler. -/
structure Scope where
  kind : ScopeKind
  /-- The chain of parent pointers, as positions in the list, nearest first.
  The last one is the module, which has no parent. -/
  ancestors : List ℕ
  /-- All uses of names in order. -/
  uses : List Use

/-- The compiler state of the pass. -/
structure State where
  scopes : List Scope
  /-- The table of each scope; the order of its entries is left out. -/
  kindOf : ℕ→String→Option IdKind

/-- Set the kind of an identifier, which is added if it is new. -/
def State.put (state : State) (i : ℕ) (x : String) (kind : IdKind) : State :=
  {state with kindOf := fun j y => if j=i ∧ y=x then some kind else state.kindOf j y}

/-- The errors of the pass. -/
inductive SyntaxError where
  /-- "name reused for argument" -/
  | nameReused (x : String)
  /-- "identifier redefined as global" -/
  | redefinedGlobal (x : String)
  /-- "no binding for nonlocal found" -/
  | noBinding (x : String)
  /-- "identifier redefined as nonlocal" -/
  | redefinedNonlocal (x : String)
  /-- "can't declare nonlocal in outer code" -/
  | nonlocalInModule (x : String)

/-- The loop of `scope_find_local_and_close_over`: whether the first table
below the module that knows the name has it as a variable. -/
def findLocal (state : State) (x : String) : List ℕ→Bool
  | [] => false
  | [_] => false
  | s::s'::rest => match state.kindOf s x with
    | some .local | some .cell | some .free => true
    | some _ => false
    | none => findLocal state x (s'::rest)

/-- `scope_close_over_in_parents`. -/
def closeOverInParents (state : State) (x : String) : List ℕ→State
  | [] => state
  | s::rest => match state.kindOf s x with
    | none => closeOverInParents (state.put s x .free) x rest
    | some .local => state.put s x .cell
    | some _ => state

/-- `scope_find_local_and_close_over`. -/
def findLocalAndCloseOver (state : State) (ancestors : List ℕ) (i : ℕ) (x : String) : State :=
  if findLocal state x ancestors=true then
    closeOverInParents (state.put i x .free) x ancestors
  else state.put i x .globalImplicit

/-- `mp_emit_common_get_id_for_load`. -/
def getIdForLoad (state : State) (ancestors : List ℕ) (i : ℕ) (x : String) : State :=
  match state.kindOf i x with
  | some _ => state
  | none => findLocalAndCloseOver state ancestors i x

/-- `mp_emit_common_get_id_for_modification`. -/
def getIdForModification (state : State) (kind : ScopeKind) (i : ℕ) (x : String) : State :=
  match state.kindOf i x with
  | none => state.put i x (if kind.isFuncLike=true then .local else .globalImplicit)
  | some .globalImplicit => if kind.isFuncLike=true then state.put i x .local else state
  | some _ => state

/-- `compile_declare_global`. The module is the outermost scope, which may be
the current one. -/
def declareGlobal (state : State) (ancestors : List ℕ) (i : ℕ) (x : String) :
    Except SyntaxError State :=
  let declare := fun state : State =>
    let m := ancestors.getLastD i
    match state.kindOf m x with
    | none => state
    | some _ => state.put m x .globalExplicit
  match state.kindOf i x with
  | none | some .globalExplicit => .ok (declare (state.put i x .globalExplicit))
  | some _ => .error (.redefinedGlobal x)

/-- `compile_nonlocal_stmt` and `compile_declare_nonlocal`. -/
def declareNonlocal (state : State) (kind : ScopeKind) (ancestors : List ℕ) (i : ℕ)
    (x : String) : Except SyntaxError State :=
  if kind=.module then .error (.nonlocalInModule x)
  else match state.kindOf i x with
    | none =>
      let state := findLocalAndCloseOver state ancestors i x
      if state.kindOf i x=some .globalImplicit then .error (.noBinding x) else .ok state
    | some .free => .ok state
    | some _ => .error (.redefinedNonlocal x)

/-- A parameter, in `compile_scope_func_lambda_param`. -/
def declareParam (state : State) (i : ℕ) (x : String) : Except SyntaxError State :=
  match state.kindOf i x with
  | none => .ok (state.put i x .local)
  | some _ => .error (.nameReused x)

/-- One use in the current scope. -/
def runUse (kind : ScopeKind) (ancestors : List ℕ) (i : ℕ) (state : State) :
    Use→Except SyntaxError State
  | .param x => declareParam state i x
  | .load x => .ok (getIdForLoad state ancestors i x)
  | .store x | .delete x => .ok (getIdForModification state kind i x)
  | .global x => declareGlobal state ancestors i x
  | .nonlocal x => declareNonlocal state kind ancestors i x
  | .scope inner body =>
    -- `scope_new_and_link`: the new scope goes to the end of the list
    .ok {state with scopes := state.scopes++[⟨inner,i::ancestors,implicitUses inner++body⟩]}

/-- The uses of the current scope in order. -/
def runUses (kind : ScopeKind) (ancestors : List ℕ) (i : ℕ) (state : State) :
    List Use→Except SyntaxError State
  | [] => .ok state
  | use::uses => match runUse kind ancestors i state use with
    | .error e => .error e
    | .ok state => runUses kind ancestors i state uses

/-- `compile_scope` in the scope pass. A class starts with `__class__`. -/
def compileScope (state : State) (i : ℕ) (scope : Scope) : Except SyntaxError State :=
  let state := if scope.kind=.classDef then state.put i "__class__" .local else state
  runUses scope.kind scope.ancestors i state scope.uses

/-- The loop of `mp_compile_to_raw_code` over the list of scopes, from
position `i` on. The fuel bounds the number of scopes. -/
def compileScopes : ℕ→ℕ→State→Except SyntaxError State
  | 0,_,state => .ok state
  | fuel+1,i,state => match state.scopes[i]? with
    | none => .ok state
    | some scope => match compileScope state i scope with
      | .error e => .error e
      | .ok state => compileScopes fuel (i+1) state

mutual
/-- Number of scopes that a use starts, with those inside. -/
def Use.scopeCount : Use→ℕ
  | .scope _ body => scopeCounts body+1
  | _ => 0

/-- Number of scopes inside a body. -/
def scopeCounts : List Use→ℕ
  | [] => 0
  | use::uses => use.scopeCount+scopeCounts uses
end

/-- The scope pass of a module. -/
def scopePass (body : List Use) : Except SyntaxError State :=
  compileScopes (scopeCounts body+1) 0 ⟨[⟨.module,[],body⟩],fun _ _ => none⟩

end MicroPython.ScopePass
