import MicroPython.ScopePass

/-!
# Lexical scoping of Python

What Python makes of the uses of names in the scopes of a module, and what it
means that the tables of the pass say the same. Python first collects all uses
of a name in a scope, and looks for a binding in the functions around it only
then. The conditions under which the pass can decide at the first use instead
are stated here as well.
-/

namespace MicroPython.ScopePass

/-- A scope without its place in the list. -/
structure Block where
  kind : ScopeKind
  /-- All uses of names in order. -/
  uses : List Use

/-- The scopes of a module, each with the scopes around it, nearest first. -/
inductive Path (body : List Use) : List Block→Prop where
  | module : Path body [⟨.module,body⟩]
  | inner {block : Block} {outer : List Block} {kind : ScopeKind} {inside : List Use}
    (houter : Path body (block::outer)) (huse : .scope kind inside∈block.uses) :
    Path body (⟨kind,implicitUses kind++inside⟩::block::outer)

/-- The use is one of the name. -/
def Use.mentions (x : String) : Use→Bool
  | .param y | .load y | .store y | .delete y | .global y | .nonlocal y => decide (y=x)
  | .scope _ _ => false

/-- The use binds the name. -/
def Use.binds (x : String) : Use→Bool
  | .param y | .store y | .delete y => decide (y=x)
  | _ => false

/-- The scope uses the name. -/
def Block.mentions (block : Block) (x : String) : Prop := ∃ use∈block.uses,use.mentions x=true

/-- The scope declares the name global. -/
def Block.declaresGlobal (block : Block) (x : String) : Prop := .global x∈block.uses

/-- The scope declares the name nonlocal. -/
def Block.declaresNonlocal (block : Block) (x : String) : Prop := .nonlocal x∈block.uses

/-- The scope binds the name without declaring it. -/
def Block.bindsOwn (block : Block) (x : String) : Prop :=
  ¬block.declaresGlobal x ∧ ¬block.declaresNonlocal x ∧ ∃ use∈block.uses,use.binds x=true

/-- Inner scopes see the name as a variable of this scope: a function binds
it, or it is the `__class__` of a class. -/
def Block.bindsForInner (block : Block) (x : String) : Prop :=
  (block.kind.isFuncLike=true ∧ block.bindsOwn x) ∨ (block.kind=.classDef ∧ x="__class__")

/-- Python's search of an enclosing function scope that binds the name. It
skips class scopes, and a function that declares the name global ends it. -/
def PyEnclosed (x : String) : List Block→Prop
  | [] => False
  | [_] => False
  | block::next::outer => block.bindsForInner x ∨
    (¬(block.kind.isFuncLike=true ∧ block.declaresGlobal x) ∧ PyEnclosed x (next::outer))

/-- The classes of Python's lexical scoping. -/
inductive PyScope where
  | local
  /-- Bound in this class or module, so kept in its namespace. -/
  | namespace
  /-- Closed over from an enclosing function scope. -/
  | free
  | globalExplicit
  | globalImplicit

open Classical in
/-- Python's class of a name in a scope, from all its uses there. -/
noncomputable def pyScope (x : String) (block : Block) (outer : List Block) : PyScope :=
  if block.declaresGlobal x then .globalExplicit
  else if block.declaresNonlocal x then .free
  else if block.bindsOwn x then if block.kind.isFuncLike=true then .local else .namespace
  else if PyEnclosed x outer then .free else .globalImplicit

/-- Python accepts the uses of a scope: declarations come before other uses,
a `nonlocal` name is bound in an enclosing function, and parameters differ. -/
structure PyAccepts (block : Block) (outer : List Block) : Prop where
  /-- A parameter comes before all other uses of its name. -/
  param : ∀ before x after,block.uses=before++.param x::after→
    ∀ use∈before,use.mentions x=false
  funcParam : ∀ x,.param x∈block.uses → block.kind.isFuncLike=true
  /-- Only the same declaration comes before a `global` one. -/
  global : ∀ before x after,block.uses=before++.global x::after→
    ∀ use∈before,use.mentions x=true → use=.global x
  /-- Only the same declaration comes before a `nonlocal` one. -/
  nonlocal : ∀ before x after,block.uses=before++.nonlocal x::after→
    ∀ use∈before,use.mentions x=true → use=.nonlocal x
  /-- A `nonlocal` name is a variable of an enclosing function. -/
  enclosed : ∀ x,block.declaresNonlocal x → block.kind≠.module ∧ PyEnclosed x outer

/-- A module that Python accepts. -/
structure PyModule where
  body : List Use
  /-- Python accepts every scope. -/
  accepted : ∀ block outer,Path body (block::outer)→PyAccepts block outer

/-- The scope at a position of the list, without its place. -/
def State.block (state : State) (i : ℕ) : Block :=
  ((state.scopes[i]?).map fun scope => ⟨scope.kind,scope.uses⟩).getD ⟨.module,[]⟩

/-- Parent pointers of the scope at a position. -/
def State.ancestors (state : State) (i : ℕ) : List ℕ :=
  ((state.scopes[i]?).map Scope.ancestors).getD []

/-- The scopes around a scope, nearest first. -/
def State.outer (state : State) (i : ℕ) : List Block := (state.ancestors i).map state.block

/-- The name is closed over from the nearest enclosing function scope that
binds it: there it is a cell, and in all scopes on the way it is free. -/
def ClosedOver (state : State) (x : String) : List ℕ→Prop
  | [] => False
  | s::rest => ((state.block s).bindsForInner x ∧ state.kindOf s x=some .cell) ∨
    (¬(state.block s).bindsForInner x ∧ state.kindOf s x=some .free ∧ ClosedOver state x rest)

/-- The table of a scope has a name as Python's lexical scoping has it. -/
def Classified (state : State) (i : ℕ) (x : String) : Prop :=
  match pyScope x (state.block i) (state.outer i) with
  | .local => state.kindOf i x=some .local ∨ state.kindOf i x=some .cell
  | .namespace => state.kindOf i x=some .globalImplicit ∨
    ((state.block i).kind=.module ∧ state.kindOf i x=some .globalExplicit)
  | .free => state.kindOf i x=some .free ∧ ClosedOver state x (state.ancestors i)
  | .globalExplicit => state.kindOf i x=some .globalExplicit
  | .globalImplicit => state.kindOf i x=some .globalImplicit ∨
    ((state.block i).kind=.module ∧ state.kindOf i x=some .globalExplicit)

/-- The list of the compiler holds the scopes of a module. -/
structure Covers (body : List Use) (state : State) : Prop where
  /-- Every entry of the list is one of them. -/
  sound : ∀ i < state.scopes.length,Path body (state.block i::state.outer i)
  /-- Each of them is an entry of the list. -/
  complete : ∀ block outer,Path body (block::outer)→
    ∃ i < state.scopes.length,state.block i=block ∧ state.outer i=outer

/-- The pass succeeds, and each name has Python's class in each scope that
uses it. -/
def Classifies (body : List Use) : Prop :=
  ∃ state,scopePass body=.ok state ∧ Covers body state ∧
    ∀ i < state.scopes.length,∀ x,(state.block i).mentions x→Classified state i x

/-- The same search as Python's, except that a class scope that binds the name
or declares it global hides the scopes around it. -/
def PlainEnclosed (x : String) : List Block→Prop
  | [] => False
  | [_] => False
  | block::next::outer => block.bindsForInner x ∨
    (¬block.declaresGlobal x ∧ ¬block.bindsOwn x ∧ PlainEnclosed x (next::outer))

/-- The first use of the name in the scope is a load. -/
def Block.loadsFirst (block : Block) (x : String) : Prop :=
  ∃ before after,block.uses=before++.load x::after ∧ ∀ use∈before,use.mentions x=false

/-- The order and place of the uses in a scope are harmless. -/
structure Safe (block : Block) (outer : List Block) : Prop where
  /-- A class body does not use `__class__`. -/
  noClassCell : ∀ x,block.kind=.classDef → block.mentions x → x≠"__class__"
  /-- A name that the scope binds is not loaded first while an enclosing
  function binds it too. -/
  noEarlyLoad : ∀ x,block.bindsOwn x → block.loadsFirst x→¬PlainEnclosed x outer
  /-- No class scope in between hides a binding of a name that is neither bound
  here nor declared global. -/
  notHidden : ∀ x,block.mentions x→¬block.declaresGlobal x→¬block.bindsOwn x→
    (PyEnclosed x outer→PlainEnclosed x outer)

end MicroPython.ScopePass
