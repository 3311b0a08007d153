import Mathlib.Data.List.Nodup
import MicroPython.ScopeTables

/-!
# The tables of identifiers in order

The scope pass once more, with the table of each scope as the array that it is. Parameters are
added before the body of a function is compiled, and every other identifier when it is first
met, in its scope or in one inside that closes over it. When the order is forgotten this is the
pass that classifies the names.
-/

namespace MicroPython.IdTables

open ScopePass (IdKind ScopeKind Use findLocal findLocal_congr implicitUses scopeCounts)

/-! ## Sources -/

/-- An identifier in the source, which is not blank. -/
abbrev Name : Type := {x : String // x≠""}

/-- A parameter. -/
inductive Param where
  /-- With a name, positional or keyword-only. -/
  | plain (x : Name)
  /-- `*x` -/
  | star (x : Name)
  /-- `*` -/
  | bareStar
  /-- `**x` -/
  | dblStar (x : Name)

/-- The start of an inner scope. -/
inductive Header where
  /-- `def` -/
  | function (params : List Param)
  /-- `lambda` -/
  | lambda (params : List Param)
  /-- `class` -/
  | classDef
  | listComp
  | dictComp
  | setComp
  | genExpr

/-- The kind of the scope that is started. -/
def Header.kind : Header→ScopeKind
  | .function _ => .function
  | .lambda _ => .lambda
  | .classDef => .classDef
  | .listComp => .listComp
  | .dictComp => .dictComp
  | .setComp => .setComp
  | .genExpr => .genExpr

/-- Its parameters. -/
def Header.params : Header→List Param
  | .function params => params
  | .lambda params => params
  | _ => []

/-- What the body of a scope does with names, in source order. -/
inductive Item where
  | load (x : Name)
  /-- A store, including definitions, imports and loop targets. -/
  | store (x : Name)
  | delete (x : Name)
  /-- A `global` declaration. -/
  | global (x : Name)
  /-- A `nonlocal` declaration. -/
  | nonlocal (x : Name)
  | scope (header : Header) (body : List Item)

/-! ## Tables -/

/-- The flags of an identifier. -/
inductive Flags where
  | none
  /-- `ID_FLAG_IS_PARAM` -/
  | param
  /-- `ID_FLAG_IS_PARAM` and `ID_FLAG_IS_STAR_PARAM` -/
  | starParam
  /-- `ID_FLAG_IS_PARAM` and `ID_FLAG_IS_DBL_STAR_PARAM` -/
  | dblStarParam
  deriving DecidableEq

/-- `id_info_t` -/
structure IdInfo where
  /-- `qst` -/
  qst : String
  /-- `kind` -/
  kind : IdKind
  /-- `flags` -/
  flags : Flags
  /-- `local_num` -/
  localNum : ℕ

/-- What is computed of a scope. -/
structure Table where
  /-- `id_info` -/
  ids : List IdInfo
  /-- `num_pos_args` -/
  numPosArgs : ℕ
  /-- `num_kwonly_args` -/
  numKwonlyArgs : ℕ
  /-- `MP_SCOPE_FLAG_VARARGS` -/
  varargs : Bool
  /-- `MP_SCOPE_FLAG_VARKEYWORDS` -/
  varkeywords : Bool
  /-- `num_locals` -/
  numLocals : ℕ

/-- The table of a new scope. -/
def Table.empty : Table := ⟨[],0,0,false,false,0⟩

/-- The identifiers that an array can hold. The next one is written behind it, since
`id_info_alloc` is 0 after 65530 more than fit in 16 bits. -/
def maxIds : ℕ := 65531

/-- A scope in the list of the compiler. -/
structure Scope where
  kind : ScopeKind
  params : List Param
  /-- The chain of parent pointers, nearest first. -/
  ancestors : List ℕ
  /-- What its body does with names. -/
  items : List Item

/-- The compiler state of the pass. -/
structure State where
  scopes : List Scope
  /-- The table of each scope. -/
  table : ℕ→Table

/-- Why the pass ends early. -/
inductive Failure where
  /-- "name reused for argument" -/
  | nameReused (x : String)
  /-- "invalid syntax" -/
  | invalidSyntax
  /-- "identifier redefined as global" -/
  | redefinedGlobal (x : String)
  /-- "no binding for nonlocal found" -/
  | noBinding (x : String)
  /-- "identifier redefined as nonlocal" -/
  | redefinedNonlocal (x : String)
  /-- "can't declare nonlocal in outer code" -/
  | nonlocalInModule (x : String)
  /-- An identifier is written behind the array. -/
  | overrun

/-- `scope_find` -/
def scopeFind (ids : List IdInfo) (x : String) : Option IdInfo :=
  ids.find? fun id => decide (id.qst=x)

/-- The kind of an identifier gets another one. -/
def setKind (x : String) (kind : IdKind) : List IdInfo→List IdInfo
  | [] => []
  | id::ids => if id.qst=x then {id with kind := kind}::ids else id::setKind x kind ids

namespace State

/-- What the table of a scope has for a name. -/
def kindOf (state : State) (i : ℕ) (x : String) : Option IdKind :=
  (scopeFind (state.table i).ids x).map IdInfo.kind

/-- A scope gets another table. -/
def setTable (state : State) (i : ℕ) (table : Table) : State :=
  {state with table := Function.update state.table i table}

@[simp]
theorem setTable_self (state : State) (i : ℕ) (t : Table) : (state.setTable i t).table i=t := by
  simp [setTable]

/-- The other tables stay. -/
theorem setTable_of_ne (state : State) {i j : ℕ} (t : Table) (h : j≠i) :
    (state.setTable i t).table j=state.table j := by
  simp [setTable,h]

/-- The end of `scope_find_or_add_id`, which adds an identifier. -/
def addId (state : State) (i : ℕ) (id : IdInfo) : Except Failure State :=
  if (state.table i).ids.length < maxIds then
    .ok (state.setTable i {state.table i with ids := (state.table i).ids++[id]})
  else .error .overrun

/-- `scope_find_or_add_id`, when the kind is set then. -/
def putKind (state : State) (i : ℕ) (x : String) (kind : IdKind) : Except Failure State :=
  match scopeFind (state.table i).ids x with
  | none => state.addId i ⟨x,kind,.none,0⟩
  | some _ =>
    .ok (state.setTable i {state.table i with ids := setKind x kind (state.table i).ids})

end State

/-! ## Uses of names -/

/-- `scope_close_over_in_parents` -/
def closeOverInParents (state : State) (x : String) : List ℕ→Except Failure State
  | [] => .ok state
  | s::rest =>
    match state.kindOf s x with
    | none => (state.putKind s x .free).bind fun state => closeOverInParents state x rest
    | some .local => state.putKind s x .cell
    | some _ => .ok state

/-- `scope_find_local_and_close_over`. Its search reads nothing but the kinds. -/
def findLocalAndCloseOver (state : State) (ancestors : List ℕ) (i : ℕ) (x : String) :
    Except Failure State :=
  if findLocal ⟨[],state.kindOf⟩ x ancestors=true then
    (state.putKind i x .free).bind fun state => closeOverInParents state x ancestors
  else state.putKind i x .globalImplicit

/-- `mp_emit_common_get_id_for_load` -/
def getIdForLoad (state : State) (ancestors : List ℕ) (i : ℕ) (x : String) : Except Failure State :=
  match state.kindOf i x with
  | some _ => .ok state
  | none => findLocalAndCloseOver state ancestors i x

/-- `mp_emit_common_get_id_for_modification` -/
def getIdForModification (state : State) (kind : ScopeKind) (i : ℕ) (x : String) :
    Except Failure State :=
  match state.kindOf i x with
  | none => state.putKind i x (if kind.isFuncLike=true then .local else .globalImplicit)
  | some .globalImplicit =>
    if kind.isFuncLike=true then state.putKind i x .local else .ok state
  | some _ => .ok state

/-- The end of `compile_declare_global`, for the outermost scope. -/
def declareInModule (state : State) (m : ℕ) (x : String) : Except Failure State :=
  match state.kindOf m x with
  | none => .ok state
  | some _ => state.putKind m x .globalExplicit

/-- `compile_declare_global` -/
def declareGlobal (state : State) (ancestors : List ℕ) (i : ℕ) (x : String) :
    Except Failure State :=
  match state.kindOf i x with
  | none | some .globalExplicit =>
    (state.putKind i x .globalExplicit).bind fun state =>
      declareInModule state (ancestors.getLastD i) x
  | some _ => .error (.redefinedGlobal x)

/-- `compile_nonlocal_stmt` and `compile_declare_nonlocal` -/
def declareNonlocal (state : State) (kind : ScopeKind) (ancestors : List ℕ) (i : ℕ)
    (x : String) : Except Failure State :=
  if kind=.module then .error (.nonlocalInModule x)
  else
    match state.kindOf i x with
    | none => (findLocalAndCloseOver state ancestors i x).bind fun state =>
      if state.kindOf i x=some .globalImplicit then .error (.noBinding x) else .ok state
    | some .free => .ok state
    | some _ => .error (.redefinedNonlocal x)

/-! ## Parameters -/

/-- The end of `compile_scope_func_lambda_param`, for a parameter with a name. -/
def addParam (state : State) (i : ℕ) (x : Name) (flags : Flags) : Except Failure State :=
  match scopeFind (state.table i).ids x.1 with
  | some _ => .error (.nameReused x.1)
  | none => state.addId i ⟨x.1,.local,flags,0⟩

/-- What `compile_scope_func_lambda_param` does with a parameter, with `have_star`. -/
def newParam (state : State) (i : ℕ) (haveStar : Bool) : Param→Except Failure (State×Bool)
  | .plain x =>
    -- after a star it counts as a keyword-only parameter
    let t := if haveStar=true then
        {state.table i with numKwonlyArgs := (state.table i).numKwonlyArgs+1}
      else {state.table i with numPosArgs := (state.table i).numPosArgs+1}
    (addParam (state.setTable i t) i x .param).map fun state => (state,haveStar)
  | .star x =>
    if haveStar=true then .error .invalidSyntax
    else (addParam (state.setTable i {state.table i with varargs := true}) i x .starParam).map
      fun state => (state,true)
  | .bareStar => if haveStar=true then .error .invalidSyntax else .ok (state,true)
  | .dblStar x =>
    (addParam (state.setTable i {state.table i with varkeywords := true}) i x
      .dblStarParam).map fun state => (state,haveStar)

/-- `compile_scope_func_lambda_param` -/
def compileParam (state : State) (i : ℕ) (haveStar : Bool) (param : Param) :
    Except Failure (State×Bool) :=
  if (state.table i).varkeywords=true then .error .invalidSyntax
  else newParam state i haveStar param

/-- The parameters in order. -/
def compileParams (i : ℕ) : State→Bool→List Param→Except Failure State
  | state,_,[] => .ok state
  | state,haveStar,param::params => (compileParam state i haveStar param).bind
    fun (state,haveStar) => compileParams i state haveStar params

/-! ## Scopes -/

/-- One item of the current scope. -/
def runItem (kind : ScopeKind) (ancestors : List ℕ) (i : ℕ) (state : State) :
    Item→Except Failure State
  | .load x => getIdForLoad state ancestors i x.1
  | .store x | .delete x => getIdForModification state kind i x.1
  | .global x => declareGlobal state ancestors i x.1
  | .nonlocal x => declareNonlocal state kind ancestors i x.1
  | .scope header body =>
    -- `scope_new_and_link`: the new scope goes to the end of the list
    .ok {state with
      scopes := state.scopes++[⟨header.kind,header.params,i::ancestors,body⟩]}

/-- The items of the current scope in order. -/
def runItems (kind : ScopeKind) (ancestors : List ℕ) (i : ℕ) (state : State) :
    List Item→Except Failure State
  | [] => .ok state
  | item::items => (runItem kind ancestors i state item).bind
    fun state => runItems kind ancestors i state items

/-- The start of a class body in `compile_scope`. -/
def compileClass (state : State) (ancestors : List ℕ) (i : ℕ) : Except Failure State :=
  (state.putKind i "__class__" .local).bind fun state =>
    (getIdForLoad state ancestors i "__name__").bind fun state =>
      (getIdForModification state .classDef i "__module__").bind fun state =>
        getIdForModification state .classDef i "__qualname__"

/-- The start of a comprehension in `compile_scope`: its iterator is passed under a blank
name. -/
def compileComp (state : State) (ancestors : List ℕ) (i : ℕ) : Except Failure State :=
  (state.putKind i "" .local).bind fun state =>
    getIdForLoad (state.setTable i {state.table i with numPosArgs := 1}) ancestors i ""

/-- The start of a scope in `compile_scope`. -/
def compileStart (state : State) (i : ℕ) (scope : Scope) : Except Failure State :=
  match scope.kind with
  | .module => .ok state
  | .function | .lambda => compileParams i state false scope.params
  | .classDef => compileClass state scope.ancestors i
  | _ => compileComp state scope.ancestors i

/-- `compile_scope` in the scope pass. -/
def compileScope (state : State) (i : ℕ) (scope : Scope) : Except Failure State :=
  (compileStart state i scope).bind fun state =>
    runItems scope.kind scope.ancestors i state scope.items

/-- The loop of `mp_compile_to_raw_code` over the list of scopes, from a position on. The fuel
bounds the number of scopes. -/
def compileScopes : ℕ→ℕ→State→Except Failure State
  | 0,_,state => .ok state
  | fuel+1,i,state =>
    match state.scopes[i]? with
    | none => .ok state
    | some scope => (compileScope state i scope).bind fun state => compileScopes fuel (i+1) state

/-! ## Without the order -/

/-- A parameter with a name. -/
def Param.use : Param→Option Use
  | .plain x | .star x | .dblStar x => some (.param x.1)
  | .bareStar => none

mutual

/-- An item as a use of a name. -/
def Item.use : Item→Use
  | .load x => .load x.1
  | .store x => .store x.1
  | .delete x => .delete x.1
  | .global x => .global x.1
  | .nonlocal x => .nonlocal x.1
  | .scope header body => .scope header.kind (header.params.filterMap Param.use++itemUses body)

/-- The items of a body as uses. -/
def itemUses : List Item→List Use
  | [] => []
  | item::items => item.use::itemUses items

end

/-- A module before the pass. -/
def start (body : List Item) : State := ⟨[⟨.module,[],[],body⟩],fun _ => .empty⟩

/-- The scope pass of a module. -/
def scopePass (body : List Item) : Except Failure State :=
  compileScopes (scopeCounts (itemUses body)+1) 0 (start body)

/-- A scope without its parameters as such. -/
def Scope.plain (scope : Scope) : ScopePass.Scope where
  kind := scope.kind
  ancestors := scope.ancestors
  uses := implicitUses scope.kind++(scope.params.filterMap Param.use++itemUses scope.items)

/-- The state without the order of the tables. -/
def State.plain (state : State) : ScopePass.State := ⟨state.scopes.map Scope.plain,state.kindOf⟩

variable {α β : Type} {state state' : State} {ids : List IdInfo} {i j : ℕ} {x y : String}
variable {kind : IdKind} {ancestors : List ℕ}

/-- A sequence succeeds when both parts do. -/
theorem bind_ok {step : Except Failure α} {next : α→Except Failure β} {b : β}
    (h : step.bind next=.ok b) : ∃ a,step=.ok a∧next a=.ok b := by
  cases step with
  | error e => cases h
  | ok a => exact ⟨a,rfl,h⟩

/-- A result that is changed. -/
theorem map_ok {step : Except Failure α} {f : α→β} {b : β} (h : step.map f=.ok b) :
    ∃ a,step=.ok a∧f a=b := by
  cases step with
  | error e => cases h
  | ok a =>
    cases h
    exact ⟨a,rfl,rfl⟩

theorem scopeFind_eq_none : scopeFind ids x=none↔∀ id∈ids,id.qst≠x := by
  simp [scopeFind]

theorem scopeFind_append (id : IdInfo) : scopeFind (ids++[id]) y=
    (scopeFind ids y).or (if id.qst=y then some id else none) := by
  rw [scopeFind,List.find?_append,←scopeFind]
  by_cases h : id.qst=y <;> simp [h]

/-- What is found when a kind was set. -/
theorem scopeFind_setKind : scopeFind (setKind x kind ids) y=
    (scopeFind ids y).map fun id => if y=x then {id with kind := kind} else id := by
  induction ids with
  | nil => rfl
  | cons id ids ih =>
    simp only [scopeFind] at ih ⊢
    rw [setKind]
    by_cases hx : id.qst=x
    · rw [if_pos hx]
      by_cases hy : id.qst=y
      · have hyx : y=x := hy.symm.trans hx
        simp [hx,hyx]
      · have hyx : ¬y=x := fun hsame => hy (hx.trans hsame.symm)
        simp [hy,hyx]
    · rw [if_neg hx]
      by_cases hy : id.qst=y
      · have hyx : ¬y=x := fun hsame => hx (hy.trans hsame)
        simp [hy,hyx]
      · simpa [hy] using ih

theorem kindOf_setTable (t : Table) : (state.setTable i t).kindOf j y=
    if j=i then (scopeFind t.ids y).map IdInfo.kind else state.kindOf j y := by
  by_cases h : j=i
  · subst h
    simp [State.kindOf,State.setTable]
  · simp [State.kindOf,State.setTable,h]

/-- Adding an identifier that is not there adds its kind. -/
theorem plain_addId {id : IdInfo} (hnone : scopeFind (state.table i).ids id.qst=none)
    (h : state.addId i id=.ok state') : state'.plain=state.plain.put i id.qst id.kind := by
  rw [State.addId] at h
  split at h
  case isFalse => cases h
  case isTrue =>
    cases h
    simp only [State.plain,ScopePass.State.put,State.setTable]
    refine congrArg (ScopePass.State.mk _) (funext fun j => funext fun y => ?_)
    refine (kindOf_setTable _).trans ?_
    by_cases hj : j=i
    · subst hj
      rw [if_pos rfl,scopeFind_append]
      by_cases hy : y=id.qst
      · simp [hy,hnone]
      · simp [hy,Ne.symm hy,State.kindOf]
    · simp [hj]

/-- Setting a kind. -/
theorem plain_putKind (h : state.putKind i x kind=.ok state') :
    state'.plain=state.plain.put i x kind := by
  rw [State.putKind] at h
  split at h
  case h_1 hnone => exact plain_addId hnone h
  case h_2 id hsome =>
    cases h
    simp only [State.plain,ScopePass.State.put,State.setTable]
    refine congrArg (ScopePass.State.mk _) (funext fun j => funext fun y => ?_)
    refine (kindOf_setTable _).trans ?_
    by_cases hj : j=i
    · subst hj
      rw [if_pos rfl,scopeFind_setKind]
      by_cases hy : y=x
      · subst hy
        simp [hsome]
      · simp [hy,State.kindOf]
    · simp [hj]

/-- The first search reads the kinds. -/
theorem findLocal_plain (state : State) (x : String) (ancestors : List ℕ) :
    findLocal ⟨[],state.kindOf⟩ x ancestors=findLocal state.plain x ancestors :=
  @findLocal_congr state.plain ⟨[],state.kindOf⟩ x ancestors fun _ _ => rfl

/-! ## The same classes -/

/-- `scope_close_over_in_parents` -/
theorem closeOverInParents_plain (h : closeOverInParents state x ancestors=.ok state') :
    ScopePass.closeOverInParents state.plain x ancestors=state'.plain := by
  induction ancestors generalizing state with
  | nil =>
    cases h
    rfl
  | cons s rest ih =>
    rw [closeOverInParents] at h
    rw [ScopePass.closeOverInParents]
    have hkind : state.plain.kindOf s x=state.kindOf s x := rfl
    rw [hkind]
    cases hcase : state.kindOf s x with
    | none =>
      simp only [hcase] at h
      obtain ⟨mid,hput,hrest⟩ := bind_ok h
      simpa [plain_putKind hput] using ih hrest
    | some found =>
      cases found with
      | «local» =>
        simp only [hcase] at h
        exact (plain_putKind h).symm
      | _ =>
        simp only [hcase] at h
        cases h
        rfl

/-- `scope_find_local_and_close_over` -/
theorem findLocalAndCloseOver_plain (h : findLocalAndCloseOver state ancestors i x=.ok state') :
    ScopePass.findLocalAndCloseOver state.plain ancestors i x=state'.plain := by
  rw [findLocalAndCloseOver,findLocal_plain] at h
  rw [ScopePass.findLocalAndCloseOver]
  split at h
  case isTrue hfound =>
    obtain ⟨mid,hput,hrest⟩ := bind_ok h
    rw [if_pos hfound,←plain_putKind hput]
    exact closeOverInParents_plain hrest
  case isFalse hfound =>
    rw [if_neg hfound]
    exact (plain_putKind h).symm

/-- `mp_emit_common_get_id_for_load` -/
theorem getIdForLoad_plain (h : getIdForLoad state ancestors i x=.ok state') :
    ScopePass.getIdForLoad state.plain ancestors i x=state'.plain := by
  rw [getIdForLoad] at h
  rw [ScopePass.getIdForLoad]
  have hkind : state.plain.kindOf i x=state.kindOf i x := rfl
  rw [hkind]
  cases hcase : state.kindOf i x with
  | none =>
    simp only [hcase] at h
    exact findLocalAndCloseOver_plain h
  | some found =>
    simp only [hcase] at h
    cases h
    rfl

variable {scope : ScopeKind}

/-- `mp_emit_common_get_id_for_modification` -/
theorem getIdForModification_plain (h : getIdForModification state scope i x=.ok state') :
    ScopePass.getIdForModification state.plain scope i x=state'.plain := by
  rw [getIdForModification] at h
  rw [ScopePass.getIdForModification]
  have hkind : state.plain.kindOf i x=state.kindOf i x := rfl
  rw [hkind]
  cases hcase : state.kindOf i x with
  | none =>
    simp only [hcase] at h
    exact (plain_putKind h).symm
  | some found =>
    cases found with
    | globalImplicit =>
      simp only [hcase] at h
      dsimp only
      split at h
      case isTrue hfunc =>
        rw [if_pos hfunc]
        exact (plain_putKind h).symm
      case isFalse hfunc =>
        cases h
        rw [if_neg hfunc]
    | _ =>
      simp only [hcase] at h
      cases h
      rfl

/-- `compile_declare_global` -/
theorem declareGlobal_plain (h : declareGlobal state ancestors i x=.ok state') :
    ScopePass.declareGlobal state.plain ancestors i x=.ok state'.plain := by
  have hmodule : ∀ {mid : State},declareInModule mid (ancestors.getLastD i) x=.ok state' →
      (match mid.plain.kindOf (ancestors.getLastD i) x with
        | none => mid.plain
        | some _ => mid.plain.put (ancestors.getLastD i) x .globalExplicit)=state'.plain := by
    intro mid hdeclare
    rw [declareInModule] at hdeclare
    have hkind : mid.plain.kindOf (ancestors.getLastD i) x=
        mid.kindOf (ancestors.getLastD i) x := rfl
    rw [hkind]
    cases hcase : mid.kindOf (ancestors.getLastD i) x with
    | none =>
      simp only [hcase] at hdeclare
      cases hdeclare
      rfl
    | some found =>
      simp only [hcase] at hdeclare
      exact (plain_putKind hdeclare).symm
  rw [declareGlobal] at h
  rw [ScopePass.declareGlobal]
  have hkind : state.plain.kindOf i x=state.kindOf i x := rfl
  rw [hkind]
  cases hcase : state.kindOf i x with
  | none =>
    simp only [hcase] at h
    obtain ⟨mid,hput,hrest⟩ := bind_ok h
    have hdone := hmodule hrest
    rw [plain_putKind hput] at hdone
    exact congrArg Except.ok hdone
  | some found =>
    cases found with
    | globalExplicit =>
      simp only [hcase] at h
      obtain ⟨mid,hput,hrest⟩ := bind_ok h
      have hdone := hmodule hrest
      rw [plain_putKind hput] at hdone
      exact congrArg Except.ok hdone
    | _ =>
      simp only [hcase] at h
      cases h

/-- `compile_declare_nonlocal` -/
theorem declareNonlocal_plain (h : declareNonlocal state scope ancestors i x=.ok state') :
    ScopePass.declareNonlocal state.plain scope ancestors i x=.ok state'.plain := by
  rw [declareNonlocal] at h
  rw [ScopePass.declareNonlocal]
  split at h
  case isTrue => cases h
  case isFalse hmodule =>
    rw [if_neg hmodule]
    have hkind : state.plain.kindOf i x=state.kindOf i x := rfl
    rw [hkind]
    cases hcase : state.kindOf i x with
    | none =>
      simp only [hcase] at h
      obtain ⟨mid,hfind,hrest⟩ := bind_ok h
      rw [findLocalAndCloseOver_plain hfind]
      split at hrest
      case isTrue => cases hrest
      case isFalse hbound =>
        cases hrest
        exact if_neg hbound
    | some found =>
      cases found with
      | free =>
        simp only [hcase] at h
        cases h
        rfl
      | _ =>
        simp only [hcase] at h
        cases h

/-- An item of a body. -/
theorem runItem_plain {item : Item} (h : runItem scope ancestors i state item=.ok state') :
    ScopePass.runUse scope ancestors i state.plain item.use=.ok state'.plain := by
  cases item with
  | load x => exact congrArg Except.ok (getIdForLoad_plain h)
  | store x => exact congrArg Except.ok (getIdForModification_plain h)
  | delete x => exact congrArg Except.ok (getIdForModification_plain h)
  | global x => exact declareGlobal_plain h
  | nonlocal x => exact declareNonlocal_plain h
  | scope header body =>
    cases h
    simp [ScopePass.runUse,Item.use,State.plain,Scope.plain]
    rfl

/-- The items of a body. -/
theorem runItems_plain {items : List Item} (h : runItems scope ancestors i state items=.ok state') :
    ScopePass.runUses scope ancestors i state.plain (itemUses items)=.ok state'.plain := by
  induction items generalizing state with
  | nil =>
    cases h
    rfl
  | cons item items ih =>
    obtain ⟨mid,hitem,hrest⟩ := bind_ok h
    rw [itemUses,ScopePass.runUses,runItem_plain hitem]
    exact ih hrest

/-- Uses come after others. -/
theorem runUses_append {uses rest : List Use} {st mid : ScopePass.State}
    (h : ScopePass.runUses scope ancestors i st uses=.ok mid) :
    ScopePass.runUses scope ancestors i st (uses++rest)=
      ScopePass.runUses scope ancestors i mid rest := by
  induction uses generalizing st with
  | nil =>
    cases h
    rfl
  | cons use uses ih =>
    rw [List.cons_append]
    rw [ScopePass.runUses] at h ⊢
    cases huse : ScopePass.runUse scope ancestors i st use with
    | error e =>
      rw [huse] at h
      cases h
    | ok next =>
      rw [huse] at h
      exact ih h

/-- The kinds stay when the identifiers do. -/
theorem plain_setTable {t : Table} (h : t.ids=(state.table i).ids) :
    (state.setTable i t).plain=state.plain := by
  refine congrArg (ScopePass.State.mk _) (funext fun j => funext fun y => ?_)
  refine (kindOf_setTable t).trans ?_
  by_cases hj : j=i
  · rw [if_pos hj,h,hj]
    rfl
  · rw [if_neg hj]

/-- A parameter with a name. -/
theorem addParam_plain {t : Table} {x : Name} {flags : Flags} (ht : t.ids=(state.table i).ids)
    (h : addParam (state.setTable i t) i x flags=.ok state') (scope : ScopeKind) :
    ScopePass.runUses scope ancestors i state.plain [.param x.1]=.ok state'.plain := by
  rw [addParam] at h
  split at h
  case h_1 => cases h
  case h_2 hnone =>
    have hplain := @plain_addId (state.setTable i t) state' i ⟨x.1,.local,flags,0⟩ hnone h
    have hkind : state.plain.kindOf i x.1=none := by
      rw [←plain_setTable ht]
      exact congrArg (Option.map IdInfo.kind) hnone
    rw [plain_setTable ht] at hplain
    simp [ScopePass.runUses,ScopePass.runUse,ScopePass.declareParam,hkind,hplain]

/-- A parameter. -/
theorem compileParam_plain {haveStar haveStar' : Bool} {param : Param}
    (h : compileParam state i haveStar param=.ok (state',haveStar')) (scope : ScopeKind) :
    ScopePass.runUses scope ancestors i state.plain param.use.toList=.ok state'.plain := by
  rw [compileParam] at h
  split at h
  case isTrue => cases h
  case isFalse =>
    cases param with
    | plain x =>
      obtain ⟨mid,hadd,hsame⟩ := map_ok h
      cases hsame
      refine addParam_plain ?_ hadd scope
      split <;> rfl
    | star x =>
      rw [newParam] at h
      split at h
      case isTrue => cases h
      case isFalse =>
        obtain ⟨mid,hadd,hsame⟩ := map_ok h
        cases hsame
        exact addParam_plain (t := {state.table i with varargs := true}) rfl hadd scope
    | bareStar =>
      rw [newParam] at h
      split at h
      case isTrue => cases h
      case isFalse =>
        cases h
        rfl
    | dblStar x =>
      obtain ⟨mid,hadd,hsame⟩ := map_ok h
      cases hsame
      exact addParam_plain (t := {state.table i with varkeywords := true}) rfl hadd scope

/-- The parameters of a function. -/
theorem compileParams_plain {haveStar : Bool} {params : List Param}
    (h : compileParams i state haveStar params=.ok state') (scope : ScopeKind) :
    ScopePass.runUses scope ancestors i state.plain (params.filterMap Param.use)=
      .ok state'.plain := by
  induction params generalizing state haveStar with
  | nil =>
    cases h
    rfl
  | cons param params ih =>
    obtain ⟨⟨mid,haveStar'⟩,hparam,hrest⟩ := bind_ok h
    have huses : (param::params).filterMap Param.use=
        param.use.toList++params.filterMap Param.use := by
      cases huse : param.use with
      | none => simp [huse]
      | some use => simp [huse]
    rw [huses,runUses_append (compileParam_plain hparam scope)]
    exact ih hrest

/-- The start of a class body. -/
theorem compileClass_plain (h : compileClass state ancestors i=.ok state') :
    ScopePass.runUses .classDef ancestors i (state.plain.put i "__class__" .local)
      (implicitUses .classDef)=.ok state'.plain := by
  obtain ⟨mid,hclass,h⟩ := bind_ok h
  obtain ⟨mid',hname,h⟩ := bind_ok h
  obtain ⟨mid'',hmodule,hqualname⟩ := bind_ok h
  simp [implicitUses,ScopePass.runUses,ScopePass.runUse,←plain_putKind hclass,
    getIdForLoad_plain hname,getIdForModification_plain hmodule,
    getIdForModification_plain hqualname]

/-- The start of a comprehension. -/
theorem compileComp_plain (hempty : state.table i=.empty)
    (h : compileComp state ancestors i=.ok state') (scope : ScopeKind) :
    ScopePass.runUses scope ancestors i state.plain [.param "",.load ""]=.ok state'.plain := by
  obtain ⟨mid,hput,hload⟩ := bind_ok h
  have hkind : state.plain.kindOf i ""=none := by
    simp [State.plain,State.kindOf,hempty,Table.empty,scopeFind]
  have hnext := getIdForLoad_plain hload
  have hsame := @plain_setTable mid i {mid.table i with numPosArgs := 1} rfl
  rw [plain_putKind hput] at hsame
  rw [hsame] at hnext
  simp [ScopePass.runUses,ScopePass.runUse,ScopePass.declareParam,hkind,hnext]

/-- A scope. -/
theorem compileScope_plain {scope : Scope} (hempty : state.table i=.empty)
    (hparams : scope.kind≠.function → scope.kind≠.lambda → scope.params=[])
    (h : compileScope state i scope=.ok state') :
    ScopePass.compileScope state.plain i scope.plain=.ok state'.plain := by
  obtain ⟨mid,hstart,hitems⟩ := bind_ok h
  have hrest := runItems_plain hitems
  obtain ⟨kind,params,ancestors,items⟩ := scope
  dsimp only at hrest hparams
  have hplain : Scope.plain ⟨kind,params,ancestors,items⟩=
      ⟨kind,ancestors,implicitUses kind++(params.filterMap Param.use++itemUses items)⟩ := rfl
  rw [hplain,ScopePass.compileScope]
  dsimp only
  cases kind with
  | module =>
    cases hstart
    simpa [hparams (by simp) (by simp),implicitUses] using hrest
  | classDef =>
    rw [if_pos rfl,runUses_append (compileClass_plain hstart)]
    simpa [hparams (by simp) (by simp)] using hrest
  | function =>
    have himplicit : implicitUses .function=[] := rfl
    rw [if_neg (by decide),himplicit,List.nil_append,
      runUses_append (compileParams_plain hstart .function)]
    exact hrest
  | lambda =>
    have himplicit : implicitUses .lambda=[] := rfl
    rw [if_neg (by decide),himplicit,List.nil_append,
      runUses_append (compileParams_plain hstart .lambda)]
    exact hrest
  | _ =>
    rw [if_neg (by decide),implicitUses,runUses_append (compileComp_plain hempty hstart _)]
    simpa [hparams (by simp) (by simp)] using hrest

end MicroPython.IdTables
