import MicroPython.VarUint
import Mathlib.Data.List.Nodup
import Mathlib.Tactic.Linarith

/-!
# Binding the arguments of a bytecode function

`mp_setup_code_state` reads the prelude of a function, places positional and
keyword arguments, defaults, the `*args` tuple and the `**kwargs` dict in the
state array, which is addressed from its end, and boxes the cell variables.
An empty slot is its only mark for a parameter that has no value yet.
-/

namespace MicroPython.SetupCodeState

open Option List VarUint

variable {ν α : Type}

/-- One entry of the state array. -/
inductive Slot (ν α : Type) where
  /-- `MP_OBJ_NULL`, also the mark of a parameter without a value. -/
  | null
  | value (object : α)
  /-- The tuple made for `*args`. -/
  | tuple (items : List α)
  /-- The dict made for `**kwargs`, in insertion order. -/
  | dict (entries : List (ν×α))
  /-- A cell around the entry it replaces. -/
  | cell (content : Slot ν α)
  deriving DecidableEq

/-- Comparison of an entry with `MP_OBJ_NULL`. -/
def Slot.isNull : Slot ν α→Bool
  | .null => true
  | _ => false

/-- The entry for a value that may be absent. -/
def Slot.ofOption : Option α→Slot ν α
  | none => .null
  | some object => .value object

/-- An empty entry takes the given value, if there is one. -/
def Slot.orValue (slot : Slot ν α) (object? : Option α) : Slot ν α :=
  if slot.isNull=true then .ofOption object? else slot

@[simp] theorem Slot.isNull_ofOption (object? : Option α) :
    (Slot.ofOption object? : Slot ν α).isNull=object?.isNone := by
  cases object? <;> rfl

@[simp] theorem Slot.orValue_ofOption (first second : Option α) :
    (Slot.ofOption first : Slot ν α).orValue second=.ofOption (first.or second) := by
  cases first <;> rfl

/-- No value changes nothing. -/
@[simp] theorem Slot.orValue_none (slot : Slot ν α) : slot.orValue none=slot := by
  cases slot <;> rfl

/-- The TypeErrors of the function, with the data of their messages. -/
inductive ArgError (ν : Type) where
  /-- "function takes %d positional arguments but %d were given". -/
  | posArgsMismatch (expected given : ℕ)
  /-- "function got multiple values for argument '%q'". -/
  | multipleValues (name : ν)
  /-- "unexpected keyword argument '%q'". -/
  | unexpectedKeyword (name : ν)
  /-- "function missing required positional argument #%d". -/
  | missingPositional (number : ℕ)
  /-- "function missing required keyword argument '%q'". -/
  | missingKeyword (name : ν)
  /-- "function missing keyword-only argument". -/
  | missingKeywordOnly
  deriving DecidableEq

/-- A bytecode function object, as far as the call reads it. -/
structure FunBc (ν α : Type) where
  /-- Prelude, code info, cell list and opcodes. -/
  bytecode : List ℕ
  /-- Names of the positional, then the keyword-only parameters. -/
  constTable : List ν
  /-- Positional defaults in order. -/
  defaults : List α
  /-- Dict of keyword-only defaults, stored after the positional ones. -/
  kwDefaults : List (ν×α)

/-- The fields at the start of the bytecode. -/
structure Prelude where
  /-- Entries of the state array. -/
  nState : ℕ
  /-- `MP_SCOPE_FLAG_VARARGS`. -/
  varargs : Bool
  /-- `MP_SCOPE_FLAG_VARKEYWORDS`. -/
  varkeywords : Bool
  /-- `MP_SCOPE_FLAG_DEFKWARGS`. -/
  defkwargs : Bool
  /-- Positional parameters, closed-over variables included. -/
  nPosArgs : ℕ
  /-- Keyword-only parameters. -/
  nKwonlyArgs : ℕ
  nDefPosArgs : ℕ
  /-- The bytes from the code info size on. -/
  ip : List ℕ

/-- The first lines of the function: state size, exception stack size, flags
and argument counts. Nothing results if the bytes end too early. -/
def readPrelude (bytecode : List ℕ) : Option Prelude :=
  match mpDecodeUint bytecode with
  | none => none
  | some (nState,ip) => match mpDecodeUintSkip ip with
    | some (scopeFlags::nPosArgs::nKwonlyArgs::nDefPosArgs::ip) =>
      some ⟨nState,scopeFlags.testBit 0,scopeFlags.testBit 1,scopeFlags.testBit 3,
        nPosArgs,nKwonlyArgs,nDefPosArgs,ip⟩
    | _ => none

/-- `code_state->state[n_state - 1 - i]`. -/
def getLocal (state : List (Slot ν α)) (i : ℕ) : Slot ν α :=
  state.getD (state.length-1-i) .null

/-- Store to `code_state->state[n_state - 1 - i]`. -/
def setLocal (state : List (Slot ν α)) (i : ℕ) (slot : Slot ν α) : List (Slot ν α) :=
  state.set (state.length-1-i) slot

/-- Fill the parameters from `i` on with the given objects. -/
def placeFrom (state : List (Slot ν α)) (i : ℕ) : List α→List (Slot ν α)
  | [] => state
  | object::objects => placeFrom (setLocal state i (.value object)) (i+1) objects

variable (state : List (Slot ν α)) (i : ℕ)

@[simp] theorem setLocal_length (slot : Slot ν α) :
    (setLocal state i slot).length=state.length := by
  rw [setLocal,length_set]

variable {j : ℕ}

/-- A store changes the local it addresses and no other one. -/
theorem getLocal_setLocal {state : List (Slot ν α)} {i : ℕ} (hi : i < state.length)
    (hj : j < state.length) (slot : Slot ν α) :
    getLocal (setLocal state i slot) j=if j=i then slot else getLocal state j := by
  have hlen := setLocal_length state i slot
  unfold getLocal
  rw [hlen]
  unfold setLocal
  rw [getD_eq_getElem?_getD,List.getElem?_set]
  by_cases hij : j=i
  · subst hij
    rw [if_pos rfl,if_pos rfl,if_pos (by omega)]
    rfl
  · rw [if_neg (by omega),if_neg hij,getD_eq_getElem?_getD]

theorem placeFrom_length (objects : List α) :
    (placeFrom state i objects).length=state.length := by
  induction objects generalizing state i with
  | nil => rfl
  | cons object objects ih => rw [placeFrom,ih,setLocal_length]

/-- Placing objects fills consecutive locals and leaves all others. -/
theorem getLocal_placeFrom {objects : List α} {state : List (Slot ν α)} {i : ℕ}
    (hi : i+objects.length ≤ state.length) (hj : j < state.length) :
    getLocal (placeFrom state i objects) j=
      ((if i≤j then objects[j-i]? else none).elim (getLocal state j) .value) := by
  induction objects generalizing state i with
  | nil => simp [placeFrom]
  | cons object objects ih =>
    simp only [length_cons] at hi
    rw [placeFrom,ih (by rw [setLocal_length]; omega) (by rw [setLocal_length]; exact hj),
      getLocal_setLocal (by omega) hj]
    by_cases hij : j=i
    · subst hij
      simp
    · rw [if_neg hij]
      by_cases hle : i+1≤j
      · have hsub : j-i=(j-(i+1))+1 := by omega
        rw [if_pos hle,if_pos (by omega),hsub,List.getElem?_cons_succ]
      · rw [if_neg hle,if_neg (by omega)]

/-- Positional defaults for empty slots, from the last parameter and the last
default downwards. -/
def fillDefaults (state : List (Slot ν α)) : ℕ→List α→List (Slot ν α)
  | _,[] => state
  | 0,_::_ => state
  | i+1,object::defaults =>
    fillDefaults (if (getLocal state i).isNull=true then setLocal state i (.value object) else state)
      i defaults

/-- Filling the defaults visits the parameters below `i` downwards, and gives
each empty one its default. -/
theorem getLocal_fillDefaults {defaults : List α} {state : List (Slot ν α)} {i : ℕ}
    (hi : i ≤ state.length) (hj : j < state.length) :
    getLocal (fillDefaults state i defaults) j=
      (getLocal state j).orValue (if j < i then defaults[i-1-j]? else none) := by
  induction defaults generalizing state i with
  | nil => cases i <;> simp [fillDefaults]
  | cons object defaults ih =>
    cases i with
    | zero => simp [fillDefaults]
    | succ i =>
      have hfill : getLocal (if (getLocal state i).isNull=true then
            setLocal state i (.value object) else state) j=
          if j=i then (getLocal state j).orValue (some object) else getLocal state j := by
        by_cases hnull : (getLocal state i).isNull=true
        · rw [if_pos hnull,getLocal_setLocal (by omega) hj]
          by_cases hji : j=i
          · subst hji
            rw [if_pos rfl,if_pos rfl,Slot.orValue,if_pos hnull]
            rfl
          · rw [if_neg hji,if_neg hji]
        · rw [if_neg hnull]
          by_cases hji : j=i
          · subst hji
            rw [if_pos rfl,Slot.orValue,if_neg hnull]
          · rw [if_neg hji]
      have hlen : (if (getLocal state i).isNull=true then
          setLocal state i (.value object) else state).length=state.length := by
        split
        · exact setLocal_length state i _
        · rfl
      rw [fillDefaults,ih (by omega) (by omega),hfill]
      by_cases hji : j=i
      · subst hji
        simp
      · by_cases hlt : j < i
        · have hsub : i+1-1-j=(i-1-j)+1 := by omega
          rw [if_neg hji,if_pos hlt,if_pos (by omega),hsub,List.getElem?_cons_succ]
        · rw [if_neg hji,if_neg hlt,if_neg (by omega)]

/-- Filling the defaults keeps the size of the state array. -/
theorem fillDefaults_length (defaults : List α) :
    (fillDefaults state i defaults).length=state.length := by
  induction defaults generalizing state i with
  | nil => cases i <;> rfl
  | cons object defaults ih =>
    cases i with
    | zero => rfl
    | succ i =>
      rw [fillDefaults,ih]
      split
      · exact setLocal_length state i _
      · rfl

/-- The check of the parameters below `i`, which have no default, from the
last one downwards. -/
def checkPositional (state : List (Slot ν α)) : ℕ→Except (ArgError ν) Unit
  | 0 => .ok ()
  | i+1 => if (getLocal state i).isNull=true then .error (.missingPositional i)
    else checkPositional state i

/-- The check passes exactly if every parameter below `i` has a value. -/
theorem checkPositional_ok :
    checkPositional state i=.ok () ↔ ∀ j < i,(getLocal state j).isNull=false := by
  induction i with
  | zero => simp [checkPositional]
  | succ i ih =>
    rw [checkPositional]
    split
    case isTrue h =>
      have hnot : ¬∀ j < i+1,(getLocal state j).isNull=false := fun hall => by
        rw [hall i (by omega)] at h
        exact Bool.false_ne_true h
      constructor
      · intro he
        cases he
      · exact fun hall => absurd hall hnot
    case isFalse h =>
      rw [ih]
      constructor
      · intro hall j hj
        by_cases hji : j=i
        · subst hji
          exact Bool.eq_false_iff.mpr h
        · exact hall j (by omega)
      · exact fun hall j hj => hall j (by omega)

/-- The cell list of the prelude: box each local in it, up to the byte 255.
The bytes after the list are the opcodes. -/
def boxCells (state : List (Slot ν α)) : List ℕ→Option (List (Slot ν α)×List ℕ)
  | [] => none
  | localNum::ip =>
    if localNum=255 then some (state,ip)
    else boxCells (setLocal state localNum (.cell (getLocal state localNum))) ip

/-- The cell list boxes the locals in it and no others, and the opcodes start
after its sentinel. -/
theorem boxCells_append {cells : List ℕ} {state : List (Slot ν α)} (opcodes : List ℕ)
    (hnodup : cells.Nodup) (hlt : ∀ localNum∈cells,localNum < state.length ∧ localNum<255) :
    ∃ state',boxCells state (cells++255::opcodes)=some (state',opcodes) ∧
      state'.length=state.length ∧ ∀ i < state.length,
        getLocal state' i=if i∈cells then .cell (getLocal state i) else getLocal state i := by
  induction cells generalizing state with
  | nil => exact ⟨state,rfl,rfl,fun i _ => rfl⟩
  | cons localNum cells ih =>
    obtain ⟨hnotMem,hnodup⟩ := nodup_cons.mp hnodup
    obtain ⟨hlocal,hbyte⟩ := hlt localNum mem_cons_self
    have hlt' : ∀ i∈cells,
        i<(setLocal state localNum (.cell (getLocal state localNum))).length ∧ i<255 :=
      fun i hi => by
        rw [setLocal_length]
        exact hlt i (mem_cons_of_mem localNum hi)
    obtain ⟨state',hbox,hlen,hall⟩ := ih hnodup hlt'
    rw [setLocal_length] at hlen hall
    refine ⟨state',?_,hlen,fun i hi => ?_⟩
    · rw [cons_append,boxCells,if_neg (by omega)]
      exact hbox
    · rw [hall i hi,getLocal_setLocal hlocal hi]
      by_cases hil : i=localNum
      · subst hil
        rw [if_neg hnotMem,if_pos rfl,if_pos mem_cons_self]
      · rw [if_neg hil]
        simp only [mem_cons,hil,false_or]

/-- What the function leaves for the VM; both stacks start empty. -/
structure CodeState (ν α : Type) where
  /-- The opcodes. -/
  ip : List ℕ
  state : List (Slot ν α)
  /-- Top of the value stack, relative to its base. -/
  sp : ℤ
  /-- Top of the exception stack, relative to its base. -/
  excSp : ℤ

/-- Placing the positional arguments, with the surplus in `*args`, and the
defaults when there are no keywords to come. The second component is the
local number where `**kwargs` goes. -/
def setupPositional (fun_bc : FunBc ν α) (prelude : Prelude) (args : List α) (nKw : ℕ) :
    Except (ArgError ν) (List (Slot ν α)×ℕ) :=
  let state := List.replicate prelude.nState .null
  let varPosKwArgs := prelude.nPosArgs+prelude.nKwonlyArgs
  if prelude.nPosArgs<args.length then
    if prelude.varargs=false then
      .error (.posArgsMismatch prelude.nPosArgs args.length)
    else
      let state := setLocal state varPosKwArgs (.tuple (args.drop prelude.nPosArgs))
      .ok (placeFrom state 0 (args.take prelude.nPosArgs),varPosKwArgs+1)
  else
    let (state,varPosKwArgs) := if prelude.varargs=true then
        (setLocal state varPosKwArgs (.tuple []),varPosKwArgs+1)
      else (state,varPosKwArgs)
    if nKw=0 ∧ prelude.defkwargs=false then
      let nMandatory := prelude.nPosArgs-prelude.nDefPosArgs
      if nMandatory≤args.length then
        let state := placeFrom state args.length (fun_bc.defaults.drop (args.length-nMandatory))
        .ok (placeFrom state 0 args,varPosKwArgs)
      else .error (.posArgsMismatch nMandatory args.length)
    else .ok (placeFrom state 0 args,varPosKwArgs)

/-- The names of the parameters, from the constant table. -/
def argNames (fun_bc : FunBc ν α) (prelude : Prelude) : List ν :=
  fun_bc.constTable.take (prelude.nPosArgs+prelude.nKwonlyArgs)

/-- A parameter list as the compiler lays it out in the prelude: 255 ends the
cell list, and the state array has an entry for every parameter. The names of
closed-over variables, which come first, may repeat. -/
structure Signature (ν α : Type) where
  /-- Positional parameters in order. -/
  posNames : List ν
  /-- Keyword-only parameters in order. -/
  kwonlyNames : List ν
  /-- Defaults of the last positional parameters. -/
  defaults : List α
  /-- Defaults of keyword-only parameters. -/
  kwDefaults : List (ν×α)
  /-- Some keyword-only parameter has a default. -/
  defkwargs : Bool
  /-- There is a `*args` parameter. -/
  varargs : Bool
  /-- There is a `**kwargs` parameter. -/
  varkeywords : Bool
  /-- The function is a generator; not read when it is called. -/
  generator : Bool
  /-- Entries of the state array. -/
  nState : ℕ
  nExcStack : ℕ
  codeInfoSize : ℕ
  /-- Names and line numbers. -/
  codeInfo : List ℕ
  /-- Local numbers of the cell variables. -/
  cells : List ℕ
  opcodes : List ℕ
  /-- No more defaults than positional parameters. -/
  defaults_le : defaults.length≤posNames.length
  /-- The state array holds every parameter. -/
  params_le : posNames.length+kwonlyNames.length+varargs.toNat+varkeywords.toNat≤nState
  /-- The size field counts itself and what follows it. -/
  codeInfo_size : codeInfoSize=(emitWriteUint codeInfoSize).length+codeInfo.length
  /-- A variable is made a cell once. -/
  cells_nodup : cells.Nodup
  /-- Cell variables are locals, and their numbers differ from the sentinel. -/
  cells_lt : ∀ localNum∈cells,localNum<nState ∧ localNum<255

variable (sig : Signature ν α) (args : List α) (kwargs : List (ν×α))

/-- The flag byte of the prelude. -/
def Signature.scopeFlags : ℕ :=
  sig.varargs.toNat+2*sig.varkeywords.toNat+4*sig.generator.toNat+8*sig.defkwargs.toNat

/-- The function object with the prelude that the emitter writes. -/
def Signature.funBc : FunBc ν α where
  bytecode := emitWriteUint sig.nState++(emitWriteUint sig.nExcStack++
    (sig.scopeFlags::sig.posNames.length::sig.kwonlyNames.length::sig.defaults.length::
      (emitWriteUint sig.codeInfoSize++(sig.codeInfo++(sig.cells++255::sig.opcodes)))))
  constTable := sig.posNames++sig.kwonlyNames
  defaults := sig.defaults
  kwDefaults := sig.kwDefaults

/-- Names of all parameters that can be given by keyword. -/
def Signature.names : List ν := sig.posNames++sig.kwonlyNames

/-- Number of named parameters. -/
def Signature.nParams : ℕ := sig.posNames.length+sig.kwonlyNames.length

/-- The fields that the function reads at the start of the bytecode. -/
def Signature.prelude : Prelude where
  nState := sig.nState
  varargs := sig.varargs
  varkeywords := sig.varkeywords
  defkwargs := sig.defkwargs
  nPosArgs := sig.posNames.length
  nKwonlyArgs := sig.kwonlyNames.length
  nDefPosArgs := sig.defaults.length
  ip := emitWriteUint sig.codeInfoSize++(sig.codeInfo++(sig.cells++255::sig.opcodes))

/-- The flag byte gives back the flags. -/
theorem scopeFlags_testBit : sig.scopeFlags.testBit 0=sig.varargs ∧
    sig.scopeFlags.testBit 1=sig.varkeywords ∧ sig.scopeFlags.testBit 3=sig.defkwargs := by
  unfold Signature.scopeFlags
  cases sig.varargs <;> cases sig.varkeywords <;> cases sig.generator <;>
    cases sig.defkwargs <;> exact ⟨rfl,rfl,rfl⟩

/-- The function reads the prelude that the emitter writes. -/
theorem readPrelude_funBc : readPrelude sig.funBc.bytecode=some sig.prelude := by
  have hskip (n : ℕ) (rest : List ℕ) : mpDecodeUintSkip (emitWriteUint n++rest)=some rest := by
    rw [mpDecodeUintSkip_eq 0]
    show (mpDecodeUint (emitWriteUint n++rest)).map Prod.snd=some rest
    rw [emitWriteUint_eq_mpPrintUint,mpDecodeUint_mpPrintUint]
    rfl
  obtain ⟨hva,hvk,hdk⟩ := scopeFlags_testBit sig
  simp only [readPrelude,Signature.funBc]
  rw [emitWriteUint_eq_mpPrintUint sig.nState,mpDecodeUint_mpPrintUint]
  simp only [hskip,hva,hvk,hdk]
  rfl

theorem prelude_codeInfo : ∃ rest,mpDecodeUint sig.prelude.ip=some (sig.codeInfoSize,rest) ∧
    sig.prelude.ip.drop sig.codeInfoSize=sig.cells++255::sig.opcodes := by
  refine ⟨sig.codeInfo++(sig.cells++255::sig.opcodes),?_,?_⟩
  · simp only [Signature.prelude]
    rw [emitWriteUint_eq_mpPrintUint,mpDecodeUint_mpPrintUint]
  · have hsize := sig.codeInfo_size
    simp only [Signature.prelude]
    rw [← append_assoc,drop_left' (by rw [length_append]; exact hsize.symm)]

/-- The value given to parameter `i` by position. -/
def Signature.positional (i : ℕ) : Option α := (args.take sig.posNames.length)[i]?

/-- The entry of local `i` before the keywords: a positional argument, or the
`*args` tuple in its place after the parameters. -/
def Signature.placed (i : ℕ) : Slot ν α :=
  if sig.varargs=true ∧ i=sig.nParams then .tuple (args.drop sig.posNames.length)
  else .ofOption (sig.positional args i)

theorem Signature.nParams_eq : sig.nParams=sig.posNames.length+sig.kwonlyNames.length := rfl

theorem placed_param {i : ℕ} (hi : i < sig.nParams) :
    sig.placed args i=.ofOption (sig.positional args i) :=
  if_neg fun h => by omega

theorem positional_eq_none {i : ℕ} (hi : sig.posNames.length ≤ i) : sig.positional args i=none := by
  rw [Signature.positional,List.getElem?_take,if_neg (by omega)]

theorem positional_eq_some {i : ℕ} (hi : i < sig.posNames.length) (harg : i<args.length) :
    ∃ object,sig.positional args i=some object := by
  rw [Signature.positional,List.getElem?_take,if_pos hi]
  exact ⟨args[i],List.getElem?_eq_getElem harg⟩

/-- Placing the positional arguments over entries which are empty below the
positional count. -/
theorem getLocal_place {state : List (Slot ν α)} {i : ℕ} (hlen : sig.nState ≤ state.length)
    (hi : i < state.length) :
    getLocal (placeFrom state 0 (args.take sig.posNames.length)) i=
      (sig.positional args i).elim (getLocal state i) .value := by
  have hparams := sig.params_le
  have htake := length_take_le sig.posNames.length args
  rw [getLocal_placeFrom (by omega) hi,if_pos (Nat.zero_le i)]
  rfl

theorem getLocal_replicate (n i : ℕ) : getLocal (List.replicate n (Slot.null : Slot ν α)) i=.null := by
  rw [getLocal,getD_eq_getElem?_getD,List.getElem?_replicate]
  split <;> rfl

/-- The cleared state with the `*args` tuple put in its place. -/
theorem getLocal_varargs {i : ℕ} (hi : i < sig.nState) (items : List α) :
    getLocal (if sig.varargs=true then
        setLocal (List.replicate sig.nState .null) sig.nParams (.tuple items)
      else List.replicate sig.nState (.null : Slot ν α)) i=
    if sig.varargs=true ∧ i=sig.nParams then .tuple items else .null := by
  have hparams := sig.params_le
  cases hva : sig.varargs with
  | false => simp [getLocal_replicate]
  | true =>
    rw [hva,Bool.toNat_true] at hparams
    rw [if_pos rfl,getLocal_setLocal (by rw [length_replicate,Signature.nParams]; omega)
      (by rw [length_replicate]; exact hi),getLocal_replicate]
    simp

/-- Placing the positional arguments over the `*args` tuple and the defaults
`filled` gives each local its argument, and its default where it has none. -/
theorem getLocal_place_over {state : List (Slot ν α)} (filled : ℕ→Option α)
    (hlen : state.length=sig.nState)
    (hstate : ∀ i < sig.nState,getLocal state i=
      if sig.varargs=true ∧ i=sig.nParams then .tuple (args.drop sig.posNames.length)
      else .ofOption (filled i)) :
    ∀ i < sig.nState,getLocal (placeFrom state 0 (args.take sig.posNames.length)) i=
      (sig.placed args i).orValue (filled i) := by
  intro i hi
  rw [getLocal_place sig args (by omega) (by omega),hstate i hi,Signature.placed]
  by_cases hvar : sig.varargs=true ∧ i=sig.nParams
  · have hnone : sig.positional args i=none :=
      positional_eq_none sig args (by rw [hvar.2,Signature.nParams]; omega)
    rw [if_pos hvar,if_pos hvar,hnone]
    rfl
  · rw [if_neg hvar,if_neg hvar,Slot.orValue_ofOption]
    cases sig.positional args i <;> rfl

/-- The dict goes to its slot after the parameters and the tuple. -/
theorem getLocal_varkeywords {state : List (Slot ν α)} (dict : List (ν×α))
    (hlen : state.length=sig.nState) :
    (if sig.varkeywords=true then setLocal state (sig.nParams+sig.varargs.toNat) (.dict dict)
      else state).length=sig.nState ∧
    ∀ i < sig.nState,getLocal (if sig.varkeywords=true then
        setLocal state (sig.nParams+sig.varargs.toNat) (.dict dict) else state) i=
      if sig.varkeywords=true ∧ i=sig.nParams+sig.varargs.toNat then .dict dict
      else getLocal state i := by
  have hparams := sig.params_le
  by_cases hvk : sig.varkeywords=true
  · rw [hvk,Bool.toNat_true] at hparams
    simp only [hvk,if_true,true_and]
    exact ⟨(setLocal_length _ _ _).trans hlen,fun i hi =>
      getLocal_setLocal (by rw [Signature.nParams]; omega) (by omega) _⟩
  · rw [if_neg hvk]
    exact ⟨hlen,fun i _ => (if_neg fun h => hvk h.1).symm⟩

theorem argNames_funBc : argNames sig.funBc sig.prelude=sig.names :=
  take_of_length_le (Nat.le_of_eq length_append)

variable [DecidableEq ν]

/-- `mp_obj_dict_store`: replace the value of a present key, else append. -/
def dictStore (entries : List (ν×α)) (key : ν) (value : α) : List (ν×α) :=
  if entries.any (fun entry => decide (entry.1=key)) then
    entries.map (fun entry => if entry.1=key then (key,value) else entry)
  else entries++[(key,value)]

/-- Search of a name in the table of argument names. -/
def paramIndex (names : List ν) (name : ν) : Option ℕ :=
  names.findIdx? (fun argName => decide (name=argName))

/-- The loop over the keywords: a name found in the table goes to its slot,
which must be empty; any other name goes to the dict or is refused. -/
def bindKeywords (argNames : List ν) (varkeywords : Bool) (state : List (Slot ν α))
    (dict : List (ν×α)) : List (ν×α)→Except (ArgError ν) (List (Slot ν α)×List (ν×α))
  | [] => .ok (state,dict)
  | (name,object)::kwargs =>
    match paramIndex argNames name with
    | some j =>
      if (getLocal state j).isNull=false then .error (.multipleValues name)
      else bindKeywords argNames varkeywords (setLocal state j (.value object)) dict kwargs
    | none =>
      if varkeywords=false then .error (.unexpectedKeyword name)
      else bindKeywords argNames varkeywords state (dictStore dict name object) kwargs

/-- Defaults of keyword-only parameters, from index `i` on. -/
def fillKeywordOnly (kwDefaults : List (ν×α)) (state : List (Slot ν α)) (i : ℕ) :
    List ν→Except (ArgError ν) (List (Slot ν α))
  | [] => .ok state
  | name::names =>
    if (getLocal state i).isNull=true then
      match kwDefaults.lookup name with
      | some object => fillKeywordOnly kwDefaults (setLocal state i (.value object)) (i+1) names
      | none => .error (.missingKeyword name)
    else fillKeywordOnly kwDefaults state (i+1) names

/-- What follows the loop over the keywords: positional defaults, the check
of the parameters without one, and keyword-only defaults. -/
def fillMissing (fun_bc : FunBc ν α) (prelude : Prelude) (state : List (Slot ν α)) :
    Except (ArgError ν) (List (Slot ν α)) :=
  let state := fillDefaults state prelude.nPosArgs fun_bc.defaults.reverse
  match checkPositional state (prelude.nPosArgs-prelude.nDefPosArgs) with
  | .error e => .error e
  | .ok () => fillKeywordOnly (if prelude.defkwargs=true then fun_bc.kwDefaults else [])
      state prelude.nPosArgs ((argNames fun_bc prelude).drop prelude.nPosArgs)

/-- The keyword part of the function. -/
def setupKeywords (fun_bc : FunBc ν α) (prelude : Prelude) (kwargs : List (ν×α))
    (state : List (Slot ν α)) (varPosKwArgs : ℕ) : Except (ArgError ν) (List (Slot ν α)) :=
  if kwargs≠[] ∨ prelude.defkwargs=true then
    match bindKeywords (argNames fun_bc prelude) prelude.varkeywords state [] kwargs with
    | .error e => .error e
    | .ok (state,dict) =>
      -- the dict object was put in its slot before the loop that fills it
      fillMissing fun_bc prelude
        (if prelude.varkeywords=true then setLocal state varPosKwArgs (.dict dict) else state)
  else if prelude.nKwonlyArgs≠0 then .error .missingKeywordOnly
  else .ok (if prelude.varkeywords=true then setLocal state varPosKwArgs (.dict []) else state)

/-- `mp_setup_code_state`. Nothing results when the bytecode ends inside its
prelude. -/
def mpSetupCodeState (fun_bc : FunBc ν α) (args : List α) (kwargs : List (ν×α)) :
    Option (Except (ArgError ν) (CodeState ν α)) :=
  match readPrelude fun_bc.bytecode with
  | none => none
  | some prelude =>
    match setupPositional fun_bc prelude args kwargs.length with
    | .error e => some (.error e)
    | .ok (state,varPosKwArgs) =>
      match setupKeywords fun_bc prelude kwargs state varPosKwArgs with
      | .error e => some (.error e)
      | .ok state => match mpDecodeUint prelude.ip with
        | none => none
        | some (codeInfoSize,_) => match boxCells state (prelude.ip.drop codeInfoSize) with
          | none => none
          | some (state,ip) => some (.ok ⟨ip,state,-1,-1⟩)

/-- Keyword values given for parameter `i`. -/
def keywordsFor (names : List ν) (kwargs : List (ν×α)) (i : ℕ) : List α :=
  kwargs.filterMap fun kwarg => if paramIndex names kwarg.1=some i then some kwarg.2 else none

/-- Keywords that name no parameter. -/
def surplusOf (names : List ν) (kwargs : List (ν×α)) : List (ν×α) :=
  kwargs.filter fun kwarg => (paramIndex names kwarg.1).isNone

/-- All values that the call gives to parameter `i`, by position or keyword. -/
def Signature.given (i : ℕ) : List α :=
  (if i < sig.posNames.length then args[i]? else none).toList++keywordsFor sig.names kwargs i

/-- The default of parameter `i`. -/
def Signature.default (i : ℕ) : Option α :=
  if i < sig.posNames.length then
    if sig.posNames.length-sig.defaults.length ≤ i then
      sig.defaults[i-(sig.posNames.length-sig.defaults.length)]?
    else none
  else if sig.defkwargs=true then
    (sig.kwonlyNames[i-sig.posNames.length]?).bind (List.lookup · sig.kwDefaults)
  else none

/-- Keywords that name no parameter. -/
def Signature.surplus : List (ν×α) := surplusOf sig.names kwargs

/-- More positional arguments than parameters, and no `*args`. -/
def Signature.TooMany : Prop := sig.posNames.length<args.length ∧ sig.varargs=false

/-- Some parameter is given two values. -/
def Signature.Duplicate : Prop := ∃ i < sig.nParams,2≤(sig.given args kwargs i).length

/-- A keyword names no parameter, and there is no `**kwargs`. -/
def Signature.Unexpected : Prop := sig.surplus kwargs≠[] ∧ sig.varkeywords=false

/-- Some parameter is given no value and has no default. -/
def Signature.Missing : Prop :=
  ∃ i < sig.nParams,sig.given args kwargs i=[] ∧ sig.default i=none

/-- The keywords that go to `**kwargs` have distinct names. -/
def Signature.SurplusDistinct : Prop := ((sig.surplus kwargs).map Prod.fst).Nodup

/-- The errors about parameters. -/
def Signature.ParamError : Prop :=
  sig.TooMany args ∨ sig.Duplicate args kwargs ∨ sig.Unexpected kwargs ∨ sig.Missing args kwargs

/-- Calls that Python refuses with a TypeError: an error about parameters,
or a keyword given twice. -/
def Signature.PyTypeError : Prop :=
  sig.ParamError args kwargs ∨ ¬sig.SurplusDistinct kwargs

/-- The entry that Python's calling convention assigns to a local before the
cell variables are boxed. -/
def Signature.pyLocal (i : ℕ) : Slot ν α :=
  if i < sig.nParams then
    .ofOption ((sig.given args kwargs i).head?.or (sig.default i))
  else if sig.varargs=true ∧ i=sig.nParams then .tuple (args.drop sig.posNames.length)
  else if sig.varkeywords=true ∧ i=sig.nParams+sig.varargs.toNat then
    .dict (sig.surplus kwargs)
  else .null

/-- The result of a call is what Python's calling convention prescribes: a
TypeError exactly where Python raises one, and otherwise every local with its
value, boxed exactly if it is a cell variable. -/
def Signature.Conforms : Option (Except (ArgError ν) (CodeState ν α))→Prop
  | none => False
  | some (.error _) => sig.PyTypeError args kwargs
  | some (.ok codeState) => ¬sig.PyTypeError args kwargs ∧
      codeState.ip=sig.opcodes ∧ codeState.state.length=sig.nState ∧
      codeState.sp= -1 ∧ codeState.excSp= -1 ∧
      ∀ i < sig.nState,getLocal codeState.state i=
        if i∈sig.cells then .cell (sig.pyLocal args kwargs i) else sig.pyLocal args kwargs i

variable {names : List ν} {dict : List (ν×α)} {state' : List (Slot ν α)} {e : ArgError ν}

theorem paramIndex_lt {name : ν} (h : paramIndex names name=some j) : j<names.length := by
  obtain ⟨hlt,_⟩ := List.findIdx?_eq_some_iff_getElem.mp h
  exact hlt

/-- A keyword adds its value to the parameter that it names. -/
theorem keywordsFor_cons (names : List ν) (kwarg : ν×α) (kwargs : List (ν×α)) (i : ℕ) :
    keywordsFor names (kwarg::kwargs) i=
      (if paramIndex names kwarg.1=some i then [kwarg.2] else [])++keywordsFor names kwargs i := by
  unfold keywordsFor
  by_cases h : paramIndex names kwarg.1=some i
  · rw [filterMap_cons_some (by rw [if_pos h]),if_pos h]
    rfl
  · rw [filterMap_cons_none (by rw [if_neg h]),if_neg h]
    rfl

theorem surplusOf_cons (names : List ν) (kwarg : ν×α) (kwargs : List (ν×α)) :
    surplusOf names (kwarg::kwargs)=
      (if paramIndex names kwarg.1=none then [kwarg] else [])++surplusOf names kwargs := by
  unfold surplusOf
  cases h : paramIndex names kwarg.1 <;> simp [h]

/-- The dict after the surplus keywords have been stored one after another. -/
def storeAll (dict : List (ν×α)) (kwargs : List (ν×α)) : List (ν×α) :=
  kwargs.foldl (fun entries kwarg => dictStore entries kwarg.1 kwarg.2) dict

/-- The state and dict that the keyword loop must leave when it succeeds. -/
structure Bound (names : List ν) (varkeywords : Bool) (kwargs : List (ν×α))
    (state : List (Slot ν α)) (dict : List (ν×α)) (state' : List (Slot ν α))
    (dict' : List (ν×α)) : Prop where
  /-- The state array keeps its size. -/
  length : state'.length=state.length
  /-- A local has its keyword value, or its earlier entry. -/
  locals : ∀ i < state.length,
    getLocal state' i=(keywordsFor names kwargs i).head?.elim (getLocal state i) .value
  /-- A parameter named by a keyword was empty and is named only once. -/
  once : ∀ i<names.length,keywordsFor names kwargs i≠[]→
    (getLocal state i).isNull=true ∧ (keywordsFor names kwargs i).length=1
  /-- Every other keyword was stored in the dict. -/
  stored : dict'=storeAll dict (surplusOf names kwargs)
  /-- There are other keywords only if there is a dict for them. -/
  allowed : surplusOf names kwargs≠[] → varkeywords=true

/-- A keyword loop that ends normally has bound every keyword. -/
theorem bindKeywords_ok {varkeywords : Bool} {kwargs : List (ν×α)} {state : List (Slot ν α)}
    {dict' : List (ν×α)} (hlen : names.length ≤ state.length)
    (h : bindKeywords names varkeywords state dict kwargs=.ok (state',dict')) :
    Bound names varkeywords kwargs state dict state' dict' := by
  induction kwargs generalizing state dict with
  | nil =>
    obtain ⟨rfl,rfl⟩ := Prod.mk.inj (Except.ok.inj h)
    exact ⟨rfl,fun i _ => rfl,fun i _ hne => absurd rfl hne,rfl,fun hne => absurd rfl hne⟩
  | cons kwarg kwargs ih =>
    obtain ⟨name,object⟩ := kwarg
    rw [bindKeywords] at h
    cases hidx : paramIndex names name with
    | some j =>
      have hj := paramIndex_lt hidx
      simp only [hidx] at h
      split at h
      · cases h
      · rename_i hnull
        have hrest := ih (by rw [setLocal_length]; exact hlen) h
        have hnone : keywordsFor names kwargs j=[] := by
          by_contra hne
          have honce := (hrest.once j hj hne).1
          rw [getLocal_setLocal (by omega) (by omega),if_pos rfl] at honce
          exact Bool.false_ne_true honce
        refine ⟨by rw [hrest.length,setLocal_length],fun i hi => ?_,fun i hi hne => ?_,?_,?_⟩
        · rw [hrest.locals i (by rw [setLocal_length]; exact hi),keywordsFor_cons,hidx,
            getLocal_setLocal (by omega) hi]
          by_cases hij : i=j
          · subst hij
            rw [if_pos rfl,if_pos rfl,hnone]
            rfl
          · rw [if_neg hij,if_neg (fun he => hij (Option.some.inj he).symm)]
            rfl
        · rw [keywordsFor_cons,hidx] at hne ⊢
          by_cases hij : i=j
          · subst hij
            rw [if_pos rfl,hnone]
            exact ⟨by simpa using hnull,rfl⟩
          · rw [if_neg (fun he => hij (Option.some.inj he).symm)] at hne ⊢
            have honce := hrest.once i hi hne
            rw [getLocal_setLocal (by omega) (by omega),if_neg hij] at honce
            exact honce
        · rw [hrest.stored,surplusOf_cons,hidx,if_neg (by simp)]
          rfl
        · rw [surplusOf_cons,hidx,if_neg (by simp)]
          exact hrest.allowed
    | none =>
      simp only [hidx] at h
      split at h
      · cases h
      · rename_i hvk
        have hrest := ih hlen h
        have hkw (i : ℕ) : keywordsFor names ((name,object)::kwargs) i=
            keywordsFor names kwargs i := by
          rw [keywordsFor_cons,hidx,if_neg (by simp)]
          rfl
        refine ⟨hrest.length,fun i hi => ?_,fun i hi hne => ?_,?_,fun _ => by simpa using hvk⟩
        · rw [hkw,hrest.locals i hi]
        · rw [hkw] at hne ⊢
          exact hrest.once i hi hne
        · rw [hrest.stored,surplusOf_cons,hidx,if_pos rfl]
          rfl

/-- A keyword loop that raises has met a parameter given twice, or a keyword
that names no parameter while there is no dict. -/
theorem bindKeywords_error {varkeywords : Bool} {kwargs : List (ν×α)} {state : List (Slot ν α)}
    (hlen : names.length ≤ state.length)
    (h : bindKeywords names varkeywords state dict kwargs=.error e) :
    (∃ i<names.length,keywordsFor names kwargs i≠[] ∧
      ((getLocal state i).isNull=false ∨ 2≤(keywordsFor names kwargs i).length)) ∨
    (surplusOf names kwargs≠[] ∧ varkeywords=false) := by
  induction kwargs generalizing state dict with
  | nil => cases h
  | cons kwarg kwargs ih =>
    obtain ⟨name,object⟩ := kwarg
    rw [bindKeywords] at h
    cases hidx : paramIndex names name with
    | some j =>
      have hj := paramIndex_lt hidx
      simp only [hidx] at h
      split at h
      · rename_i hfull
        refine Or.inl ⟨j,hj,?_,Or.inl hfull⟩
        rw [keywordsFor_cons,if_pos hidx]
        simp
      · rcases ih (by rw [setLocal_length]; exact hlen) h with ⟨i,hi,hne,htwice⟩ | hsurplus
        · refine Or.inl ⟨i,hi,?_,?_⟩
          · rw [keywordsFor_cons]
            exact append_ne_nil_of_right_ne_nil _ hne
          · rw [keywordsFor_cons,hidx,length_append]
            have hpos := length_pos_iff.mpr hne
            rw [getLocal_setLocal (by omega) (by omega)] at htwice
            by_cases hij : i=j
            · subst hij
              rw [if_pos rfl]
              exact Or.inr (by simp only [length_singleton]; omega)
            · rw [if_neg hij] at htwice
              rcases htwice with hfull | htwo
              · exact Or.inl hfull
              · exact Or.inr (by omega)
        · refine Or.inr ⟨?_,hsurplus.2⟩
          rw [surplusOf_cons]
          exact append_ne_nil_of_right_ne_nil _ hsurplus.1
    | none =>
      simp only [hidx] at h
      split at h
      · rename_i hvk
        refine Or.inr ⟨?_,hvk⟩
        rw [surplusOf_cons,hidx,if_pos rfl]
        simp
      · rcases ih hlen h with ⟨i,hi,hne,htwice⟩ | hsurplus
        · refine Or.inl ⟨i,hi,?_⟩
          rw [keywordsFor_cons,hidx,if_neg (by simp)]
          exact ⟨hne,htwice⟩
        · rename_i hvk
          exact absurd hsurplus.2 hvk

/-- Defaults of keyword-only parameters go to the empty ones of them, and the
loop ends normally only if none stays empty. -/
theorem fillKeywordOnly_ok {kwDefaults : List (ν×α)} {state : List (Slot ν α)}
    {i : ℕ} (hi : i+names.length ≤ state.length)
    (h : fillKeywordOnly kwDefaults state i names=.ok state') :
    state'.length=state.length ∧ ∀ j < state.length,getLocal state' j=(getLocal state j).orValue
        (if i≤j then (names[j-i]?).bind (List.lookup · kwDefaults) else none) ∧
      (i≤j → j < i+names.length→(getLocal state' j).isNull=false) := by
  induction names generalizing state i with
  | nil =>
    cases h
    refine ⟨rfl,fun j hj => ⟨by simp,fun h1 h2 => ?_⟩⟩
    simp only [length_nil] at h2
    omega
  | cons name names ih =>
    simp only [length_cons] at hi ⊢
    have hrest (j : ℕ) (hij : ¬j=i) :
        (if i+1≤j then (names[j-(i+1)]?).bind (List.lookup · kwDefaults) else none)=
        if i≤j then ((name::names)[j-i]?).bind (List.lookup · kwDefaults) else none := by
      by_cases hle : i+1≤j
      · have hsub : j-i=(j-(i+1))+1 := by omega
        rw [if_pos hle,if_pos (by omega),hsub,List.getElem?_cons_succ]
      · rw [if_neg hle,if_neg (by omega)]
    rw [fillKeywordOnly] at h
    split at h
    case isTrue hnull =>
      cases hdef : kwDefaults.lookup name with
      | none =>
        rw [hdef] at h
        cases h
      | some object =>
        rw [hdef] at h
        obtain ⟨hlen,hall⟩ := ih (by rw [setLocal_length]; omega) h
        rw [setLocal_length] at hlen hall
        refine ⟨hlen,fun j hj => ?_⟩
        obtain ⟨hval,hfull⟩ := hall j hj
        rw [getLocal_setLocal (by omega) hj] at hval
        by_cases hji : j=i
        · subst hji
          rw [if_pos rfl,if_neg (by omega),Slot.orValue_none] at hval
          rw [hval,if_pos (Nat.le_refl j),Nat.sub_self,List.getElem?_cons_zero,bind_some,
            hdef,Slot.orValue,if_pos hnull]
          exact ⟨rfl,fun _ _ => rfl⟩
        · rw [if_neg hji,hrest j hji] at hval
          exact ⟨hval,fun h1 h2 => hfull (by omega) (by omega)⟩
    case isFalse hnull =>
      obtain ⟨hlen,hall⟩ := ih (by omega) h
      refine ⟨hlen,fun j hj => ?_⟩
      obtain ⟨hval,hfull⟩ := hall j hj
      by_cases hji : j=i
      · subst hji
        rw [if_neg (by omega),Slot.orValue_none] at hval
        rw [hval,Slot.orValue,if_neg hnull]
        exact ⟨rfl,fun _ _ => Bool.eq_false_iff.mpr hnull⟩
      · rw [hrest j hji] at hval
        exact ⟨hval,fun h1 h2 => hfull (by omega) (by omega)⟩

/-- The loop raises only for an empty parameter without a default. -/
theorem fillKeywordOnly_error {kwDefaults : List (ν×α)}
    {state : List (Slot ν α)} {i : ℕ} (hi : i+names.length ≤ state.length)
    (h : fillKeywordOnly kwDefaults state i names=.error e) :
    ∃ j,i≤j ∧ j < i+names.length ∧ (getLocal state j).isNull=true ∧
      (names[j-i]?).bind (List.lookup · kwDefaults)=none := by
  induction names generalizing state i with
  | nil => cases h
  | cons name names ih =>
    simp only [length_cons] at hi ⊢
    -- a later parameter found by the induction hypothesis is one of this loop
    have hlater (j : ℕ) (hle : i+1≤j) (hbind : (names[j-(i+1)]?).bind (List.lookup · kwDefaults)=none) :
        ((name::names)[j-i]?).bind (List.lookup · kwDefaults)=none := by
      have hsub : j-i=(j-(i+1))+1 := by omega
      rw [hsub,List.getElem?_cons_succ]
      exact hbind
    rw [fillKeywordOnly] at h
    split at h
    case isTrue hnull =>
      cases hdef : kwDefaults.lookup name with
      | none =>
        refine ⟨i,Nat.le_refl i,by omega,hnull,?_⟩
        rw [Nat.sub_self,List.getElem?_cons_zero,bind_some]
        exact hdef
      | some object =>
        rw [hdef] at h
        obtain ⟨j,hle,hlt,hempty,hbind⟩ := ih (by rw [setLocal_length]; omega) h
        rw [getLocal_setLocal (by omega) (by omega),if_neg (by omega)] at hempty
        exact ⟨j,by omega,by omega,hempty,hlater j hle hbind⟩
    case isFalse hnull =>
      obtain ⟨j,hle,hlt,hempty,hbind⟩ := ih (by omega) h
      exact ⟨j,by omega,by omega,hempty,hlater j hle hbind⟩

theorem given_eq : sig.given args kwargs i=
    (sig.positional args i).toList++keywordsFor sig.names kwargs i := by
  rw [Signature.given,Signature.positional,List.getElem?_take]

theorem keywordsFor_eq_nil {kwargs : List (ν×α)} {i : ℕ}
    (hi : names.length ≤ i) : keywordsFor names kwargs i=[] := by
  refine filterMap_eq_nil_iff.mpr fun kwarg _ => if_neg fun hidx => ?_
  have hlt := paramIndex_lt hidx
  omega

/-- Placing the defaults after the given arguments gives each of the remaining
positional parameters its default. -/
theorem getLocal_place_defaults {state : List (Slot ν α)} {i : ℕ}
    (hargs : args.length ≤ sig.posNames.length)
    (henough : sig.posNames.length-sig.defaults.length≤args.length)
    (hlen : state.length=sig.nState)
    (hstate : getLocal state i=
      if sig.varargs=true ∧ i=sig.nParams then .tuple (args.drop sig.posNames.length) else .null)
    (hi : i < sig.nState) :
    getLocal (placeFrom state args.length
        (sig.defaults.drop (args.length-(sig.posNames.length-sig.defaults.length)))) i=
      if sig.varargs=true ∧ i=sig.nParams then .tuple (args.drop sig.posNames.length)
      else .ofOption (if args.length ≤ i ∧ i < sig.posNames.length then sig.default i else none) := by
  have hparams := sig.params_le
  have hdefaults := sig.defaults_le
  rw [getLocal_placeFrom (by rw [length_drop]; omega) (by omega),hstate]
  by_cases hparam : i < sig.posNames.length
  · have hnotVar : ¬(sig.varargs=true ∧ i=sig.nParams) := fun h => by
      have heq := h.2
      rw [Signature.nParams] at heq
      omega
    rw [if_neg hnotVar,if_neg hnotVar]
    by_cases hle : args.length ≤ i
    · have hsum : args.length-(sig.posNames.length-sig.defaults.length)+(i-args.length)=
          i-(sig.posNames.length-sig.defaults.length) := by omega
      rw [if_pos hle,if_pos ⟨hle,hparam⟩,List.getElem?_drop,hsum,Signature.default,if_pos hparam,
        if_pos (by omega)]
      cases sig.defaults[i-(sig.posNames.length-sig.defaults.length)]? <;> rfl
    · rw [if_neg hle,if_neg (fun h => hle h.1)]
      rfl
  · have hnone : (sig.defaults.drop
        (args.length-(sig.posNames.length-sig.defaults.length)))[i-args.length]?=none := by
      rw [List.getElem?_eq_none_iff,length_drop]
      omega
    have hnotDefault : ¬(args.length ≤ i ∧ i < sig.posNames.length) := fun h => hparam h.2
    rw [hnone,if_pos (by omega),if_neg hnotDefault]
    rfl

/-- A positional part that ends normally has placed the arguments and the
`*args` tuple, and the defaults too if no keyword part will do that. -/
theorem setupPositional_ok {nKw : ℕ} {state : List (Slot ν α)} {varPosKwArgs : ℕ}
    (h : setupPositional sig.funBc sig.prelude args nKw=.ok (state,varPosKwArgs)) :
    ¬sig.TooMany args ∧ varPosKwArgs=sig.nParams+sig.varargs.toNat ∧ state.length=sig.nState ∧
    (nKw=0 ∧ sig.defkwargs=false → sig.posNames.length-sig.defaults.length≤args.length) ∧
    ∀ i < sig.nState,getLocal state i=(sig.placed args i).orValue
      (if (nKw=0 ∧ sig.defkwargs=false) ∧ i < sig.posNames.length then sig.default i else none) := by
  -- the state before anything but the tuple is placed
  let base : List (Slot ν α) := if sig.varargs=true then
      setLocal (List.replicate sig.nState .null) sig.nParams (.tuple (args.drop sig.posNames.length))
    else List.replicate sig.nState .null
  have hbase (i : ℕ) (hi : i < sig.nState) : getLocal base i=
      if sig.varargs=true ∧ i=sig.nParams then .tuple (args.drop sig.posNames.length) else .null :=
    getLocal_varargs sig hi _
  have hsize : base.length=sig.nState := by
    dsimp only [base]
    split
    · rw [setLocal_length,length_replicate]
    · exact length_replicate
  have hplain := getLocal_place_over sig args (fun _ => none) hsize hbase
  by_cases hmany : sig.posNames.length<args.length
  · cases hva : sig.varargs with
    | false => simp [setupPositional,Signature.prelude,hmany,hva] at h
    | true =>
      have heq : base=setLocal (List.replicate sig.nState .null) sig.nParams
          (.tuple (args.drop sig.posNames.length)) := if_pos hva
      simp only [setupPositional,Signature.prelude,if_pos hmany,hva] at h
      obtain ⟨rfl,rfl⟩ := Prod.mk.inj (Except.ok.inj h)
      refine ⟨fun ht => by simp [ht.2] at hva,rfl,?_,fun _ => by omega,fun i hi => ?_⟩
      · rw [placeFrom_length,setLocal_length,length_replicate]
      · have hi' := hplain i hi
        rw [heq,Slot.orValue_none] at hi'
        refine hi'.trans ?_
        split
        case isTrue hdef =>
          -- every positional parameter has an argument
          have ⟨object,hsome⟩ := positional_eq_some sig args hdef.2 (by omega)
          rw [placed_param sig args (by rw [Signature.nParams]; omega),hsome]
          rfl
        case isFalse => exact (Slot.orValue_none _).symm
  · have htake : args.take sig.posNames.length=args := take_of_length_le (by omega)
    have hdrop : args.drop sig.posNames.length=[] := drop_of_length_le (by omega)
    have hpair : (if sig.varargs=true then
          (setLocal (List.replicate sig.nState .null) (sig.posNames.length+sig.kwonlyNames.length)
            (.tuple []),sig.posNames.length+sig.kwonlyNames.length+1)
        else (List.replicate sig.nState (.null : Slot ν α),
          sig.posNames.length+sig.kwonlyNames.length))=
        (base,sig.nParams+sig.varargs.toNat) := by
      dsimp only [base]
      rw [hdrop]
      cases sig.varargs <;> rfl
    dsimp only [setupPositional,Signature.prelude] at h
    rw [if_neg hmany,hpair] at h
    refine ⟨fun ht => hmany ht.1,?_⟩
    split at h
    case isTrue hnoKw =>
      split at h
      case isTrue henough =>
        obtain ⟨rfl,rfl⟩ := Prod.mk.inj (Except.ok.inj h)
        have hover := getLocal_place_over sig args
          (fun i => if args.length ≤ i ∧ i < sig.posNames.length then sig.default i else none)
          ((placeFrom_length _ _ _).trans hsize) fun i hi => getLocal_place_defaults sig args
            (by omega) henough hsize (hbase i hi) hi
        rw [htake] at hover
        refine ⟨rfl,by rw [placeFrom_length,placeFrom_length,hsize],fun _ => henough,fun i hi => ?_⟩
        refine (hover i hi).trans ?_
        by_cases hle : args.length ≤ i
        · simp only [hnoKw,hle,true_and,and_self]
        · have ⟨object,hsome⟩ := positional_eq_some sig args (by omega) (Nat.not_le.mp hle)
          rw [placed_param sig args (by rw [Signature.nParams]; omega),hsome]
          rfl
      case isFalse => cases h
    case isFalse hkw =>
      obtain ⟨rfl,rfl⟩ := Prod.mk.inj (Except.ok.inj h)
      refine ⟨rfl,by rw [placeFrom_length,hsize],fun hno => absurd hno hkw,fun i hi => ?_⟩
      have hi' := hplain i hi
      rw [htake] at hi'
      rw [if_neg (fun hboth => hkw hboth.1)]
      exact hi'

/-- A positional part that raises had too many arguments, or too few when no
keywords can make up for it. -/
theorem setupPositional_error
    (h : setupPositional sig.funBc sig.prelude args kwargs.length=.error e) :
    sig.ParamError args kwargs := by
  dsimp only [setupPositional,Signature.prelude] at h
  split at h
  case isTrue hmany =>
    split at h
    case isTrue hva => exact Or.inl ⟨hmany,hva⟩
    case isFalse => cases h
  case isFalse hmany =>
    split at h
    case isTrue hnoKw =>
      split at h
      case isTrue => cases h
      case isFalse hfew =>
        -- the parameter after the last argument is missing
        have hnil := length_eq_zero_iff.mp hnoKw.1
        refine Or.inr (Or.inr (Or.inr ⟨args.length,by rw [Signature.nParams]; omega,?_,?_⟩))
        · rw [hnil,Signature.given,if_pos (by omega),List.getElem?_eq_none (Nat.le_refl _)]
          rfl
        · rw [Signature.default,if_pos (by omega),if_neg hfew]
    case isFalse => cases h

/-- The defaults in reverse meet the parameters in reverse. -/
theorem reverse_defaults {i : ℕ} (hi : i < sig.posNames.length) :
    sig.defaults.reverse[sig.posNames.length-1-i]?=sig.default i := by
  have hdefaults := sig.defaults_le
  rw [Signature.default,if_pos hi]
  by_cases hle : sig.posNames.length-sig.defaults.length ≤ i
  · have hidx : sig.defaults.length-1-(sig.posNames.length-1-i)=
        i-(sig.posNames.length-sig.defaults.length) := by omega
    rw [if_pos hle,List.getElem?_reverse (by omega),hidx]
  · rw [if_neg hle,List.getElem?_eq_none (by rw [length_reverse]; omega)]

/-- A keyword-only parameter has its default in the dict of the function. -/
theorem kwonly_default {i : ℕ} (hi : sig.posNames.length ≤ i) :
    (sig.kwonlyNames[i-sig.posNames.length]?).bind
      (List.lookup · (if sig.defkwargs=true then sig.kwDefaults else []))=sig.default i := by
  have hnotPos : ¬i < sig.posNames.length := by omega
  rw [Signature.default,if_neg hnotPos]
  by_cases hdk : sig.defkwargs=true
  · rw [if_pos hdk,if_pos hdk]
  · rw [if_neg hdk,if_neg hdk]
    cases sig.kwonlyNames[i-sig.posNames.length]? <;> rfl

/-- After the keyword loop each parameter has the first value given to it,
and all other locals are as before. -/
theorem Bound.getLocal_given {state : List (Slot ν α)}
    (h : Bound sig.names sig.varkeywords kwargs state [] state' dict)
    (hlen : state.length=sig.nState) (hstate : ∀ i < sig.nState,getLocal state i=sig.placed args i) :
    ∀ i < sig.nState,getLocal state' i=
      if i < sig.nParams then .ofOption (sig.given args kwargs i).head? else sig.placed args i := by
  intro i hi
  have hnames : sig.names.length=sig.nParams := length_append
  rw [h.locals i (by omega),hstate i hi]
  by_cases hparam : i < sig.nParams
  · rw [if_pos hparam,given_eq]
    cases hkw : keywordsFor sig.names kwargs i with
    | nil =>
      rw [placed_param sig args hparam,append_nil]
      cases sig.positional args i <;> rfl
    | cons object rest =>
      have honce := (h.once i (by omega) (by rw [hkw]; exact cons_ne_nil _ _)).1
      rw [hstate i hi,placed_param sig args hparam,Slot.isNull_ofOption,isNone_iff_eq_none] at honce
      rw [honce]
      rfl
  · rw [if_neg hparam,keywordsFor_eq_nil (by omega)]
    rfl

/-- A keyword loop that ends normally has met no error about keywords. -/
theorem Bound.no_error {state : List (Slot ν α)}
    (h : Bound sig.names sig.varkeywords kwargs state [] state' dict)
    (hstate : ∀ i < sig.nState,getLocal state i=sig.placed args i) :
    ¬sig.Duplicate args kwargs ∧ ¬sig.Unexpected kwargs := by
  have hnames : sig.names.length=sig.nParams := length_append
  have hparams := sig.params_le
  constructor
  · intro ⟨i,hi,htwo⟩
    rw [given_eq] at htwo
    cases hkw : keywordsFor sig.names kwargs i with
    | nil =>
      rw [hkw] at htwo
      cases hpos : sig.positional args i <;> simp [hpos] at htwo
    | cons object rest =>
      obtain ⟨hnull,hone⟩ := h.once i (by omega) (by rw [hkw]; exact cons_ne_nil _ _)
      rw [hstate i (by rw [Signature.nParams] at hi; omega),placed_param sig args hi,
        Slot.isNull_ofOption,isNone_iff_eq_none] at hnull
      rw [hnull,length_append,hone] at htwo
      simp at htwo
  · intro ⟨hne,hvk⟩
    have hallowed := h.allowed hne
    rw [hvk] at hallowed
    exact Bool.false_ne_true hallowed

theorem getLocal_defaults {state : List (Slot ν α)} (hlen : state.length=sig.nState) {i : ℕ}
    (hi : i < sig.nState) :
    getLocal (fillDefaults state sig.posNames.length sig.defaults.reverse) i=
      (getLocal state i).orValue (if i < sig.posNames.length then sig.default i else none) := by
  have hparams := sig.params_le
  rw [getLocal_fillDefaults (by omega) (by omega)]
  by_cases hpos : i < sig.posNames.length
  · rw [if_pos hpos,if_pos hpos,reverse_defaults sig hpos]
  · rw [if_neg hpos,if_neg hpos]

theorem fillMissing_funBc : fillMissing sig.funBc sig.prelude state=
      match checkPositional (fillDefaults state sig.posNames.length sig.defaults.reverse)
          (sig.posNames.length-sig.defaults.length) with
      | .error e => .error e
      | .ok () => fillKeywordOnly (if sig.defkwargs=true then sig.kwDefaults else [])
          (fillDefaults state sig.posNames.length sig.defaults.reverse)
          sig.posNames.length sig.kwonlyNames := by
  have hdrop : sig.names.drop sig.prelude.nPosArgs=sig.kwonlyNames := drop_left
  rw [fillMissing,argNames_funBc,hdrop]
  rfl

/-- When the defaults and checks end normally, every parameter has a value or
a default, and every empty parameter has received its default. -/
theorem fillMissing_ok (value : ℕ→Option α) {state : List (Slot ν α)}
    (hlen : state.length=sig.nState)
    (hstate : ∀ i < sig.nParams,getLocal state i=.ofOption (value i))
    (h : fillMissing sig.funBc sig.prelude state=.ok state') :
    state'.length=sig.nState ∧ (¬∃ i < sig.nParams,value i=none ∧ sig.default i=none) ∧
    ∀ i < sig.nState,getLocal state' i=
      if i < sig.nParams then .ofOption ((value i).or (sig.default i)) else getLocal state i := by
  have hparams := sig.params_le
  have hnParams := sig.nParams_eq
  have hsize := (fillDefaults_length state sig.posNames.length sig.defaults.reverse).trans hlen
  rw [fillMissing_funBc] at h
  split at h
  case h_1 => cases h
  case h_2 hcheck =>
    have hfull := (checkPositional_ok _ _).mp hcheck
    obtain ⟨hlen',hlocals⟩ := fillKeywordOnly_ok (by omega) h
    rw [hsize] at hlen' hlocals
    -- the final entry, in terms of the entry before the defaults
    have hvalue (i : ℕ) (hi : i < sig.nState) : getLocal state' i=
        if i < sig.nParams then .ofOption ((value i).or (sig.default i)) else getLocal state i := by
      rw [(hlocals i hi).1,getLocal_defaults sig hlen hi]
      by_cases hpos : i < sig.posNames.length
      · rw [if_pos hpos,if_neg (by omega),if_pos (by omega),hstate i (by omega),
          Slot.orValue_ofOption,Slot.orValue_none]
      · have hle : sig.posNames.length ≤ i := by omega
        rw [if_neg hpos,if_pos hle,kwonly_default sig hle,Slot.orValue_none]
        by_cases hparam : i < sig.nParams
        · rw [if_pos hparam,hstate i hparam,Slot.orValue_ofOption]
        · have hbeyond : sig.kwonlyNames[i-sig.posNames.length]?=none := by
            rw [List.getElem?_eq_none_iff]
            omega
          have hnoDefault : sig.default i=none := by
            rw [← kwonly_default sig hle,hbeyond]
            rfl
          rw [if_neg hparam,hnoDefault,Slot.orValue_none]
    refine ⟨hlen',?_,hvalue⟩
    intro ⟨i,hi,hnone,hnoDefault⟩
    have hempty : (getLocal state' i).isNull=true := by
      rw [hvalue i (by omega),if_pos hi,hnone,hnoDefault]
      rfl
    have hnotEmpty : (getLocal state' i).isNull=false := by
      by_cases hpos : i < sig.posNames.length
      · have hsame := (hlocals i (by omega)).1
        rw [if_neg (by omega),Slot.orValue_none] at hsame
        rw [hsame]
        by_cases hmandatory : i < sig.posNames.length-sig.defaults.length
        · exact hfull i hmandatory
        · rw [Signature.default,if_pos hpos,if_pos (by omega),List.getElem?_eq_none_iff]
            at hnoDefault
          omega
      · exact (hlocals i (by omega)).2 (by omega) (by omega)
    rw [hempty] at hnotEmpty
    cases hnotEmpty

/-- When the defaults or checks raise, some parameter has no value and no
default. -/
theorem fillMissing_error (value : ℕ→Option α) {state : List (Slot ν α)}
    (hlen : state.length=sig.nState)
    (hstate : ∀ i < sig.nParams,getLocal state i=.ofOption (value i))
    (h : fillMissing sig.funBc sig.prelude state=.error e) :
    ∃ i < sig.nParams,value i=none ∧ sig.default i=none := by
  have hparams := sig.params_le
  have hnParams := sig.nParams_eq
  have hsize := (fillDefaults_length state sig.posNames.length sig.defaults.reverse).trans hlen
  rw [fillMissing_funBc] at h
  split at h
  case h_1 hcheck =>
    by_contra hnone
    have hfull : ∀ j < sig.posNames.length-sig.defaults.length,
        (getLocal (fillDefaults state sig.posNames.length sig.defaults.reverse) j).isNull=false := by
      intro j hj
      rw [getLocal_defaults sig hlen (by omega),if_pos (by omega),hstate j (by omega),
        Slot.orValue_ofOption,Slot.isNull_ofOption]
      have hsome : ¬(value j=none ∧ sig.default j=none) := fun hboth =>
        hnone ⟨j,by omega,hboth⟩
      cases hval : value j with
      | some object => rfl
      | none =>
        cases hdef : sig.default j with
        | some object => rfl
        | none => exact absurd ⟨hval,hdef⟩ hsome
    rw [(checkPositional_ok _ _).mpr hfull] at hcheck
    cases hcheck
  case h_2 =>
    obtain ⟨j,hle,hlt,hempty,hbind⟩ := fillKeywordOnly_error (by omega) h
    rw [kwonly_default sig hle] at hbind
    rw [getLocal_defaults sig hlen (by omega),if_neg (by omega),Slot.orValue_none,
      hstate j (by omega),Slot.isNull_ofOption,isNone_iff_eq_none] at hempty
    exact ⟨j,by omega,hempty,hbind⟩

/-- Stores under distinct new names append to the dict. -/
theorem storeAll_eq_append {kwargs : List (ν×α)}
    (hnodup : ((dict++kwargs).map Prod.fst).Nodup) : storeAll dict kwargs=dict++kwargs := by
  induction kwargs generalizing dict with
  | nil => exact (append_nil dict).symm
  | cons kwarg kwargs ih =>
    have hassoc : dict++kwarg::kwargs=(dict++[kwarg])++kwargs := by simp
    have hnew : ¬dict.any (fun entry => decide (entry.1=kwarg.1))=true := by
      intro hany
      obtain ⟨entry,hmem,heq⟩ := any_eq_true.mp hany
      rw [map_append,map_cons,nodup_append] at hnodup
      exact hnodup.2.2 entry.1 (mem_map_of_mem hmem) kwarg.1 mem_cons_self (of_decide_eq_true heq)
    have hstore : dictStore dict kwarg.1 kwarg.2=dict++[kwarg] := if_neg hnew
    show storeAll (dictStore dict kwarg.1 kwarg.2) kwargs=_
    rw [hstore,hassoc]
    exact ih (by rwa [← hassoc])

/-- The entry of a local after a successful call, before boxing: as Python's
calling convention has it, but for the contents of `**kwargs`. -/
def Signature.boundLocal (i : ℕ) : Slot ν α :=
  if i < sig.nParams then .ofOption ((sig.given args kwargs i).head?.or (sig.default i))
  else if sig.varkeywords=true ∧ i=sig.nParams+sig.varargs.toNat then
    .dict (storeAll [] (sig.surplus kwargs))
  else sig.placed args i

/-- With distinct surplus names the entry is the one of the convention. -/
theorem boundLocal_eq_pyLocal (hdistinct : sig.SurplusDistinct kwargs) (i : ℕ) :
    sig.boundLocal args kwargs i=sig.pyLocal args kwargs i := by
  have hstored : storeAll [] (sig.surplus kwargs)=sig.surplus kwargs :=
    storeAll_eq_append hdistinct
  have hnParams := sig.nParams_eq
  rw [Signature.boundLocal,Signature.pyLocal,hstored]
  by_cases hparam : i < sig.nParams
  · rw [if_pos hparam,if_pos hparam]
  · rw [if_neg hparam,if_neg hparam,Signature.placed,positional_eq_none sig args (by omega)]
    by_cases hvar : sig.varargs=true ∧ i=sig.nParams
    · have hnotDict : ¬(sig.varkeywords=true ∧ i=sig.nParams+sig.varargs.toNat) := fun h => by
        have hslot := h.2
        rw [hvar.1,Bool.toNat_true] at hslot
        omega
      rw [if_neg hnotDict,if_pos hvar,if_pos hvar]
    · rw [if_neg hvar,if_neg hvar]
      rfl

/-- The keyword part, in terms of the signature. -/
theorem setupKeywords_funBc (varPosKwArgs : ℕ) :
    setupKeywords sig.funBc sig.prelude kwargs state varPosKwArgs=
      if kwargs≠[] ∨ sig.defkwargs=true then
        match bindKeywords sig.names sig.varkeywords state [] kwargs with
        | .error e => .error e
        | .ok (state,dict) => fillMissing sig.funBc sig.prelude
          (if sig.varkeywords=true then setLocal state varPosKwArgs (.dict dict) else state)
      else if sig.kwonlyNames.length≠0 then .error .missingKeywordOnly
      else .ok (if sig.varkeywords=true then setLocal state varPosKwArgs (.dict []) else state) := by
  rw [setupKeywords,argNames_funBc]
  rfl

/-- A keyword part that ends normally has met no error about parameters, and
gives every parameter its value. -/
theorem setupKeywords_ok {state : List (Slot ν α)} (hlen : state.length=sig.nState)
    (hstate : ∀ i < sig.nState,getLocal state i=sig.placed args i)
    (hkw : kwargs≠[] ∨ sig.defkwargs=true)
    (h : setupKeywords sig.funBc sig.prelude kwargs state (sig.nParams+sig.varargs.toNat)=
      .ok state') :
    (¬sig.Duplicate args kwargs ∧ ¬sig.Unexpected kwargs ∧ ¬sig.Missing args kwargs) ∧
    state'.length=sig.nState ∧
    ∀ i < sig.nState,getLocal state' i=sig.boundLocal args kwargs i := by
  have hparams := sig.params_le
  have hnames : sig.names.length=sig.nParams := length_append
  have hnParams := sig.nParams_eq
  rw [setupKeywords_funBc,if_pos hkw] at h
  split at h
  case h_1 => cases h
  case h_2 state₁ dict hbind =>
    have hbound : Bound sig.names sig.varkeywords kwargs state [] state₁ dict :=
      bindKeywords_ok (by omega) hbind
    have hgiven := hbound.getLocal_given sig args kwargs hlen hstate
    obtain ⟨hlen₂,hstate₂⟩ := getLocal_varkeywords sig dict (hbound.length.trans hlen)
    have hstored : dict=storeAll [] (sig.surplus kwargs) := hbound.stored
    obtain ⟨hlen',hnotMissing,hfinal⟩ := fillMissing_ok sig
      (fun i => (sig.given args kwargs i).head?) hlen₂ (fun i hi => by
        rw [hstate₂ i (by omega),if_neg (by omega),hgiven i (by omega),if_pos hi]) h
    obtain ⟨hnotDuplicate,hnotUnexpected⟩ := hbound.no_error sig args kwargs hstate
    refine ⟨⟨hnotDuplicate,hnotUnexpected,?_⟩,hlen',fun i hi => ?_⟩
    · intro ⟨i,hi,hnil,hnone⟩
      exact hnotMissing ⟨i,hi,by rw [hnil]; rfl,hnone⟩
    · rw [hfinal i hi,hstate₂ i hi,hgiven i hi,hstored,Signature.boundLocal]
      by_cases hparam : i < sig.nParams
      · rw [if_pos hparam,if_pos hparam]
      · rw [if_neg hparam,if_neg hparam,if_neg hparam]

/-- A keyword part that raises has met an error about parameters. -/
theorem setupKeywords_error {state : List (Slot ν α)}
    (hlen : state.length=sig.nState) (hstate : ∀ i < sig.nState,getLocal state i=sig.placed args i)
    (hkw : kwargs≠[] ∨ sig.defkwargs=true)
    (h : setupKeywords sig.funBc sig.prelude kwargs state (sig.nParams+sig.varargs.toNat)=
      .error e) :
    sig.ParamError args kwargs := by
  have hparams := sig.params_le
  have hnames : sig.names.length=sig.nParams := length_append
  have hnParams := sig.nParams_eq
  rw [setupKeywords_funBc,if_pos hkw] at h
  split at h
  case h_1 hbind =>
    rcases bindKeywords_error (by omega) hbind with ⟨i,hi,hne,htwice⟩ | hunexpected
    · refine Or.inr (Or.inl ⟨i,by omega,?_⟩)
      rw [given_eq,length_append]
      have hpos := length_pos_iff.mpr hne
      rcases htwice with hfull | htwo
      · rw [hstate i (by omega),placed_param sig args (by omega),Slot.isNull_ofOption] at hfull
        cases hval : sig.positional args i with
        | none => simp [hval] at hfull
        | some object =>
          rw [toList_some,length_singleton]
          omega
      · omega
    · exact Or.inr (Or.inr (Or.inl hunexpected))
  case h_2 state₁ dict hbind =>
    have hbound : Bound sig.names sig.varkeywords kwargs state [] state₁ dict :=
      bindKeywords_ok (by omega) hbind
    have hgiven := hbound.getLocal_given sig args kwargs hlen hstate
    obtain ⟨hlen₂,hstate₂⟩ := getLocal_varkeywords sig dict (hbound.length.trans hlen)
    obtain ⟨i,hi,hnone,hnoDefault⟩ := fillMissing_error sig
      (fun i => (sig.given args kwargs i).head?) hlen₂ (fun i hi => by
        rw [hstate₂ i (by omega),if_neg (by omega),hgiven i (by omega),if_pos hi]) h
    exact Or.inr (Or.inr (Or.inr ⟨i,hi,List.head?_eq_none_iff.mp hnone,hnoDefault⟩))

/-- Without keywords and keyword-only defaults, the parameters that positional
arguments and defaults fill are all of them. -/
theorem setup_noKeywords {state : List (Slot ν α)} (hkwonly : sig.kwonlyNames.length=0)
    (henough : sig.posNames.length-sig.defaults.length≤args.length)
    (hlen : state.length=sig.nState)
    (hstate : ∀ i < sig.nState,getLocal state i=(sig.placed args i).orValue
      (if i < sig.posNames.length then sig.default i else none)) :
    (¬sig.Duplicate args [] ∧ ¬sig.Unexpected [] ∧ ¬sig.Missing args []) ∧
    ∀ i < sig.nState,getLocal (if sig.varkeywords=true then
        setLocal state (sig.nParams+sig.varargs.toNat) (.dict []) else state) i=
      sig.boundLocal args [] i := by
  have hnParams := sig.nParams_eq
  have hgiven (i : ℕ) : sig.given args [] i=(sig.positional args i).toList := by
    rw [given_eq]
    exact append_nil _
  refine ⟨⟨?_,fun h => h.1 rfl,?_⟩,fun i hi => ?_⟩
  · intro ⟨i,hi,htwo⟩
    rw [hgiven] at htwo
    cases hpos : sig.positional args i <;> simp [hpos] at htwo
  · intro ⟨i,hi,hnil,hnone⟩
    rw [hgiven,toList_eq_nil_iff,Signature.positional,List.getElem?_take,
      if_pos (by omega),List.getElem?_eq_none_iff] at hnil
    rw [Signature.default,if_pos (by omega),if_pos (by omega),List.getElem?_eq_none_iff] at hnone
    omega
  · rw [(getLocal_varkeywords sig [] hlen).2 i hi,hstate i hi,Signature.boundLocal,hgiven]
    by_cases hparam : i < sig.nParams
    · have hhead : (sig.positional args i).toList.head?=sig.positional args i := by
        cases sig.positional args i <;> rfl
      rw [if_neg (by omega),if_pos hparam,if_pos (by omega),placed_param sig args hparam,
        Slot.orValue_ofOption,hhead]
    · have hnotPos : ¬i < sig.posNames.length := by omega
      rw [if_neg hparam,if_neg hnotPos,Slot.orValue_none]
      rfl

/-- The keyword part after a positional part that ended normally: an error is
one about parameters, and otherwise there is none of them and every local has
its entry. -/
theorem setupKeywords_spec {state : List (Slot ν α)} {varPosKwArgs : ℕ}
    (h : setupPositional sig.funBc sig.prelude args kwargs.length=.ok (state,varPosKwArgs)) :
    match setupKeywords sig.funBc sig.prelude kwargs state varPosKwArgs with
    | .error _ => sig.ParamError args kwargs
    | .ok state' => ¬sig.ParamError args kwargs ∧ state'.length=sig.nState ∧
        ∀ i < sig.nState,getLocal state' i=sig.boundLocal args kwargs i := by
  have hnParams := sig.nParams_eq
  obtain ⟨hnotMany,rfl,hlen,henough,hstate⟩ := setupPositional_ok sig args h
  -- an error about parameters is none of the four kinds
  have hnoError : ¬sig.Duplicate args kwargs ∧ ¬sig.Unexpected kwargs ∧ ¬sig.Missing args kwargs→
      ¬sig.ParamError args kwargs := by
    intro ⟨hnotDuplicate,hnotUnexpected,hnotMissing⟩ herror
    rcases herror with hmany | hduplicate | hunexpected | hmissing
    · exact hnotMany hmany
    · exact hnotDuplicate hduplicate
    · exact hnotUnexpected hunexpected
    · exact hnotMissing hmissing
  by_cases hkw : kwargs≠[] ∨ sig.defkwargs=true
  · have hnotShort : ¬(kwargs.length=0 ∧ sig.defkwargs=false) := by
      intro ⟨hnil,hdk⟩
      rcases hkw with hne | hdk'
      · exact hne (length_eq_zero_iff.mp hnil)
      · rw [hdk] at hdk'
        exact Bool.false_ne_true hdk'
    have hplaced : ∀ i < sig.nState,getLocal state i=sig.placed args i := fun i hi => by
      rw [hstate i hi,if_neg (fun hboth => hnotShort hboth.1),Slot.orValue_none]
    cases hres : setupKeywords sig.funBc sig.prelude kwargs state (sig.nParams+sig.varargs.toNat) with
    | error e => exact setupKeywords_error sig args kwargs hlen hplaced hkw hres
    | ok state' =>
      obtain ⟨hnone,hlen',hlocals⟩ := setupKeywords_ok sig args kwargs hlen hplaced hkw hres
      exact ⟨hnoError hnone,hlen',hlocals⟩
  · obtain ⟨hnil,hdk⟩ := not_or.mp hkw
    obtain rfl := not_not.mp hnil
    have hdk' := Bool.eq_false_iff.mpr hdk
    rw [setupKeywords_funBc,if_neg hkw]
    by_cases hkwonly : sig.kwonlyNames.length=0
    · rw [if_neg (not_not.mpr hkwonly)]
      have hfilled : ∀ i < sig.nState,getLocal state i=(sig.placed args i).orValue
          (if i < sig.posNames.length then sig.default i else none) := fun i hi => by
        simpa only [length_nil,hdk',true_and,and_self] using hstate i hi
      obtain ⟨hnone,hlocals⟩ := setup_noKeywords sig args hkwonly (henough ⟨rfl,hdk'⟩) hlen hfilled
      exact ⟨hnoError hnone,(getLocal_varkeywords sig [] hlen).1,hlocals⟩
    · -- the first keyword-only parameter has neither a value nor a default
      rw [if_pos hkwonly]
      refine Or.inr (Or.inr (Or.inr ⟨sig.posNames.length,by omega,?_,?_⟩))
      · rw [given_eq,positional_eq_none sig args (Nat.le_refl _)]
        rfl
      · rw [Signature.default,if_neg (Nat.lt_irrefl _),if_neg hdk]

/-- A call either raises, and then there is an error about parameters, or it
leaves an empty stack, the opcodes and every local with its entry, boxed
exactly if it is a cell variable. -/
theorem mpSetupCodeState_spec :
    match mpSetupCodeState sig.funBc args kwargs with
    | none => False
    | some (.error _) => sig.ParamError args kwargs
    | some (.ok codeState) => ¬sig.ParamError args kwargs ∧
        codeState.ip=sig.opcodes ∧ codeState.state.length=sig.nState ∧
        codeState.sp= -1 ∧ codeState.excSp= -1 ∧
        ∀ i < sig.nState,getLocal codeState.state i=
          if i∈sig.cells then .cell (sig.boundLocal args kwargs i)
          else sig.boundLocal args kwargs i := by
  rw [mpSetupCodeState,readPrelude_funBc]
  dsimp only
  cases hpos : setupPositional sig.funBc sig.prelude args kwargs.length with
  | error e => exact setupPositional_error sig args kwargs hpos
  | ok placed =>
    obtain ⟨state,varPosKwArgs⟩ := placed
    have hspec := setupKeywords_spec sig args kwargs hpos
    dsimp only
    cases hkw : setupKeywords sig.funBc sig.prelude kwargs state varPosKwArgs with
    | error e =>
      rw [hkw] at hspec
      exact hspec
    | ok state' =>
      rw [hkw] at hspec
      obtain ⟨hnoError,hlen,hlocals⟩ := hspec
      obtain ⟨rest,hsize,hdrop⟩ := prelude_codeInfo sig
      obtain ⟨boxed,hbox,hlen',hall⟩ := boxCells_append sig.opcodes sig.cells_nodup
        (fun localNum hmem => by rw [hlen]; exact sig.cells_lt localNum hmem)
      rw [hsize]
      dsimp only
      rw [hdrop,hbox]
      refine ⟨hnoError,rfl,hlen'.trans hlen,rfl,rfl,fun i hi => ?_⟩
      rw [hall i (by omega),hlocals i hi]

/-- `def f(**kw)`, with one local. -/
def kwargsOnly : Signature ℕ ℕ where
  posNames := []
  kwonlyNames := []
  defaults := []
  kwDefaults := []
  defkwargs := false
  varargs := false
  varkeywords := true
  generator := false
  nState := 1
  nExcStack := 0
  codeInfoSize := 1
  codeInfo := []
  cells := []
  opcodes := []
  defaults_le := Nat.le_refl 0
  params_le := Nat.le_refl 1
  codeInfo_size := rfl
  cells_nodup := List.nodup_nil
  cells_lt := fun _ h => by cases h

end MicroPython.SetupCodeState
