import MicroPython.SuperVarFrames
import Mathlib.Data.List.Nodup

/-!
# The list of super variables

Whatever is set and received, in any order, every name is in the list at most once and the length
of a variable is that of its buffer. What is read of a variable depends on its type, and a frame
says the type and the length each on its own: a variable can be read past its buffer as soon
as a frame is accepted that says an integer or a float and has fewer than four bytes.
-/

namespace MicroPython.SuperVarList

open Nat List SuperVar SuperVarFrames InputMachine

/-- What is done with super variables. -/
inductive VarOp where
  /-- `codey_super_var_new`, with a string. -/
  | new (name : List UInt8)
  /-- `codey_super_var_set_value` of the variable at a place. -/
  | set (pos : ℕ) (newValue : Value)
  /-- `codey_super_var_get_value` of the variable at a place. -/
  | get (pos : ℕ)
  /-- `codey_super_var`, with the data of a frame. -/
  | frame (data : List UInt8)
  /-- `codey_super_var_clear` -/
  | clear

/-- A value that is accepted is stored in the variable at a place. -/
def setAt (vars : SuperVars) (pos : ℕ) (newValue : Value) : SuperVars :=
  vars.modify pos fun v => (codeySuperVarSetValue v newValue).getD v

/-- An operation, with the value that it reads. -/
def VarOp.step (vars : SuperVars) : VarOp→Except Fault (SuperVars×Option Value)
  | .new name => .ok ((codeySuperVarNew vars (cString name)).1,none)
  | .set pos newValue => .ok (setAt vars pos newValue,none)
  | .get pos =>
    match vars[pos]? with
    | none => .ok (vars,none)
    | some v => (codeySuperVarGetValue v).map fun value => (vars,some value)
  | .frame data => .ok (codeySuperVarFrameParse vars data data.length.toUInt8,none)
  | .clear => .ok (codeySuperVarClear vars,none)

/-- A variable is as it should be: its length is that of its buffer, and no byte behind it is
read. -/
structure VarKept (v : CodeySuperVarObj) : Prop where
  len_eq : v.valueLen.toNat=v.value.length
  inside : bytesRead v≤v.value.length

/-- The list is as it should be. -/
structure Kept (vars : SuperVars) : Prop where
  /-- Every name is there at most once. -/
  names : (vars.map CodeySuperVarObj.name).Nodup
  kept : ∀ v∈vars,VarKept v

/-- An operation returns, and the list is as it should be afterwards. -/
def Faithful (vars : SuperVars) (op : VarOp) : Prop :=
  ∃ vars' value,op.step vars=.ok (vars',value)∧Kept vars'

/-- A frame that is accepted has four bytes for an integer or a float. -/
def Sound (_ : SuperVars) : VarOp→Prop
  | .frame data => accepts data data.length.toUInt8 →
      frameType data=superVarIntT∨frameType data=superVarFloatT →
        4≤(frameValueLen data data.length.toUInt8).toNat
  | _ => True

/-! ## Variables -/

/-- A variable that is updated with as many bytes as there are is kept when they are as many as
are read. -/
theorem varKept_update (v : CodeySuperVarObj) {type : UInt8} {data : List UInt8} {len : UInt8}
    (hlen : len.toNat≤data.length) :
    VarKept (codeySuperVarUpdateValue v type data len)↔
      bytesRead (codeySuperVarUpdateValue v type data len)≤len.toNat := by
  have hlength : (codeySuperVarUpdateValue v type data len).value.length=len.toNat :=
    length_take_of_le hlen
  constructor
  · intro h
    rw [←hlength]
    exact h.inside
  · intro h
    refine ⟨hlength.symm,?_⟩
    rw [hlength]
    exact h

variable {v : CodeySuperVarObj}

theorem bytesRead_word (h : v.type=superVarIntT∨v.type=superVarFloatT) : bytesRead v=4 := if_pos h

theorem bytesRead_le (h : ¬(v.type=superVarIntT∨v.type=superVarFloatT))
    (hone : 0 < v.valueLen.toNat) : bytesRead v≤v.valueLen.toNat := by
  rw [bytesRead,if_neg h]
  split
  case isTrue => exact hone
  case isFalse =>
    split
    case isTrue => exact le_refl _
    case isFalse => exact zero_le _

/-- A value that is accepted has as many bytes as are read. -/
theorem bytesRead_encode (v : CodeySuperVarObj) {value : Value} {type : UInt8}
    {bytes : List UInt8} (h : encode value=some (type,bytes)) :
    bytesRead (codeySuperVarUpdateValue v type bytes bytes.length.toUInt8)≤
      bytes.length.toUInt8.toNat := by
  cases value with
  | bool b =>
    cases h
    exact le_refl 1
  | int i =>
    rw [encode] at h
    split at h
    case isFalse => cases h
    case isTrue =>
      cases h
      exact le_refl 4
  | str s =>
    cases h
    exact le_refl _
  | float bits =>
    cases h
    exact le_refl 4
  | other => cases h

theorem varKept_setValue (h : VarKept v) (newValue : Value) :
    VarKept ((codeySuperVarSetValue v newValue).getD v) := by
  rw [codeySuperVarSetValue]
  cases hencode : encode newValue with
  | none => exact h
  | some p =>
    obtain ⟨type,bytes⟩ := p
    have hle : bytes.length.toUInt8.toNat≤bytes.length := by
      rw [toNat_toUInt8]
      exact mod_le _ _
    exact (varKept_update v hle).mpr (bytesRead_encode v hencode)

theorem varKept_clear (h : VarKept v) :
    VarKept {v with
      value := List.replicate v.valueLen.toNat 0++v.value.drop v.valueLen.toNat} := by
  have hlength : (List.replicate v.valueLen.toNat (0 : UInt8)++
      v.value.drop v.valueLen.toNat).length=v.value.length := by
    rw [h.len_eq,drop_length,append_nil,length_replicate]
  refine ⟨?_,?_⟩
  · rw [hlength]
    exact h.len_eq
  · rw [hlength]
    exact h.inside

/-! ## Lists -/

variable {vars : SuperVars}

theorem not_mem_of_find {name : Name} (h : codeySuperVarFindByName vars name=none) :
    name∉vars.map CodeySuperVarObj.name := by
  rw [find_eq,List.findIdx?_eq_none_iff] at h
  exact fun hmem => of_decide_eq_false (h name hmem) rfl

section

variable (h : Kept vars)
include h

/-- A variable of a new name is added. -/
theorem kept_append {v : CodeySuperVarObj}
    (hname : v.name∉vars.map CodeySuperVarObj.name) :
    Kept (vars++[v])↔VarKept v := by
  constructor
  · exact fun hkept => hkept.kept v (mem_append_right _ mem_cons_self)
  · intro hv
    refine ⟨?_,fun w hw => ?_⟩
    · rw [map_append]
      refine h.names.append (nodup_singleton _) fun n hn hn' => ?_
      rw [mem_singleton.mp hn'] at hn
      exact hname hn
    · cases mem_append.mp hw with
      | inl hold => exact h.kept w hold
      | inr hnew =>
        rw [mem_singleton.mp hnew]
        exact hv

/-- A variable is changed, but not its name. -/
theorem kept_modify {pos : ℕ} (hlt : pos < vars.length)
    {f : CodeySuperVarObj → CodeySuperVarObj} (hf : ∀ v,(f v).name=v.name) :
    Kept (vars.modify pos f)↔VarKept (f vars[pos]) := by
  constructor
  · intro hkept
    refine hkept.kept _ (mem_iff_getElem?.mpr ⟨pos,?_⟩)
    rw [List.getElem?_modify,List.getElem?_eq_getElem hlt]
    exact congrArg some (if_pos rfl)
  · intro hv
    refine ⟨?_,fun w hw => ?_⟩
    · rw [names_modify vars pos hf]
      exact h.names
    · obtain ⟨i,hi⟩ := mem_iff_getElem?.mp hw
      rw [List.getElem?_modify] at hi
      obtain ⟨v,hat,heq⟩ := Option.map_eq_some_iff.mp hi
      split at heq
      case isTrue hpos =>
        rw [←hpos,List.getElem?_eq_getElem hlt] at hat
        rw [←heq,←Option.some.inj hat]
        exact hv
      case isFalse =>
        rw [←heq]
        exact h.kept v (mem_iff_getElem?.mpr ⟨i,hat⟩)

/-- A frame that is stored keeps the list exactly when it has as many bytes as are read. -/
theorem kept_storeFrame (name : Name) {type : UInt8} {data : List UInt8}
    {len : UInt8} (hlen : len.toNat≤data.length) :
    Kept (storeFrame vars name type data len)↔
      bytesRead (codeySuperVarUpdateValue (codeySuperVarCreate name) type data len)≤ len.toNat := by
  rw [storeFrame]
  cases hfind : codeySuperVarFindByName vars name with
  | none =>
    rw [←varKept_update _ hlen]
    exact kept_append h (not_mem_of_find hfind)
  | some pos =>
    obtain ⟨hlt,_⟩ := List.findIdx?_eq_some_iff_getElem.mp hfind
    have hmodify := @kept_modify vars h pos hlt
      (fun v => codeySuperVarUpdateValue v type data len) fun _ => rfl
    exact hmodify.trans (varKept_update vars[pos] hlen)

/-! ## Operations -/

/-- A frame keeps the list exactly when it is sound. -/
theorem kept_frame_iff (data : List UInt8) :
    Kept (codeySuperVarFrameParse vars data data.length.toUInt8)↔Sound vars (.frame data) := by
  rw [codeySuperVarFrameParse,Sound]
  split
  case isFalse hnot => exact iff_of_true h fun haccepts => absurd haccepts hnot
  case isTrue haccepts =>
    have hmod : data.length.toUInt8.toNat≤data.length := by
      rw [toNat_toUInt8]
      exact mod_le _ _
    have hlt := data.length.toUInt8.toNat_lt
    have hvalueLen : (frameValueLen data data.length.toUInt8).toNat=
        data.length.toUInt8.toNat-((cString data).bytes.length+2) := by
      rw [frameValueLen,toNat_toUInt8]
      omega
    have hlen : (frameValueLen data data.length.toUInt8).toNat≤
        (data.drop ((cString data).bytes.length+2)).length := by
      rw [hvalueLen,length_drop]
      omega
    have hone : 0 < (frameValueLen data data.length.toUInt8).toNat := by
      have hbehind := haccepts.2
      omega
    rw [kept_storeFrame h _ hlen]
    cases Decidable.em (frameType data=superVarIntT∨frameType data=superVarFloatT) with
    | inl hword =>
      rw [bytesRead_word hword]
      exact ⟨fun hle _ _ => hle,fun hall => hall haccepts hword⟩
    | inr hword =>
      exact iff_of_true (bytesRead_le hword hone) fun _ h => absurd h hword

theorem kept_new (name : Name) : Kept (codeySuperVarNew vars name).1 := by
  rw [codeySuperVarNew]
  cases hfind : codeySuperVarFindByName vars name with
  | some pos => exact h
  | none =>
    refine (kept_append h (not_mem_of_find hfind)).mpr ?_
    exact ⟨rfl,le_refl 4⟩

/-- A variable is set. -/
theorem kept_setAt (pos : ℕ) (newValue : Value) :
    Kept (setAt vars pos newValue) := by
  rw [setAt]
  cases lt_or_ge pos vars.length with
  | inl hlt =>
    refine (kept_modify h hlt fun v => ?_).mpr
      (varKept_setValue (h.kept _ (getElem_mem hlt)) newValue)
    rw [codeySuperVarSetValue]
    cases encode newValue with
    | none => rfl
    | some p => rfl
  | inr hge =>
    rw [modify_eq_self hge]
    exact h

theorem kept_clear : Kept (codeySuperVarClear vars) := by
  refine ⟨?_,fun w hw => ?_⟩
  · rw [codeySuperVarClear,map_map]
    exact h.names
  · obtain ⟨v,hv,heq⟩ := mem_map.mp hw
    rw [←heq]
    exact varKept_clear (h.kept v hv)

/-- An operation keeps the list exactly when it is sound. -/
theorem step_faithful_iff (op : VarOp) : Faithful vars op↔Sound vars op := by
  cases op with
  | new name => exact iff_of_true ⟨_,_,rfl,kept_new h _⟩ trivial
  | set pos newValue => exact iff_of_true ⟨_,_,rfl,kept_setAt h pos newValue⟩ trivial
  | clear => exact iff_of_true ⟨_,_,rfl,kept_clear h⟩ trivial
  | frame data =>
    rw [←kept_frame_iff h data]
    constructor
    · rintro ⟨vars',value,hstep,hkept⟩
      cases hstep
      exact hkept
    · exact fun hkept => ⟨_,_,rfl,hkept⟩
  | get pos =>
    refine iff_of_true ?_ trivial
    cases hat : vars[pos]? with
    | none => exact ⟨vars,none,by rw [VarOp.step,hat],h⟩
    | some v =>
      have hinside := (h.kept v (mem_of_getElem? hat)).inside
      refine ⟨vars,some (readValue v),?_,h⟩
      rw [VarOp.step,hat]
      dsimp only
      rw [codeySuperVarGetValue,if_pos hinside]
      rfl

end

/-- A frame for the variable `a` that says an integer and has one byte. -/
def shortInt : List UInt8 := [97,0,5,7]

end MicroPython.SuperVarList
