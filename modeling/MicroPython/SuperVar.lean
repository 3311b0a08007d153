import MicroPython.CommProtocol
import Mathlib.Data.List.TakeWhile

/-!
# Super variables

Variables that are shared between robots by their names. Each has a type and a buffer with its
value, and setting it sends a frame with the name, the type and the bytes of the value; a frame
that is received replaces the type and the buffer of the variable of its name. Memory for
variables and their values is there.
-/

namespace MicroPython.SuperVar

open CommProtocol

/-! ## Strings and words -/

/-- A name, of bytes that are not zero. -/
structure Name where
  bytes : List UInt8
  /-- None of them ends the name. -/
  nonzero : ∀ b∈bytes,b≠0
  deriving DecidableEq

/-- A string in memory, up to its zero byte. -/
def cString (data : List UInt8) : Name where
  bytes := data.takeWhile fun b => decide (b≠0)
  nonzero := by
    intro b hb
    have hne := List.mem_takeWhile_imp hb
    exact of_decide_eq_true hne

/-- The four bytes of a word, as they are in memory. -/
def wordBytes (n : ℕ) : List UInt8 :=
  [n.toUInt8,(n/256).toUInt8,(n/65536).toUInt8,(n/16777216).toUInt8]

/-- The word that is at the beginning of some bytes. -/
def wordAt (bytes : List UInt8) : ℕ :=
  (bytes.getD 0 0).toNat+256*(bytes.getD 1 0).toNat+65536*(bytes.getD 2 0).toNat+
    16777216*(bytes.getD 3 0).toNat

/-- The bits of an `int`. -/
def intWord (i : ℤ) : ℕ := (i%4294967296).toNat

/-- An `int` of its bits. -/
def wordInt (n : ℕ) : ℤ := if n < 2147483648 then n else n-4294967296

/-! ## Variables -/

/-- `SUPER_VAR_NONE_T` -/
def superVarNoneT : UInt8 := 0

/-- `SUPER_VAR_INT_T` -/
def superVarIntT : UInt8 := 5

/-- `SUPER_VAR_FLOAT_T` -/
def superVarFloatT : UInt8 := 9

/-- `SUPER_VAR_BOOL_T` -/
def superVarBoolT : UInt8 := 11

/-- `SUPER_VAR_STR_T` -/
def superVarStrT : UInt8 := 12

/-- `TX_BUF_SIZE` -/
def txBufSize : ℕ := 256

/-- `codey_super_var_obj_t`. The type is what a frame says, of `super_var_type_t` or not. -/
structure CodeySuperVarObj where
  /-- `name` -/
  name : Name
  /-- `type` -/
  type : UInt8
  /-- `value_len` -/
  valueLen : UInt8
  /-- The buffer of `value`. -/
  value : List UInt8
  deriving DecidableEq

/-- The list from `s_super_var_header` on. -/
abbrev SuperVars : Type := List CodeySuperVarObj

/-- `codey_super_var_create` -/
def codeySuperVarCreate (name : Name) : CodeySuperVarObj := ⟨name,superVarNoneT,0,[]⟩

/-- `codey_super_var_update_value`, with a length of eight bits. -/
def codeySuperVarUpdateValue (superVar : CodeySuperVarObj) (valType : UInt8)
    (valData : List UInt8) (valueLen : UInt8) : CodeySuperVarObj :=
  {superVar with
    type := valType
    valueLen := valueLen
    value := valData.take valueLen.toNat}

/-- `codey_super_var_find_by_name`: the place in the list. -/
def codeySuperVarFindByName (vars : SuperVars) (name : Name) : Option ℕ :=
  vars.findIdx? fun v => decide (v.name=name)

/-- The value of a frame replaces that of the variable of its name, or makes one. -/
def storeFrame (vars : SuperVars) (name : Name) (valType : UInt8) (valData : List UInt8)
    (valueLen : UInt8) : SuperVars :=
  match codeySuperVarFindByName vars name with
  | none =>
    vars++[codeySuperVarUpdateValue (codeySuperVarCreate name) valType valData valueLen]
  | some pos =>
    vars.modify pos fun v => codeySuperVarUpdateValue v valType valData valueLen

/-- `codey_super_var_frame_parse` accepts data of a length: the name, its zero byte, the type and
at least one byte of the value are in it. -/
def accepts (data : List UInt8) (len : UInt8) : Prop :=
  (cString data).bytes.length≤0xff∧(cString data).bytes.length+2 < len.toNat

instance (data : List UInt8) (len : UInt8) : Decidable (accepts data len) :=
  inferInstanceAs (Decidable (_∧_))

/-- The type in a frame. -/
def frameType (data : List UInt8) : UInt8 := data.getD ((cString data).bytes.length+1) 0

/-- The length of the value in a frame. -/
def frameValueLen (data : List UInt8) (len : UInt8) : UInt8 :=
  (len.toNat-((cString data).bytes.length+2)).toUInt8

/-- `codey_super_var_frame_parse`, with a length of eight bits. -/
def codeySuperVarFrameParse (vars : SuperVars) (data : List UInt8) (len : UInt8) : SuperVars :=
  if accepts data len then
    storeFrame vars (cString data) (frameType data)
      (data.drop ((cString data).bytes.length+2)) (frameValueLen data len)
  else vars

/-! ## Values -/

/-- Objects as values of variables. -/
inductive Value where
  /-- `mp_const_false` and `mp_const_true` -/
  | bool (b : Bool)
  | int (i : ℤ)
  | str (bytes : List UInt8)
  | float (bits : UInt32)
  | other
  deriving DecidableEq

/-- An `int` can have the value. -/
def fitsInt (i : ℤ) : Prop := -2147483648 ≤ i∧i < 2147483648

instance (i : ℤ) : Decidable (fitsInt i) := inferInstanceAs (Decidable (_∧_))

/-- The type and the bytes that `codey_super_var_set_value` stores for a value it accepts. An
integer that is no `int` is an overflow. -/
def encode : Value→Option (UInt8×List UInt8)
  | .bool b => some (superVarBoolT,[if b then 1 else 0])
  | .int i => if fitsInt i then some (superVarIntT,wordBytes (intWord i)) else none
  | .str bytes => some (superVarStrT,bytes)
  | .float bits => some (superVarFloatT,wordBytes bits.toNat)
  | .other => none

/-- `codey_super_var_set_value`: the variable, when the value is accepted. -/
def codeySuperVarSetValue (superVar : CodeySuperVarObj) (newValue : Value) :
    Option CodeySuperVarObj :=
  (encode newValue).map fun (type,bytes) =>
    codeySuperVarUpdateValue superVar type bytes bytes.length.toUInt8

/-- How reading a variable fails. -/
inductive Fault where
  /-- A byte is read that is behind the buffer of the value. -/
  | pastValue
  deriving DecidableEq

/-- The number of bytes that `codey_super_var_get_value` reads. -/
def bytesRead (superVar : CodeySuperVarObj) : ℕ :=
  if superVar.type=superVarIntT∨superVar.type=superVarFloatT then 4
  else if superVar.type=superVarBoolT then 1
  else if superVar.type=superVarStrT then superVar.valueLen.toNat
  else 0

/-- The object that is made of them. -/
def readValue (superVar : CodeySuperVarObj) : Value :=
  if superVar.type=superVarIntT then .int (wordInt (wordAt superVar.value))
  else if superVar.type=superVarFloatT then .float (wordAt superVar.value).toUInt32
  else if superVar.type=superVarBoolT then .bool (decide (superVar.value.getD 0 0≠0))
  else if superVar.type=superVarStrT then .str (superVar.value.take superVar.valueLen.toNat)
  else .bool true

/-- `codey_super_var_get_value` -/
def codeySuperVarGetValue (superVar : CodeySuperVarObj) : Except Fault Value :=
  if bytesRead superVar ≤ superVar.value.length then .ok (readValue superVar)
  else .error .pastValue

/-- `codey_super_var_new`: the list with a variable of the name, and its place. -/
def codeySuperVarNew (vars : SuperVars) (name : Name) : SuperVars×ℕ :=
  match codeySuperVarFindByName vars name with
  | some pos => (vars,pos)
  | none =>
    (vars++[codeySuperVarUpdateValue (codeySuperVarCreate name) superVarIntT
      (wordBytes (intWord 0)) 4],vars.length)

/-- `codey_super_var_clear` -/
def codeySuperVarClear (vars : SuperVars) : SuperVars :=
  vars.map fun v => {v with
    value := List.replicate v.valueLen.toNat 0++v.value.drop v.valueLen.toNat}

/-! ## Frames that are sent -/

/-- `codey_super_var_build_data`: the bytes from the start of the buffer on. -/
def codeySuperVarBuildData (superVar : CodeySuperVarObj) : List UInt8 :=
  superVar.name.bytes++[0]++[superVar.type]++superVar.value.take superVar.valueLen.toNat

/-- `codey_super_var_send_value` up to the frame in the send buffer, for data with which its
length stays within sixteen bits. -/
def codeySuperVarSendValue (allocated : Bool) (superVar : CodeySuperVarObj) : List UInt8 :=
  codeyCommBuildFrame allocated Protocol.superVar.id (codeySuperVarBuildData superVar)

end MicroPython.SuperVar
