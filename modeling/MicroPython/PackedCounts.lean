import MicroPython.VarInt

/-!
# Counts packed into operands

Calls, unpacking, closures and jumps out of exception blocks carry counts that the emitter packs
into one operand or one byte. The virtual machine takes them apart again and moves its stack
pointer by them.
-/

namespace MicroPython.PackedCounts

open Nat

/-- `MP_BC_POP_TOP` -/
def popTop : ℕ := 0x32

/-- `MP_BC_JUMP` -/
def jump : ℕ := 0x35

/-- `MP_BC_UNWIND_JUMP` -/
def unwindJump : ℕ := 0x46

/-- `MP_BC_UNPACK_SEQUENCE` -/
def unpackSequence : ℕ := 0x59

/-- `MP_BC_UNPACK_EX` -/
def unpackEx : ℕ := 0x5a

/-- `MP_BC_MAKE_CLOSURE` -/
def makeClosure : ℕ := 0x62

/-- `MP_BC_MAKE_CLOSURE_DEFARGS` -/
def makeClosureDefargs : ℕ := 0x63

/-- `MP_BC_CALL_FUNCTION`; behind it comes the one for starred arguments. -/
def callFunction : ℕ := 0x64

/-- `MP_BC_CALL_METHOD`; behind it comes the one for starred arguments. -/
def callMethod : ℕ := 0x66

/-- `MP_OBJ_ITER_BUF_NSLOTS`: a type and three objects. -/
def objIterBufNslots : ℕ := 4

/-- What the compiler asks the emitter for. -/
inductive Instr
  /-- `mp_emit_bc_call_function` or `mp_emit_bc_call_method` -/
  | call (method : Bool) (nPositional nKeyword starFlags : ℕ)
  /-- `mp_emit_bc_unpack_sequence` -/
  | unpackSequence (nArgs : ℕ)
  /-- `mp_emit_bc_unpack_ex` -/
  | unpackEx (nLeft nRight : ℕ)
  /-- `mp_emit_bc_unwind_jump`, with the offset of the label in excess. -/
  | unwindJump (offset : Fin 65536) (breakFromFor : Bool) (exceptDepth : ℕ)
  /-- `mp_emit_bc_make_closure`, with the place of the raw code in the table of constants. -/
  | makeClosure (rawCode nClosedOver nPosDefaults nKwDefaults : ℕ)

/-- What an instruction is executed with, and how far it moves the stack pointer. -/
inductive Executed
  | call (method star : Bool) (nArgs nKw : ℕ) (delta : ℤ)
  | unpackSequence (num : ℕ) (delta : ℤ)
  /-- An unpacking into items on both sides of a list. -/
  | unpackEx (numLeft numRight : ℕ) (delta : ℤ)
  | unwind (offset handlers slots : ℕ)
  | closure (rawCode : ℕ) (defaults : Bool) (nClosedOver : ℕ) (delta : ℤ)
deriving DecidableEq

/-- `emit_write_bytecode_byte_uint` -/
def emitWriteBytecodeByteUint (bits b val : ℕ) : Option (List ℕ) :=
  (VarInt.emitWriteUint bits val).map (b::·)

/-- `emit_write_bytecode_byte_signed_label` -/
def emitWriteBytecodeByteSignedLabel (b1 : ℕ) (offset : Fin 65536) : List ℕ :=
  [b1,offset%256,offset/256]

/-- The operand of two counts, the second one above eight bits. -/
def packed (bits low high : ℕ) : ℕ := (high <<< 8)%2^bits ||| low

/-- The opcode of `emit_bc_call_function_method_helper`. -/
def callOpcode (method : Bool) (starFlags : ℕ) : ℕ :=
  let bytecodeBase := if method then callMethod else callFunction
  if starFlags≠0 then bytecodeBase+1 else bytecodeBase

/-- The bytes of an instruction. A closure with defaults asserts that its count is 255 at most,
which the release builds leave out. -/
def Instr.emit (bits : ℕ) : Instr→Option (List ℕ)
  | .call method nPositional nKeyword starFlags =>
    emitWriteBytecodeByteUint bits (callOpcode method starFlags) (packed bits nPositional nKeyword)
  | .unpackSequence nArgs => emitWriteBytecodeByteUint bits PackedCounts.unpackSequence nArgs
  | .unpackEx nLeft nRight =>
    emitWriteBytecodeByteUint bits PackedCounts.unpackEx (packed bits nLeft nRight)
  | .unwindJump offset breakFromFor exceptDepth =>
    if exceptDepth=0 then
      some ((if breakFromFor then List.replicate objIterBufNslots popTop else [])++
        emitWriteBytecodeByteSignedLabel jump offset)
    else
      some (emitWriteBytecodeByteSignedLabel PackedCounts.unwindJump offset++
        [((if breakFromFor then 0x80 else 0) ||| exceptDepth)%256])
  | .makeClosure rawCode nClosedOver nPosDefaults nKwDefaults =>
    (emitWriteBytecodeByteUint bits (if nPosDefaults=0∧nKwDefaults=0 then
      PackedCounts.makeClosure else makeClosureDefargs) rawCode).map (·++[nClosedOver%256])

/-- The loop of `MP_BC_UNWIND_JUMP`: the handlers unwound and what is left of the count. -/
def unwindLoop : ℕ→ℕ→ℕ×ℕ
  | 0,unum => (0,unum)
  | turns+1,unum =>
    if 0 < unum &&& 0x7f then
      let rest := unwindLoop turns (unum-1)
      (rest.1+1,rest.2)
    else (0,unum)

/-- The instructions that pop one slot each, and the bytes behind them. -/
def popTops : List ℕ→ℕ×List ℕ
  | [] => (0,[])
  | op::ip => if op=popTop then ((popTops ip).1+1,(popTops ip).2) else (0,op::ip)

/-- `MP_BC_CALL_FUNCTION`, `MP_BC_CALL_METHOD` and those with starred arguments: slots besides
the function and its arguments are dropped too. -/
def executeCall (bits : ℕ) (method star : Bool) (slots : ℕ) (ip : List ℕ) :
    Option (Executed×List ℕ) := do
  let (unum,ip) ← VarInt.decodeUint bits 0 ip
  some (.call method star (unum &&& 0xff) ((unum >>> 8) &&& 0xff)
    (-(((unum &&& 0xff)+((unum >>> 7) &&& 0x1fe)+slots : ℕ) : ℤ)),ip)

/-- `MP_BC_MAKE_CLOSURE` and the one with defaults. -/
def executeClosure (bits : ℕ) (defaults : Bool) (ip : List ℕ) : Option (Executed×List ℕ) := do
  let (unum,ip) ← VarInt.decodeUint bits 0 ip
  match ip with
  | [] => none
  | byte::ip =>
    -- `mp_make_closure_from_raw_code` is given the count with a bit for the defaults.
    let nClosedOver := if defaults then 0x100 ||| byte else byte
    some (.closure unum (nClosedOver &&& 0x100≠0) (nClosedOver &&& 0xff)
      (-((if defaults then 2+byte else byte)-1)),ip)

/-- The virtual machine at an instruction of these kinds: what it is executed with and the bytes
behind it. -/
def execute (bits : ℕ) (code : List ℕ) : Option (Executed×List ℕ) :=
  match code with
  | [] => none
  | op::ip =>
    if op=popTop∨op=jump then
      match popTops code with
      | (slots,_::low::high::ip) => some (.unwind (low+256*high) 0 slots,ip)
      | _ => none
    else if op=PackedCounts.unwindJump then
      match ip with
      | low::high::unum::ip =>
        let unwound := unwindLoop unum unum
        some (.unwind (low+256*high) unwound.1 (if unwound.2≠0 then objIterBufNslots else 0),ip)
      | _ => none
    else if op=PackedCounts.unpackSequence then do
      let (unum,ip) ← VarInt.decodeUint bits 0 ip
      some (.unpackSequence unum (unum-1),ip)
    else if op=PackedCounts.unpackEx then do
      let (unum,ip) ← VarInt.decodeUint bits 0 ip
      some (.unpackEx (unum &&& 0xff) ((unum >>> 8) &&& 0xff)
        (((unum &&& 0xff)+((unum >>> 8) &&& 0xff) : ℕ)),ip)
    else if op=PackedCounts.makeClosure then executeClosure bits false ip
    else if op=makeClosureDefargs then executeClosure bits true ip
    else if op=callFunction then executeCall bits false false 0 ip
    else if op=callFunction+1 then executeCall bits false true 2 ip
    else if op=callMethod then executeCall bits true false 1 ip
    else if op=callMethod+1 then executeCall bits true true 3 ip
    else none

/-- What the compiler means, with the change of the stack that the emitter counts. -/
def Instr.meant : Instr→Executed
  | .call method nPositional nKeyword starFlags =>
    .call method (starFlags≠0) nPositional nKeyword
      ((if method then -1 else 0)-nPositional-2*nKeyword-(if starFlags≠0 then 2 else 0))
  | .unpackSequence nArgs => .unpackSequence nArgs (-1+nArgs)
  | .unpackEx nLeft nRight => .unpackEx nLeft nRight (-1+nLeft+nRight+1)
  | .unwindJump offset breakFromFor exceptDepth =>
    .unwind offset exceptDepth (if breakFromFor then objIterBufNslots else 0)
  | .makeClosure rawCode nClosedOver nPosDefaults nKwDefaults =>
    let defaults : Bool := ¬(nPosDefaults=0∧nKwDefaults=0)
    .closure rawCode defaults nClosedOver (if defaults then -2-nClosedOver+1 else -nClosedOver+1)

/-- The counts are machine words. -/
def Instr.Words (bits : ℕ) : Instr→Prop
  | .call _ nPositional nKeyword _ => nPositional < 2^bits∧nKeyword < 2^bits
  | .unpackSequence nArgs => nArgs < 2^bits
  | .unpackEx nLeft nRight => nLeft < 2^bits∧nRight < 2^bits
  | .unwindJump _ _ exceptDepth => exceptDepth < 2^bits
  | .makeClosure rawCode nClosedOver _ _ => rawCode < 2^bits∧nClosedOver < 2^bits

/-- The counts fit the fields they are packed into. -/
def Instr.Fits : Instr→Prop
  | .call _ nPositional nKeyword _ => nPositional ≤ 255∧nKeyword ≤ 255
  | .unpackSequence _ => True
  | .unpackEx nLeft nRight => nLeft ≤ 255∧nRight ≤ 255
  | .unwindJump _ _ exceptDepth => exceptDepth ≤ 127
  | .makeClosure _ nClosedOver _ _ => nClosedOver ≤ 255

/-- The virtual machine recovers the counts from the bytes, whatever follows them. -/
def Instr.Recovered (bits : ℕ) (instr : Instr) : Prop :=
  ∃ code,instr.emit bits=some code∧∀ rest,execute bits (code++rest)=some (instr.meant,rest)

section Fields

variable {bits : ℕ}

/-- The low field of an operand. -/
theorem and_0xff (n : ℕ) : n &&& 0xff=n%256 := Nat.and_two_pow_sub_one_eq_mod n 8

/-- Two counts that are words give a word. -/
theorem packed_lt {low high : ℕ} (hlow : low < 2^bits) : packed bits low high < 2^bits :=
  Nat.or_lt_two_pow (Nat.mod_lt _ (Nat.two_pow_pos _)) hlow

/-- Counts of eight bits lie side by side. -/
theorem packed_eq (hbits : 16 ≤ bits) {low high : ℕ} (hlow : low ≤ 255) (hhigh : high ≤ 255) :
    packed bits low high=high*256+low := by
  have hpow : 2^16 ≤ 2^bits := Nat.pow_le_pow_right (by decide) hbits
  have hfits : high*256 < 2^bits := by omega
  have hjoin := two_pow_add_eq_or_of_lt (show low < 2^8 by omega) high
  rw [packed,shiftLeft_eq,Nat.mod_eq_of_lt hfits,mul_comm high,←hjoin]

/-- The field of two for each keyword argument. -/
theorem twice_field (n : ℕ) : (n >>> 7) &&& 0x1fe=2*((n >>> 8) &&& 0xff) := by
  have hmask : ∀ x < 512,x &&& 0x1fe=x/2*2 := by decide +kernel
  have hlow : (n >>> 7) &&& 0x1fe=((n >>> 7)%512) &&& 0x1fe := by
    rw [←Nat.and_two_pow_sub_one_eq_mod _ 9,Nat.and_assoc]
    rfl
  rw [hlow,hmask _ (Nat.mod_lt _ (by decide)),and_0xff,shiftRight_eq_div_pow,shiftRight_eq_div_pow]
  omega

/-- The loop unwinds as many handlers as the low bits say and leaves the highest one. -/
theorem unwindLoop_eq {turns unum : ℕ} (hturns : unum%128 ≤ turns) :
    unwindLoop turns unum=(unum%128,unum-unum%128) := by
  induction turns generalizing unum with
  | zero =>
    have hzero : unum%128=0 := by omega
    rw [unwindLoop,hzero]
    rfl
  | succ turns ih =>
    rw [unwindLoop,VarInt.and_0x7f]
    by_cases hmore : 0 < unum%128
    · rw [if_pos hmore,ih (by omega)]
      refine Prod.ext ?_ ?_ <;> dsimp only <;> omega
    · have hzero : unum%128=0 := by omega
      rw [if_neg hmore,hzero]
      rfl

end Fields

section Recovery

variable {bits : ℕ} {instr : Instr}

theorem emitWriteBytecodeByteUint_eq (hbits : 8 ≤ bits) (b : ℕ) {val : ℕ} (hval : val < 2^bits) :
    ∃ code,emitWriteBytecodeByteUint bits b val=some (b::code)∧
      ∀ rest,VarInt.decodeUint bits 0 (code++rest)=some (val,rest) := by
  obtain ⟨code,hcode,-,hdecode⟩ := VarInt.uint_roundTrip hbits hval
  exact ⟨code,by rw [emitWriteBytecodeByteUint,hcode]; rfl,fun rest => (hdecode rest).2⟩

theorem recovered_iff_of {code : List ℕ} {executed : Executed} (hemit : instr.emit bits=some code)
    (hexecute : ∀ rest,execute bits (code++rest)=some (executed,rest)) :
    instr.Recovered bits↔executed=instr.meant := by
  constructor
  · rintro ⟨code',hemit',hmeant⟩
    obtain rfl := Option.some_inj.mp (hemit.symm.trans hemit')
    have hsame := (hexecute []).symm.trans (hmeant [])
    exact (Prod.mk.inj (Option.some_inj.mp hsame)).1
  · rintro rfl
    exact ⟨code,hemit,hexecute⟩

/-- A call is executed with the fields of its operand. -/
theorem execute_call {code : List ℕ} {unum : ℕ}
    (hdecode : ∀ rest,VarInt.decodeUint bits 0 (code++rest)=some (unum,rest)) (method : Bool)
    (starFlags : ℕ) (rest : List ℕ) :
    execute bits (callOpcode method starFlags::code++rest)=
      some (.call method (starFlags≠0) (unum &&& 0xff) ((unum >>> 8) &&& 0xff)
        (-(((unum &&& 0xff)+((unum >>> 7) &&& 0x1fe)+
          ((if method then 1 else 0)+if starFlags≠0 then 2 else 0) : ℕ) : ℤ)),rest) := by
  by_cases hstar : starFlags=0 <;> cases method <;>
    simp [hstar,callOpcode,execute,executeCall,hdecode,popTop,jump,unwindJump,unpackSequence,
      unpackEx,makeClosure,makeClosureDefargs,callFunction,callMethod]

/-- A call is recovered when both counts fit their fields. -/
theorem call_recovered_iff (hbits : 16 ≤ bits) (method : Bool) {nPositional : ℕ}
    (nKeyword starFlags : ℕ) (hwords : nPositional < 2^bits) :
    (Instr.call method nPositional nKeyword starFlags).Recovered bits↔
      nPositional ≤ 255∧nKeyword ≤ 255 := by
  obtain ⟨code,hcode,hdecode⟩ := emitWriteBytecodeByteUint_eq (by omega)
    (callOpcode method starFlags) (packed_lt hwords)
  rw [@recovered_iff_of bits (.call method nPositional nKeyword starFlags) _ _ hcode
    (execute_call hdecode method starFlags),Instr.meant,twice_field,and_0xff,and_0xff,
    shiftRight_eq_div_pow]
  constructor
  · intro h
    injection h with _ _ hargs hkw
    omega
  · rintro ⟨hlow,hhigh⟩
    have hargs : packed bits nPositional nKeyword%256=nPositional := by
      rw [packed_eq hbits hlow hhigh]
      omega
    have hkw : packed bits nPositional nKeyword/2^8%256=nKeyword := by
      rw [packed_eq hbits hlow hhigh]
      omega
    rw [hargs,hkw]
    congr 1
    cases method <;> split_ifs <;> push_cast <;> omega

/-- An unpacking into a number of items is recovered. -/
theorem unpackSequence_recovered (hbits : 8 ≤ bits) {nArgs : ℕ} (hwords : nArgs < 2^bits) :
    (Instr.unpackSequence nArgs).Recovered bits := by
  obtain ⟨code,hcode,hdecode⟩ := emitWriteBytecodeByteUint_eq hbits unpackSequence hwords
  refine ⟨_,hcode,fun rest => ?_⟩
  have hdelta : (nArgs : ℤ)-1=-1+nArgs := by omega
  simp [execute,hdecode,popTop,jump,unwindJump,unpackSequence,Instr.meant,hdelta]

/-- An unpacking around a list is recovered when both counts fit their fields. -/
theorem unpackEx_recovered_iff (hbits : 16 ≤ bits) {nLeft : ℕ} (nRight : ℕ)
    (hwords : nLeft < 2^bits) :
    (Instr.unpackEx nLeft nRight).Recovered bits↔nLeft ≤ 255∧nRight ≤ 255 := by
  obtain ⟨code,hcode,hdecode⟩ := emitWriteBytecodeByteUint_eq (by omega) unpackEx
    (@packed_lt bits nLeft nRight hwords)
  have hexecute : ∀ rest,execute bits (unpackEx::code++rest)=
      some (.unpackEx (packed bits nLeft nRight%256) (packed bits nLeft nRight/2^8%256)
        ((packed bits nLeft nRight%256+packed bits nLeft nRight/2^8%256 : ℕ)),rest) := by
    intro rest
    simp [execute,hdecode,popTop,jump,unwindJump,unpackSequence,unpackEx,and_0xff,
      shiftRight_eq_div_pow]
  rw [@recovered_iff_of bits (.unpackEx nLeft nRight) _ _ hcode hexecute,Instr.meant]
  constructor
  · intro h
    injection h with hleft hright
    omega
  · rintro ⟨hlow,hhigh⟩
    have hleft : packed bits nLeft nRight%256=nLeft := by
      rw [packed_eq hbits hlow hhigh]
      omega
    have hright : packed bits nLeft nRight/2^8%256=nRight := by
      rw [packed_eq hbits hlow hhigh]
      omega
    rw [hleft,hright]
    congr 1
    push_cast
    omega

/-- The byte of a jump out of exception blocks. -/
def unwindByte (breakFromFor : Bool) (exceptDepth : ℕ) : ℕ :=
  ((if breakFromFor then 0x80 else 0) ||| exceptDepth)%256

/-- A number of seven bits leaves the highest bit of the byte to the flag. -/
theorem unwindByte_eq (breakFromFor : Bool) {exceptDepth : ℕ} (h : exceptDepth ≤ 127) :
    unwindByte breakFromFor exceptDepth=(if breakFromFor then 128 else 0)+exceptDepth := by
  rw [unwindByte]
  cases breakFromFor with
  | false =>
    rw [if_neg Bool.false_ne_true,zero_or]
    omega
  | true =>
    have hjoin := two_pow_add_eq_or_of_lt (show exceptDepth < 2^7 by omega) 1
    rw [if_pos rfl,show 0x80=2^7*1 from rfl,←hjoin]
    omega

/-- A jump out of no exception block pops the iterator and jumps. -/
theorem unwindJump_recovered_zero (offset : Fin 65536) (breakFromFor : Bool) :
    (Instr.unwindJump offset breakFromFor 0).Recovered bits := by
  have hoffset : offset.val%256+256*(offset.val/256)=offset.val := by omega
  have hemit : (Instr.unwindJump offset breakFromFor 0).emit bits=
      some ((if breakFromFor then List.replicate objIterBufNslots popTop else [])++
        emitWriteBytecodeByteSignedLabel jump offset) := by
    rw [Instr.emit,if_pos rfl]
  refine ⟨_,hemit,fun rest => ?_⟩
  cases breakFromFor <;>
    simp [emitWriteBytecodeByteSignedLabel,execute,popTops,popTop,jump,objIterBufNslots,
      List.replicate,Instr.meant,hoffset]

/-- A jump out of exception blocks is recovered when their number leaves out the highest bit. -/
theorem unwindJump_recovered_iff (offset : Fin 65536) (breakFromFor : Bool) (exceptDepth : ℕ) :
    (Instr.unwindJump offset breakFromFor exceptDepth).Recovered bits↔exceptDepth ≤ 127 := by
  by_cases hzero : exceptDepth=0
  · obtain rfl := hzero
    exact ⟨fun _ => by decide,fun _ => unwindJump_recovered_zero offset breakFromFor⟩
  · have hoffset : offset.val%256+256*(offset.val/256)=offset.val := by omega
    have hloop : unwindLoop (unwindByte breakFromFor exceptDepth)
        (unwindByte breakFromFor exceptDepth)=_ := unwindLoop_eq (mod_le _ _)
    have hexecute : ∀ rest,execute bits
        ((emitWriteBytecodeByteSignedLabel unwindJump offset++
          [unwindByte breakFromFor exceptDepth])++rest)=
        some (.unwind offset (unwindByte breakFromFor exceptDepth%128)
          (if unwindByte breakFromFor exceptDepth-unwindByte breakFromFor exceptDepth%128≠0 then
            objIterBufNslots else 0),rest) := by
      intro rest
      simp [emitWriteBytecodeByteSignedLabel,execute,popTop,jump,unwindJump,hloop,hoffset]
    rw [@recovered_iff_of bits (.unwindJump offset breakFromFor exceptDepth) _ _
      (if_neg hzero) hexecute,Instr.meant]
    constructor
    · intro h
      injection h with _ hhandlers _
      omega
    · intro h
      rw [unwindByte_eq breakFromFor h]
      cases breakFromFor with
      | false =>
        have hrest : (if false=true then 128 else 0)+exceptDepth=exceptDepth := by
          rw [if_neg Bool.false_ne_true,zero_add]
        rw [hrest,Nat.mod_eq_of_lt (by omega),Nat.sub_self]
        rfl
      | true =>
        have hhandlers : (128+exceptDepth)%128=exceptDepth := by omega
        rw [if_pos rfl,hhandlers,Nat.add_sub_cancel_right]
        rfl

theorem closure_fields : ∀ byte < 256,byte &&& 0x100=0∧byte &&& 0xff=byte∧
    (0x100 ||| byte) &&& 0x100=0x100∧(0x100 ||| byte) &&& 0xff=byte := by
  decide +kernel

/-- A closure is executed with the byte behind its raw code. -/
theorem execute_makeClosure {code : List ℕ} {rawCode byte : ℕ}
    (hdecode : ∀ rest,VarInt.decodeUint bits 0 (code++rest)=some (rawCode,rest))
    (hbyte : byte < 256) (rest : List ℕ) :
    execute bits (makeClosure::(code++[byte])++rest)=
        some (.closure rawCode false byte (-byte+1),rest)∧
      execute bits (makeClosureDefargs::(code++[byte])++rest)=
        some (.closure rawCode true byte (-2-byte+1),rest) := by
  obtain ⟨hbit,hcount,hbit',hcount'⟩ := closure_fields byte hbyte
  constructor
  · simp [execute,executeClosure,hdecode,popTop,jump,unwindJump,unpackSequence,unpackEx,
      makeClosure,hbit,hcount]
    omega
  · simp [execute,executeClosure,hdecode,popTop,jump,unwindJump,unpackSequence,unpackEx,
      makeClosure,makeClosureDefargs,hbit',hcount']
    omega

/-- A closure is recovered when its count fits a byte. -/
theorem makeClosure_recovered_iff (hbits : 8 ≤ bits) {rawCode : ℕ}
    (nClosedOver nPosDefaults nKwDefaults : ℕ) (hwords : rawCode < 2^bits) :
    (Instr.makeClosure rawCode nClosedOver nPosDefaults nKwDefaults).Recovered bits↔
      nClosedOver ≤ 255 := by
  have hbyte : nClosedOver%256 < 256 := Nat.mod_lt _ (by decide)
  obtain ⟨code,hcode,hdecode⟩ := emitWriteBytecodeByteUint_eq hbits
    (if nPosDefaults=0∧nKwDefaults=0 then makeClosure else makeClosureDefargs) hwords
  have hemit : (Instr.makeClosure rawCode nClosedOver nPosDefaults nKwDefaults).emit bits=
      some ((if nPosDefaults=0∧nKwDefaults=0 then makeClosure else makeClosureDefargs)::
        (code++[nClosedOver%256])) := by
    rw [Instr.emit,hcode]
    rfl
  have hfits : nClosedOver%256=nClosedOver↔nClosedOver ≤ 255 := by omega
  by_cases hdef : nPosDefaults=0∧nKwDefaults=0
  · rw [if_pos hdef] at hemit
    rw [recovered_iff_of hemit fun rest => (execute_makeClosure hdecode hbyte rest).1,
      Instr.meant,←hfits]
    refine ⟨fun h => ?_,fun h => ?_⟩
    · injection h
    · rw [h]
      simp [hdef]
  · rw [if_neg hdef] at hemit
    rw [recovered_iff_of hemit fun rest => (execute_makeClosure hdecode hbyte rest).2,
      Instr.meant,←hfits]
    refine ⟨fun h => ?_,fun h => ?_⟩
    · injection h
    · rw [h]
      simp [hdef]

/-- The virtual machine recovers the counts exactly when they fit their fields. -/
theorem recovered_iff_fits (hbits : 16 ≤ bits) (hwords : instr.Words bits) :
    instr.Recovered bits↔instr.Fits := by
  cases instr with
  | call method nPositional nKeyword starFlags =>
    exact call_recovered_iff hbits method nKeyword starFlags hwords.1
  | unpackSequence nArgs =>
    exact ⟨fun _ => trivial,fun _ => unpackSequence_recovered (by omega) hwords⟩
  | unpackEx nLeft nRight => exact unpackEx_recovered_iff hbits nRight hwords.1
  | unwindJump offset breakFromFor exceptDepth =>
    exact unwindJump_recovered_iff offset breakFromFor exceptDepth
  | makeClosure rawCode nClosedOver nPosDefaults nKwDefaults =>
    exact makeClosure_recovered_iff (by omega) nClosedOver nPosDefaults nKwDefaults hwords.1

/-- The counts of a call on a 32-bit machine. -/
theorem recovered_iff_fits_32 : (Instr.call true 2 3 1).Recovered 32↔(Instr.call true 2 3 1).Fits :=
  recovered_iff_fits (by decide) ⟨by decide,by decide⟩

/-- A call with 256 positional arguments is executed as one with no positional argument and one
keyword argument. -/
theorem call256_not_recovered : (Instr.call false 256 0 0).emit 32=some [0x64,0x82,0x00]∧
      execute 32 [0x64,0x82,0x00]=some (.call false false 0 1 (-2),[])∧
      (Instr.call false 256 0 0).meant=.call false false 256 0 (-256)∧
      ¬(Instr.call false 256 0 0).Recovered 32 := by
  have hruns : (Instr.call false 256 0 0).emit 32=some [0x64,0x82,0x00]∧
      execute 32 [0x64,0x82,0x00]=some (.call false false 0 1 (-2),[])∧
      (Instr.call false 256 0 0).meant=.call false false 256 0 (-256) := by
    decide +kernel
  obtain ⟨hemit,hexecute,hmeant⟩ := hruns
  refine ⟨hemit,hexecute,hmeant,?_⟩
  rintro ⟨code,hcode,hrecovered⟩
  obtain rfl := Option.some_inj.mp (hemit.symm.trans hcode)
  have hsame := (hrecovered []).symm.trans hexecute
  rw [hmeant] at hsame
  cases hsame

end Recovery

end MicroPython.PackedCounts
