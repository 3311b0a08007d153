import MicroPython.Interning
import MicroPython.VarUint

/-!
# Opcode formats

The saver and the loader of raw codes find the qstr operands of the bytecode
with a table that tells, for each opcode, which kind of operand follows it.
The table is the source's. Beside it stands the bytecode that the emitter
writes, with its qstrs as strings that a pool numbers, so that what the walk
over the bytes finds can be compared with the operands that are there.
-/

namespace MicroPython.OpcodeFormat

open Nat List Interning VarUint

/-- The bytes of a string. -/
abbrev Str := List ℕ

/-- What follows an opcode: `MP_OPCODE_BYTE`, `MP_OPCODE_QSTR`,
`MP_OPCODE_VAR_UINT` and `MP_OPCODE_OFFSET`. -/
inductive Format where
  | byte
  | qstr
  /-- Single byte plus variable encoded unsigned int. -/
  | varUint
  /-- Single byte plus two-byte bytecode offset. -/
  | offset
  deriving DecidableEq

/-- The two bits of a format. -/
def Format.bits : Format→ℕ
  | .byte => 0
  | .qstr => 1
  | .varUint => 2
  | .offset => 3

/-- The format of two bits. -/
def Format.ofBits : ℕ→Format
  | 0 => .byte
  | 1 => .qstr
  | 2 => .varUint
  | _ => .offset

/-- `OC4`: four formats in a byte. -/
def oc4 (a b c d : Format) : ℕ :=
  a.bits|||(b.bits<<<2)|||(c.bits<<<4)|||(d.bits<<<6)

/-- `B`, a single byte. -/
abbrev B := Format.byte

/-- `U`, an undefined opcode, which the table takes for a single byte. -/
abbrev U := Format.byte

/-- `Q`, a qstr operand. -/
abbrev Q := Format.qstr

/-- `V`, a variable-length operand. -/
abbrev V := Format.varUint

/-- `O`, an offset operand. -/
abbrev O := Format.offset

/-- `opcode_format_table` -/
def opcodeFormatTable : List ℕ := [
  oc4 U U U U, -- 0x00-0x03
  oc4 U U U U, -- 0x04-0x07
  oc4 U U U U, -- 0x08-0x0b
  oc4 U U U U, -- 0x0c-0x0f
  oc4 B B B U, -- 0x10-0x13
  oc4 V U Q V, -- 0x14-0x17
  oc4 B V V Q, -- 0x18-0x1b
  oc4 Q Q Q Q, -- 0x1c-0x1f
  oc4 B B V V, -- 0x20-0x23
  oc4 Q Q Q B, -- 0x24-0x27
  oc4 V V Q Q, -- 0x28-0x2b
  oc4 U U U U, -- 0x2c-0x2f
  oc4 B B B B, -- 0x30-0x33
  oc4 B O O O, -- 0x34-0x37
  oc4 O O U U, -- 0x38-0x3b
  oc4 U O B O, -- 0x3c-0x3f
  oc4 O B B O, -- 0x40-0x43
  oc4 B B O B, -- 0x44-0x47
  oc4 U U U U, -- 0x48-0x4b
  oc4 U U U U, -- 0x4c-0x4f
  oc4 V V U V, -- 0x50-0x53
  oc4 B U V V, -- 0x54-0x57
  oc4 V V V B, -- 0x58-0x5b
  oc4 B B B U, -- 0x5c-0x5f
  oc4 V V V V, -- 0x60-0x63
  oc4 V V V V, -- 0x64-0x67
  oc4 Q Q B U, -- 0x68-0x6b
  oc4 U U U U, -- 0x6c-0x6f
  oc4 B B B B,oc4 B B B B,oc4 B B B B,oc4 B B B B, -- 0x70-0x7f
  oc4 B B B B,oc4 B B B B,oc4 B B B B,oc4 B B B B, -- 0x80-0x8f
  oc4 B B B B,oc4 B B B B,oc4 B B B B,oc4 B B B B, -- 0x90-0x9f
  oc4 B B B B,oc4 B B B B,oc4 B B B B,oc4 B B B B, -- 0xa0-0xaf
  oc4 B B B B,oc4 B B B B,oc4 B B B B,oc4 B B B B, -- 0xb0-0xbf
  oc4 B B B B,oc4 B B B B,oc4 B B B B,oc4 B B B B, -- 0xc0-0xcf
  oc4 B B B B, -- 0xd0-0xd3
  oc4 U U U B, -- 0xd4-0xd7
  oc4 B B B B, -- 0xd8-0xdb
  oc4 B B B B, -- 0xdc-0xdf
  oc4 B B B B,oc4 B B B B,oc4 B B B B,oc4 B B B B, -- 0xe0-0xef
  oc4 B B B B,oc4 B B B B, -- 0xf0-0xf7
  oc4 U U U U,oc4 U U U U] -- 0xf8-0xff

/-- The format that the table has for an opcode. -/
def formatOf (opcode : ℕ) : Format :=
  .ofBits (((opcodeFormatTable.getD (opcode>>>2) 0)>>>(2*(opcode&&&3)))&&&3)

/-- `MP_BC_RAISE_VARARGS` -/
def raiseVarargs : ℕ := 0x5c

/-- `MP_BC_MAKE_CLOSURE` -/
def makeClosure : ℕ := 0x62

/-- `MP_BC_MAKE_CLOSURE_DEFARGS` -/
def makeClosureDefargs : ℕ := 0x63

/-- `MP_BC_UNWIND_JUMP` -/
def unwindJump : ℕ := 0x46

/-- `MP_BC_LOAD_CONST_SMALL_INT` -/
def loadConstSmallInt : ℕ := 0x14

/-- `MP_BC_LOAD_NAME`, `MP_BC_LOAD_GLOBAL`, `MP_BC_LOAD_ATTR` and
`MP_BC_STORE_ATTR`, which look their qstr up in a map. -/
def lookupOpcodes : List ℕ := [0x1b,0x1c,0x1d,0x26]

/-- `extra_byte`, where `cache` is `MICROPY_OPT_CACHE_MAP_LOOKUP_IN_BYTECODE`. -/
def extraByte (cache : Bool) (opcode : ℕ) : Bool :=
  opcode=raiseVarargs || opcode=makeClosure || opcode=makeClosureDefargs ||
    (cache && lookupOpcodes.contains opcode)

/-- The bytes that `while ((*ip++ & 0x80) != 0)` passes. One that finds no end
in the buffer reads past it. -/
def varUintSize : List ℕ→ℕ
  | [] => 1
  | byte::bytes => if 128≤byte then varUintSize bytes+1 else 1

/-- `mp_opcode_format`: the format and the size of the opcode at `ip`. -/
def mpOpcodeFormat (cache : Bool) (ip : List ℕ) : Format×ℕ :=
  let opcode := ip.headD 0
  let f := formatOf opcode
  if f=.qstr then (f,3)
  else
    let operand := match f with
      | .varUint => varUintSize ip.tail
      | .offset => 2
      | _ => 0
    (f,1+operand+(extraByte cache opcode).toNat)

variable (cache : Bool)

/-- The walk always advances. -/
theorem one_le_size (ip : List ℕ) : 1≤(mpOpcodeFormat cache ip).2 := by
  rw [mpOpcodeFormat]
  split <;> simp only <;> omega

theorem drop_size_lt (byte : ℕ) (ip : List ℕ) :
    ((byte::ip).drop (mpOpcodeFormat cache (byte::ip)).2).length<(byte::ip).length := by
  have h := one_le_size cache (byte::ip)
  rw [length_drop,length_cons]
  omega

/-- The loop `while (ip < ip_top)` over the opcodes: the positions at which it
asks for a format, with the answers, and the position at which it ends. -/
def opcodeWalk (cache : Bool) (pos : ℕ) : List ℕ→List (ℕ×Format)×ℕ
  | [] => ([],pos)
  | byte::ip =>
    let f := mpOpcodeFormat cache (byte::ip)
    let walk := opcodeWalk cache (pos+f.2) ((byte::ip).drop f.2)
    ((pos,f.1)::walk.1,walk.2)
termination_by ip => ip.length
decreasing_by exact drop_size_lt cache byte ip

/-! ## The bytecode that is written -/

/-- Opcodes without an operand. -/
def plainOpcodes : List ℕ :=
  [0x10,0x11,0x12, -- LOAD_CONST_FALSE, LOAD_CONST_NONE, LOAD_CONST_TRUE
    0x18,0x20,0x21,0x27, -- LOAD_NULL, LOAD_BUILD_CLASS, LOAD_SUBSCR, STORE_SUBSCR
    0x30,0x31,0x32,0x33,0x34, -- DUP_TOP, DUP_TOP_TWO, POP_TOP, ROT_TWO, ROT_THREE
    0x3e,0x41,0x42,0x44,0x45,0x47, -- WITH_CLEANUP, END_FINALLY, GET_ITER, POP_BLOCK,
    -- POP_EXCEPT, GET_ITER_STACK
    0x54,0x5b,0x5d,0x5e,0x6a]++ -- STORE_MAP, RETURN_VALUE, YIELD_VALUE, YIELD_FROM, IMPORT_STAR
  List.range' 0x70 64++ -- LOAD_CONST_SMALL_INT_MULTI
  List.range' 0xb0 16++ -- LOAD_FAST_MULTI
  List.range' 0xc0 16++ -- STORE_FAST_MULTI
  List.range' 0xd0 4++ -- UNARY_OP_MULTI
  List.range' 0xd7 33 -- BINARY_OP_MULTI

/-- Opcodes with a qstr and nothing else, whatever the configuration:
`LOAD_CONST_STRING`, `LOAD_METHOD`, `LOAD_SUPER_METHOD`, `STORE_NAME`, `STORE_GLOBAL`,
`DELETE_NAME`, `DELETE_GLOBAL`, `IMPORT_NAME` and `IMPORT_FROM`. -/
def qstrOpcodes : List ℕ := [0x16,0x1e,0x1f,0x24,0x25,0x2a,0x2b,0x68,0x69]

/-- Opcodes with a variable-length unsigned operand. -/
def varUintOpcodes : List ℕ :=
  [0x17,0x19,0x1a,0x22,0x23,0x28,0x29, -- LOAD_CONST_OBJ, LOAD_FAST_N, LOAD_DEREF, STORE_FAST_N,
    -- STORE_DEREF, DELETE_FAST, DELETE_DEREF
    0x50,0x51,0x53,0x56,0x57,0x58, -- BUILD_TUPLE, BUILD_LIST, BUILD_MAP, BUILD_SET, STORE_COMP,
    -- BUILD_SLICE
    0x59,0x5a,0x60,0x61, -- UNPACK_SEQUENCE, UNPACK_EX, MAKE_FUNCTION, MAKE_FUNCTION_DEFARGS
    0x64,0x65,0x66,0x67] -- CALL_FUNCTION, CALL_FUNCTION_VAR_KW, CALL_METHOD, CALL_METHOD_VAR_KW

/-- Opcodes with a bytecode offset and nothing else: the jumps, `SETUP_WITH`,
`SETUP_EXCEPT`, `SETUP_FINALLY` and `FOR_ITER`. -/
def offsetOpcodes : List ℕ := [0x35,0x36,0x37,0x38,0x39,0x3d,0x3f,0x40,0x43]

/-- The instructions of the bytecode by the operands they have. -/
inductive Instr where
  /-- `emit_write_bytecode_byte` -/
  | plain (op : {op//op∈plainOpcodes})
  /-- `emit_write_bytecode_byte_qstr` -/
  | qstr (op : {op//op∈qstrOpcodes}) (q : Str)
  /-- A qstr to look up, with the byte that remembers where it was found, which
  is there only when lookups are cached. -/
  | lookup (op : {op//op∈lookupOpcodes}) (q : Str) (slot : Fin 256)
  /-- `emit_write_bytecode_byte_uint` -/
  | varUint (op : {op//op∈varUintOpcodes}) (n : ℕ)
  /-- `emit_write_bytecode_byte_int` -/
  | smallInt (n : ℤ)
  /-- `emit_write_bytecode_byte_unsigned_label` and
  `emit_write_bytecode_byte_signed_label` -/
  | offset (op : {op//op∈offsetOpcodes}) (dest : Fin 65536)
  /-- `UNWIND_JUMP`, whose offset is followed by the number of exception blocks. -/
  | unwindJump (dest : Fin 65536) (depth : Fin 256)
  /-- `MAKE_CLOSURE` and `MAKE_CLOSURE_DEFARGS`, with the raw code and the number
  of closed over variables. -/
  | makeClosure (op : {op//op∈[makeClosure,makeClosureDefargs]}) (n : ℕ) (nClosed : Fin 256)
  /-- `RAISE_VARARGS` -/
  | raiseVarargs (nArgs : Fin 256)

/-- The digits of a signed number, least significant first in time, and the one
that `emit_write_bytecode_byte_int` puts in front so that the sign can be seen.
The fuel bounds the number of digits. -/
def intDigits : ℕ→ℤ→List ℕ→List ℕ
  | 0,_,digits => digits
  | fuel+1,num,digits =>
    let digits := (num%128).toNat::digits
    let num := num/128
    if num=0 then (if 64≤digits.headD 0 then 0::digits else digits)
    else if num = -1 then (if digits.headD 0<64 then 127::digits else digits)
    else intDigits fuel num digits

/-- The bytes of a signed number in the bytecode. -/
def emitWriteInt (num : ℤ) : List ℕ := continueBytes (intDigits (num.natAbs+1) num [])

/-- The two bytes of a number, low byte first. -/
def twoBytes (n : ℕ) : List ℕ := [n%256,(n>>>8)%256]

/-- The bytes of an instruction, with its qstr numbered by the pool. -/
def Instr.bytes (cache : Bool) (p : Pool Str) : Instr→List ℕ
  | .plain op => [op.val]
  | .qstr op q => op.val::twoBytes (p.number q)
  | .lookup op q slot =>
    op.val::twoBytes (p.number q)++(if cache then [slot.val] else [])
  | .varUint op n => op.val::emitWriteUint n
  | .smallInt n => loadConstSmallInt::emitWriteInt n
  | .offset op dest => op.val::twoBytes dest.val
  | .unwindJump dest depth => OpcodeFormat.unwindJump::twoBytes dest.val++[depth.val]
  | .makeClosure op n nClosed => op.val::emitWriteUint n++[nClosed.val]
  | .raiseVarargs nArgs => [OpcodeFormat.raiseVarargs,nArgs.val]

/-- The bytes of a sequence of instructions. -/
def codeBytes (cache : Bool) (p : Pool Str) (code : List Instr) : List ℕ :=
  code.flatMap (Instr.bytes cache p)

/-- The qstr operand of an instruction. -/
def Instr.operand : Instr→List Str
  | .qstr _ q => [q]
  | .lookup _ q _ => [q]
  | _ => []

/-- Positions of the instructions, each with its instruction. -/
def starts (cache : Bool) (p : Pool Str) (pos : ℕ) : List Instr→List (ℕ×Instr)
  | [] => []
  | i::code => (pos,i)::starts cache p (pos+(i.bytes cache p).length) code

/-- The walk over the bytecode goes from opcode to opcode: it stops at each of
them, ends where the bytecode ends, and finds the qstr operands and no others. -/
structure WalksThrough (cache : Bool) (p : Pool Str) (code : List Instr) : Prop where
  /-- No opcode is passed over. -/
  stops : ∀ start∈starts cache p 0 code,
    ∃ f,(start.1,f)∈(opcodeWalk cache 0 (codeBytes cache p code)).1
  ends : (opcodeWalk cache 0 (codeBytes cache p code)).2=(codeBytes cache p code).length
  /-- Qstrs are found where they are. -/
  finds : ∀ pos,(pos,Format.qstr)∈(opcodeWalk cache 0 (codeBytes cache p code)).1↔
    ∃ i,(pos,i)∈starts cache p 0 code∧i.operand≠[]

/-- The byte of an instruction that `mp_opcode_format` leaves out of its size. -/
def Instr.leftOut (cache : Bool) : Instr→List ℕ
  | .lookup _ _ slot => if cache then [slot.val] else []
  | .unwindJump _ depth => [depth.val]
  | _ => []

/-- A byte that the walk, when it takes it for an opcode, passes alone. -/
def isSingle (byte : ℕ) : Bool := formatOf byte=.byte && byte≠raiseVarargs

/-! ## Sizes -/

theorem format_plain : ∀ op∈plainOpcodes,formatOf op=.byte∧
    ∀ cache,extraByte cache op=false := by
  decide +kernel

theorem format_qstr : ∀ op∈qstrOpcodes++lookupOpcodes,formatOf op=.qstr := by
  decide

theorem format_varUint : ∀ op∈loadConstSmallInt::varUintOpcodes,formatOf op=.varUint∧
    ∀ cache,extraByte cache op=false := by
  decide

/-- The table knows the opcodes with an offset, `UNWIND_JUMP` among them. -/
theorem format_offset : ∀ op∈unwindJump::offsetOpcodes,formatOf op=.offset∧
    ∀ cache,extraByte cache op=false := by
  decide

theorem format_closure : ∀ op∈[makeClosure,makeClosureDefargs],formatOf op=.varUint∧
    ∀ cache,extraByte cache op=true := by
  decide

/-- The digits of a number end the walk over them. -/
theorem varUintSize_continueBytes (digits : List ℕ) (hne : digits≠[])
    (hlt : ∀ digit∈digits,digit<128) (rest : List ℕ) :
    varUintSize (continueBytes digits++rest)=(continueBytes digits).length := by
  induction digits with
  | nil => exact absurd rfl hne
  | cons digit digits ih =>
    have hdigit := hlt digit mem_cons_self
    cases digits with
    | nil =>
      simp only [continueBytes,cons_append,nil_append,varUintSize,length_cons,length_nil]
      rw [if_neg (by omega)]
    | cons next digits =>
      have hrest := ih (cons_ne_nil _ _) (fun d hd => hlt d (mem_cons_of_mem _ hd))
      rw [continueBytes,cons_append,varUintSize,if_pos (by omega),hrest,length_cons]

theorem cons_digit_lt {digit : ℕ} {digits : List ℕ} (h : digit<128)
    (hlt : ∀ digit∈digits,digit<128) : ∀ d∈digit::digits,d<128 := by
  intro d hd
  rcases mem_cons.mp hd with heq | hrest
  · omega
  · exact hlt d hrest

/-- The digits of an unsigned number. -/
theorem emitDigits_spec (fuel val : ℕ) (digits : List ℕ) (hne : digits≠[])
    (hlt : ∀ digit∈digits,digit<128) :
    emitDigits fuel val digits≠[]∧∀ digit∈emitDigits fuel val digits,digit<128 := by
  induction fuel generalizing val digits with
  | zero => exact ⟨hne,hlt⟩
  | succ fuel ih =>
    rw [emitDigits]
    split
    · exact ⟨hne,hlt⟩
    · exact ih _ _ (cons_ne_nil _ _) (cons_digit_lt (by omega) hlt)

/-- The digits of a signed number. -/
theorem intDigits_spec (fuel : ℕ) (num : ℤ) (digits : List ℕ) (hlt : ∀ digit∈digits,digit<128) :
    intDigits (fuel+1) num digits≠[]∧∀ digit∈intDigits (fuel+1) num digits,digit<128 := by
  induction fuel generalizing num digits with
  | zero =>
    have hall := cons_digit_lt (show (num%128).toNat<128 by omega) hlt
    have hsign := fun d h => @cons_digit_lt d _ h hall
    simp only [intDigits]
    split_ifs
    · exact ⟨cons_ne_nil _ _,hsign 0 (by omega)⟩
    · exact ⟨cons_ne_nil _ _,hall⟩
    · exact ⟨cons_ne_nil _ _,hsign 127 (by omega)⟩
    · exact ⟨cons_ne_nil _ _,hall⟩
    · exact ⟨cons_ne_nil _ _,hall⟩
  | succ fuel ih =>
    have hall := cons_digit_lt (show (num%128).toNat<128 by omega) hlt
    have hsign := fun d h => @cons_digit_lt d _ h hall
    rw [intDigits]
    split_ifs
    · exact ⟨cons_ne_nil _ _,hsign 0 (by omega)⟩
    · exact ⟨cons_ne_nil _ _,hall⟩
    · exact ⟨cons_ne_nil _ _,hsign 127 (by omega)⟩
    · exact ⟨cons_ne_nil _ _,hall⟩
    · exact ih _ _ hall

/-- The walk passes an unsigned operand. -/
theorem varUintSize_emitWriteUint (n : ℕ) (rest : List ℕ) :
    varUintSize (emitWriteUint n++rest)=(emitWriteUint n).length := by
  have hlast : ∀ digit∈[n%128],digit<128 := by
    intro digit hd
    rw [mem_singleton.mp hd]
    omega
  have h := emitDigits_spec n (n/128) [n%128] (cons_ne_nil _ _) hlast
  exact varUintSize_continueBytes _ h.1 h.2 rest

/-- The walk passes a signed operand. -/
theorem varUintSize_emitWriteInt (n : ℤ) (rest : List ℕ) :
    varUintSize (emitWriteInt n++rest)=(emitWriteInt n).length := by
  have h := intDigits_spec n.natAbs n [] (fun _ hd => absurd hd not_mem_nil)
  exact varUintSize_continueBytes _ h.1 h.2 rest

/-- The part of an instruction that `mp_opcode_format` accounts for. -/
def Instr.counted (cache : Bool) (p : Pool Str) : Instr→List ℕ
  | .lookup op q _ => op.val::twoBytes (p.number q)
  | .unwindJump dest _ => OpcodeFormat.unwindJump::twoBytes dest.val
  | i => i.bytes cache p

variable (p : Pool Str) (i : Instr)

theorem bytes_eq :
    i.bytes cache p=i.counted cache p++i.leftOut cache := by
  cases i <;> simp only [Instr.bytes,Instr.counted,Instr.leftOut,append_nil]

/-- The walk finds the format of an instruction and counts its bytes but the one
that is left out. -/
theorem mpOpcodeFormat_counted (rest : List ℕ) :
    ∃ f,mpOpcodeFormat cache (i.counted cache p++rest)=(f,(i.counted cache p).length)∧
      (f=.qstr↔i.operand≠[]) := by
  cases i with
  | plain op =>
    have h := format_plain op.val op.property
    refine ⟨.byte,?_,by simp [Instr.operand]⟩
    simp [mpOpcodeFormat,Instr.counted,Instr.bytes,h.1,h.2]
  | qstr op q =>
    have h := format_qstr op.val (mem_append_left _ op.property)
    refine ⟨.qstr,?_,by simp [Instr.operand]⟩
    simp [mpOpcodeFormat,Instr.counted,Instr.bytes,twoBytes,h]
  | lookup op q slot =>
    have h := format_qstr op.val (mem_append_right _ op.property)
    refine ⟨.qstr,?_,by simp [Instr.operand]⟩
    simp [mpOpcodeFormat,Instr.counted,twoBytes,h]
  | varUint op n =>
    have h := format_varUint op.val (mem_cons_of_mem _ op.property)
    refine ⟨.varUint,?_,by simp [Instr.operand]⟩
    have hsize := varUintSize_emitWriteUint n rest
    simp [mpOpcodeFormat,Instr.counted,Instr.bytes,h.1,h.2,hsize,Nat.add_comm]
  | smallInt n =>
    have h := format_varUint loadConstSmallInt mem_cons_self
    refine ⟨.varUint,?_,by simp [Instr.operand]⟩
    have hsize := varUintSize_emitWriteInt n rest
    simp [mpOpcodeFormat,Instr.counted,Instr.bytes,h.1,h.2,hsize,Nat.add_comm]
  | offset op dest =>
    have h := format_offset op.val (mem_cons_of_mem _ op.property)
    refine ⟨.offset,?_,by simp [Instr.operand]⟩
    simp [mpOpcodeFormat,Instr.counted,Instr.bytes,twoBytes,h.1,h.2]
  | unwindJump dest depth =>
    have h := format_offset unwindJump mem_cons_self
    refine ⟨.offset,?_,by simp [Instr.operand]⟩
    simp [mpOpcodeFormat,Instr.counted,twoBytes,h.1,h.2]
  | makeClosure op n nClosed =>
    have h := format_closure op.val op.property
    refine ⟨.varUint,?_,by simp [Instr.operand]⟩
    have hsize := varUintSize_emitWriteUint n (nClosed.val::rest)
    simp [mpOpcodeFormat,Instr.counted,Instr.bytes,h.1,h.2,hsize,Nat.add_comm]
  | raiseVarargs nArgs =>
    refine ⟨.byte,?_,by simp [Instr.operand]⟩
    have h : formatOf raiseVarargs=.byte∧∀ cache,extraByte cache raiseVarargs=true := by decide
    simp [mpOpcodeFormat,Instr.counted,Instr.bytes,h.1,h.2]

/-! ## The walk -/

theorem opcodeWalk_cons (pos byte : ℕ) (ip : List ℕ) : opcodeWalk cache pos (byte::ip)=
      ((pos,(mpOpcodeFormat cache (byte::ip)).1)::
        (opcodeWalk cache (pos+(mpOpcodeFormat cache (byte::ip)).2)
          ((byte::ip).drop (mpOpcodeFormat cache (byte::ip)).2)).1,
      (opcodeWalk cache (pos+(mpOpcodeFormat cache (byte::ip)).2)
        ((byte::ip).drop (mpOpcodeFormat cache (byte::ip)).2)).2) := by
  rw [opcodeWalk]

/-- The walk at the end of the bytecode. -/
@[simp] theorem opcodeWalk_nil (pos : ℕ) : opcodeWalk cache pos []=([],pos) := by
  rw [opcodeWalk]

/-- The walk does not go back. -/
theorem le_of_opcodeWalk (pos : ℕ) (ip : List ℕ) :
    (∀ s∈(opcodeWalk cache pos ip).1,pos ≤ s.1)∧pos≤(opcodeWalk cache pos ip).2 := by
  induction hn : ip.length using Nat.strongRecOn generalizing pos ip with
  | ind n ih =>
    cases ip with
    | nil =>
      rw [opcodeWalk_nil]
      exact ⟨fun s hs => absurd hs not_mem_nil,le_refl pos⟩
    | cons byte ip =>
      have hlt := drop_size_lt cache byte ip
      have hrest := ih _ (hn▸hlt) (pos+(mpOpcodeFormat cache (byte::ip)).2)
        ((byte::ip).drop (mpOpcodeFormat cache (byte::ip)).2) rfl
      rw [opcodeWalk_cons]
      constructor
      · intro s hs
        rcases mem_cons.mp hs with heq | hs
        · rw [heq]
        · exact le_trans (le_add_right _ _) (hrest.1 s hs)
      · exact le_trans (le_add_right _ _) hrest.2

/-- The walk over the counted bytes of an instruction. -/
theorem opcodeWalk_counted (pos : ℕ)
    (rest : List ℕ) : ∃ f,(f=Format.qstr↔i.operand≠[])∧
    opcodeWalk cache pos (i.counted cache p++rest)=
      ((pos,f)::(opcodeWalk cache (pos+(i.counted cache p).length) rest).1,
        (opcodeWalk cache (pos+(i.counted cache p).length) rest).2) := by
  obtain ⟨f,hformat,hoperand⟩ := mpOpcodeFormat_counted cache p i rest
  refine ⟨f,hoperand,?_⟩
  have hpos := one_le_size cache (i.counted cache p++rest)
  rw [hformat] at hpos
  have hdrop : (i.counted cache p++rest).drop (i.counted cache p).length=rest :=
    drop_left
  generalize hbytes : i.counted cache p=bytes at *
  cases bytes with
  | nil => exact absurd hpos (by simp)
  | cons byte bytes =>
    rw [cons_append] at hformat hdrop ⊢
    rw [opcodeWalk_cons,hformat,hdrop]

/-- A single byte is passed alone. -/
theorem mpOpcodeFormat_single {byte : ℕ} (h : isSingle byte=true)
    (rest : List ℕ) : mpOpcodeFormat cache (byte::rest)=(.byte,1) := by
  rw [isSingle,Bool.and_eq_true,decide_eq_true_eq,decide_eq_true_eq] at h
  have hextra : extraByte cache byte=false := by
    have hnot : byte≠makeClosure∧byte≠makeClosureDefargs∧byte∉lookupOpcodes := by
      refine ⟨?_,?_,?_⟩ <;> intro hbyte
      · rw [hbyte] at h
        exact absurd h.1 (by decide)
      · rw [hbyte] at h
        exact absurd h.1 (by decide)
      · have hq := format_qstr byte (mem_append_right _ hbyte)
        rw [hq] at h
        exact absurd h.1 (by decide)
    simp [extraByte,h.2,hnot.1,hnot.2.1,hnot.2.2]
  simp [mpOpcodeFormat,h.1,hextra]

/-- Another byte takes what follows it with it. -/
theorem two_le_of_not_single {byte : ℕ} (h : isSingle byte=false)
    (rest : List ℕ) : 2≤(mpOpcodeFormat cache (byte::rest)).2 := by
  cases hf : formatOf byte with
  | qstr => simp [mpOpcodeFormat,hf]
  | byte =>
    have hraise : byte=raiseVarargs := by simpa [isSingle,hf] using h
    subst hraise
    simp [mpOpcodeFormat,hf,extraByte]
  | varUint =>
    have hsize : 1≤varUintSize rest := by
      cases rest with
      | nil => exact le_refl 1
      | cons b bs =>
        rw [varUintSize]
        split <;> omega
    simp only [mpOpcodeFormat,headD_cons,tail_cons,hf,reduceCtorEq,if_false]
    omega
  | offset =>
    simp only [mpOpcodeFormat,headD_cons,hf,reduceCtorEq,if_false]
    omega

/-- An instruction leaves out one byte or none. -/
theorem leftOut_cases : i.leftOut cache=[]∨∃ byte,i.leftOut cache=[byte] := by
  cases i with
  | lookup op q slot =>
    cases cache with
    | false => exact Or.inl rfl
    | true => exact Or.inr ⟨slot.val,rfl⟩
  | unwindJump dest depth => exact Or.inr ⟨depth.val,rfl⟩
  | _ => exact Or.inl rfl

/-- The walk over an instruction whose left-out byte is single: a stop at the
instruction, perhaps one at the byte, and then the rest. -/
theorem opcodeWalk_instr (pos : ℕ) (rest : List ℕ)
    (h : ∀ byte∈i.leftOut cache,isSingle byte=true) :
    ∃ f extra,(f=Format.qstr↔i.operand≠[])∧
      (∀ s∈extra,s.2=Format.byte∧pos < s.1∧s.1<pos+(i.bytes cache p).length)∧
      opcodeWalk cache pos (i.bytes cache p++rest)=
        ((pos,f)::(extra++(opcodeWalk cache (pos+(i.bytes cache p).length) rest).1),
          (opcodeWalk cache (pos+(i.bytes cache p).length) rest).2) := by
  have hbytes := bytes_eq cache p i
  have hlen : 1≤(i.counted cache p).length := by
    cases i <;> simp [Instr.counted,Instr.bytes]
  obtain ⟨f,hoperand,hwalk⟩ := opcodeWalk_counted cache p i pos (i.leftOut cache++rest)
  rw [←append_assoc,←hbytes] at hwalk
  rcases leftOut_cases cache i with hnone | ⟨byte,hone⟩
  · refine ⟨f,[],hoperand,fun s hs => absurd hs not_mem_nil,?_⟩
    rw [hnone,append_nil] at hbytes
    rw [hwalk,hnone,hbytes]
    rfl
  · have hsingle := mpOpcodeFormat_single cache (h byte (hone▸mem_singleton.mpr rfl)) rest
    have hlength : (i.bytes cache p).length=(i.counted cache p).length+1 := by
      rw [hbytes,hone]
      simp
    refine ⟨f,[(pos+(i.counted cache p).length,Format.byte)],hoperand,?_,?_⟩
    · intro s hs
      rw [mem_singleton.mp hs]
      refine ⟨rfl,?_,?_⟩
      · omega
      · simp only
        omega
    · rw [hwalk,hone,cons_append,nil_append,opcodeWalk_cons,hsingle,hlength]
      rfl

/-- Positions of instructions are not before the first. -/
theorem le_of_starts (code : List Instr) :
    ∀ pos,∀ s∈starts cache p pos code,pos ≤ s.1 := by
  induction code with
  | nil => exact fun pos s hs => absurd hs not_mem_nil
  | cons i code ih =>
    intro pos s hs
    rcases mem_cons.mp hs with heq | hs
    · rw [heq]
    · exact le_trans (le_add_right _ _) (ih _ s hs)

/-- Where the left-out bytes are single, the walk goes from opcode to opcode. -/
theorem walk_of_single (code : List Instr) :
    ∀ pos,(∀ i∈code,∀ byte∈i.leftOut cache,isSingle byte=true) → (∀ start∈starts cache p pos code,
        ∃ f,(start.1,f)∈(opcodeWalk cache pos (codeBytes cache p code)).1)∧
      (opcodeWalk cache pos (codeBytes cache p code)).2=pos+(codeBytes cache p code).length∧
      ∀ q,(q,Format.qstr)∈(opcodeWalk cache pos (codeBytes cache p code)).1↔
        ∃ i,(q,i)∈starts cache p pos code∧i.operand≠[] := by
  induction code with
  | nil =>
    intro pos _
    simp [codeBytes,starts]
  | cons i code ih =>
    intro pos h
    have hfirst := h i mem_cons_self
    have hrest := ih (pos+(i.bytes cache p).length) (fun j hj => h j (mem_cons_of_mem _ hj))
    obtain ⟨f,extra,hoperand,hextra,hwalk⟩ :=
      opcodeWalk_instr cache p i pos (codeBytes cache p code) hfirst
    have hbytes : codeBytes cache p (i::code)=i.bytes cache p++codeBytes cache p code := rfl
    rw [hbytes,hwalk]
    obtain ⟨hstops,hends,hfinds⟩ := hrest
    refine ⟨?_,?_,?_⟩
    · intro start hstart
      rcases mem_cons.mp hstart with heq | hstart
      · exact ⟨f,heq▸mem_cons_self⟩
      · obtain ⟨g,hg⟩ := hstops start hstart
        exact ⟨g,mem_cons_of_mem _ (mem_append_right _ hg)⟩
    · rw [hends,length_append,Nat.add_assoc]
    · intro q
      have hnot : (q,Format.qstr)∉extra := by
        intro hq
        have hformat : Format.qstr=Format.byte := (hextra _ hq).1
        exact absurd hformat (by decide)
      simp only [mem_cons,mem_append,hnot,false_or,hfinds q,starts,Prod.mk.injEq]
      constructor
      · rintro (⟨hq,hf⟩ | ⟨j,hj,hne⟩)
        · exact ⟨i,Or.inl ⟨hq,rfl⟩,hoperand.mp hf.symm⟩
        · exact ⟨j,Or.inr hj,hne⟩
      · rintro ⟨j,⟨hq,rfl⟩ | hj,hne⟩
        · exact Or.inl ⟨hq,(hoperand.mpr hne).symm⟩
        · exact Or.inr ⟨j,hj,hne⟩

/-- A left-out byte that is not single takes the next opcode with it: the walk
neither stops behind the instruction nor ends there. -/
theorem walk_over_of_not_single (pos : ℕ)
    (rest : List ℕ) {byte : ℕ} (hbyte : byte∈i.leftOut cache) (h : isSingle byte=false) :
    (∀ f,(pos+(i.bytes cache p).length,f)∉(opcodeWalk cache pos (i.bytes cache p++rest)).1)∧
      pos+(i.bytes cache p).length<(opcodeWalk cache pos (i.bytes cache p++rest)).2 := by
  have hone : i.leftOut cache=[byte] := by
    rcases leftOut_cases cache i with hnone | ⟨b,hone⟩
    · rw [hnone] at hbyte
      exact absurd hbyte not_mem_nil
    · rw [hone] at hbyte ⊢
      rw [mem_singleton.mp hbyte]
  have hbytes := bytes_eq cache p i
  have hlength : (i.bytes cache p).length=(i.counted cache p).length+1 := by
    rw [hbytes,hone]
    simp
  have hsize := two_le_of_not_single cache h rest
  obtain ⟨f,_,hwalk⟩ := opcodeWalk_counted cache p i pos (i.leftOut cache++rest)
  rw [←append_assoc,←hbytes,hone,cons_append,nil_append,opcodeWalk_cons] at hwalk
  have hlater := le_of_opcodeWalk cache
    (pos+(i.counted cache p).length+(mpOpcodeFormat cache (byte::rest)).2)
    ((byte::rest).drop (mpOpcodeFormat cache (byte::rest)).2)
  rw [hwalk]
  constructor
  · intro g hg
    rcases mem_cons.mp hg with heq | hg
    · rw [Prod.mk.injEq] at heq
      omega
    rcases mem_cons.mp hg with heq | hg
    · rw [Prod.mk.injEq] at heq
      omega
    · have hle := hlater.1 _ hg
      omega
  · omega

/-- A walk that stops at each opcode and ends at the end has met no other left-out
bytes than single ones. -/
theorem single_of_walk (code : List Instr) : ∀ pos,(∀ start∈starts cache p pos code,
        ∃ f,(start.1,f)∈(opcodeWalk cache pos (codeBytes cache p code)).1) →
      (opcodeWalk cache pos (codeBytes cache p code)).2=pos+(codeBytes cache p code).length →
      ∀ i∈code,∀ byte∈i.leftOut cache,isSingle byte=true := by
  induction code with
  | nil => exact fun pos _ _ i hi => absurd hi not_mem_nil
  | cons i code ih =>
    intro pos hstops hends
    have hbytes : codeBytes cache p (i::code)=i.bytes cache p++codeBytes cache p code := rfl
    rw [hbytes] at hstops hends
    have hfirst : ∀ byte∈i.leftOut cache,isSingle byte=true := by
      intro byte hbyte
      by_contra hsingle
      have hover := walk_over_of_not_single cache p i pos (codeBytes cache p code) hbyte
        ((Bool.not_eq_true _).mp hsingle)
      cases code with
      | nil =>
        simp only [codeBytes,flatMap_nil,append_nil] at hends hover
        omega
      | cons j code =>
        obtain ⟨f,hf⟩ := hstops (pos+(i.bytes cache p).length,j) (mem_cons_of_mem _ mem_cons_self)
        exact hover.1 f hf
    obtain ⟨f,extra,_,hextra,hwalk⟩ :=
      opcodeWalk_instr cache p i pos (codeBytes cache p code) hfirst
    rw [hwalk] at hstops hends
    have hlen : 1≤(i.bytes cache p).length := by
      cases i <;> simp [Instr.bytes]
    have hothers := ih (pos+(i.bytes cache p).length) (by
      intro start hstart
      have hle := le_of_starts cache p code _ start hstart
      obtain ⟨g,hg⟩ := hstops start (mem_cons_of_mem _ hstart)
      rcases mem_cons.mp hg with heq | hg
      · rw [Prod.mk.injEq] at heq
        omega
      · rcases mem_append.mp hg with hg | hg
        · have hlt := (hextra _ hg).2.2
          omega
        · exact ⟨g,hg⟩) (by
      rw [hends,length_append,Nat.add_assoc])
    intro j hj
    rcases mem_cons.mp hj with heq | hj
    · rw [heq]
      exact hfirst
    · exact hothers j hj

/-- The walk goes from opcode to opcode exactly when the bytes that
`mp_opcode_format` leaves out are passed alone. -/
theorem walksThrough_iff (code : List Instr) :
    WalksThrough cache p code↔∀ i∈code,∀ byte∈i.leftOut cache,isSingle byte=true := by
  constructor
  · intro h
    refine single_of_walk cache p code 0 h.stops ?_
    rw [h.ends,Nat.zero_add]
  · intro h
    have hwalk := walk_of_single cache p code 0 h
    rw [Nat.zero_add] at hwalk
    exact ⟨hwalk.1,hwalk.2.1,hwalk.2.2⟩

/-- A loop over the opcodes of a buffer does its work at the stops of the walk. -/
theorem loop_eq_walk {m : Type→Type} [Monad m] [LawfulMonad m] (cache : Bool)
    (body : Format→List ℕ → m (List ℕ)) (loop : List ℕ → m (List ℕ)) (hnil : loop []=pure [])
    (hcons : ∀ byte ip,loop (byte::ip)=do
      let here ← body (mpOpcodeFormat cache (byte::ip)).1 (byte::ip)
      let rest ← loop ((byte::ip).drop (mpOpcodeFormat cache (byte::ip)).2)
      pure (here++rest))
    (buffer : List ℕ) (pos : ℕ) :
    loop (buffer.drop pos)=List.flatten <$>
      (opcodeWalk cache pos (buffer.drop pos)).1.mapM fun s => body s.2 (buffer.drop s.1) := by
  induction hn : (buffer.drop pos).length using Nat.strongRecOn generalizing pos with
  | ind n ih =>
    cases hip : buffer.drop pos with
    | nil =>
      rw [hnil,opcodeWalk_nil]
      simp
    | cons byte ip =>
      have hlt := drop_size_lt cache byte ip
      have hdrop : (byte::ip).drop (mpOpcodeFormat cache (byte::ip)).2=
          buffer.drop (pos+(mpOpcodeFormat cache (byte::ip)).2) := by
        rw [←hip,drop_drop]
      have hrest := ih _ (by rw [←hn,hip,←hdrop]; exact hlt)
        (pos+(mpOpcodeFormat cache (byte::ip)).2) rfl
      rw [hcons,opcodeWalk_cons,hdrop,hrest]
      simp [mapM_cons,hip]

end MicroPython.OpcodeFormat
