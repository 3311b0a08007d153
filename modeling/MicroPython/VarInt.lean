import MicroPython.VarUint
import Mathlib.Data.Int.ModEq
import Mathlib.Data.Nat.Bitwise
import Mathlib.Tactic.Ring

/-!
# Variable-length operands of the bytecode

`emit_write_uint` and `emit_write_bytecode_byte_int` collect the base-128 digits of a machine
word from the end of a buffer that has room for the digits of a word only. The loops of the
virtual machine shift the digits into a machine word again, which begins with all bits set for
a negative number.
-/

namespace MicroPython.VarInt

open Nat List

/-- `BYTES_FOR_INT`. -/
def bytesForInt (bits : ℕ) : ℕ := (bits+6)/7

/-- The first loop of `emit_write_uint` with the room left in the buffer. -/
def uintDigits : ℕ→ℕ→List ℕ→Option (List ℕ)
  | 0,_,_ => none
  | room+1,val,digits =>
    if val/128≠0 then uintDigits room (val/128) (val%128::digits) else some (val%128::digits)

/-- `emit_write_uint`, or nothing when the buffer is too small. -/
def emitWriteUint (bits val : ℕ) : Option (List ℕ) :=
  (uintDigits (bytesForInt bits) val []).map VarUint.continueBytes

/-- The first loop of `emit_write_bytecode_byte_int`: the room left in the buffer, what is left
of the number and the digits. -/
def intDigits : ℕ→ℤ→List ℕ→Option (ℕ×ℤ×List ℕ)
  | 0,_,_ => none
  | room+1,num,digits =>
    if num/128≠0∧num/128≠-1 then intDigits room (num/128) ((num%128).toNat::digits)
    else some (room,num/128,(num%128).toNat::digits)

/-- The sign of the highest digit. -/
def signBit (byte : ℕ) : Bool := byte &&& 0x40≠0

/-- A digit of the sign alone is put in front where the highest digit has another sign. -/
def signDigits : ℕ×ℤ×List ℕ→Option (List ℕ)
  | (room,num,digits) =>
    if num=-1∧signBit (digits.headD 0)=false then if 0 < room then some (0x7f::digits) else none
    else if num=0∧signBit (digits.headD 0)=true then if 0 < room then some (0::digits) else none
    else some digits

/-- `emit_write_bytecode_byte_int`, or nothing when the buffer is too small. -/
def emitWriteBytecodeByteInt (bits b1 : ℕ) (num : ℤ) : Option (List ℕ) := do
  let digits ← intDigits (bytesForInt bits) num []
  let digits ← signDigits digits
  some (b1::VarUint.continueBytes digits)

/-- A word with seven bits more. -/
def shiftIn (bits word byte : ℕ) : ℕ := (word <<< 7)%2^bits ||| (byte &&& 0x7f)

/-- The loop of `mp_decode_uint` and of `MP_BC_LOAD_CONST_SMALL_INT`. -/
def decodeLoop (bits : ℕ) : ℕ→List ℕ→Option (ℕ×List ℕ)
  | _,[] => none
  | word,byte::bytes =>
    if byte &&& 0x80≠0 then decodeLoop bits (shiftIn bits word byte) bytes
    else some (shiftIn bits word byte,bytes)

/-- `mp_decode_uint`. -/
def mpDecodeUint (bits : ℕ) (bytes : List ℕ) : Option (ℕ×List ℕ) := decodeLoop bits 0 bytes

/-- `DECODE_UINT` of the virtual machine, which adds the digits. -/
def decodeUint (bits : ℕ) : ℕ→List ℕ→Option (ℕ×List ℕ)
  | _,[] => none
  | unum,byte::bytes =>
    let unum := ((unum <<< 7)%2^bits+(byte &&& 0x7f))%2^bits
    if byte &&& 0x80≠0 then decodeUint bits unum bytes else some (unum,bytes)

/-- `MP_BC_LOAD_CONST_SMALL_INT`: the number in the bits of a word. -/
def loadConstSmallInt (bits : ℕ) : List ℕ→Option (ℤ×List ℕ)
  | [] => none
  | byte::bytes =>
    (decodeLoop bits (if signBit byte then 2^bits-1 else 0) (byte::bytes)).map fun word =>
      ((word.1 : ℤ).bmod (2^bits),word.2)

/-- `MP_SMALL_INT_FITS`: a machine word without its two highest bits has the number. -/
def IsSmallInt (bits : ℕ) (num : ℤ) : Prop := -2^(bits-2) ≤ num∧num < 2^(bits-2)

/-- The value of digits behind a number. -/
def valueFrom (value : ℤ) (digits : List ℕ) : ℤ :=
  digits.foldl (fun (value : ℤ) (digit : ℕ) => value*128+digit) value

section Bits

/-- The low bits of a byte. -/
theorem and_0x7f (byte : ℕ) : byte &&& 0x7f=byte%128 := and_two_pow_sub_one_eq_mod byte 7

/-- The bit that another byte follows for. -/
theorem and_0x80 {byte : ℕ} (h : byte < 256) : byte &&& 0x80≠0↔128 ≤ byte := by
  have hbit : byte &&& 0x80=(byte.testBit 7).toNat*2^7 := and_two_pow byte 7
  rw [hbit,testBit_eq_decide_div_mod_eq]
  by_cases hhigh : 128 ≤ byte
  · simp [show byte/128%2=1 by omega,hhigh]
  · simp [show byte/128%2=0 by omega,hhigh]

theorem signBit_eq (byte : ℕ) : signBit byte=decide (64 ≤ byte%128) := by
  have hbit : byte &&& 0x40=(byte.testBit 6).toNat*2^6 := and_two_pow byte 6
  rw [signBit,hbit,testBit_eq_decide_div_mod_eq]
  by_cases hhigh : 64 ≤ byte%128
  · simp [show byte/64%2=1 by omega,hhigh]
  · simp [show byte/64%2=0 by omega,hhigh]

/-- Seven bits are shifted into a word. -/
theorem shiftIn_eq {bits : ℕ} (hbits : 7 ≤ bits) (word byte : ℕ) :
    shiftIn bits word byte=(word*128+byte%128)%2^bits := by
  obtain ⟨n,rfl⟩ := Nat.exists_eq_add_of_le hbits
  have hlow : byte%128 < 2^7 := Nat.mod_lt _ (by decide)
  have hshift : (word <<< 7)%2^(7+n)=2^7*(word%2^n) := by
    rw [shiftLeft_eq,mul_comm word,Nat.pow_add,mul_mod_mul_left]
  have hquot : (word*128+byte%128)/2^7=word := by omega
  have hrem : (word*128+byte%128)%2^7=byte%128 := by omega
  rw [shiftIn,and_0x7f,hshift,←two_pow_add_eq_or_of_lt hlow,Nat.pow_add,mod_mul,hquot,hrem,add_comm]

end Bits

section Digits

/-- A digit behind the others. -/
theorem valueFrom_concat (value : ℤ) (digits : List ℕ) (digit : ℕ) :
    valueFrom value (digits++[digit])=valueFrom value digits*128+digit := by
  simp [valueFrom]

/-- The digits of a number below the room there is, behind those already stored. -/
theorem uintDigits_eq {room val : ℕ} (hval : val < 128^(room+1)) (digits : List ℕ) :
    ∃ front,uintDigits (room+1) val digits=some (front++digits)∧front≠[]∧
      (∀ digit∈front,digit < 128)∧valueFrom 0 front=val := by
  induction room generalizing val digits with
  | zero =>
    refine ⟨[val%128],?_,cons_ne_nil _ _,?_,?_⟩
    · rw [uintDigits,if_neg (by omega)]
      rfl
    · simpa using Nat.mod_lt val (by decide : 0 < 128)
    · simp only [valueFrom,foldl_cons,foldl_nil]
      omega
  | succ room ih =>
    rw [uintDigits]
    by_cases hmore : val/128≠0
    · have hquot : val/128 < 128^(room+1) :=
        Nat.div_lt_of_lt_mul (by rwa [Nat.pow_succ'] at hval)
      obtain ⟨front,hdigits,hne,hlt,hvalue⟩ := ih hquot (val%128::digits)
      refine ⟨front++[val%128],?_,by simp,?_,?_⟩
      · rw [if_pos hmore,hdigits,append_assoc]
        rfl
      · simp only [mem_append,mem_singleton]
        rintro digit (hmem | rfl)
        · exact hlt digit hmem
        · exact Nat.mod_lt _ (by decide)
      · rw [valueFrom_concat,hvalue]
        omega
    · refine ⟨[val%128],?_,cons_ne_nil _ _,?_,?_⟩
      · rw [if_neg hmore]
        rfl
      · simpa using Nat.mod_lt val (by decide : 0 < 128)
      · simp only [valueFrom,foldl_cons,foldl_nil]
        omega

/-- The digits of a signed number. Where they fill the buffer the highest one has its sign. -/
theorem intDigits_eq {room : ℕ} {num : ℤ} (hnum : -(64*128^room) ≤ num∧num < 64*128^room)
    (digits : List ℕ) :
    ∃ left sign top front,intDigits (room+1) num digits=some (left,sign,top::front++digits)∧
      (sign=0∨sign=-1)∧(∀ digit∈top::front,digit < 128)∧valueFrom sign (top::front)=num∧
      (left=0 → (sign=-1↔64 ≤ top)) := by
  induction room generalizing num digits with
  | zero =>
    refine ⟨0,num/128,(num%128).toNat,[],?_,by omega,?_,?_,fun _ => by omega⟩
    · rw [intDigits,if_neg (by omega)]
      rfl
    · simp only [mem_singleton,forall_eq]
      omega
    · simp only [valueFrom,foldl_cons,foldl_nil]
      omega
  | succ room ih =>
    rw [intDigits]
    by_cases hmore : num/128≠0∧num/128≠-1
    · have hpow : (128 : ℤ)^(room+1)=128*128^room := by ring
      rw [hpow] at hnum
      obtain ⟨left,sign,top,front,hdigits,hsign,hlt,hvalue,hfull⟩ := @ih (num/128)
        (by omega) ((num%128).toNat::digits)
      refine ⟨left,sign,top,front++[(num%128).toNat],?_,hsign,?_,?_,hfull⟩
      · rw [if_pos hmore,hdigits]
        simp
      · rw [←cons_append]
        simp only [mem_append,mem_singleton]
        rintro digit (hmem | rfl)
        · exact hlt digit hmem
        · omega
      · rw [←cons_append,valueFrom_concat,hvalue]
        omega
    · refine ⟨room+1,num/128,(num%128).toNat,[],?_,by omega,?_,?_,fun h => by omega⟩
      · rw [if_neg hmore]
        rfl
      · simp only [mem_singleton,forall_eq]
        omega
      · simp only [valueFrom,foldl_cons,foldl_nil]
        omega

theorem valueFrom_sign (digits : List ℕ) : valueFrom (-1) (0x7f::digits)=valueFrom (-1) digits∧
      valueFrom 0 (0::digits)=valueFrom 0 digits := ⟨rfl,rfl⟩

/-- The sign of the highest digit is that of the number in the end. -/
theorem signDigits_eq {left top : ℕ} {sign : ℤ} {front : List ℕ} (hsign : sign=0∨sign=-1)
    (hlt : ∀ digit∈top::front,digit < 128) (hfull : left=0 → (sign=-1↔64 ≤ top)) :
    ∃ high digits,signDigits (left,sign,top::front)=some (high::digits)∧
      (∀ digit∈high::digits,digit < 128)∧
      valueFrom (if signBit high then -1 else 0) (high::digits)=valueFrom sign (top::front) := by
  have htop : top%128=top := mod_eq_of_lt (hlt top mem_cons_self)
  have hbit := signBit_eq top
  rw [htop] at hbit
  rw [signDigits,headD_cons,hbit]
  by_cases hhigh : 64 ≤ top
  · obtain rfl | rfl := hsign
    · have hroom : 0 < left := pos_of_ne_zero fun h => by
        omega
      refine ⟨0,top::front,?_,?_,?_⟩
      · simp [hhigh,hroom]
      · simpa using hlt
      · rw [show signBit 0=false from rfl,if_neg Bool.false_ne_true,(valueFrom_sign _).2]
    · refine ⟨top,front,by simp [hhigh],hlt,?_⟩
      rw [hbit,decide_eq_true hhigh,if_pos rfl]
  · obtain rfl | rfl := hsign
    · refine ⟨top,front,by simp [hhigh],hlt,?_⟩
      rw [hbit,decide_eq_false hhigh,if_neg Bool.false_ne_true]
    · have hroom : 0 < left := pos_of_ne_zero fun h => hhigh ((hfull h).mp rfl)
      refine ⟨0x7f,top::front,?_,?_,?_⟩
      · simp [hhigh,hroom]
      · simpa using hlt
      · rw [show signBit 0x7f=true from rfl,if_pos rfl,(valueFrom_sign _).1]

end Digits

section Decoding

variable {bits : ℕ}

/-- The digits of a number are shifted into a word, up to the last one. -/
theorem decodeLoop_continueBytes (word : ℕ) {digits : List ℕ} (hne : digits≠[])
    (hlt : ∀ digit∈digits,digit < 128) (rest : List ℕ) :
    decodeLoop bits word (VarUint.continueBytes digits++rest)=
      some (digits.foldl (shiftIn bits) word,rest) := by
  induction digits generalizing word with
  | nil => exact absurd rfl hne
  | cons digit digits ih =>
    have hdigit : digit < 128 := hlt digit mem_cons_self
    cases digits with
    | nil =>
      have hlast : ¬(digit &&& 0x80≠0) := by
        rw [and_0x80 (by omega)]
        omega
      rw [VarUint.continueBytes,cons_append,decodeLoop,if_neg hlast]
      rfl
    | cons next digits =>
      have hmore : (128+digit) &&& 0x80≠0 := (and_0x80 (by omega)).mpr (by omega)
      have hsame : shiftIn bits word (128+digit)=shiftIn bits word digit := by
        rw [shiftIn,shiftIn,and_0x7f,and_0x7f,add_mod_left]
      rw [VarUint.continueBytes,cons_append,decodeLoop,if_pos hmore,hsame,
        ih _ (cons_ne_nil _ _) fun d hd => hlt d (mem_cons_of_mem _ hd)]
      rfl

/-- Adding the digits gives the same word as joining them. -/
theorem decodeUint_eq (hbits : 7 ≤ bits) (word : ℕ) (bytes : List ℕ) :
    decodeUint bits word bytes=decodeLoop bits word bytes := by
  induction bytes generalizing word with
  | nil => rfl
  | cons byte bytes ih =>
    have hstep : ((word <<< 7)%2^bits+(byte &&& 0x7f))%2^bits=shiftIn bits word byte := by
      rw [shiftIn_eq hbits,and_0x7f,shiftLeft_eq,mod_add_mod]
    rw [decodeUint,decodeLoop,hstep,ih]

theorem foldl_shiftIn (hbits : 7 ≤ bits) {word : ℕ} {value : ℤ}
    (hword : (word : ℤ) ≡ value [ZMOD 2^bits]) {digits : List ℕ}
    (hlt : ∀ digit∈digits,digit < 128) :
    ((digits.foldl (shiftIn bits) word : ℕ) : ℤ) ≡ valueFrom value digits [ZMOD 2^bits] := by
  induction digits generalizing word value with
  | nil => exact hword
  | cons digit digits ih =>
    refine @ih _ (value*128+digit) ?_ fun d hd => hlt d (mem_cons_of_mem _ hd)
    rw [shiftIn_eq hbits,mod_eq_of_lt (hlt digit mem_cons_self)]
    push_cast
    exact (Int.mod_modEq _ _).trans ((hword.mul_right 128).add_right digit)

theorem foldl_shiftIn_lt (hbits : 7 ≤ bits) {word : ℕ} {digits : List ℕ} (hne : digits≠[]) :
    digits.foldl (shiftIn bits) word < 2^bits := by
  rw [←dropLast_concat_getLast hne,foldl_append,foldl_cons,foldl_nil,shiftIn_eq hbits]
  exact Nat.mod_lt _ (Nat.two_pow_pos _)

theorem continueBytes_head (digit : ℕ) (digits rest : List ℕ) :
    ∃ byte bytes,VarUint.continueBytes (digit::digits)++rest=byte::bytes∧
      signBit byte=signBit digit := by
  cases digits with
  | nil => exact ⟨digit,rest,rfl,rfl⟩
  | cons next digits =>
    refine ⟨128+digit,_,rfl,?_⟩
    rw [signBit_eq,signBit_eq,add_mod_left]

/-- The bytes of digits are bytes. -/
theorem continueBytes_lt {digits : List ℕ} (hlt : ∀ digit∈digits,digit < 128) :
    ∀ byte∈VarUint.continueBytes digits,byte < 256 := by
  induction digits with
  | nil => intro byte h; exact absurd h not_mem_nil
  | cons digit digits ih =>
    have hdigit : digit < 128 := hlt digit mem_cons_self
    cases digits with
    | nil =>
      simp only [VarUint.continueBytes,mem_singleton,forall_eq]
      omega
    | cons next digits =>
      intro byte hbyte
      rw [VarUint.continueBytes,mem_cons] at hbyte
      obtain rfl | hbyte := hbyte
      · omega
      · exact ih (fun d hd => hlt d (mem_cons_of_mem _ hd)) byte hbyte

end Decoding

section RoundTrip

variable {bits : ℕ}

theorem bits_le (hbits : 0 < bits) : ∃ room,bytesForInt bits=room+1∧bits ≤ 7*(room+1) := by
  refine ⟨bytesForInt bits-1,?_⟩
  rw [bytesForInt]
  omega

/-- The digits of a word fit the buffer. -/
theorem uintDigits_word (hbits : 0 < bits) {val : ℕ} (hval : val < 2^bits) :
    ∃ digits,uintDigits (bytesForInt bits) val []=some digits∧digits≠[]∧
      (∀ digit∈digits,digit < 128)∧valueFrom 0 digits=val := by
  obtain ⟨room,hroom,hle⟩ := bits_le hbits
  have hfits : val < 128^(room+1) := by
    rw [show 128=2^7 from rfl,←pow_mul]
    exact Nat.lt_of_lt_of_le hval (Nat.pow_le_pow_right (by decide) hle)
  obtain ⟨digits,hdigits,hrest⟩ := uintDigits_eq hfits []
  rw [append_nil] at hdigits
  exact ⟨digits,hroom ▸ hdigits,hrest⟩

/-- An unsigned word is read as it was written, with the bytes behind it left. -/
theorem uint_roundTrip (hbits : 8 ≤ bits) {val : ℕ} (hval : val < 2^bits) :
    ∃ code,emitWriteUint bits val=some code∧(∀ byte∈code,byte < 256)∧∀ rest,
      mpDecodeUint bits (code++rest)=some (val,rest)∧
      decodeUint bits 0 (code++rest)=some (val,rest) := by
  obtain ⟨digits,hdigits,hne,hlt,hvalue⟩ :=
    uintDigits_word (Nat.lt_of_lt_of_le (by decide) hbits) hval
  refine ⟨VarUint.continueBytes digits,?_,continueBytes_lt hlt,fun rest => ?_⟩
  · rw [emitWriteUint,hdigits]
    rfl
  · have hmod := @foldl_shiftIn bits (by omega) 0 0 (Int.ModEq.refl 0) digits hlt
    have hword : digits.foldl (shiftIn bits) 0=val := by
      have hpow : (2 : ℤ)^bits=((2^bits : ℕ) : ℤ) := by push_cast; rfl
      rw [hvalue,hpow] at hmod
      have hnat := Int.natCast_modEq_iff.mp hmod
      rwa [Nat.ModEq,mod_eq_of_lt (foldl_shiftIn_lt (by omega) hne),mod_eq_of_lt hval] at hnat
    rw [decodeUint_eq (by omega),mpDecodeUint,decodeLoop_continueBytes 0 hne hlt,hword]
    exact ⟨rfl,rfl⟩

/-- So is a small integer. -/
theorem int_roundTrip (hbits : 8 ≤ bits) (b1 : ℕ) {num : ℤ} (hnum : IsSmallInt bits num) :
    ∃ code,emitWriteBytecodeByteInt bits b1 num=some (b1::code)∧(∀ byte∈code,byte < 256)∧
      ∀ rest,loadConstSmallInt bits (code++rest)=some (num,rest) := by
  obtain ⟨room,hroom,hle⟩ := bits_le (Nat.lt_of_lt_of_le (by decide) hbits)
  have hpow : (2 : ℤ)^(bits-2) ≤ 64*128^room := by
    have hexp : 2^(bits-2) ≤ 2^(6+7*room) := Nat.pow_le_pow_right (by decide) (by omega)
    rw [Nat.pow_add,pow_mul] at hexp
    exact_mod_cast hexp
  obtain ⟨hlow,hhigh⟩ := hnum
  obtain ⟨left,sign,top,front,hdigits,hsign,hlt,hvalue,hfull⟩ :=
    @intDigits_eq room num (by omega) []
  rw [append_nil] at hdigits
  obtain ⟨high,digits,hsigned,hlt',hvalue'⟩ := signDigits_eq hsign hlt hfull
  refine ⟨VarUint.continueBytes (high::digits),?_,continueBytes_lt hlt',fun rest => ?_⟩
  · simp only [emitWriteBytecodeByteInt,hroom,hdigits,hsigned,bind,Option.bind]
  · obtain ⟨byte,bytes,hbytes,hbit⟩ :=
      continueBytes_head high digits rest
    have hdecode := @decodeLoop_continueBytes bits (if signBit high then 2^bits-1 else 0)
      (high::digits) (cons_ne_nil _ _) hlt' rest
    rw [hbytes] at hdecode ⊢
    have hstart : (((if signBit high then 2^bits-1 else 0 : ℕ)) : ℤ) ≡
        (if signBit high then -1 else 0) [ZMOD 2^bits] := by
      split
      · refine Int.modEq_iff_dvd.mpr ⟨-1,?_⟩
        rw [Nat.cast_sub (Nat.one_le_two_pow)]
        push_cast
        omega
      · exact Int.ModEq.refl 0
    have hmod := foldl_shiftIn (by omega) hstart hlt'
    rw [hvalue',hvalue] at hmod
    generalize (high::digits).foldl (shiftIn bits) _=word at hdecode hmod
    have hfits : (4 : ℤ)*2^(bits-2)=2^bits := by
      obtain ⟨n,rfl⟩ := Nat.exists_eq_add_of_le (Nat.le_trans (by decide : 2 ≤ 8) hbits)
      rw [Nat.add_sub_cancel_left,pow_add]
      rfl
    have hcast : ((2^bits : ℕ) : ℤ)=2^bits := by push_cast; rfl
    have hbmod : (word : ℤ).bmod (2^bits)=num := by
      rw [←Int.emod_bmod,hcast,hmod,←hcast,Int.emod_bmod]
      exact Int.bmod_eq_of_le_mul_two (by omega) (by omega)
    rw [loadConstSmallInt,hbit,hdecode]
    simp only [Option.map_some,hbmod]

/-- Every word and every small integer that is written as an operand is read again, and the
bytes behind it are left. -/
theorem operands_roundTrip (hbits : 8 ≤ bits) (b1 : ℕ) {val : ℕ} (hval : val < 2^bits) {num : ℤ}
    (hnum : IsSmallInt bits num) :
    (∃ code,emitWriteUint bits val=some code∧(∀ byte∈code,byte < 256)∧∀ rest,
      mpDecodeUint bits (code++rest)=some (val,rest)∧
      decodeUint bits 0 (code++rest)=some (val,rest))∧
    ∃ code,emitWriteBytecodeByteInt bits b1 num=some (b1::code)∧(∀ byte∈code,byte < 256)∧
      ∀ rest,loadConstSmallInt bits (code++rest)=some (num,rest) :=
  ⟨uint_roundTrip hbits hval,int_roundTrip hbits b1 hnum⟩

/-- The operands of a 32-bit machine: its largest word and its smallest small integer. -/
theorem operands_roundTrip_32 :
    (∃ code,emitWriteUint 32 4294967295=some code∧(∀ byte∈code,byte < 256)∧∀ rest,
      mpDecodeUint 32 (code++rest)=some (4294967295,rest)∧
      decodeUint 32 0 (code++rest)=some (4294967295,rest))∧
    ∃ code,emitWriteBytecodeByteInt 32 0x14 (-1073741824)=some (0x14::code)∧
      (∀ byte∈code,byte < 256)∧
      ∀ rest,loadConstSmallInt 32 (code++rest)=some (-1073741824,rest) :=
  operands_roundTrip (by decide) 0x14 (by decide) ⟨by decide,by decide⟩

end RoundTrip

section Buffer

/-- The digits in a buffer that is large enough are those without a buffer. -/
theorem uintDigits_emitDigits {room val : ℕ} {digits stored : List ℕ}
    (h : uintDigits room val digits=some stored) {fuel : ℕ} (hfuel : val/128 ≤ fuel) :
    VarUint.emitDigits fuel (val/128) (val%128::digits)=stored := by
  induction room generalizing val digits fuel with
  | zero => cases h
  | succ room ih =>
    rw [uintDigits] at h
    by_cases hmore : val/128≠0
    · rw [if_pos hmore] at h
      obtain ⟨fuel,rfl⟩ := exists_eq_succ_of_ne_zero (show fuel≠0 by omega)
      rw [VarUint.emitDigits,if_neg hmore]
      exact ih h (by omega)
    · rw [if_neg hmore,Option.some_inj] at h
      have hzero : val/128=0 := by omega
      rw [hzero]
      cases fuel <;> exact h

/-- The operand of a word is the one that is written without a buffer. -/
theorem emitWriteUint_eq {bits val : ℕ} (hbits : 0 < bits) (hval : val < 2^bits) :
    emitWriteUint bits val=some (VarUint.emitWriteUint val) := by
  obtain ⟨digits,hdigits,-⟩ := uintDigits_word hbits hval
  have hsame := uintDigits_emitDigits hdigits (div_le_self val 128)
  rw [emitWriteUint,hdigits,VarUint.emitWriteUint,hsame]
  rfl

end Buffer

end MicroPython.VarInt
