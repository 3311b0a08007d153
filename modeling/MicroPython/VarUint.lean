import Mathlib.Data.Nat.Init
import Mathlib.Tactic.Common

/-!
# Variable-length unsigned integers of the bytecode

Counts and sizes are stored as base-128 digits, most significant first, with
the high bit set on every byte but the last. The writers of the bytecode and
of the `.mpy` file produce the same bytes, and the readers give the number
back together with the bytes after it. Bytes are naturals below 256.
-/

namespace MicroPython.VarUint

open List

/-- Digits above the last one, pushed in front of the bytes already written,
each with its continuation bit. The fuel bounds the number of digits. -/
def printUintLoop : ℕ→ℕ→List ℕ→List ℕ
  | 0,_,bytes => bytes
  | fuel+1,n,bytes =>
    if n=0 then bytes else printUintLoop fuel (n/128) ((128+n%128)::bytes)

/-- `mp_print_uint`: the last digit is written first, without the bit. -/
def mpPrintUint (n : ℕ) : List ℕ := printUintLoop n (n/128) [n%128]

/-- The plain digits that `emit_write_uint` collects in its buffer. -/
def emitDigits : ℕ→ℕ→List ℕ→List ℕ
  | 0,_,digits => digits
  | fuel+1,val,digits =>
    if val=0 then digits else emitDigits fuel (val/128) (val%128::digits)

/-- Copy of the buffer into the code, with the bit on all digits but the last. -/
def continueBytes : List ℕ→List ℕ
  | [] => []
  | [digit] => [digit]
  | digit::next::digits => (128+digit)::continueBytes (next::digits)

/-- `emit_write_uint`: collect the digits, then copy them out. -/
def emitWriteUint (val : ℕ) : List ℕ := continueBytes (emitDigits val (val/128) [val%128])

/-- `mp_decode_uint` from an accumulated value: the number and the bytes that
follow it, or nothing when the bytes end inside the number. -/
def decodeUintFrom (unum : ℕ) : List ℕ→Option (ℕ×List ℕ)
  | [] => none
  | byte::bytes =>
    if 128≤byte then decodeUintFrom (unum*128+byte%128) bytes
    else some (unum*128+byte%128,bytes)

/-- `mp_decode_uint` at the start of some bytes. -/
def mpDecodeUint (bytes : List ℕ) : Option (ℕ×List ℕ) := decodeUintFrom 0 bytes

/-- `mp_decode_uint_skip`: the bytes after the number. -/
def mpDecodeUintSkip : List ℕ→Option (List ℕ)
  | [] => none
  | byte::bytes => if 128≤byte then mpDecodeUintSkip bytes else some bytes

/-- Reading the digits above the last one accumulates their value. -/
theorem printUintLoop_decode (fuel : ℕ) :
    ∀ n≤fuel,∀ bytes,∃ front,(∀ byte∈front,byte<256) ∧ printUintLoop fuel n bytes=front++bytes ∧
      ∀ rest,decodeUintFrom 0 (front++rest)=decodeUintFrom n rest := by
  induction fuel with
  | zero =>
    intro n hn bytes
    obtain rfl : n=0 := by omega
    exact ⟨[],by simp,rfl,fun rest => rfl⟩
  | succ fuel ih =>
    intro n hn bytes
    by_cases h0 : n=0
    · subst h0
      exact ⟨[],by simp,rfl,fun rest => rfl⟩
    · obtain ⟨front,hbyte,hloop,hdecode⟩ := ih (n/128) (by omega) ((128+n%128)::bytes)
      refine ⟨front++[128+n%128],?_,?_,fun rest => ?_⟩
      · intro byte hb
        rcases mem_append.mp hb with hf | hl
        · exact hbyte byte hf
        · rw [mem_singleton.mp hl]
          omega
      · rw [printUintLoop,if_neg h0,hloop]
        simp
      · have hdigit : n/128*128+(128+n%128)%128=n := by omega
        rw [append_assoc,hdecode]
        simp only [cons_append,nil_append,decodeUintFrom]
        rw [if_pos (by omega),hdigit]

/-- The reader gives back the number and the bytes after it. -/
theorem mpDecodeUint_mpPrintUint (n : ℕ) (rest : List ℕ) :
    mpDecodeUint (mpPrintUint n++rest)=some (n,rest) := by
  obtain ⟨front,_,hloop,hdecode⟩ := printUintLoop_decode n (n/128) (by omega) [n%128]
  have hdigit : n/128*128+n%128%128=n := by omega
  rw [mpDecodeUint,mpPrintUint,hloop,append_assoc,hdecode]
  simp only [cons_append,nil_append,decodeUintFrom]
  rw [if_neg (by omega),hdigit]

/-- Skipping a number stops where reading it stops. -/
theorem mpDecodeUintSkip_eq (unum : ℕ) (bytes : List ℕ) :
    mpDecodeUintSkip bytes=(decodeUintFrom unum bytes).map Prod.snd := by
  induction bytes generalizing unum with
  | nil => rfl
  | cons byte bytes ih =>
    simp only [mpDecodeUintSkip,decodeUintFrom]
    by_cases hc : 128≤byte
    · rw [if_pos hc,if_pos hc,ih]
    · rw [if_neg hc,if_neg hc]
      rfl

/-- The continuation bits put on afterwards are those put on at once. -/
theorem continueBytes_emitDigits (fuel : ℕ) (val : ℕ) (digits : List ℕ) (hne : digits≠[]) :
    continueBytes (emitDigits fuel val digits)=printUintLoop fuel val (continueBytes digits) := by
  induction fuel generalizing val digits with
  | zero => rfl
  | succ fuel ih =>
    by_cases h0 : val=0
    · rw [emitDigits,if_pos h0,printUintLoop,if_pos h0]
    · rw [emitDigits,if_neg h0,printUintLoop,if_neg h0,ih _ _ (cons_ne_nil _ _)]
      obtain ⟨digit,rest,rfl⟩ := exists_cons_of_ne_nil hne
      rfl

theorem emitWriteUint_eq_mpPrintUint (val : ℕ) : emitWriteUint val=mpPrintUint val := by
  rw [emitWriteUint,continueBytes_emitDigits _ _ _ (cons_ne_nil _ _)]
  rfl

end MicroPython.VarUint
