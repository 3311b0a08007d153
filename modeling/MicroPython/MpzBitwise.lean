import MicroPython.TwosComplement
import MicroPython.MpzArith

/-!
# Bitwise operations

The digits of a negative integer are turned into its two's complement while they are
read, and a negative result is turned back while it is written. The signs that decide
this are the stored ones.
-/

namespace MicroPython.MpzBitwise

open Nat Function Positional TwosComplement MpzDigits MpzArith

/-- A digit of both operands combined, as in `mpn_and`, `mpn_or` and `mpn_xor`. -/
def pairDigit (combine : ℕ→ℕ→ℕ) (jdig kdig : Source) (st : Store) (t : ℕ) (s : Unit) :
    Except Fault (ℕ×Unit) := do
  let j ← readDig st jdig t
  let k ← readDig st kdig t
  .ok (combine j k,s)

/-- `mpn_and`. -/
def mpnAnd (st : Store) (i : ℕ) (jdig kdig : Source) (klen : ℕ) : Except Fault (ℕ×Store) := do
  let r ← digitLoop i (pairDigit (fun j k => j&&&k) jdig kdig) klen 0 () st
  let len ← mpnRemoveTrailingZeros r.2 i klen
  .ok (len,r.2)

/-- A digit of the longer operand alone. -/
def copyDigit (jdig : Source) (st : Store) (t : ℕ) (s : Unit) : Except Fault (ℕ×Unit) := do
  let j ← readDig st jdig t
  .ok (j,s)

/-- `mpn_or`. -/
def mpnOr (st : Store) (i : ℕ) (jdig : Source) (jlen : ℕ) (kdig : Source) (klen : ℕ) :
    Except Fault (ℕ×Store) := do
  let both ← digitLoop i (pairDigit (fun j k => j|||k) jdig kdig) klen 0 () st
  let rest ← digitLoop i (copyDigit jdig) (jlen-klen) klen () both.2
  .ok (klen+(jlen-klen),rest.2)

/-- `mpn_xor`. -/
def mpnXor (st : Store) (i : ℕ) (jdig : Source) (jlen : ℕ) (kdig : Source) (klen : ℕ) :
    Except Fault (ℕ×Store) := do
  let both ← digitLoop i (pairDigit (fun j k => j^^^k) jdig kdig) klen 0 () st
  let rest ← digitLoop i (copyDigit jdig) (jlen-klen) klen () both.2
  let len ← mpnRemoveTrailingZeros rest.2 i (klen+(jlen-klen))
  .ok (len,rest.2)

/-- The carries and the lengths in the loops for negative operands. -/
structure NegState where
  carryi : ℕ
  /-- The carry of the first operand. -/
  carryj : ℕ
  /-- The carry of the second operand. -/
  carryk : ℕ
  /-- The digits of the first operand that are left. -/
  jlen : ℕ
  /-- The digits of the second operand that are left, wrapping below zero. -/
  klen : ℕ

/-- The body that `mpn_and_neg`, `mpn_or_neg` and `mpn_xor_neg` share: what is added to the
carries of the operands, what is added past the digits of the second one and how the
carries are combined. -/
def negDigit (w : DigSize) (jterm kterm : ℕ→ℕ) (krest : ℕ) (combine : ℕ→ℕ→ℕ)
    (jdig kdig : Source) (st : Store) (t : ℕ) (s : NegState) : Except Fault (ℕ×NegState) := do
  let j ← readDig st jdig t
  let carryj := w.dbl (s.carryj+jterm j)
  let klen := w.pred s.klen
  let jlen := w.pred s.jlen
  let k ← (if klen ≤ jlen then (readDig st kdig t).map kterm else .ok krest)
  let carryk := w.dbl (s.carryk+k)
  let carryi := w.dbl (s.carryi+(combine carryj carryk&&&w.digMask))
  .ok (carryi&&&w.digMask,⟨carryi>>>w.size,carryj>>>w.size,carryk>>>w.size,jlen,klen⟩)

/-- The mask that goes with a carry. -/
def DigSize.mask (w : DigSize) (carry : ℕ) : ℕ := if carry=0 then 0 else w.digMask

/-- `mpn_and_neg`. -/
def mpnAndNeg (w : DigSize) (st : Store) (i : ℕ) (jdig : Source) (jlen : ℕ) (kdig : Source)
    (klen carryi carryj carryk : ℕ) : Except Fault (ℕ×Store) := do
  let imask := DigSize.mask w carryi
  let jmask := DigSize.mask w carryj
  let kmask := DigSize.mask w carryk
  let r ← digitLoop i (negDigit w (fun j => j^^^jmask) (fun k => k^^^kmask) kmask
    (fun j k => (j&&&k)^^^imask) jdig kdig) jlen 0 ⟨carryi,carryj,carryk,jlen,klen⟩ st
  let r ← storeCarry r.2 i jlen r.1.carryi
  let len ← mpnRemoveTrailingZeros r.2 i r.1
  .ok (len,r.2)

/-- `mpn_or_neg`, which asserts that nothing is carried out of the result. -/
def mpnOrNeg (w : DigSize) (st : Store) (i : ℕ) (jdig : Source) (jlen : ℕ) (kdig : Source)
    (klen carryj carryk : ℕ) : Except Fault (ℕ×Store) := do
  let jmask := DigSize.mask w carryj
  let kmask := DigSize.mask w carryk
  let r ← digitLoop i (negDigit w (fun j => j^^^jmask) (fun k => k^^^kmask) kmask
    (fun j k => (j|||k)^^^w.digMask) jdig kdig) jlen 0 ⟨1,carryj,carryk,jlen,klen⟩ st
  if r.1.carryi=0 then do
    let len ← mpnRemoveTrailingZeros r.2 i jlen
    .ok (len,r.2)
  else .error .assertion

/-- `mpn_xor_neg`. -/
def mpnXorNeg (w : DigSize) (st : Store) (i : ℕ) (jdig : Source) (jlen : ℕ) (kdig : Source)
    (klen carryi carryj carryk : ℕ) : Except Fault (ℕ×Store) := do
  let r ← digitLoop i (negDigit w (fun j => j+w.digMask) (fun k => k+w.digMask) w.digMask
    (fun j k => j^^^k) jdig kdig) jlen 0 ⟨carryi,carryj,carryk,jlen,klen⟩ st
  let r ← storeCarry r.2 i jlen r.1.carryi
  let len ← mpnRemoveTrailingZeros r.2 i r.1
  .ok (len,r.2)

/-- The operand with the most digits comes first. -/
def mostDigits (st : Store) (lhs rhs : ℕ) : ℕ×ℕ :=
  if (st lhs).len<(st rhs).len then (rhs,lhs) else (lhs,rhs)

/-- `mpz_and_inpl` after its operands are in order. -/
def andInplOrdered (w : DigSize) (st : Store) (dest lhs rhs : ℕ) : Except Fault Store :=
  if (st lhs).neg=false∧(st rhs).neg=false then do
    let st ← mpzNeedDig st dest (st lhs).len
    let r ← mpnAnd st dest (.object lhs) (.object rhs) (st rhs).len
    .ok (setNeg (setLen r.2 dest r.1) dest false)
  else do
    let st ← mpzNeedDig st dest ((st lhs).len+1)
    let r ← mpnAndNeg w st dest (.object lhs) (st lhs).len (.object rhs) (st rhs).len
      ((st lhs).neg==(st rhs).neg).toNat (st lhs).neg.toNat (st rhs).neg.toNat
    let st := setLen r.2 dest r.1
    .ok (setNeg st dest ((st lhs).neg&&(st rhs).neg))

/-- `mpz_and_inpl`. -/
def mpzAndInpl (w : DigSize) (st : Store) (dest lhs rhs : ℕ) : Except Fault Store :=
  andInplOrdered w st dest (mostDigits st lhs rhs).1 (mostDigits st lhs rhs).2

/-- `mpz_or_inpl` after its operands are in order. -/
def orInplOrdered (w : DigSize) (st : Store) (dest lhs rhs : ℕ) : Except Fault Store :=
  if (st lhs).neg=false∧(st rhs).neg=false then do
    let st ← mpzNeedDig st dest (st lhs).len
    let r ← mpnOr st dest (.object lhs) (st lhs).len (.object rhs) (st rhs).len
    .ok (setNeg (setLen r.2 dest r.1) dest false)
  else do
    let st ← mpzNeedDig st dest ((st lhs).len+1)
    let r ← mpnOrNeg w st dest (.object lhs) (st lhs).len (.object rhs) (st rhs).len
      (st lhs).neg.toNat (st rhs).neg.toNat
    .ok (setNeg (setLen r.2 dest r.1) dest true)

/-- `mpz_or_inpl`. -/
def mpzOrInpl (w : DigSize) (st : Store) (dest lhs rhs : ℕ) : Except Fault Store :=
  orInplOrdered w st dest (mostDigits st lhs rhs).1 (mostDigits st lhs rhs).2

/-- `mpz_xor_inpl` after its operands are in order. -/
def xorInplOrdered (w : DigSize) (st : Store) (dest lhs rhs : ℕ) : Except Fault Store :=
  if (st lhs).neg=(st rhs).neg then do
    let st ← mpzNeedDig st dest (st lhs).len
    let r ← (if (st lhs).neg=false then
        mpnXor st dest (.object lhs) (st lhs).len (.object rhs) (st rhs).len
      else mpnXorNeg w st dest (.object lhs) (st lhs).len (.object rhs) (st rhs).len 0 0 0)
    .ok (setNeg (setLen r.2 dest r.1) dest false)
  else do
    let st ← mpzNeedDig st dest ((st lhs).len+1)
    let r ← mpnXorNeg w st dest (.object lhs) (st lhs).len (.object rhs) (st rhs).len 1
      (!(st lhs).neg).toNat (!(st rhs).neg).toNat
    .ok (setNeg (setLen r.2 dest r.1) dest true)

/-- `mpz_xor_inpl`. -/
def mpzXorInpl (w : DigSize) (st : Store) (dest lhs rhs : ℕ) : Except Fault Store :=
  xorInplOrdered w st dest (mostDigits st lhs rhs).1 (mostDigits st lhs rhs).2

/-- The local digit `k` of `mpz_not_inpl`. -/
def oneDig : Source := .separate
  { neg := false
    fixedDig := true
    alloc := 1
    len := 1
    dig := fun _ => 1 }

/-- `mpz_not_inpl` once the destination is a copy of the operand. -/
def notInplCopied (w : DigSize) (st : Store) (dest : ℕ) : Except Fault Store :=
  if (st dest).len=0 then do
    let st ← mpzNeedDig st dest 1
    let st ← writeDig st dest 0 1
    .ok (setNeg (setLen st dest 1) dest true)
  else if (st dest).neg then do
    let st := setNeg st dest false
    let r ← mpnSub w st dest (.object dest) (st dest).len oneDig 1
    .ok (setLen r.2 dest r.1)
  else do
    let st ← mpzNeedDig st dest ((st dest).len+1)
    let r ← mpnAdd w st dest (.object dest) (st dest).len oneDig 1
    .ok (setNeg (setLen r.2 dest r.1) dest true)

/-- `mpz_not_inpl`. -/
def mpzNotInpl (w : DigSize) (st : Store) (dest z : ℕ) : Except Fault Store := do
  let st ← (if dest≠z then mpzSet st dest z else .ok st)
  notInplCopied w st dest

section Loop

variable {w : DigSize} {st : Store} {i : ℕ} {jdig kdig : Source}

/-- A `size_t` that is not zero is decremented. -/
theorem pred_of_pos {x : ℕ} (hpos : 0<x) (hx : x<2^w.sizeBits) : w.pred x=x-1 := by
  have hsplit : x+2^w.sizeBits-1=x-1+2^w.sizeBits := by omega
  rw [DigSize.pred,hsplit,add_mod_right,mod_eq_of_lt (by omega)]

/-- A `size_t` that is zero wraps. -/
theorem pred_zero : w.pred 0=2^w.sizeBits-1 := by
  have hpow := Nat.two_pow_pos w.sizeBits
  rw [DigSize.pred,zero_add,mod_eq_of_lt (by omega)]

/-- A `size_t` decremented again and again. -/
theorem pred_iterate {x : ℕ} (hx : x<2^w.sizeBits) {t : ℕ} (ht : t<2^w.sizeBits) :
    w.pred^[t] x=if t ≤ x then x-t else x+2^w.sizeBits-t := by
  induction t with
  | zero => rw [if_pos (Nat.zero_le x),Nat.sub_zero,iterate_zero,id]
  | succ t ih =>
    rw [iterate_succ_apply',ih (lt_of_succ_lt ht)]
    rcases lt_trichotomy t x with hlt | heq | hgt
    · rw [if_pos (le_of_lt hlt),if_pos (succ_le_of_lt hlt),pred_of_pos (by omega) (by omega)]
      omega
    · rw [if_pos (by omega),if_neg (by omega),heq,Nat.sub_self,pred_zero]
      omega
    · rw [if_neg (by omega),if_neg (by omega),pred_of_pos (by omega) (by omega)]
      omega

theorem pred_le_pred_iff {jlen klen t : ℕ} (hlen : klen ≤ jlen) (hj : jlen<2^w.sizeBits)
    (ht : t<jlen) : w.pred^[t+1] klen ≤ w.pred^[t+1] jlen↔t<klen := by
  rw [pred_iterate (by omega) (by omega),pred_iterate hj (by omega),if_pos (succ_le_of_lt ht)]
  split <;> omega

variable (w st jdig kdig) (jterm kterm : ℕ→ℕ) (krest : ℕ) (combine : ℕ→ℕ→ℕ)
  (carryi carryj carryk : ℕ)

/-- What the first operand adds to its carry. -/
def jAt (t : ℕ) : ℕ := jterm ((jdig.mpz st).dig t)

/-- What the second operand adds to its carry. -/
def kAt (t : ℕ) : ℕ :=
  if t<(kdig.mpz st).len then kterm ((kdig.mpz st).dig t) else krest

/-- What is added to the carry of the result. -/
def combinedAt (t : ℕ) : ℕ :=
  combine (carry w.base (jAt st jdig jterm) carryj t+jAt st jdig jterm t)
    (carry w.base (kAt st kdig kterm krest) carryk t+kAt st kdig kterm krest t)&&&w.digMask

/-- The carries and the lengths at a place. -/
def negStateAt (t : ℕ) : NegState where
  carryi := carry w.base
    (combinedAt w st jdig kdig jterm kterm krest combine carryj carryk) carryi t
  carryj := carry w.base (jAt st jdig jterm) carryj t
  carryk := carry w.base (kAt st kdig kterm krest) carryk t
  jlen := w.pred^[t] (jdig.mpz st).len
  klen := w.pred^[t] (kdig.mpz st).len

variable {w st jdig kdig jterm kterm krest combine carryi carryj carryk}

theorem carry_lt_two {s : ℕ→ℕ} {c n : ℕ} (hc : c<2) (hs : ∀ t<n,s t+2 ≤ 2*w.base) :
    ∀ t ≤ n,carry w.base s c t<2 := by
  refine carry_lt hc (fun t ht x hx => ?_)
  have hplace := hs t ht
  omega

/-- The loop for negative operands. -/
theorem negLoop_eq (hj : Normal w (jdig.mpz st)) (hk : Normal w (kdig.mpz st))
    (hlen : (kdig.mpz st).len ≤ (jdig.mpz st).len) (hsize : (jdig.mpz st).len<2^w.sizeBits)
    (halloc : (jdig.mpz st).len ≤ (st i).alloc) (hci : carryi<2) (hcj : carryj<2)
    (hck : carryk<2) (hjt : ∀ x<w.base,jterm x+2 ≤ 2*w.base)
    (hkt : ∀ x<w.base,kterm x+2 ≤ 2*w.base) (hkr : krest+2 ≤ 2*w.base) :
    digitLoop i (negDigit w jterm kterm krest combine jdig kdig) (jdig.mpz st).len 0
      ⟨carryi,carryj,carryk,(jdig.mpz st).len,(kdig.mpz st).len⟩ st=
      .ok (negStateAt w st jdig kdig jterm kterm krest combine carryi carryj carryk
          (jdig.mpz st).len,
        written st i (jdig.mpz st).len (carryDigit w.base
          (combinedAt w st jdig kdig jterm kterm krest combine carryj carryk) carryi)) := by
  have hroom := w.two_mul_base_le
  have hcarryj := carry_lt_two (w := w) (s := jAt st jdig jterm) hcj
    (fun t ht => hjt _ (hj.lt t ht))
  have hsumk : ∀ t,kAt st kdig kterm krest t+2 ≤ 2*w.base := by
    intro t
    rw [kAt]
    split
    case isTrue h => exact hkt _ (hk.lt t h)
    · exact hkr
  have hcarryk := carry_lt_two (w := w) (n := (jdig.mpz st).len) hck (fun t _ => hsumk t)
  have hmask : ∀ x,x&&&w.digMask=x%w.base := fun x => and_two_pow_sub_one_eq_mod x w.size
  have hshift : ∀ x,x>>>w.size=x/w.base := fun x => shiftRight_eq_div_pow x w.size
  have hcombined : ∀ t,combinedAt w st jdig kdig jterm kterm krest combine carryj carryk t<
      w.base := by
    intro t
    rw [combinedAt,hmask]
    exact Nat.mod_lt _ (by omega)
  have hcarryi := carry_lt_two (w := w) (n := (jdig.mpz st).len) hci
    (fun t _ => (by have := hcombined t; omega :
      combinedAt w st jdig kdig jterm kterm krest combine carryj carryk t+2 ≤ 2*w.base))
  have hloop := @digitLoop_written _ st i (negDigit w jterm kterm krest combine jdig kdig)
    (carryDigit w.base (combinedAt w st jdig kdig jterm kterm krest combine carryj carryk) carryi)
    (negStateAt w st jdig kdig jterm kterm krest combine carryi carryj carryk)
    (jdig.mpz st).len 0 (fun t _ ht => ?_) (by omega)
  · rw [written_zero,zero_add] at hloop
    exact hloop
  · rw [zero_add] at ht
    have hjalloc := hj.alloc
    have hkalloc := hk.alloc
    have hcj := hcarryj t (by omega)
    have hck := hcarryk t (by omega)
    have hci := hcarryi t (by omega)
    have hsumj : jAt st jdig jterm t+2 ≤ 2*w.base := hjt _ (hj.lt t ht)
    have hsumkt := hsumk t
    have hcomb := hcombined t
    have hread : (if w.pred^[t+1] (kdig.mpz st).len ≤ w.pred^[t+1] (jdig.mpz st).len then
        (readDig (written st i t (carryDigit w.base
          (combinedAt w st jdig kdig jterm kterm krest combine carryj carryk) carryi))
          kdig t).map kterm
        else .ok krest)=.ok (kAt st kdig kterm krest t) := by
      rw [kAt]
      by_cases hkl : t<(kdig.mpz st).len
      · rw [if_pos ((pred_le_pred_iff hlen hsize ht).mpr hkl),if_pos hkl,
          readDig_written (le_refl t) (by omega)]
        rfl
      · rw [if_neg (fun h => hkl ((pred_le_pred_iff hlen hsize ht).mp h)),if_neg hkl]
    have hjdbl : w.dbl ((negStateAt w st jdig kdig jterm kterm krest combine carryi carryj
        carryk t).carryj+jterm ((jdig.mpz st).dig t))=
        carry w.base (jAt st jdig jterm) carryj t+jAt st jdig jterm t :=
      w.dbl_of_lt (by change carry w.base (jAt st jdig jterm) carryj t+jAt st jdig jterm t<_; omega)
    have hkdbl : w.dbl ((negStateAt w st jdig kdig jterm kterm krest combine carryi carryj
        carryk t).carryk+kAt st kdig kterm krest t)=
        carry w.base (kAt st kdig kterm krest) carryk t+kAt st kdig kterm krest t :=
      w.dbl_of_lt (by
        change carry w.base (kAt st kdig kterm krest) carryk t+kAt st kdig kterm krest t<_
        omega)
    have hidbl : w.dbl ((negStateAt w st jdig kdig jterm kterm krest combine carryi carryj
        carryk t).carryi+combinedAt w st jdig kdig jterm kterm krest combine carryj carryk t)=
        carry w.base (combinedAt w st jdig kdig jterm kterm krest combine carryj carryk) carryi
          t+combinedAt w st jdig kdig jterm kterm krest combine carryj carryk t :=
      w.dbl_of_lt (by
        change carry w.base (combinedAt w st jdig kdig jterm kterm krest combine carryj carryk)
          carryi t+combinedAt w st jdig kdig jterm kterm krest combine carryj carryk t<_
        omega)
    rw [negDigit,bind_ok _ (readDig_written (le_refl t) (by omega))]
    dsimp only
    have hpredk : w.pred (negStateAt w st jdig kdig jterm kterm krest combine carryi carryj
        carryk t).klen=w.pred^[t+1] (kdig.mpz st).len :=
      (iterate_succ_apply' ..).symm
    have hpredj : w.pred (negStateAt w st jdig kdig jterm kterm krest combine carryi carryj
        carryk t).jlen=w.pred^[t+1] (jdig.mpz st).len :=
      (iterate_succ_apply' ..).symm
    have hfold : combine (carry w.base (jAt st jdig jterm) carryj t+jAt st jdig jterm t)
        (carry w.base (kAt st kdig kterm krest) carryk t+kAt st kdig kterm krest t)&&&
        w.digMask=combinedAt w st jdig kdig jterm kterm krest combine carryj carryk t := rfl
    rw [hpredk,hpredj,bind_ok _ hread,hjdbl,hkdbl,hfold,hidbl,hmask,hshift,hshift,hshift]
    rfl

end Loop

section Reading

variable {w : DigSize} {z : Mpz}

theorem base_pow (w : DigSize) (n : ℕ) : w.base^n=2^(w.size*n) := (pow_mul 2 w.size n).symm

/-- A digit masked is completed to the largest one, or stays as it is. -/
theorem xor_mask (neg : Bool) {x : ℕ} (hx : x<w.base) :
    x^^^DigSize.mask w neg.toNat=if neg then w.base-1-x else x := by
  cases neg with
  | false => exact Nat.xor_zero x
  | true =>
    have hform : w.base-1-x=2^w.size-(x+1) := by rw [DigSize.base]; omega
    have hmask : DigSize.mask w true.toNat=2^w.size-1 := rfl
    rw [if_pos rfl,hform,hmask]
    refine eq_of_testBit_eq (fun i => ?_)
    rw [testBit_xor,testBit_two_pow_sub_one,testBit_two_pow_sub_succ hx]
    by_cases hi : i<w.size
    · simp only [hi,decide_true,Bool.true_and,Bool.xor_true]
    · have hbit := testBit_lt_two_pow (lt_of_lt_of_le hx
        (Nat.pow_le_pow_right (Nat.succ_pos 1) (Nat.not_lt.mp hi)))
      simp only [hi,decide_false,Bool.false_and,Bool.xor_false,hbit]

/-- What a loop of a conjunction or a disjunction adds to the carry of an operand. -/
def maskedAt (w : DigSize) (z : Mpz) (t : ℕ) : ℕ :=
  padded z.dig z.len t^^^DigSize.mask w z.neg.toNat

/-- What a loop of an exclusive disjunction adds to the carry of an operand. -/
def loweredAt (w : DigSize) (z : Mpz) (t : ℕ) : ℕ := padded z.dig z.len t+w.digMask

theorem padded_lt (h : Normal w z) (t : ℕ) : padded z.dig z.len t<w.base := by
  rw [padded]
  split
  case isTrue hlt => exact h.lt t hlt
  · exact w.base_pos

/-- The digits that a loop makes are the low bits of an integer that its terms come to. -/
theorem value_eq_low {s : ℕ→ℕ} {c n : ℕ} {v q : ℤ}
    (h : ((value w.base s n+c : ℕ) : ℤ)=v+(w.base^n : ℕ)*q) :
    value w.base (carryDigit w.base s c) n=low (w.size*n) v := by
  have hvalue := value_carryDigit w.base s c n
  have hlt : value w.base (carryDigit w.base s c) n<2^(w.size*n) := by
    rw [←base_pow]
    exact Positional.value_lt (fun t _ => carryDigit_lt _ _ _ w.base_pos t)
  have hcast : ((w.base^n : ℕ) : ℤ)=2^(w.size*n) := by
    rw [base_pow]
    push_cast
    rfl
  have hform : ((value w.base (carryDigit w.base s c) n : ℕ) : ℤ)=
      v+2^(w.size*n)*(q-carry w.base s c n) := by
    rw [hvalue,cast_add,cast_mul,hcast] at h
    linear_combination h
  exact (low_of_eq hlt hform).symm

/-- A conjunction or a disjunction reads the low bits of an operand. -/
theorem value_maskedAt (h : Normal w z) {n : ℕ} (hn : z.len ≤ n) :
    value w.base (carryDigit w.base (maskedAt w z) z.neg.toNat) n=low (w.size*n) (toInt w z) := by
  have hpadded : value w.base (padded z.dig z.len) n=mag w z := value_padded _ _ hn
  rw [toInt]
  cases hneg : z.neg with
  | false =>
    refine @value_eq_low w (maskedAt w z) 0 n _ 0 ?_
    have hterm : value w.base (maskedAt w z) n=mag w z := by
      rw [←hpadded]
      exact value_congr (fun t _ => by rw [maskedAt,xor_mask _ (padded_lt h t),hneg]; rfl)
    rw [hterm]
    simp only [Bool.false_eq_true,if_false,add_zero,Int.mul_zero,Int.add_zero]
  | true =>
    refine @value_eq_low w (maskedAt w z) 1 n _ 1 ?_
    have hcomplement := value_complement (fun t (_ : t<n) => padded_lt h t)
    have hterm : value w.base (maskedAt w z) n=
        value w.base (fun t => w.base-1-padded z.dig z.len t) n :=
      value_congr (fun t _ => by rw [maskedAt,xor_mask _ (padded_lt h t),hneg]; rfl)
    rw [hpadded,←hterm] at hcomplement
    rw [if_pos rfl,Int.mul_one]
    omega

/-- The integer whose low bits an exclusive disjunction reads. -/
def lowered (w : DigSize) (z : Mpz) : ℤ :=
  if z.neg then Int.lnot (toInt w z) else toInt w z

theorem lnot_eq (x : ℤ) : Int.lnot x=-x-1 := by
  cases x with
  | ofNat n =>
    rw [Int.lnot,Int.negSucc_eq,Int.ofNat_eq_natCast]
    omega
  | negSucc n =>
    rw [Int.lnot,Int.negSucc_eq]
    omega

/-- An exclusive disjunction reads the low bits of an operand or of its complement. -/
theorem value_loweredAt {n : ℕ} (hn : z.len ≤ n) :
    value w.base (carryDigit w.base (loweredAt w z) (!z.neg).toNat) n=
      low (w.size*n) (lowered w z) := by
  have hpadded : value w.base (padded z.dig z.len) n=mag w z := value_padded _ _ hn
  have hmask : w.digMask+1=w.base := Nat.sub_add_cancel (Nat.two_pow_pos w.size)
  have hones := value_add_one hmask n
  have hterm : value w.base (loweredAt w z) n=mag w z+value w.base (fun _ => w.digMask) n := by
    rw [←hpadded,←value_add]
    rfl
  refine @value_eq_low w (loweredAt w z) (!z.neg).toNat n _ 1 ?_
  rw [hterm,lowered,lnot_eq,toInt,Int.mul_one]
  cases z.neg <;> simp only [Bool.not_false,Bool.not_true,Bool.toNat_true,Bool.toNat_false,
    Bool.false_eq_true,if_false,if_true] <;> omega

/-- An integer is within the reach of the bits of its digits, and above the least of
them. -/
theorem toInt_bounds (h : Normal w z) {n : ℕ} (hn : z.len ≤ n) :
    -2^(w.size*n)<toInt w z∧toInt w z<2^(w.size*n) := by
  have hlt := h.digits.value_lt
  have hpow : w.base^z.len ≤ w.base^n :=
    Nat.pow_le_pow_right w.base_pos hn
  have hcast : ((w.base^n : ℕ) : ℤ)=2^(w.size*n) := by
    rw [base_pow]
    push_cast
    rfl
  rw [←hcast,toInt,mag]
  split <;> omega

end Reading

section Combining

variable {w : DigSize} {st : Store} {i : ℕ} {jdig kdig : Source}

/-- The magnitude that is left for an integer with a sign: the low bits, or their two's
complement. -/
def outcome (m : ℕ) (neg : Bool) (z : ℤ) : ℕ := if neg then 2^m-low m z else low m z

/-- Carries come from what is added below. -/
theorem carry_congr {B c : ℕ} {s s' : ℕ→ℕ} {n : ℕ} (h : ∀ t<n,s t=s' t) :
    ∀ t ≤ n,carry B s c t=carry B s' c t := by
  intro t
  induction t with
  | zero => exact fun _ => rfl
  | succ t ih =>
    intro ht
    rw [carry,carry,ih (le_of_lt ht),h t ht]

/-- The digits of combined double digits, masked. -/
theorem and_digMask_xor (b : Bitwise) (neg : Bool) (x y : ℕ) :
    (b.op x y^^^DigSize.mask w neg.toNat)&&&w.digMask=
      if neg then w.base-1-b.op (x%w.base) (y%w.base) else b.op (x%w.base) (y%w.base) := by
  have hpos := Nat.two_pow_pos w.size
  have hlt : b.op (x%w.base) (y%w.base)<w.base :=
    b.op_lt (Nat.mod_lt _ hpos) (Nat.mod_lt _ hpos)
  have hmask : DigSize.mask w neg.toNat<2^w.size := by
    cases neg with
    | false => exact hpos
    | true => exact sub_lt hpos one_pos
  have hxor := Bitwise.xor.op_mod (b.op x y) (DigSize.mask w neg.toNat) w.size
  rw [mod_eq_of_lt hmask,b.op_mod] at hxor
  rw [DigSize.digMask,and_two_pow_sub_one_eq_mod,←xor_mask neg hlt]
  exact hxor

theorem jAt_masked {t : ℕ} (ht : t<(jdig.mpz st).len) :
    jAt st jdig (fun j => j^^^DigSize.mask w (jdig.mpz st).neg.toNat) t=
      maskedAt w (jdig.mpz st) t := by
  rw [jAt,maskedAt,padded,if_pos ht]

theorem kAt_masked : kAt st kdig (fun k => k^^^DigSize.mask w (kdig.mpz st).neg.toNat)
    (DigSize.mask w (kdig.mpz st).neg.toNat)=maskedAt w (kdig.mpz st) := by
  funext t
  rw [kAt,maskedAt,padded]
  split
  · rfl
  · exact (zero_xor _).symm

/-- What the loops of conjunctions and disjunctions add to the carry of the result. -/
def maskedSums (w : DigSize) (st : Store) (jdig kdig : Source) (combine : ℕ→ℕ→ℕ) : ℕ→ℕ :=
  combinedAt w st jdig kdig (fun j => j^^^DigSize.mask w (jdig.mpz st).neg.toNat)
    (fun k => k^^^DigSize.mask w (kdig.mpz st).neg.toNat)
    (DigSize.mask w (kdig.mpz st).neg.toNat) combine
    (jdig.mpz st).neg.toNat (kdig.mpz st).neg.toNat

/-- The masked digits of both operands come to the low bits of the operation on them. -/
theorem value_pairs_masked (b : BitwiseInt) (hj : Normal w (jdig.mpz st))
    (hk : Normal w (kdig.mpz st)) (hlen : (kdig.mpz st).len ≤ (jdig.mpz st).len) :
    value w.base (fun t => b.low.op
      (carryDigit w.base (maskedAt w (jdig.mpz st)) (jdig.mpz st).neg.toNat t)
      (carryDigit w.base (maskedAt w (kdig.mpz st)) (kdig.mpz st).neg.toNat t))
      (jdig.mpz st).len=low (w.size*(jdig.mpz st).len)
        (b.op (toInt w (jdig.mpz st)) (toInt w (kdig.mpz st))) := by
  have hpos := w.base_pos
  rw [b.low_op,←value_maskedAt hj (le_refl _),←value_maskedAt hk hlen]
  exact b.low.value_op (fun t _ => carryDigit_lt _ _ _ hpos t)
    (fun t _ => carryDigit_lt _ _ _ hpos t)

/-- The loops of conjunctions and disjunctions come to the low bits of the result or to
their complement. -/
theorem value_maskedSums (b : BitwiseInt) (neg : Bool) (hj : Normal w (jdig.mpz st))
    (hk : Normal w (kdig.mpz st)) (hlen : (kdig.mpz st).len ≤ (jdig.mpz st).len) :
    value w.base (maskedSums w st jdig kdig
      (fun j k => b.low.op j k^^^DigSize.mask w neg.toNat)) (jdig.mpz st).len+neg.toNat=
      outcome (w.size*(jdig.mpz st).len) neg
        (b.op (toInt w (jdig.mpz st)) (toInt w (kdig.mpz st))) := by
  have hpos := w.base_pos
  have hterm : ∀ t<(jdig.mpz st).len,maskedSums w st jdig kdig
      (fun j k => b.low.op j k^^^DigSize.mask w neg.toNat) t=
      if neg then w.base-1-b.low.op
        (carryDigit w.base (maskedAt w (jdig.mpz st)) (jdig.mpz st).neg.toNat t)
        (carryDigit w.base (maskedAt w (kdig.mpz st)) (kdig.mpz st).neg.toNat t)
      else b.low.op (carryDigit w.base (maskedAt w (jdig.mpz st)) (jdig.mpz st).neg.toNat t)
        (carryDigit w.base (maskedAt w (kdig.mpz st)) (kdig.mpz st).neg.toNat t) := by
    intro t ht
    have hcarry := carry_congr (B := w.base) (c := (jdig.mpz st).neg.toNat)
      (fun t ht => @jAt_masked w st jdig t ht) t (le_of_lt ht)
    rw [maskedSums,combinedAt,and_digMask_xor,kAt_masked,hcarry,jAt_masked ht]
    rfl
  have hop := value_pairs_masked b hj hk hlen
  rw [value_congr hterm,outcome]
  cases neg with
  | false => exact hop
  | true =>
    have hcomplement : value w.base (fun t => w.base-1-b.low.op
        (carryDigit w.base (maskedAt w (jdig.mpz st)) (jdig.mpz st).neg.toNat t)
        (carryDigit w.base (maskedAt w (kdig.mpz st)) (kdig.mpz st).neg.toNat t))
        (jdig.mpz st).len+low (w.size*(jdig.mpz st).len)
          (b.op (toInt w (jdig.mpz st)) (toInt w (kdig.mpz st)))+1=
        2^(w.size*(jdig.mpz st).len) := by
      rw [←base_pow,←hop]
      exact value_complement (fun t _ =>
        b.low.op_lt (carryDigit_lt _ _ _ hpos t) (carryDigit_lt _ _ _ hpos t))
    simp only [if_true,Bool.toNat_true]
    omega

theorem kAt_lowered : kAt st kdig (fun k => k+w.digMask) w.digMask=loweredAt w (kdig.mpz st) := by
  funext t
  rw [kAt,loweredAt,padded]
  split
  · rfl
  · exact (zero_add _).symm

theorem jAt_lowered {t : ℕ} (ht : t<(jdig.mpz st).len) :
    jAt st jdig (fun j => j+w.digMask) t=loweredAt w (jdig.mpz st) t := by
  rw [jAt,loweredAt,padded,if_pos ht]

/-- The low bits of a complement. -/
theorem low_lnot (m : ℕ) (z : ℤ) : low m (Int.lnot z)+low m z+1=2^m := by
  have hcast : ((2^m : ℕ) : ℤ)=2^m := by push_cast; rfl
  have hdiv := Int.emod_add_mul_ediv z (2^m)
  have hlow : ((low m z : ℕ) : ℤ)=z%2^m :=
    Int.toNat_of_nonneg (Int.emod_nonneg z (by positivity))
  have hform : ((2^m-1-low m z : ℕ) : ℤ)=Int.lnot z+2^m*(z/2^m+1) := by
    rw [lnot_eq,Int.mul_add,Int.mul_one,←hcast]
    rw [←hlow,←hcast] at hdiv
    omega
  rw [low_of_eq (by omega) hform]
  omega

theorem xor_lowered (a b : Mpz) : Int.xor (lowered w a) (lowered w b)=
    if a.neg=b.neg then Int.xor (toInt w a) (toInt w b)
    else Int.lnot (Int.xor (toInt w a) (toInt w b)) := by
  rw [lowered,lowered]
  cases a.neg <;> cases b.neg <;> cases toInt w a <;> cases toInt w b <;> rfl

/-- What the loop of an exclusive disjunction adds to the carry of the result. -/
def loweredSums (w : DigSize) (st : Store) (jdig kdig : Source) : ℕ→ℕ :=
  combinedAt w st jdig kdig (fun j => j+w.digMask) (fun k => k+w.digMask) w.digMask
    (fun j k => j^^^k) (!(jdig.mpz st).neg).toNat (!(kdig.mpz st).neg).toNat

/-- The loop of an exclusive disjunction comes to the low bits of the result or to their
complement. -/
theorem value_loweredSums (hlen : (kdig.mpz st).len ≤ (jdig.mpz st).len) :
    value w.base (loweredSums w st jdig kdig) (jdig.mpz st).len+
      ((jdig.mpz st).neg^^(kdig.mpz st).neg).toNat=
      outcome (w.size*(jdig.mpz st).len) ((jdig.mpz st).neg^^(kdig.mpz st).neg)
        (Int.xor (toInt w (jdig.mpz st)) (toInt w (kdig.mpz st))) := by
  have hpos := w.base_pos
  have hterm : ∀ t<(jdig.mpz st).len,loweredSums w st jdig kdig t=Bitwise.xor.op
        (carryDigit w.base (loweredAt w (jdig.mpz st)) (!(jdig.mpz st).neg).toNat t)
        (carryDigit w.base (loweredAt w (kdig.mpz st)) (!(kdig.mpz st).neg).toNat t) := by
    intro t ht
    have hcarry := carry_congr (B := w.base) (c := (!(jdig.mpz st).neg).toNat)
      (fun t ht => @jAt_lowered w st jdig t ht) t (le_of_lt ht)
    have hmask := and_digMask_xor (w := w) Bitwise.xor false
      (carry w.base (loweredAt w (jdig.mpz st)) (!(jdig.mpz st).neg).toNat t+
        loweredAt w (jdig.mpz st) t)
      (carry w.base (loweredAt w (kdig.mpz st)) (!(kdig.mpz st).neg).toNat t+
        loweredAt w (kdig.mpz st) t)
    rw [show DigSize.mask w false.toNat=0 from rfl,Nat.xor_zero] at hmask
    rw [loweredSums,combinedAt,kAt_lowered,hcarry,jAt_lowered ht]
    exact hmask
  have hop := Bitwise.xor.value_op (n := (jdig.mpz st).len)
    (fun t _ => carryDigit_lt w.base (loweredAt w (jdig.mpz st)) (!(jdig.mpz st).neg).toNat hpos t)
    (fun t _ => carryDigit_lt w.base (loweredAt w (kdig.mpz st)) (!(kdig.mpz st).neg).toNat hpos t)
  have hj := @value_loweredAt w (jdig.mpz st) (jdig.mpz st).len (le_refl _)
  have hk := @value_loweredAt w (kdig.mpz st) (jdig.mpz st).len hlen
  have hlow := BitwiseInt.xor.low_op (w.size*(jdig.mpz st).len) (lowered w (jdig.mpz st))
    (lowered w (kdig.mpz st))
  have hnot := low_lnot (w.size*(jdig.mpz st).len)
    (Int.xor (toInt w (jdig.mpz st)) (toInt w (kdig.mpz st)))
  change value w.base _ _=Bitwise.xor.op (value w.base _ _) (value w.base _ _) at hop
  change low _ (Int.xor _ _)=Bitwise.xor.op _ _ at hlow
  rw [hj,hk,←hlow,xor_lowered] at hop
  rw [value_congr hterm,hop,outcome]
  cases (jdig.mpz st).neg <;> cases (kdig.mpz st).neg <;>
    simp only [Bool.xor_false,Bool.xor_true,Bool.not_false,Bool.not_true,Bool.toNat_true,
      Bool.toNat_false,if_true,if_false,Bool.false_eq_true,Bool.true_eq_false] <;> omega

end Combining

section Yielding

variable {w : DigSize} {st : Store} {i : ℕ} {jdig kdig : Source}

theorem yields_stored {n c : ℕ} {s : ℕ→ℕ}
    (halloc : (if carry w.base s c n=0 then n else n+1) ≤ (st i).alloc) (hc : carry w.base s c n<w.base) :
    Yields w st i (do
      let r ← storeCarry (written st i n (carryDigit w.base s c)) i n (carry w.base s c n)
      let len ← mpnRemoveTrailingZeros r.2 i r.1
      .ok (len,r.2)) (value w.base s n+c) := by
  have hpos := w.base_pos
  rw [value_carryDigit,←value_storeCarry,bind_ok _ (storeCarry_eq halloc)]
  exact yields_trim halloc (fun t _ =>
    withTop_lt (fun t _ => carryDigit_lt _ _ _ hpos t) hc t)

theorem combinedAt_lt {jterm kterm : ℕ→ℕ} {krest : ℕ} {combine : ℕ→ℕ→ℕ} {cj ck : ℕ} (t : ℕ) :
    combinedAt w st jdig kdig jterm kterm krest combine cj ck t<w.base := by
  rw [combinedAt,DigSize.digMask,and_two_pow_sub_one_eq_mod]
  exact Nat.mod_lt _ (Nat.two_pow_pos _)

/-- The carry of the result never exceeds the one that the loop starts with. -/
theorem carry_combined_le {jterm kterm : ℕ→ℕ} {krest : ℕ} {combine : ℕ→ℕ→ℕ}
    {ci cj ck n : ℕ} (hci : ci<2) :
    carry w.base (combinedAt w st jdig kdig jterm kterm krest combine cj ck) ci n ≤ ci := by
  refine le_of_lt_succ (carry_lt (n := n) (lt_succ_self ci) (fun t _ x hx => ?_) n (le_refl n))
  have hlt := @combinedAt_lt w st jdig kdig jterm kterm krest combine cj ck t
  rcases lt_or_ge 0 ci with hone | hzero
  · rw [show ci.succ=2 by omega]
    omega
  · rw [show ci.succ=1 by omega]
    omega

/-- A carry that comes from a truth value. -/
theorem toNat_lt_two (b : Bool) : b.toNat<2 := by cases b <;> decide

theorem xor_mask_le (neg : Bool) : ∀ x<w.base,(x^^^DigSize.mask w neg.toNat)+2 ≤ 2*w.base := by
  intro x hx
  rw [xor_mask neg hx]
  split <;> omega

/-- The mask leaves room for a carry. -/
theorem mask_le (neg : Bool) : DigSize.mask w neg.toNat+2 ≤ 2*w.base := by
  have hzero := xor_mask_le (w := w) neg 0 w.base_pos
  rwa [zero_xor] at hzero

section

variable (hj : Normal w (jdig.mpz st)) (hk : Normal w (kdig.mpz st))
  (hlen : (kdig.mpz st).len ≤ (jdig.mpz st).len) (hsize : (jdig.mpz st).len<2^w.sizeBits)
include hj hk hlen hsize

/-- The loops of conjunctions and disjunctions. -/
theorem maskedLoop_eq
    (halloc : (jdig.mpz st).len ≤ (st i).alloc) (combine : ℕ→ℕ→ℕ) {ci : ℕ} (hci : ci<2) :
    ∃ s,digitLoop i (negDigit w (fun j => j^^^DigSize.mask w (jdig.mpz st).neg.toNat)
        (fun k => k^^^DigSize.mask w (kdig.mpz st).neg.toNat)
        (DigSize.mask w (kdig.mpz st).neg.toNat) combine jdig kdig) (jdig.mpz st).len 0
        ⟨ci,(jdig.mpz st).neg.toNat,(kdig.mpz st).neg.toNat,(jdig.mpz st).len,(kdig.mpz st).len⟩ st=
        .ok (s,written st i (jdig.mpz st).len
          (carryDigit w.base (maskedSums w st jdig kdig combine) ci))∧
      s.carryi=carry w.base (maskedSums w st jdig kdig combine) ci (jdig.mpz st).len :=
  ⟨_,negLoop_eq hj hk hlen hsize halloc hci (toNat_lt_two _) (toNat_lt_two _)
    (xor_mask_le _) (xor_mask_le _) (mask_le _),rfl⟩

/-- `mpn_and_neg` leaves the magnitude of the conjunction for the sign that goes with its
carry. -/
theorem mpnAndNeg_yields
    (halloc : (jdig.mpz st).len+1 ≤ (st i).alloc) (neg : Bool) :
    Yields w st i (mpnAndNeg w st i jdig (jdig.mpz st).len kdig (kdig.mpz st).len neg.toNat
      (jdig.mpz st).neg.toNat (kdig.mpz st).neg.toNat)
      (outcome (w.size*(jdig.mpz st).len) neg
        (Int.land (toInt w (jdig.mpz st)) (toInt w (kdig.mpz st)))) := by
  obtain ⟨s,hloop,hs⟩ := maskedLoop_eq (i := i) hj hk hlen hsize (by omega)
    (fun j k => (j&&&k)^^^DigSize.mask w neg.toNat) (toNat_lt_two neg)
  have hcarry : s.carryi<w.base := by
    rw [hs]
    exact lt_of_le_of_lt (carry_combined_le (toNat_lt_two neg))
      (lt_of_lt_of_le (toNat_lt_two neg) w.one_lt_base)
  have hvalue := value_maskedSums BitwiseInt.and neg hj hk hlen
  change _=outcome _ neg (Int.land _ _) at hvalue
  rw [mpnAndNeg,bind_ok _ hloop,←hvalue]
  rw [hs] at hcarry ⊢
  exact yields_stored (by split <;> omega) hcarry

/-- `mpn_xor_neg` leaves the magnitude of the exclusive disjunction for the sign that goes
with its carry. -/
theorem mpnXorNeg_yields
    (halloc : (jdig.mpz st).len+((jdig.mpz st).neg^^(kdig.mpz st).neg).toNat ≤ (st i).alloc) :
    Yields w st i (mpnXorNeg w st i jdig (jdig.mpz st).len kdig (kdig.mpz st).len
      ((jdig.mpz st).neg^^(kdig.mpz st).neg).toNat (!(jdig.mpz st).neg).toNat
      (!(kdig.mpz st).neg).toNat)
      (outcome (w.size*(jdig.mpz st).len) ((jdig.mpz st).neg^^(kdig.mpz st).neg)
        (Int.xor (toInt w (jdig.mpz st)) (toInt w (kdig.mpz st)))) := by
  have hbase := w.one_lt_base
  have hmask : w.digMask+1=w.base := Nat.sub_add_cancel (Nat.two_pow_pos w.size)
  have hterm : ∀ x<w.base,x+w.digMask+2 ≤ 2*w.base := fun x hx => by omega
  have hvalue := @value_loweredSums w st jdig kdig hlen
  have hneg := toNat_lt_two ((jdig.mpz st).neg^^(kdig.mpz st).neg)
  have hloop := @negLoop_eq w st i jdig kdig (fun j => j+w.digMask) (fun k => k+w.digMask)
    w.digMask (fun j k => j^^^k) _ _ _ hj hk hlen hsize (by omega) hneg (toNat_lt_two (!(jdig.mpz st).neg)) (toNat_lt_two (!(kdig.mpz st).neg)) hterm hterm
    (by omega : w.digMask+2 ≤ 2*w.base)
  have hcarry : carry w.base (loweredSums w st jdig kdig)
      ((jdig.mpz st).neg^^(kdig.mpz st).neg).toNat (jdig.mpz st).len ≤
      ((jdig.mpz st).neg^^(kdig.mpz st).neg).toNat := carry_combined_le hneg
  have hroom : (if carry w.base (loweredSums w st jdig kdig)
      ((jdig.mpz st).neg^^(kdig.mpz st).neg).toNat (jdig.mpz st).len=0 then (jdig.mpz st).len
      else (jdig.mpz st).len+1) ≤ (st i).alloc := by
    split <;> omega
  rw [mpnXorNeg,bind_ok _ hloop,←hvalue]
  exact yields_stored hroom (lt_of_le_of_lt hcarry (by omega))

/-- `mpn_or_neg` leaves the magnitude of the disjunction for a negative sign when its low
bits are not all zero. Otherwise its assertion fails. -/
theorem mpnOrNeg_yields
    (halloc : (jdig.mpz st).len ≤ (st i).alloc) :
    if low (w.size*(jdig.mpz st).len)
        (Int.lor (toInt w (jdig.mpz st)) (toInt w (kdig.mpz st)))=0 then
      mpnOrNeg w st i jdig (jdig.mpz st).len kdig (kdig.mpz st).len
        (jdig.mpz st).neg.toNat (kdig.mpz st).neg.toNat=.error .assertion
    else Yields w st i (mpnOrNeg w st i jdig (jdig.mpz st).len kdig (kdig.mpz st).len
        (jdig.mpz st).neg.toNat (kdig.mpz st).neg.toNat)
        (outcome (w.size*(jdig.mpz st).len) true
          (Int.lor (toInt w (jdig.mpz st)) (toInt w (kdig.mpz st)))) := by
  have hpos := w.base_pos
  obtain ⟨s,hloop,hs⟩ := maskedLoop_eq hj hk hlen hsize halloc
    (fun j k => (j|||k)^^^w.digMask) (lt_succ_self 1)
  have hvalue : value w.base (maskedSums w st jdig kdig (fun j k => (j|||k)^^^w.digMask))
      (jdig.mpz st).len+1=outcome (w.size*(jdig.mpz st).len) true
        (Int.lor (toInt w (jdig.mpz st)) (toInt w (kdig.mpz st))) :=
    value_maskedSums BitwiseInt.or true hj hk hlen
  have hdigits := Positional.value_lt (n := (jdig.mpz st).len) (fun t _ => carryDigit_lt w.base
    (maskedSums w st jdig kdig (fun j k => (j|||k)^^^w.digMask)) 1 hpos t)
  have hone : outcome (w.size*(jdig.mpz st).len) true
      (Int.lor (toInt w (jdig.mpz st)) (toInt w (kdig.mpz st)))=
      2^(w.size*(jdig.mpz st).len)-low (w.size*(jdig.mpz st).len)
        (Int.lor (toInt w (jdig.mpz st)) (toInt w (kdig.mpz st))) := if_pos rfl
  rw [value_carryDigit,←hs,base_pow,hone] at hvalue
  rw [base_pow] at hdigits
  rw [mpnOrNeg,bind_ok _ hloop]
  split
  case isTrue hzero =>
    refine if_neg (fun hcarry => ?_)
    rw [hcarry] at hvalue
    omega
  case isFalse hsome =>
    have hcarry : s.carryi=0 := by
      by_contra hne
      have hmul := mul_le_mul_right (2^(w.size*(jdig.mpz st).len)) (one_le_iff_ne_zero.mpr hne)
      omega
    rw [hcarry,zero_mul,add_zero] at hvalue
    rw [hone,←hvalue]
    rw [if_pos hcarry]
    exact yields_trim halloc (fun t _ => carryDigit_lt _ _ _ hpos t)

end

end Yielding

section Plain

variable {w : DigSize} {st : Store} {i : ℕ} {jdig kdig : Source}

/-- The digits of both operands combined, with zeros past those of the second one. -/
def pairAt (st : Store) (jdig kdig : Source) (combine : ℕ→ℕ→ℕ) (t : ℕ) : ℕ :=
  combine ((jdig.mpz st).dig t) (padded (kdig.mpz st).dig (kdig.mpz st).len t)

/-- The loop over the digits of both operands. -/
theorem pairLoop_eq (hj : Normal w (jdig.mpz st)) (hk : Normal w (kdig.mpz st))
    (hlen : (kdig.mpz st).len ≤ (jdig.mpz st).len) (halloc : (kdig.mpz st).len ≤ (st i).alloc)
    (combine : ℕ→ℕ→ℕ) : digitLoop i (pairDigit combine jdig kdig) (kdig.mpz st).len 0 () st=
      .ok ((),written st i (kdig.mpz st).len (pairAt st jdig kdig combine)) := by
  have hloop := @digitLoop_written _ st i (pairDigit combine jdig kdig)
    (pairAt st jdig kdig combine) (fun _ => ()) (kdig.mpz st).len 0 (fun t _ ht => ?_)
    (by omega)
  · rw [written_zero,zero_add] at hloop
    exact hloop
  · have hjalloc := hj.alloc
    have hkalloc := hk.alloc
    rw [pairDigit,bind_ok _ (readDig_written (le_refl t) (by omega)),
      bind_ok _ (readDig_written (le_refl t) (by omega)),pairAt,padded,if_pos (by omega)]

/-- The loops over the digits of both operands and over the rest of the first one. -/
theorem pairLoops_eq (hj : Normal w (jdig.mpz st))
    (hlen : (kdig.mpz st).len ≤ (jdig.mpz st).len) (halloc : (jdig.mpz st).len ≤ (st i).alloc)
    {combine : ℕ→ℕ→ℕ} (hzero : ∀ x,combine x 0=x) :
    digitLoop i (copyDigit jdig) ((jdig.mpz st).len-(kdig.mpz st).len) (kdig.mpz st).len ()
      (written st i (kdig.mpz st).len (pairAt st jdig kdig combine))=
      .ok ((),written st i (jdig.mpz st).len (pairAt st jdig kdig combine)) := by
  have hloop := @digitLoop_written _ st i (copyDigit jdig) (pairAt st jdig kdig combine)
    (fun _ => ()) ((jdig.mpz st).len-(kdig.mpz st).len) (kdig.mpz st).len
    (fun t hkt ht => ?_) (by omega)
  · rw [Nat.add_sub_cancel' hlen] at hloop
    exact hloop
  · have hjalloc := hj.alloc
    rw [copyDigit,bind_ok _ (readDig_written (le_refl t) (by omega)),pairAt,padded,
      if_neg (Nat.not_lt.mpr hkt),hzero]

/-- The combined digits fit the base. -/
theorem pairAt_lt (b : Bitwise) (hj : Normal w (jdig.mpz st)) (hk : Normal w (kdig.mpz st)) :
    ∀ t<(jdig.mpz st).len,pairAt st jdig kdig b.op t<w.base := fun t ht =>
  b.op_lt (hj.lt t ht) (padded_lt hk t)

/-- A number that fits is its own low bits. -/
theorem low_of_lt {m n : ℕ} (h : n<2^m) : low m n=n := by
  rw [low_ofNat,mod_eq_of_lt h]

/-- The combined digits of two integers that are not negative. -/
theorem value_pairAt (b : BitwiseInt) (hj : Normal w (jdig.mpz st))
    (hk : Normal w (kdig.mpz st)) (hlen : (kdig.mpz st).len ≤ (jdig.mpz st).len)
    (hjneg : (jdig.mpz st).neg=false) (hkneg : (kdig.mpz st).neg=false) :
    value w.base (pairAt st jdig kdig b.low.op) (jdig.mpz st).len=
      outcome (w.size*(jdig.mpz st).len) false
        (b.op (toInt w (jdig.mpz st)) (toInt w (kdig.mpz st))) := by
  have hpadded : value w.base (padded (kdig.mpz st).dig (kdig.mpz st).len) (jdig.mpz st).len=
      mag w (kdig.mpz st) := value_padded _ _ hlen
  have hjlt := hj.digits.value_lt
  have hklt := Positional.value_lt (fun t (_ : t<(jdig.mpz st).len) => padded_lt hk t)
  have hop := b.low.value_op hj.lt (fun t (_ : t<(jdig.mpz st).len) => padded_lt hk t)
  change value w.base (pairAt st jdig kdig b.low.op) _=
    b.low.op (value w.base _ _) (value w.base _ _) at hop
  rw [base_pow] at hjlt
  rw [hpadded,base_pow] at hklt
  have hjint : toInt w (jdig.mpz st)=mag w (jdig.mpz st) := by
    rw [toInt,hjneg]
    rfl
  have hkint : toInt w (kdig.mpz st)=mag w (kdig.mpz st) := by
    rw [toInt,hkneg]
    rfl
  have hout : outcome (w.size*(jdig.mpz st).len) false
      (b.op (toInt w (jdig.mpz st)) (toInt w (kdig.mpz st)))=
      low (w.size*(jdig.mpz st).len) (b.op (mag w (jdig.mpz st)) (mag w (kdig.mpz st))) := by
    rw [hjint,hkint]
    rfl
  rw [hout,b.low_op,low_of_lt hklt,mag,low_of_lt hjlt,hop,hpadded]

section

variable (hj : Normal w (jdig.mpz st)) (hk : Normal w (kdig.mpz st))
  (hlen : (kdig.mpz st).len ≤ (jdig.mpz st).len) (halloc : (jdig.mpz st).len ≤ (st i).alloc)
  (hjneg : (jdig.mpz st).neg=false) (hkneg : (kdig.mpz st).neg=false)
include hj hk hlen halloc hjneg hkneg

/-- `mpn_and` leaves the conjunction. -/
theorem mpnAnd_yields :
    Yields w st i (mpnAnd st i jdig kdig (kdig.mpz st).len)
      (outcome (w.size*(jdig.mpz st).len) false
        (Int.land (toInt w (jdig.mpz st)) (toInt w (kdig.mpz st)))) := by
  have hvalue := value_pairAt BitwiseInt.and hj hk hlen hjneg hkneg
  change value w.base (pairAt st jdig kdig (fun j k => j&&&k)) _=
    outcome _ false (Int.land _ _) at hvalue
  have hzeros : ∀ t,(kdig.mpz st).len ≤ t → t<(jdig.mpz st).len→
      pairAt st jdig kdig (fun j k => j&&&k) t=0 := by
    intro t ht _
    rw [pairAt,padded,if_neg (Nat.not_lt.mpr ht),and_zero]
  rw [mpnAnd,bind_ok _ (pairLoop_eq hj hk hlen (by omega) _),←hvalue,value_of_zeros hlen hzeros]
  exact yields_trim (by omega) (fun t ht => pairAt_lt Bitwise.and hj hk t (lt_of_lt_of_le ht hlen))

/-- `mpn_xor` leaves the exclusive disjunction. -/
theorem mpnXor_yields :
    Yields w st i (mpnXor st i jdig (jdig.mpz st).len kdig (kdig.mpz st).len)
      (outcome (w.size*(jdig.mpz st).len) false
        (Int.xor (toInt w (jdig.mpz st)) (toInt w (kdig.mpz st)))) := by
  have hvalue := value_pairAt BitwiseInt.xor hj hk hlen hjneg hkneg
  change value w.base (pairAt st jdig kdig (fun j k => j^^^k)) _=
    outcome _ false (Int.xor _ _) at hvalue
  rw [mpnXor,bind_ok _ (pairLoop_eq hj hk hlen (by omega) _),
    bind_ok _ (pairLoops_eq hj hlen halloc Nat.xor_zero),Nat.add_sub_cancel' hlen,←hvalue]
  exact yields_trim halloc (pairAt_lt Bitwise.xor hj hk)

/-- `mpn_or` leaves the disjunction, whose top digit is not zero. -/
theorem mpnOr_yields :
    Yields w st i (mpnOr st i jdig (jdig.mpz st).len kdig (kdig.mpz st).len)
      (outcome (w.size*(jdig.mpz st).len) false
        (Int.lor (toInt w (jdig.mpz st)) (toInt w (kdig.mpz st)))) := by
  have hvalue := value_pairAt BitwiseInt.or hj hk hlen hjneg hkneg
  change value w.base (pairAt st jdig kdig (fun j k => j|||k)) _=
    outcome _ false (Int.lor _ _) at hvalue
  rw [mpnOr,bind_ok _ (pairLoop_eq hj hk hlen (by omega) _),
    bind_ok _ (pairLoops_eq hj hlen halloc Nat.or_zero),Nat.add_sub_cancel' hlen,←hvalue]
  refine yields_written rfl (le_refl _) halloc ⟨pairAt_lt Bitwise.or hj hk,fun m hm hzero => ?_⟩
  have htop := (or_eq_zero_iff.mp hzero).1
  exact hj.top m hm htop

end

end Plain

section InPlace

variable {w : DigSize} {st : Store} {dest lhs rhs : ℕ}

/-- An operation leaves an integer in the destination. -/
def Leaves (w : DigSize) (st : Store) (dest : ℕ) (z : ℤ) (r : Except Fault Store) : Prop :=
  ∃ st',r=.ok st'∧Result w st dest z st'

/-- What an operation leaves is fixed. -/
theorem leaves_iff {v z : ℤ} {r : Except Fault Store} (h : Leaves w st dest v r) :
    Leaves w st dest z r↔v=z := by
  obtain ⟨st',hr,hresult⟩ := h
  refine ⟨fun ⟨st'',hr',hresult'⟩ => ?_,fun hv => ⟨st',hr,hv ▸ hresult⟩⟩
  have hsame : st'=st'' := Except.ok.inj (hr.symm.trans hr')
  rw [←hresult.exact,hsame,hresult'.exact]

theorem within_op (b : BitwiseInt) (hl : Normal w (st lhs)) (hr : Normal w (st rhs))
    (hlen : (st rhs).len ≤ (st lhs).len) : Within (w.size*(st lhs).len)
      (b.op (toInt w (st lhs)) (toInt w (st rhs))) := by
  have hlb := toInt_bounds hl (le_refl _)
  have hrb := toInt_bounds hr hlen
  exact b.within_op ⟨Int.le_of_lt hlb.1,hlb.2⟩ ⟨Int.le_of_lt hrb.1,hrb.2⟩

/-- The magnitude of an operation with the sign that it gets is the result exactly when the
sign is its own. -/
theorem leaves_outcome_iff (b : BitwiseInt) (hl : Normal w (st lhs)) (hr : Normal w (st rhs))
    (hlen : (st rhs).len ≤ (st lhs).len) {neg : Bool} {r : Except Fault Store}
    (h : Leaves w st dest
      (if neg then -(outcome (w.size*(st lhs).len) neg
          (b.op (toInt w (st lhs)) (toInt w (st rhs))) : ℕ)
        else (outcome (w.size*(st lhs).len) neg
          (b.op (toInt w (st lhs)) (toInt w (st rhs))) : ℕ)) r) :
    Leaves w st dest (b.op (toInt w (st lhs)) (toInt w (st rhs))) r↔
      neg=b.low.bit (isNeg (toInt w (st lhs))) (isNeg (toInt w (st rhs))) := by
  rw [leaves_iff h,←b.isNeg_op,←signed_low_iff (within_op b hl hr hlen) neg]
  cases neg <;> rfl

theorem need_le_grow (st : Store) (dest need : ℕ) : need ≤ (grow st dest need dest).alloc := by
  rw [grow_self]
  exact need_le_grown _ _

section

variable (hl : Normal w (st lhs)) (hr : Normal w (st rhs)) (hlen : (st rhs).len ≤ (st lhs).len)
  (hsize : (st lhs).len<2^w.sizeBits) (hfixed : (st dest).fixedDig=false)
include hl hr hlen hsize hfixed

/-- `mpz_and_inpl` in order is right exactly when both signs are set for two negative
integers or not for others. -/
theorem andInplOrdered_iff :
    Leaves w st dest (Int.land (toInt w (st lhs)) (toInt w (st rhs)))
      (andInplOrdered w st dest lhs rhs)↔
      ((st lhs).neg&&(st rhs).neg)=(isNeg (toInt w (st lhs))&&isNeg (toInt w (st rhs))) := by
  refine leaves_outcome_iff BitwiseInt.and hl hr hlen ?_
  unfold andInplOrdered
  by_cases hneg : (st lhs).neg=false∧(st rhs).neg=false
  · have hyields := @mpnAnd_yields w (grow st dest (st lhs).len) dest (.object lhs)
      (.object rhs) (hl.grow dest _) (hr.grow dest _) (by simpa only [Source.mpz,grow_len])
      (by rw [Source.mpz,grow_len]; exact need_le_grow ..) (by rw [Source.mpz,grow_neg,hneg.1])
      (by rw [Source.mpz,grow_neg,hneg.2])
    have hresult := result_of_yields hyields (fun _ => false) (fun _ _ => rfl)
    simp only [Source.mpz,grow_len,toInt_grow] at hresult
    rw [if_pos hneg,bind_ok _ (mpzNeedDig_eq hfixed),hneg.1,grow_len]
    exact hresult
  · have hyields := @mpnAndNeg_yields w (grow st dest ((st lhs).len+1)) dest (.object lhs)
      (.object rhs) (hl.grow dest _) (hr.grow dest _) (by simpa only [Source.mpz,grow_len])
      (by simpa only [Source.mpz,grow_len])
      (by rw [Source.mpz,grow_len]; exact need_le_grow ..) ((st lhs).neg&&(st rhs).neg)
    have hresult := result_of_yields hyields (fun s => (s lhs).neg&&(s rhs).neg)
      (fun g len => by rw [neg_setLen,neg_setLen])
    have hcarry : ((st lhs).neg==(st rhs).neg)=((st lhs).neg&&(st rhs).neg) := by
      cases hln : (st lhs).neg <;> cases hrn : (st rhs).neg
      · exact absurd ⟨hln,hrn⟩ hneg
      · rfl
      · rfl
      · rfl
    simp only [Source.mpz,grow_len,grow_neg,toInt_grow] at hresult
    rw [if_neg hneg,bind_ok _ (mpzNeedDig_eq hfixed)]
    simp only [grow_len,grow_neg,hcarry]
    exact hresult

/-- `mpz_xor_inpl` in order is right exactly when its signs differ as those of its integers
do. -/
theorem xorInplOrdered_iff :
    Leaves w st dest (Int.xor (toInt w (st lhs)) (toInt w (st rhs)))
      (xorInplOrdered w st dest lhs rhs)↔
      ((st lhs).neg^^(st rhs).neg)=(isNeg (toInt w (st lhs))^^isNeg (toInt w (st rhs))) := by
  refine leaves_outcome_iff BitwiseInt.xor hl hr hlen ?_
  unfold xorInplOrdered
  by_cases hneg : (st lhs).neg=(st rhs).neg
  · have hsame : ((st lhs).neg^^(st rhs).neg)=false := by rw [hneg,Bool.xor_self]
    rw [if_pos hneg,bind_ok _ (mpzNeedDig_eq hfixed),hsame]
    simp only [grow_len,grow_neg]
    cases hln : (st lhs).neg with
    | false =>
      have hyields := @mpnXor_yields w (grow st dest (st lhs).len) dest (.object lhs)
        (.object rhs) (hl.grow dest _) (hr.grow dest _) (by simpa only [Source.mpz,grow_len])
        (by rw [Source.mpz,grow_len]; exact need_le_grow ..) (by rw [Source.mpz,grow_neg,hln])
        (by rw [Source.mpz,grow_neg,←hneg,hln])
      have hresult := result_of_yields hyields (fun _ => false) (fun _ _ => rfl)
      simp only [Source.mpz,grow_len,toInt_grow] at hresult
      exact hresult
    | true =>
      have hyields := @mpnXorNeg_yields w (grow st dest (st lhs).len) dest (.object lhs)
        (.object rhs) (hl.grow dest _) (hr.grow dest _) (by simpa only [Source.mpz,grow_len])
        (by simpa only [Source.mpz,grow_len])
        (by rw [Source.mpz,Source.mpz,grow_len,grow_neg,grow_neg,hsame]; exact need_le_grow ..)
      have hresult := result_of_yields hyields (fun _ => false) (fun _ _ => rfl)
      simp only [Source.mpz,grow_len,grow_neg,toInt_grow,hsame] at hresult
      rw [←hneg,hln] at hresult
      exact hresult
  · have hdiffer : ((st lhs).neg^^(st rhs).neg)=true := by
      cases hln : (st lhs).neg <;> cases hrn : (st rhs).neg
      · exact absurd (hln.trans hrn.symm) hneg
      · rfl
      · rfl
      · exact absurd (hln.trans hrn.symm) hneg
    have hyields := @mpnXorNeg_yields w (grow st dest ((st lhs).len+1)) dest (.object lhs)
      (.object rhs) (hl.grow dest _) (hr.grow dest _) (by simpa only [Source.mpz,grow_len])
      (by simpa only [Source.mpz,grow_len])
      (by rw [Source.mpz,Source.mpz,grow_len,grow_neg,grow_neg,hdiffer]; exact need_le_grow ..)
    have hresult := @result_of_yields w st dest _ _ _ hyields (fun _ => true) true (fun _ _ => rfl)
    simp only [Source.mpz,grow_len,grow_neg,toInt_grow,hdiffer] at hresult
    rw [if_neg hneg,bind_ok _ (mpzNeedDig_eq hfixed),hdiffer]
    simp only [grow_len,grow_neg]
    exact hresult

end

/-- The low bits of a negative integer are not all zero. -/
theorem isNeg_of_low {m : ℕ} {a : ℤ} (ha : -2^m<a∧a<2^m) (h : low m a=0) : isNeg a=false := by
  have hlow := eq_low ⟨Int.le_of_lt ha.1,ha.2⟩
  rw [h] at hlow
  cases hneg : isNeg a with
  | false => rfl
  | true =>
    rw [hneg,if_pos rfl] at hlow
    omega

/-- The low bits of a disjunction are not all zero when one of the integers is negative. -/
theorem isNeg_of_low_lor {m : ℕ} {a b : ℤ} (ha : -2^m<a∧a<2^m) (hb : -2^m<b∧b<2^m)
    (h : low m (Int.lor a b)=0) : (isNeg a||isNeg b)=false := by
  have hop := BitwiseInt.or.low_op m a b
  change low m (Int.lor a b)=low m a|||low m b at hop
  rw [h] at hop
  have hzero := or_eq_zero_iff.mp hop.symm
  rw [isNeg_of_low ha hzero.1,isNeg_of_low hb hzero.2]
  rfl

/-- `mpz_or_inpl` in order is right exactly when a sign is set for a negative integer or
none is set at all. -/
theorem orInplOrdered_iff (hl : Normal w (st lhs)) (hr : Normal w (st rhs))
    (hlen : (st rhs).len ≤ (st lhs).len) (hsize : (st lhs).len<2^w.sizeBits)
    (hfixed : (st dest).fixedDig=false) :
    Leaves w st dest (Int.lor (toInt w (st lhs)) (toInt w (st rhs)))
      (orInplOrdered w st dest lhs rhs)↔
      ((st lhs).neg||(st rhs).neg)=(isNeg (toInt w (st lhs))||isNeg (toInt w (st rhs))) := by
  unfold orInplOrdered
  by_cases hneg : (st lhs).neg=false∧(st rhs).neg=false
  · refine leaves_outcome_iff BitwiseInt.or hl hr hlen ?_
    have hyields := @mpnOr_yields w (grow st dest (st lhs).len) dest (.object lhs)
      (.object rhs) (hl.grow dest _) (hr.grow dest _) (by simpa only [Source.mpz,grow_len])
      (by rw [Source.mpz,grow_len]; exact need_le_grow ..) (by rw [Source.mpz,grow_neg,hneg.1])
      (by rw [Source.mpz,grow_neg,hneg.2])
    have hresult := result_of_yields hyields (fun _ => false) (fun _ _ => rfl)
    simp only [Source.mpz,grow_len,toInt_grow] at hresult
    rw [if_pos hneg,bind_ok _ (mpzNeedDig_eq hfixed),hneg.1,hneg.2,grow_len,grow_len]
    exact hresult
  · have hset : ((st lhs).neg||(st rhs).neg)=true := by
      cases hln : (st lhs).neg <;> cases hrn : (st rhs).neg
      · exact absurd ⟨hln,hrn⟩ hneg
      · rfl
      · rfl
      · rfl
    have hyields := @mpnOrNeg_yields w (grow st dest ((st lhs).len+1)) dest (.object lhs)
      (.object rhs) (hl.grow dest _) (hr.grow dest _) (by simpa only [Source.mpz,grow_len])
      (by simpa only [Source.mpz,grow_len])
      (by rw [Source.mpz,grow_len]; exact le_of_succ_le (need_le_grow ..))
    simp only [Source.mpz,grow_len,grow_neg,toInt_grow] at hyields
    rw [if_neg hneg,bind_ok _ (mpzNeedDig_eq hfixed)]
    simp only [grow_len,grow_neg]
    split at hyields
    case isTrue hlow =>
      have hnone := isNeg_of_low_lor (toInt_bounds hl (le_refl _)) (toInt_bounds hr hlen) hlow
      rw [hyields,hset,hnone]
      exact iff_of_false (by rintro ⟨_,⟨⟩,_⟩) (by rintro ⟨⟩)
    case isFalse hlow =>
      have hresult := @result_of_yields w st dest _ _ _ hyields (fun _ => true) true
        (fun _ _ => rfl)
      refine leaves_outcome_iff BitwiseInt.or hl hr hlen ?_
      rw [hset]
      exact hresult

end InPlace

section Complement

variable {w : DigSize} {st : Store} {dest z : ℕ}

/-- A store whose destination holds digits with a length and a sign, and in which the other
objects are as they were. -/
theorem leaves_of_store {st' : Store} {r : Except Fault Store} {neg fixed : Bool}
    {alloc len : ℕ} {g : ℕ→ℕ} (hr : r=.ok st')
    (hself : st' dest={
      neg := neg
      fixedDig := fixed
      alloc := alloc
      len := len
      dig := g }) (hlen : len ≤ alloc) (hg : Digits w g len) (hframe : ∀ a≠dest,st' a=st a) :
    Leaves w st dest (if neg then -(value w.base g len : ℕ) else (value w.base g len : ℕ)) r :=
  ⟨st',hr,by rw [hself]; exact ⟨hlen,hg.lt,hg.top⟩,by rw [hself]; rfl,hframe⟩

theorem setNeg_setLen_self (s : Store) (len : ℕ) (neg : Bool) :
    setNeg (setLen s dest len) dest neg dest={s dest with
      neg := neg
      len := len} := by
  rw [setNeg_setLen,update_self]

theorem setNeg_setLen_of_ne (s : Store) {a : ℕ} (h : a≠dest) (len : ℕ) (neg : Bool) :
    setNeg (setLen s dest len) dest neg a=s a := by
  rw [setNeg_setLen,update_of_ne h]

/-- The digit one is in the canonical form. -/
theorem normal_oneDig (w : DigSize) (st : Store) : Normal w (oneDig.mpz st) :=
  ⟨le_refl 1,fun _ _ => w.one_lt_base,fun _ _ => one_ne_zero⟩

theorem mag_oneDig (w : DigSize) (st : Store) : mag w (oneDig.mpz st)=1 := by
  change value w.base (fun _ => 1) 1=1
  rw [value_succ,value_zero,pow_zero,mul_one,zero_add]

/-- Only zero has no magnitude. -/
theorem mag_pos {x : Mpz} (h : Normal w x) (hlen : x.len≠0) : 0 < mag w x :=
  pos_of_ne_zero (fun hzero => hlen (h.digits.value_eq_zero_iff.mp hzero))

/-- `mpz_not_inpl` leaves the complement of a destination that holds the operand. -/
theorem notInplCopied_leaves (h : Normal w (st dest)) (hfixed : (st dest).fixedDig=false) :
    Leaves w st dest (Int.lnot (toInt w (st dest))) (notInplCopied w st dest) := by
  unfold notInplCopied
  by_cases hlen : (st dest).len=0
  · have hroom := need_le_grow st dest 1
    have hwrite : writeDig (grow st dest 1) dest 0 1=
        .ok (setDig (grow st dest 1) dest (Function.update (grow st dest 1 dest).dig 0 1)) :=
      if_pos hroom
    rw [if_pos hlen,bind_ok _ (mpzNeedDig_eq hfixed),bind_ok _ hwrite,lnot_eq,toInt_of_len hlen]
    have hone : value w.base (Function.update (grow st dest 1 dest).dig 0 1) 1=1 := by
      rw [value_succ,value_zero,update_self,pow_zero,mul_one,zero_add]
    have hdigits : Digits w (Function.update (grow st dest 1 dest).dig 0 1) 1 := by
      refine ⟨fun t ht => ?_,fun n hn => ?_⟩
      · rw [lt_one_iff.mp ht,update_self]
        exact w.one_lt_base
      · rw [show n=0 by omega,update_self]
        exact one_ne_zero
    have hself := @setNeg_setLen_self dest
      (setDig (grow st dest 1) dest (Function.update (grow st dest 1 dest).dig 0 1)) 1 true
    rw [setDig_self] at hself
    have hleaves := @leaves_of_store w st dest _ _ true _ _ _ _ rfl hself hroom hdigits
      (fun a ha => by rw [setNeg_setLen_of_ne _ ha,setDig_of_ne _ _ ha,grow_of_ne _ _ ha])
    rw [if_pos rfl,hone] at hleaves
    exact hleaves
  · rw [if_neg hlen,lnot_eq]
    have hpos := mag_pos h hlen
    by_cases hneg : (st dest).neg
    · have hself : setNeg st dest false dest={st dest with neg := false} :=
        update_self ..
      have hframe : ∀ a≠dest,setNeg st dest false a=st a := fun a ha =>
        update_of_ne ha ..
      have hone := mag_oneDig w (setNeg st dest false)
      obtain ⟨len,g,hrun,hl,hg,hv⟩ := @mpnSub_yields w (setNeg st dest false) dest
        (.object dest) oneDig (by rw [Source.mpz,hself]; exact ⟨h.alloc,h.lt,h.top⟩)
        (normal_oneDig w _) (by rw [Source.mpz,hself,hone]; exact hpos)
        (by rw [Source.mpz,hself]; exact h.alloc)
      rw [if_pos hneg,toInt,if_pos hneg]
      have hsub : mpnSub w (setNeg st dest false) dest (.object dest)
          (setNeg st dest false dest).len oneDig 1=
          .ok (len,setDig (setNeg st dest false) dest g) := hrun
      rw [bind_ok _ hsub]
      have hlast : setLen (setDig (setNeg st dest false) dest g) dest len dest=
          {st dest with
            neg := false
            len := len
            dig := g} := by
        rw [setLen,update_self,setDig_self,hself]
      have hleaves := @leaves_of_store w st dest _ _ _ _ _ _ _ rfl hlast
        (by rw [hself] at hl; exact hl) hg (fun a ha => by
          rw [setLen,update_of_ne ha,setDig_of_ne _ _ ha,hframe a ha])
      have hvalue : -(-(mag w (st dest) : ℤ))-1=
          if false=true then -((value w.base g len : ℕ) : ℤ)
            else ((value w.base g len : ℕ) : ℤ) := by
        rw [hv,Source.mpz,hself,hone]
        change -(-(mag w (st dest) : ℤ))-1=((mag w (st dest)-1 : ℕ) : ℤ)
        omega
      rw [hvalue]
      exact hleaves
    · have hone := mag_oneDig w (grow st dest ((st dest).len+1))
      have hyields := @mpnAdd_yields w (grow st dest ((st dest).len+1)) dest
        (.object dest) oneDig (h.grow dest _) (normal_oneDig w _)
        (by rw [Source.mpz,grow_len]; exact one_le_iff_ne_zero.mpr hlen)
        (by rw [Source.mpz,grow_len]; exact need_le_grow ..)
      have hresult := @result_of_yields w st dest _ _ _ hyields (fun _ => true) true
        (fun _ _ => rfl)
      have hvalue : -(mag w (st dest) : ℤ)-1=
          if true then -((mag w (st dest)+1 : ℕ) : ℤ) else ((mag w (st dest)+1 : ℕ) : ℤ) := by
        rw [if_pos rfl]
        omega
      rw [hone,Source.mpz,mag_grow] at hresult
      rw [if_neg hneg,bind_ok _ (mpzNeedDig_eq hfixed),toInt,if_neg hneg,hvalue]
      exact hresult

/-- `mpz_set` copies an object. -/
theorem mpzSet_eq (h : Normal w (st z)) (hne : dest≠z) (hfixed : (st dest).fixedDig=false) :
    ∃ st',mpzSet st dest z=.ok st'∧Normal w (st' dest)∧(st' dest).fixedDig=false∧
      toInt w (st' dest)=toInt w (st z)∧∀ a≠dest,st' a=st a := by
  have hroom := need_le_grow st dest (st z).len
  have hset : ∀ neg len,(setLen (setNeg (grow st dest (st z).len) dest neg) dest len) z=st z := by
    intro neg len
    rw [setLen,update_of_ne hne.symm,setNeg,update_of_ne hne.symm,grow_of_ne _ _ hne.symm]
  have hneg : (setNeg (grow st dest (st z).len) dest ((grow st dest (st z).len z).neg) z).len=
      (st z).len := by
    rw [setNeg,update_of_ne hne.symm,grow_len]
  have hself : ∀ neg len,(setLen (setNeg (grow st dest (st z).len) dest neg) dest len) dest=
      {grow st dest (st z).len dest with
        neg := neg
        len := len} := by
    intro neg len
    rw [setLen,update_self,setNeg,update_self]
  have hsame : ∀ t<(st z).len,
      (if t<(st z).len then (st z).dig t else (grow st dest (st z).len dest).dig t)=
        (st z).dig t := fun t ht => if_pos ht
  have hdigits : Digits w (fun t => if t<(st z).len then (st z).dig t
      else (grow st dest (st z).len dest).dig t) (st z).len := by
    refine ⟨fun t ht => ?_,fun n hn => ?_⟩
    · rw [hsame t ht]
      exact h.lt t ht
    · rw [hsame n (by omega)]
      exact h.top n hn
  rw [mpzSet,bind_ok _ (mpzNeedDig_eq hfixed)]
  dsimp only
  rw [hneg,hset,hself,grow_neg,if_pos ⟨h.alloc,hroom⟩]
  refine ⟨_,rfl,?_,?_,?_,fun a ha => ?_⟩
  · rw [setDig_self,hself]
    exact ⟨hroom,hdigits.lt,hdigits.top⟩
  · rw [setDig_self,hself,grow_self]
    exact hfixed
  · rw [setDig_self,hself,toInt,toInt,mag,mag]
    rw [value_congr hsame]
  · rw [setDig_of_ne _ _ ha,setLen,update_of_ne ha,setNeg,update_of_ne ha,grow_of_ne _ _ ha]

/-- `mpz_not_inpl` leaves the complement. -/
theorem mpzNotInpl_leaves (h : Normal w (st z)) (hfixed : (st dest).fixedDig=false) :
    Leaves w st dest (Int.lnot (toInt w (st z))) (mpzNotInpl w st dest z) := by
  unfold mpzNotInpl
  by_cases hne : dest≠z
  · obtain ⟨st',hset,hnormal,hfix,hint,hframe⟩ := mpzSet_eq h hne hfixed
    obtain ⟨st'',hrun,hresult⟩ := notInplCopied_leaves hnormal hfix
    rw [if_pos hne,bind_ok _ hset]
    refine ⟨st'',hrun,hresult.normal,?_,fun a ha => ?_⟩
    · rw [hresult.exact,hint]
    · rw [hresult.frame a ha,hframe a ha]
  · have heq : dest=z := Decidable.not_not.mp hne
    rw [if_neg hne,←heq]
    rw [←heq] at h
    exact notInplCopied_leaves h hfixed

end Complement

/-- The bitwise operations in place. -/
inductive BitOp
  /-- `mpz_and_inpl`. -/
  | and
  /-- `mpz_or_inpl`. -/
  | or
  /-- `mpz_xor_inpl`. -/
  | xor
  /-- `mpz_not_inpl` of the left operand. -/
  | not

/-- The function of an operation. -/
def BitOp.run (w : DigSize) : BitOp→Store→ℕ→ℕ→ℕ→Except Fault Store
  | .and => mpzAndInpl w
  | .or => mpzOrInpl w
  | .xor => mpzXorInpl w
  | .not => fun st dest lhs _ => mpzNotInpl w st dest lhs

/-- What an operation means in two's complement without an end. -/
def BitOp.meaning : BitOp→ℤ→ℤ→ℤ
  | .and => Int.land
  | .or => Int.lor
  | .xor => Int.xor
  | .not => fun a _ => Int.lnot a

/-- The stored signs give the same sign for the result as the signs of the integers, among
which a zero is never negative. -/
def BitOp.SignsFit (w : DigSize) (a b : Mpz) : BitOp→Prop
  | .and => (a.neg&&b.neg)=(isNeg (toInt w a)&&isNeg (toInt w b))
  | .or => (a.neg||b.neg)=(isNeg (toInt w a)||isNeg (toInt w b))
  | .xor => (a.neg^^b.neg)=(isNeg (toInt w a)^^isNeg (toInt w b))
  | .not => True

/-- Bitwise operations in place are exact when and only when the stored signs fit: they go
wrong for a zero with a negative sign whose sign decides that of the result. -/
theorem bitOp_exact_iff {w : DigSize} (op : BitOp) (o : Operands w) : Leaves w o.store o.dest
      (op.meaning (toInt w (o.store o.lhs)) (toInt w (o.store o.rhs)))
      (op.run w o.store o.dest o.lhs o.rhs)↔
      op.SignsFit w (o.store o.lhs) (o.store o.rhs) := by
  have hl := o.normalLhs
  have hr := o.normalRhs
  cases op with
  | not => exact ⟨fun _ => trivial,fun _ => mpzNotInpl_leaves hl o.growing⟩
  | and =>
    by_cases hlen : (o.store o.lhs).len<(o.store o.rhs).len
    · have hiff := andInplOrdered_iff hr hl (Nat.le_of_lt hlen) o.rhsLen o.growing
      rw [show Int.land _ _=_ from BitwiseInt.and.op_comm _ _,Bool.and_comm,
        Bool.and_comm (isNeg _)] at hiff
      rw [BitOp.run,mpzAndInpl,mostDigits,if_pos hlen]
      exact hiff
    · rw [BitOp.run,mpzAndInpl,mostDigits,if_neg hlen]
      exact andInplOrdered_iff hl hr (Nat.not_lt.mp hlen) o.lhsLen o.growing
  | or =>
    by_cases hlen : (o.store o.lhs).len<(o.store o.rhs).len
    · have hiff := orInplOrdered_iff hr hl (Nat.le_of_lt hlen) o.rhsLen o.growing
      rw [show Int.lor _ _=_ from BitwiseInt.or.op_comm _ _,Bool.or_comm,
        Bool.or_comm (isNeg _)] at hiff
      rw [BitOp.run,mpzOrInpl,mostDigits,if_pos hlen]
      exact hiff
    · rw [BitOp.run,mpzOrInpl,mostDigits,if_neg hlen]
      exact orInplOrdered_iff hl hr (Nat.not_lt.mp hlen) o.lhsLen o.growing
  | xor =>
    by_cases hlen : (o.store o.lhs).len<(o.store o.rhs).len
    · have hiff := xorInplOrdered_iff hr hl (Nat.le_of_lt hlen) o.rhsLen o.growing
      rw [show Int.xor _ _=_ from BitwiseInt.xor.op_comm _ _,Bool.xor_comm,
        Bool.xor_comm (isNeg _)] at hiff
      rw [BitOp.run,mpzXorInpl,mostDigits,if_pos hlen]
      exact hiff
    · rw [BitOp.run,mpzXorInpl,mostDigits,if_neg hlen]
      exact xorInplOrdered_iff hl hr (Nat.not_lt.mp hlen) o.lhsLen o.growing

/-- Digits of 16 bits, as on a machine of 32 bits. -/
def size16 : DigSize where
  size := 16
  dblSize := 32
  sizeBits := 32
  pos := by decide
  fits := by decide

/-- An object for a number of at most one digit. -/
def small (neg : Bool) (d : ℕ) : Mpz where
  neg := neg
  fixedDig := false
  alloc := 2
  len := if d=0 then 0 else 1
  dig := fun t => if t=0 then d else 0

/-- The object for a digit is in the canonical form. -/
theorem normal_small (neg : Bool) {d : ℕ} (h : d<65536) : Normal size16 (small neg d) := by
  refine ⟨?_,fun t _ => ?_,fun n hn => ?_⟩
  · change (if d=0 then 0 else 1) ≤ 2
    split <;> omega
  · change (if t=0 then d else 0)<65536
    split <;> omega
  · change (if d=0 then 0 else 1)=n+1 at hn
    change (if n=0 then d else 0)≠0
    split at hn
    · omega
    · rw [if_pos (by omega)]
      assumption

/-- A destination, minus five and a zero with a negative sign. -/
def minusFiveMinusZero : Operands size16 where
  store := fun a => if a=1 then small true 5 else if a=2 then small true 0 else small false 0
  dest := 0
  lhs := 1
  rhs := 2
  normalLhs := normal_small true (by decide)
  normalRhs := normal_small true (by decide)
  lhsLen := by decide
  rhsLen := by decide
  growing := rfl

/-- Minus five plus five leaves a zero with a negative sign, and the conjunction of minus
five with it is not zero. -/
theorem bitOp_not_exact : (mpzAddInpl size16 (fun a => small (decide (a=1)) 5) 0 1 2).map
        (fun st => ((st 0).neg,(st 0).len))=.ok (true,0)∧
      ¬∀ (w : DigSize) (op : BitOp) (o : Operands w),Leaves w o.store o.dest
        (op.meaning (toInt w (o.store o.lhs)) (toInt w (o.store o.rhs)))
        (op.run w o.store o.dest o.lhs o.rhs) := by
  refine ⟨by rfl,fun h => ?_⟩
  obtain ⟨st',hrun,hresult⟩ := h size16 .and minusFiveMinusZero
  have hvalue : (BitOp.and.run size16 minusFiveMinusZero.store 0 1 2).map
      (fun st => toInt size16 (st 0))=.ok (-65536) := by rfl
  have hzero : Int.land (toInt size16 (minusFiveMinusZero.store 1))
      (toInt size16 (minusFiveMinusZero.store 2))=0 := by decide +kernel
  change BitOp.and.run size16 minusFiveMinusZero.store 0 1 2=.ok st' at hrun
  rw [hrun] at hvalue
  have hleft : toInt size16 (st' 0)=-65536 := Except.ok.inj hvalue
  have hright : toInt size16 (st' 0)=0 := hresult.exact.trans hzero
  omega

end MicroPython.MpzBitwise
