import Mathlib.Data.Int.Bitwise
import Mathlib.Tactic.Positivity
import MicroPython.Positional

/-!
# Integers as endless rows of bits

The low bits of an integer are its remainder by a power of two. An operation on bits
acts on the low bits of integers as it does on natural numbers, and what it gives has a
sign that comes from the signs of the operands.
-/

namespace MicroPython.TwosComplement

open Nat Positional

/-- The low bits of an integer. -/
def low (m : ℕ) (z : ℤ) : ℕ := (z%2^m).toNat

/-- The low bits fit. -/
theorem low_lt (m : ℕ) (z : ℤ) : low m z<2^m := by
  have hcast : ((2^m : ℕ) : ℤ)=2^m := by push_cast; rfl
  rw [low]
  omega

theorem low_ofNat (m n : ℕ) : low m n=n%2^m := by
  have hcast : ((n : ℤ)%2^m)=((n%2^m : ℕ) : ℤ) := by push_cast; rfl
  rw [low,hcast,Int.toNat_natCast]

/-- The low bits of a negative number complete those of its complement. -/
theorem low_negSucc (m n : ℕ) : low m (Int.negSucc n)=2^m-(n%2^m+1) := by
  have hsplit := mod_add_div n (2^m)
  have hcast : ((2^m : ℕ) : ℤ)=2^m := by push_cast; rfl
  have hform : Int.negSucc n=((2^m-(n%2^m+1) : ℕ) : ℤ)+(2^m)*(-(n/2^m : ℕ)-1) := by
    rw [Int.negSucc_eq,←hcast]
    have hring : ((2^m : ℕ) : ℤ)*(-((n/2^m : ℕ) : ℤ)-1)=
        -((2^m*(n/2^m) : ℕ) : ℤ)-((2^m : ℕ) : ℤ) := by
      push_cast
      ring
    rw [hring]
    omega
  rw [low,hform,Int.add_mul_emod_self_left,Int.emod_eq_of_lt (by omega) (by omega),
    Int.toNat_natCast]

/-- The low bits one by one. -/
theorem testBit_low (m : ℕ) (z : ℤ) (i : ℕ) :
    (low m z).testBit i=(decide (i < m)&&z.testBit i) := by
  cases z with
  | ofNat n =>
    rw [Int.ofNat_eq_natCast,low_ofNat,testBit_mod_two_pow]
    rfl
  | negSucc n =>
    rw [low_negSucc,Nat.testBit_two_pow_sub_succ (Nat.mod_lt _ (Nat.two_pow_pos m)),
      testBit_mod_two_pow]
    by_cases hi : i < m
    · simp only [hi,decide_true,Bool.true_and]
      rfl
    · simp only [hi,decide_false,Bool.false_and]

/-- The sign of an integer. -/
def isNeg : ℤ→Bool
  | .ofNat _ => false
  | .negSucc _ => true

theorem isNeg_iff (z : ℤ) : isNeg z=true↔z<0 := by
  cases z with
  | ofNat n => exact ⟨(fun h => nomatch h),
    fun h => absurd h (Int.not_lt.mpr (Int.natCast_nonneg n))⟩
  | negSucc n => exact ⟨fun _ => Int.negSucc_lt_zero n,fun _ => rfl⟩

/-- An operation on integers that works bit by bit. -/
structure BitwiseInt where
  low : Bitwise
  op : ℤ→ℤ→ℤ
  /-- Each bit of the result comes from the bits at its place. -/
  testBit_op : ∀ x y i,(op x y).testBit i=low.bit (x.testBit i) (y.testBit i)
  /-- The sign of the result comes from the signs. -/
  isNeg_op : ∀ x y,isNeg (op x y)=low.bit (isNeg x) (isNeg y)
  /-- The operands may be exchanged. -/
  op_comm : ∀ x y,op x y=op y x

/-- The conjunction. -/
def BitwiseInt.and : BitwiseInt where
  low := Bitwise.and
  op := Int.land
  op_comm := fun x y => by
    cases x <;> cases y <;> simp only [Int.land,Nat.land_comm,Nat.lor_comm]
  testBit_op := fun x y i => Int.testBit_land x y i
  isNeg_op := fun x y => by cases x <;> cases y <;> rfl

/-- The disjunction. -/
def BitwiseInt.or : BitwiseInt where
  low := Bitwise.or
  op := Int.lor
  op_comm := fun x y => by
    cases x <;> cases y <;> simp only [Int.lor,Nat.land_comm,Nat.lor_comm]
  testBit_op := fun x y i => Int.testBit_lor x y i
  isNeg_op := fun x y => by cases x <;> cases y <;> rfl

/-- The exclusive disjunction. -/
def BitwiseInt.xor : BitwiseInt where
  low := Bitwise.xor
  op := Int.xor
  op_comm := fun x y => by
    cases x <;> cases y <;> simp only [Int.xor,Nat.xor_comm]
  testBit_op := fun x y i => Int.testBit_lxor x y i
  isNeg_op := fun x y => by cases x <;> cases y <;> rfl

theorem BitwiseInt.low_op (b : BitwiseInt) (m : ℕ) (x y : ℤ) : TwosComplement.low m (b.op x y)=
      b.low.op (TwosComplement.low m x) (TwosComplement.low m y) := by
  refine eq_of_testBit_eq (fun i => ?_)
  rw [b.low.testBit_op,testBit_low,testBit_low,testBit_low,b.testBit_op]
  by_cases hi : i < m
  · simp only [hi,decide_true,Bool.true_and]
  · simp only [hi,decide_false,Bool.false_and,b.low.bit_false]

/-- An integer is within the reach of some bits when all bits above them are its sign. -/
def Within (m : ℕ) (z : ℤ) : Prop := -2^m ≤ z∧z<2^m

/-- Above its reach an integer has its sign in every bit. -/
theorem within_iff {m : ℕ} {z : ℤ} : Within m z↔∀ i,m ≤ i → z.testBit i=isNeg z := by
  have hcast : ((2^m : ℕ) : ℤ)=2^m := by push_cast; rfl
  have hpos := Nat.two_pow_pos m
  rw [Within,←hcast]
  cases z with
  | ofNat n =>
    rw [Int.ofNat_eq_natCast]
    refine ⟨fun h i hi => ?_,fun h => ⟨by omega,?_⟩⟩
    · exact testBit_lt_two_pow (lt_of_lt_of_le (by omega : n<2^m)
        (Nat.pow_le_pow_right (Nat.succ_pos 1) hi))
    · have hlt := lt_pow_two_of_testBit n (fun i hi => h i hi)
      omega
  | negSucc n =>
    rw [Int.negSucc_eq]
    refine ⟨fun h i hi => ?_,fun h => ⟨?_,by omega⟩⟩
    · have hbit := testBit_lt_two_pow (lt_of_lt_of_le (by omega : n<2^m)
        (Nat.pow_le_pow_right (Nat.succ_pos 1) hi))
      exact congrArg Bool.not hbit
    · have hlt := lt_pow_two_of_testBit n (fun i hi => by
        have hbit : (!n.testBit i)=true := h i hi
        exact Bool.not_eq_true' _ ▸ hbit)
      omega

theorem BitwiseInt.within_op (b : BitwiseInt) {m : ℕ} {x y : ℤ} (hx : Within m x)
    (hy : Within m y) : Within m (b.op x y) := by
  rw [within_iff] at hx hy ⊢
  intro i hi
  rw [b.testBit_op,hx i hi,hy i hi,b.isNeg_op]

/-- An integer within reach is its low bits, less the next power when it is negative. -/
theorem eq_low {m : ℕ} {z : ℤ} (h : Within m z) : z=low m z-(if isNeg z then 2^m else 0) := by
  have hpos : (0 : ℤ)<2^m := by positivity
  have hlow : ((low m z : ℕ) : ℤ)=z%2^m := Int.toNat_of_nonneg (Int.emod_nonneg z hpos.ne')
  rw [hlow]
  split
  case isTrue hneg =>
    rw [isNeg_iff] at hneg
    have hshift : (z+2^m)%2^m=z%2^m := Int.add_emod_right ..
    rw [←hshift,Int.emod_eq_of_lt (by have := h.1; omega) (by omega)]
    omega
  case isFalse hge =>
    rw [isNeg_iff] at hge
    rw [Int.emod_eq_of_lt (by omega) h.2]
    omega

/-- A small number that differs from an integer by a multiple of the power is its low
bits. -/
theorem low_of_eq {m x : ℕ} {z q : ℤ} (hx : x<2^m) (h : (x : ℤ)=z+2^m*q) : low m z=x := by
  have hcast : ((2^m : ℕ) : ℤ)=2^m := by push_cast; rfl
  have hmod : z%2^m=x := by
    rw [←Int.add_mul_emod_self_left z (2^m) q,←h]
    exact Int.emod_eq_of_lt (by omega) (by omega)
  rw [low,hmod,Int.toNat_natCast]

/-- The low bits, taken with a sign, are an integer within reach exactly when the sign is
its own. -/
theorem signed_low_iff {m : ℕ} {z : ℤ} (h : Within m z) (neg : Bool) :
    (if neg then -((2^m-low m z : ℕ) : ℤ) else (low m z : ℕ))=z↔neg=isNeg z := by
  have hz := eq_low h
  have hlt := low_lt m z
  have hcast : ((2^m : ℕ) : ℤ)=2^m := by push_cast; rfl
  rw [←hcast] at hz
  cases neg <;> cases hneg : isNeg z <;> simp only [hneg,if_true,if_false,Bool.false_eq_true,
    Bool.true_eq_false,iff_true,iff_false] at hz ⊢ <;> omega

end MicroPython.TwosComplement
