import Mathlib.Tactic.Ring
import Mathlib.Tactic.Linarith

/-!
# Division digit by digit

A digit of a quotient is estimated from the leading digit of the divisor and the two
leading digits of what is left of the dividend. With the leading bit of the divisor set
the estimate is at most two too large.
-/

namespace MicroPython.LongDivision

open Nat

section Estimate

variable {B P D R : ℕ}

/-- The estimate of a quotient from the parts above a power of the base. -/
def estimate (P D R : ℕ) : ℕ := R/P/(D/P)

theorem estimate_mul_le (P D R : ℕ) : estimate P D R*(D/P*P) ≤ R :=
  calc estimate P D R*(D/P*P)=estimate P D R*(D/P)*P := (Nat.mul_assoc ..).symm
    _ ≤ R/P*P := mul_le_mul_right P (div_mul_le_self ..)
    _ ≤ R := div_mul_le_self ..

/-- The estimate is not too small. -/
theorem div_le_estimate (hlead : 0<D/P) : R/D ≤ estimate P D R := by
  rw [estimate,Nat.le_div_iff_mul_le hlead]
  have hP : 0<P := pos_of_ne_zero fun h => by
    rw [h,Nat.div_zero] at hlead
    exact absurd hlead (lt_irrefl 0)
  rw [Nat.le_div_iff_mul_le hP,Nat.mul_assoc]
  exact le_trans (mul_le_mul_left _ (div_mul_le_self ..)) (div_mul_le_self ..)

/-- The estimate exceeds the base by at most one. -/
theorem estimate_le (hP : 0<P) (hlead : B ≤ 2*(D/P)) (hR : R<B*D) (hB : 0<B) :
    estimate P D R ≤ B+1 := by
  have hD : D<(D/P+1)*P := by
    rw [Nat.mul_comm]
    exact lt_mul_div_succ D hP
  have htop : R/P<B*(D/P+1) := by
    rw [Nat.div_lt_iff_lt_mul hP,Nat.mul_assoc]
    exact lt_of_lt_of_le hR (mul_le_mul_left _ (Nat.le_of_lt hD))
  refine le_of_lt_succ ((Nat.div_lt_iff_lt_mul (by omega)).mpr ?_)
  refine lt_of_lt_of_le htop ?_
  rw [mul_succ,show (B+1).succ=B+2 from rfl,Nat.add_mul]
  omega

/-- The estimate is at most two too large. -/
theorem estimate_le_add (hP : 0<P) (hlead : B ≤ 2*(D/P)) (hR : R<B*D) (hB : 0<B) :
    estimate P D R ≤ R/D+2 := by
  have hle := estimate_mul_le P D R
  have hbound := estimate_le hP hlead hR hB
  have hD : 0<D := pos_of_ne_zero fun h => by
    rw [h,mul_zero] at hR
    exact absurd hR (not_lt_zero R)
  rw [←Nat.sub_le_iff_le_add,Nat.le_div_iff_mul_le hD]
  have hsplit : D=D/P*P+D%P := by
    rw [Nat.mul_comm]
    exact (div_add_mod D P).symm
  have hlow : D%P<P := mod_lt D hP
  generalize hl : D/P=lead
  generalize hw : D%P=low
  obtain ⟨e,he⟩ : ∃ e,estimate P D R=e := ⟨_,rfl⟩
  rw [hl,hw] at hsplit
  rw [hw] at hlow
  rw [hl] at hlead
  rw [he,hl] at hle
  rw [he] at hbound ⊢
  rcases lt_or_ge e 2 with hsmall | hbig
  · rw [show e-2=0 by omega,zero_mul]
    exact zero_le R
  · -- The low part of the divisor adds less than what two leading parts take away.
    have hpart : (e-2)*low ≤ 2*lead*P :=
      Nat.mul_le_mul (by omega) (Nat.le_of_lt hlow)
    have hall : e*(lead*P)=(e-2)*(lead*P)+2*lead*P := by
      rw [Nat.mul_assoc 2,←Nat.add_mul,Nat.sub_add_cancel hbig]
    rw [hsplit,mul_add]
    omega

end Estimate

/-- The borrows that arise when the estimate times a divisor of a number of digits is
subtracted are below the square of the base. -/
def Fits (B m D R : ℕ) : Prop :=
  ∀ k < m,estimate (B^(m-1)) D R*(D%B^(k+1)) ≤ R%B^(k+1)+(B*B-1)*B^k

instance (B m D R : ℕ) : Decidable (Fits B m D R) :=
  inferInstanceAs (Decidable (∀ k < m,_))

/-- What is left of the dividend with the next digit below a place. -/
def partialRem (B D v j : ℕ) : ℕ := v/B^j%(B*D)

/-- The borrows fit at each digit of the quotient. -/
def AllFit (B m D v n : ℕ) : Prop := ∀ j<n,Fits B m D (partialRem B D v j)

instance (B m D v n : ℕ) : Decidable (AllFit B m D v n) :=
  inferInstanceAs (Decidable (∀ j<n,_))

section Steps

variable {B D v n : ℕ}

/-- What is left after a digit of the quotient. -/
def stepRem (B D v n : ℕ) : ℕ := v/B^n%D*B^n+v%B^n

/-- A digit of the quotient times the divisor with what is left is the dividend. -/
theorem step_eq (B D v n : ℕ) : v=v/B^n/D*(D*B^n)+stepRem B D v n := by
  have hlow := div_add_mod v (B^n)
  have hhigh := div_add_mod (v/B^n) D
  calc v=B^n*(v/B^n)+v%B^n := hlow.symm
    _=B^n*(D*(v/B^n/D)+v/B^n%D)+v%B^n := by rw [hhigh]
    _=v/B^n/D*(D*B^n)+stepRem B D v n := by
      rw [stepRem]
      ring

/-- What is left is below the divisor at the place. -/
theorem stepRem_lt (hB : 0<B) (hD : 0<D) : stepRem B D v n<D*B^n := by
  have hlow := mod_lt v (Nat.pow_pos (n := n) hB)
  have hhigh := mod_lt (v/B^n) hD
  have hmul : (v/B^n%D+1)*B^n ≤ D*B^n := mul_le_mul_right _ hhigh
  rw [Nat.add_mul,one_mul] at hmul
  rw [stepRem]
  omega

/-- The quotient has the digit on top of the quotient of what is left. -/
theorem div_step (hD : 0<D) : v/D=stepRem B D v n/D+v/B^n/D*B^n := by
  have heq := step_eq B D v n
  calc v/D=(stepRem B D v n+D*(v/B^n/D*B^n))/D := by
        congr 1
        rw [add_comm,mul_left_comm]
        exact heq
    _=stepRem B D v n/D+v/B^n/D*B^n := add_mul_div_left _ _ hD

/-- The remainder is that of what is left. -/
theorem mod_step (B D v n : ℕ) : v%D=stepRem B D v n%D := by
  have heq := step_eq B D v n
  calc v%D=(stepRem B D v n+D*(v/B^n/D*B^n))%D := by
        congr 1
        rw [add_comm,mul_left_comm]
        exact heq
    _=stepRem B D v n%D := add_mul_mod_self_left ..

/-- The digits that follow see the same dividend below the place. -/
theorem partialRem_step (hB : 0<B) {j : ℕ} (hj : j<n) :
    partialRem B D (stepRem B D v n) j=partialRem B D v j := by
  have heq := step_eq B D v n
  obtain ⟨k,rfl⟩ := Nat.exists_eq_add_of_lt hj
  have hpow : v/B^(j+k+1)/D*(D*B^(j+k+1))=B^j*(B*D*(v/B^(j+k+1)/D*B^k)) := by
    rw [pow_succ,pow_add]
    ring
  have hdiv : v/B^j=stepRem B D v (j+k+1)/B^j+B*D*(v/B^(j+k+1)/D*B^k) := by
    calc v/B^j=(stepRem B D v (j+k+1)+B^j*(B*D*(v/B^(j+k+1)/D*B^k)))/B^j := by
          congr 1
          rw [←hpow,add_comm]
          exact heq
      _=_ := add_mul_div_left _ _ (Nat.pow_pos hB)
  rw [partialRem,partialRem,hdiv,add_mul_mod_self_left]

/-- The first dividend is not reduced. -/
theorem partialRem_top (hB : 0<B) (hv : v<D*B^(n+1)) : partialRem B D v n=v/B^n := by
  rw [partialRem]
  refine Nat.mod_eq_of_lt ((Nat.div_lt_iff_lt_mul (Nat.pow_pos hB)).mpr ?_)
  rw [Nat.mul_comm B,Nat.mul_assoc,←pow_succ']
  exact hv

end Steps

end MicroPython.LongDivision
