import MicroPython.ParseInteger

/-!
# Small integers

The operations on small integers are computed in the machine word, which has one bit more. An
intermediate result that does not fit the word is an overflow, and so is a division by zero.
-/

namespace MicroPython.SmallInt

open VarInt ParseInteger
open Option (bind_eq_bind bind_some map_some)

/-- An integer of the machine word, or nothing on overflow. -/
def checked (bits : ℕ) (n : ℤ) : Option ℤ :=
  if -2^(bits-1) ≤ n∧n<2^(bits-1) then some n else none

/-- The division of the machine. -/
def divide (bits : ℕ) (a b : ℤ) : Option ℤ := if b=0 then none else checked bits (a.tdiv b)

/-- `mp_small_int_mul_overflow` -/
def mpSmallIntMulOverflow (bits : ℕ) (x y : ℤ) : Option Bool :=
  if 0<x then
    if 0<y then (divide bits (smallIntMax bits) y).map fun q => decide (q<x)
    else (divide bits (smallIntMin bits) x).map fun q => decide (y<q)
  else
    if 0<y then (divide bits (smallIntMin bits) y).map fun q => decide (x<q)
    else if x≠0 then (divide bits (smallIntMax bits) x).map fun q => decide (y<q)
    else some false

/-- `mp_small_int_modulo` -/
def mpSmallIntModulo (bits : ℕ) (dividend divisor : ℤ) : Option ℤ :=
  if divisor=0 then none
  else (checked bits (dividend.tmod divisor)).bind fun dividend =>
    if dividend<0∧0<divisor∨0<dividend∧divisor<0 then checked bits (dividend+divisor)
    else some dividend

/-- `mp_small_int_floor_divide` -/
def mpSmallIntFloorDivide (bits : ℕ) (num denom : ℤ) : Option ℤ := do
  let num←
    if 0 ≤ num then
      if denom<0 then
        checked bits (num+(←checked bits ((←checked bits (-denom))-1)))
      else some num
    else if 0 ≤ denom then
      checked bits (num+(←checked bits ((←checked bits (-denom))+1)))
    else some num
  divide bits num denom

variable {bits : ℕ} {x y : ℤ}

/-- Twice the small integers are in the word. -/
theorem checked_eq {n : ℤ} (hbits : 2 ≤ bits) (h : -(2*2^(bits-2)) ≤ n) (h' : n<2*2^(bits-2)) :
    checked bits n=some n := by
  have hword : (2^(bits-1) : ℤ)=2*2^(bits-2) := by
    rw [←pow_succ',show bits-2+1=bits-1 by omega]
  rw [checked,hword,if_pos ⟨h,h'⟩]

theorem divide_eq (hbits : 2 ≤ bits) (hy : y≠0) (h : -(2*2^(bits-2))<x) (h' : x<2*2^(bits-2)) :
    divide bits x y=some (x.tdiv y) := by
  have hle : (x.tdiv y).natAbs ≤ x.natAbs := Int.natAbs_tdiv_le_natAbs x y
  rw [divide,if_neg hy,checked_eq hbits (by omega) (by omega)]

/-- A truncated quotient and remainder. -/
theorem tdiv_cases (x : ℤ) (hy : y≠0) : x.tmod y+y*x.tdiv y=x∧
    (0 ≤ x → 0 ≤ x.tmod y)∧(x ≤ 0 → x.tmod y ≤ 0)∧(x.tmod y).natAbs<y.natAbs := by
  have hneg := Int.neg_tmod x y
  refine ⟨Int.tmod_add_mul_tdiv x y,Int.tmod_nonneg y,fun hx => ?_,?_⟩
  · have hpos := Int.tmod_nonneg y (neg_nonneg.mpr hx)
    omega
  · rw [Int.natAbs_tmod]
    exact Nat.mod_lt _ (Int.natAbs_pos.mpr hy)

theorem floor_unique {q r : ℤ} (hy : y≠0) (h : r+y*q=x) (hpos : 0<y → 0 ≤ r∧r<y)
    (hneg : y<0 → y<r∧r ≤ 0) : x.fdiv y=q∧x.fmod y=r := by
  rcases lt_or_gt_of_ne hy with hlt | hgt
  · exact (Int.fdiv_fmod_unique' hlt).mpr ⟨h,hneg hlt⟩
  · exact (Int.fdiv_fmod_unique hgt).mpr ⟨h,hpos hgt⟩

/-- The floor adjustment keeps the numerator in the word, and the quotient is rounded down. -/
theorem floorDivide_eq (hbits : 2 ≤ bits) (hx : IsSmallInt bits x) (hy : IsSmallInt bits y)
    (hne : y≠0) : mpSmallIntFloorDivide bits x y=some (x.fdiv y) := by
  obtain ⟨hx,hx'⟩ := hx
  obtain ⟨hy,hy'⟩ := hy
  have hdivide : ∀ a r : ℤ,-(2*2^(bits-2))<a → a<2*2^(bits-2) → r=a.tmod y+(x-a) →
      (0<y → 0 ≤ r∧r<y) → (y<0 → y<r∧r ≤ 0) → divide bits a y=some (x.fdiv y) := by
    intro a r ha ha' hr hpos hneg
    have hcases := (tdiv_cases a hne).1
    rw [divide_eq hbits hne ha ha',(@floor_unique x y (a.tdiv y) r hne (by omega) hpos hneg).1]
  rw [mpSmallIntFloorDivide]
  by_cases hnum : 0 ≤ x
  case pos =>
    by_cases hdenom : y<0
    case pos =>
      have hadjusted := tdiv_cases (x+(-y-1)) hne
      simp only [if_pos hnum,if_pos hdenom,@checked_eq bits (-y) hbits (by omega) (by omega),
        @checked_eq bits (-y-1) hbits (by omega) (by omega),
        @checked_eq bits (x+(-y-1)) hbits (by omega) (by omega),bind_eq_bind,
        bind_some]
      exact hdivide _ _ (by omega) (by omega) rfl (by omega) (by omega)
    case neg =>
      have hplain := tdiv_cases x hne
      simp only [if_pos hnum,if_neg hdenom,bind_eq_bind,bind_some]
      exact hdivide _ _ (by omega) (by omega) rfl (by omega) (by omega)
  case neg =>
    by_cases hdenom : 0 ≤ y
    case pos =>
      have hadjusted := tdiv_cases (x+(-y+1)) hne
      simp only [if_neg hnum,if_pos hdenom,@checked_eq bits (-y) hbits (by omega) (by omega),
        @checked_eq bits (-y+1) hbits (by omega) (by omega),
        @checked_eq bits (x+(-y+1)) hbits (by omega) (by omega),bind_eq_bind,
        bind_some]
      exact hdivide _ _ (by omega) (by omega) rfl (by omega) (by omega)
    case neg =>
      have hplain := tdiv_cases x hne
      simp only [if_neg hnum,if_neg hdenom,bind_eq_bind,bind_some]
      exact hdivide _ _ (by omega) (by omega) rfl (by omega) (by omega)

/-- The remainder gets the sign of the divisor. -/
theorem modulo_eq (hbits : 2 ≤ bits) (hx : IsSmallInt bits x) (hy : IsSmallInt bits y)
    (hne : y≠0) : mpSmallIntModulo bits x y=some (x.fmod y) := by
  obtain ⟨hx,hx'⟩ := hx
  obtain ⟨hy,hy'⟩ := hy
  obtain ⟨hsplit,hpos,hneg,hlt⟩ := tdiv_cases x hne
  rw [mpSmallIntModulo,if_neg hne,checked_eq hbits (by omega) (by omega),bind_some]
  split
  case isTrue hsign =>
    have hfloor := @floor_unique x y (x.tdiv y-1) (x.tmod y+y) hne (by rw [mul_sub]; omega)
      (by omega) (by omega)
    rw [checked_eq hbits (by omega) (by omega),hfloor.2]
  case isFalse hsign =>
    rw [(floor_unique hne hsplit (by omega) (by omega)).2]

theorem tdiv_lt_iff {m d n : ℤ} (hm : 0 ≤ m) (hd : 0<d) : m.tdiv d<n↔m<n*d := by
  rw [Int.tdiv_eq_ediv_of_nonneg hm,Int.ediv_lt_iff_lt_mul hd]

/-- No division of the test overflows. -/
theorem mulOverflow_checked (hbits : 2 ≤ bits) (x y : ℤ) :
    mpSmallIntMulOverflow bits x y=some (ParseInteger.mpSmallIntMulOverflow bits x y) := by
  have hpow : (1 : ℤ) ≤ 2^(bits-2) := one_le_pow₀ (by norm_num)
  have hmax : ∀ d : ℤ,d≠0 → divide bits (smallIntMax bits) d=
      some ((smallIntMax bits).tdiv d) := fun d hd => divide_eq hbits hd
    (by rw [smallIntMax]; omega) (by rw [smallIntMax]; omega)
  have hmin : ∀ d : ℤ,d≠0 → divide bits (smallIntMin bits) d=
      some ((smallIntMin bits).tdiv d) := fun d hd => divide_eq hbits hd
    (by rw [smallIntMin]; omega) (by rw [smallIntMin]; omega)
  rw [mpSmallIntMulOverflow,ParseInteger.mpSmallIntMulOverflow]
  split_ifs with hx hy hy hzero
  · rw [hmax y hy.ne',map_some]
  · rw [hmin x hx.ne',map_some]
  · rw [hmin y hy.ne',map_some]
  · simp [hmax x hzero,hzero]
  · simp [not_not.mp hzero]

/-- Each of the four tests compares one factor with the bound over the other. -/
theorem mulOverflow_eq (bits : ℕ) (x y : ℤ) :
    ParseInteger.mpSmallIntMulOverflow bits x y=decide ¬IsSmallInt bits (x*y) := by
  have hpow : (1 : ℤ) ≤ 2^(bits-2) := one_le_pow₀ (by norm_num)
  have hmax : 0 ≤ smallIntMax bits := by rw [smallIntMax]; omega
  rw [ParseInteger.mpSmallIntMulOverflow]
  split_ifs with hx hy hy <;> rw [decide_eq_decide,IsSmallInt]
  · have hless := @tdiv_lt_iff _ y x hmax hy
    have hsign := mul_pos hx hy
    rw [hless,smallIntMax]
    omega
  · have hless := @tdiv_lt_iff (2^(bits-2)) x (-y) (by omega) hx
    have hsign := mul_nonpos_of_nonneg_of_nonpos hx.le (not_lt.mp hy)
    rw [smallIntMin,Int.neg_tdiv,lt_neg,hless,neg_mul,mul_comm y x]
    omega
  · have hless := @tdiv_lt_iff (2^(bits-2)) y (-x) (by omega) hy
    have hsign := mul_nonpos_of_nonpos_of_nonneg (not_lt.mp hx) hy.le
    rw [smallIntMin,Int.neg_tdiv,lt_neg,hless,neg_mul]
    omega
  · rcases eq_or_ne x 0 with rfl | hzero
    · simp
    · have hless := @tdiv_lt_iff _ (-x) (-y) hmax (by omega)
      have hsign := mul_nonneg_of_nonpos_of_nonpos (not_lt.mp hx) (not_lt.mp hy)
      rw [Int.tdiv_neg,neg_mul_neg,neg_lt_neg_iff,mul_comm y x] at hless
      rw [and_iff_right hzero,hless,smallIntMax]
      omega

/-- The operations on small integers neither overflow nor miss an overflow, and division rounds
down. -/
theorem smallInt_python (hbits : 2 ≤ bits) (hx : IsSmallInt bits x) (hy : IsSmallInt bits y) :
    mpSmallIntMulOverflow bits x y=some (decide ¬IsSmallInt bits (x*y))∧
      (y≠0 → ∃ q r,mpSmallIntFloorDivide bits x y=some q∧mpSmallIntModulo bits x y=some r∧
        x=y*q+r∧(0<y → 0 ≤ r∧r<y)∧(y<0 → y<r∧r ≤ 0)) := by
  have hover := (mulOverflow_checked hbits x y).trans (congrArg some (mulOverflow_eq bits x y))
  refine ⟨hover,fun hne => ⟨_,_,floorDivide_eq hbits hx hy hne,
    modulo_eq hbits hx hy hne,(Int.mul_fdiv_add_fmod x y).symm,fun hpos => ?_,fun hneg => ?_⟩⟩
  · exact ((Int.fdiv_fmod_unique hpos).mp ⟨rfl,rfl⟩).2
  · exact ((Int.fdiv_fmod_unique' hneg).mp ⟨rfl,rfl⟩).2

/-- The smallest of the small integers of 31 bits over minus one leaves their range, but not the
word. -/
theorem smallInt_lowest : mpSmallIntMulOverflow 32 (-2^30) (-1)=some true∧
    ∃ q r,mpSmallIntFloorDivide 32 (-2^30) (-1)=some q∧mpSmallIntModulo 32 (-2^30) (-1)=some r∧
      -2^30=-1*q+r := by
  obtain ⟨hover,hlaw⟩ := @smallInt_python 32 (-2^30) (-1) (by decide) (by decide) (by decide)
  obtain ⟨q,r,hdivide,hmodulo,hsplit,_⟩ := hlaw (by decide)
  exact ⟨hover.trans (by decide),q,r,hdivide,hmodulo,hsplit⟩

end MicroPython.SmallInt
