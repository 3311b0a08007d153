import MicroPython.MpzDivmod
import Mathlib.Data.Rat.Floor
import Mathlib.Algebra.Order.Field.Power

/-!
# Integers from floating point numbers

`mpz_set_from_float` takes the sign, the exponent and the fraction of a single-precision
number apart and writes the digits of its integer part.
-/

namespace MicroPython.MpzFloat

open Nat Function Positional MpzDigits MpzArith MpzBitwise MpzShift MpzDivmod

/-- `u.p.frc`, the bits of the fraction. -/
def fltFrc (src : UInt32) : ℕ := src.toNat%2^23

/-- `u.p.exp`, the exponent with its bias. -/
def fltExp (src : UInt32) : ℕ := src.toNat/2^23%2^8

/-- `u.p.sgn`. -/
def fltSgn (src : UInt32) : Bool := src.toNat/2^31==1

/-- A digit of the fraction. -/
def frcDigit (w : DigSize) (_ : Store) (_ frc : ℕ) : Except Fault (ℕ×ℕ) :=
  .ok (frc&&&w.digMask,frc>>>w.size)

/-- The rest of the fraction is stored from a digit on. For digits that are wider than the
fraction it is at most one digit. -/
def storeFrc (w : DigSize) (st : Store) (z frc digInd digCnt : ℕ) : Except Fault Store :=
  if w.size<24 then
    -- the loop only ends at the count of the digits
    if digCnt<digInd then .error .digits
    else do
      let r ← digitLoop z (frcDigit w) (digCnt-digInd) digInd frc st
      .ok r.2
  else if digInd≠digCnt then writeDig st z digInd frc
  else .ok st

/-- `mpz_set_from_float` for a number of at least two, from the fraction and the exponent
without its bias. -/
def setTwoOrMore (w : DigSize) (st : Store) (z frc adj : ℕ) : Except Fault Store := do
  let digCnt := (adj+1+(w.size-1))/w.size
  let rem := adj%w.size
  let shft := if adj<23 then 0 else (rem+2^32-23)%2^32%w.size
  let digInd := if adj<23 then 0 else (adj-23)/w.size
  let frc := if adj<23 then (frc|||2^23)>>>(23-adj) else frc|||2^23
  let st ← mpzNeedDig st z digCnt
  let st := setLen st z digCnt
  let st := if digInd≠0 then zeroDigs st z digInd else st
  if shft≠0 then do
    let st ← writeDig st z digInd (((frc<<<shft)%2^32)&&&w.digMask)
    storeFrc w st z (frc>>>(w.size-shft)) (digInd+1) digCnt
  else storeFrc w st z frc digInd digCnt

/-- `mpz_set_from_float`, for the bits of a `float`. -/
def mpzSetFromFloat (w : DigSize) (st : Store) (z : ℕ) (src : UInt32) : Except Fault Store :=
  let st := setNeg st z (fltSgn src)
  if fltExp src=0 then mpzSetFromInt w st z 0
  -- infinities and what is no number are left to the caller
  else if fltExp src=2^8-1 then mpzSetFromInt w st z 0
  else if fltExp src<127 then mpzSetFromInt w st z 0
  else if fltExp src=127 then mpzSetFromInt w st z 1
  else setTwoOrMore w st z (fltFrc src) (fltExp src-127)

/-- The magnitude of the number a bit pattern with a finite value represents. -/
def absValue (src : UInt32) : ℚ :=
  if fltExp src=0 then (fltFrc src : ℚ)/2^149
  else (2^23+fltFrc src : ℚ)*(2 : ℚ)^((fltExp src : ℤ)-150)

/-- The number that is represented. -/
def floatValue (src : UInt32) : ℚ := (if fltSgn src then -1 else 1)*absValue src

/-- A number truncated towards zero. -/
def truncate (q : ℚ) : ℤ := if 0 ≤ q then ⌊q⌋ else ⌈q⌉

section Digits

variable {w : DigSize} {st : Store} {z V : ℕ}

/-- The fraction below a place of the number is stored up to the end. -/
theorem storeFrc_eq {i n : ℕ} (hle : i ≤ n) (halloc : n ≤ (st z).alloc) (hV : V<w.base^n)
    (hwide : 24 ≤ w.size → n ≤ i+1) :
    storeFrc w (written st z i (digitAt w.base V)) z (V/w.base^i) i n=
      .ok (written st z n (digitAt w.base V)) := by
  rw [storeFrc]
  split
  case isTrue hsize =>
    have hbody : ∀ s,i ≤ s → s < i+(n-i) →
        frcDigit w (written st z s (digitAt w.base V)) s (V/w.base^s)=
          .ok (digitAt w.base V s,V/w.base^(s+1)) := fun s _ _ => by
      rw [frcDigit,DigSize.digMask,and_two_pow_sub_one_eq_mod,Nat.shiftRight_eq_div_pow,
        Nat.div_div_eq_div_mul,pow_succ]
      rfl
    have hloop := @digitLoop_written _ st z (frcDigit w) (digitAt w.base V)
      (fun s => V/w.base^s) (n-i) i hbody (by omega)
    rw [Nat.add_sub_cancel' hle] at hloop
    rw [if_neg (Nat.not_lt.mpr hle),bind_ok _ hloop]
  case isFalse hsize =>
    split
    case isTrue hne =>
      have hn : n=i+1 := by omega
      rw [hn,pow_succ,Nat.mul_comm] at hV
      have hdigit : V/w.base^i=digitAt w.base V i :=
        (Nat.mod_eq_of_lt (Nat.div_lt_of_lt_mul (by rw [Nat.mul_comm]; exact hV))).symm
      rw [hdigit,hn]
      exact writeDig_written (by omega)
    case isFalse heq => rw [Decidable.not_not.mp heq]

/-- The digits below a place are zeros. -/
theorem zeroDigs_written {i : ℕ} (h : ∀ t < i,digitAt w.base V t=0) :
    (if i≠0 then zeroDigs st z i else st)=written st z i (digitAt w.base V) := by
  have hdig : (fun t => if t < i then 0 else (st z).dig t)=
      (fun t => if t < i then digitAt w.base V t else (st z).dig t) := by
    funext t
    split
    case isTrue ht => exact (h t ht).symm
    case isFalse => rfl
  split
  case isTrue =>
    rw [zeroDigs,hdig]
    rfl
  case isFalse hi =>
    rw [Decidable.not_not.mp hi]
    exact (setDig_dig st z).symm

/-- The shift within a digit, in the arithmetic of an unsigned word. -/
theorem shft_eq (hdvd : w.size∣32) {adj : ℕ} (h : 23 ≤ adj) :
    (adj%w.size+2^32-23)%2^32%w.size=(adj-23)%w.size := by
  have hpow : w.size∣2^32 := hdvd.trans ⟨2^27,by decide⟩
  obtain ⟨c,hc⟩ := hpow
  have hadj := div_add_mod adj w.size
  rw [mod_mod_of_dvd _ ⟨c,hc⟩]
  have hsum : adj%w.size+2^32-23+w.size*(adj/w.size)=adj-23+w.size*c := by omega
  rw [←add_mul_mod_self_left (adj%w.size+2^32-23) w.size (adj/w.size),hsum,add_mul_mod_self_left]

end Digits

section WholePart

variable {w : DigSize} {st : Store} {z frc adj : ℕ}

/-- The integer part of a number of at least one. -/
def wholePart (frc adj : ℕ) : ℕ :=
  if adj<23 then (2^23+frc)/2^(23-adj) else (2^23+frc)*2^(adj-23)

/-- The exponent counts the bits of the integer part. -/
theorem wholePart_bounds (hfrc : frc<2^23) :
    2^adj ≤ wholePart frc adj∧wholePart frc adj<2^(adj+1) := by
  rw [wholePart]
  split
  case isTrue h =>
    have hlow : 2^adj*2^(23-adj)=2^23 := by rw [←pow_add,Nat.add_sub_cancel' h.le]
    have hhigh : 2^(adj+1)*2^(23-adj)=2^24 := by
      rw [pow_succ,mul_right_comm,hlow]
      rfl
    have hpos : 0<2^(23-adj) := Nat.two_pow_pos _
    refine ⟨?_,?_⟩
    · rw [le_div_iff_mul_le hpos,hlow]
      omega
    · rw [div_lt_iff_lt_mul hpos,hhigh]
      omega
  case isFalse h =>
    have hlow : 2^23*2^(adj-23)=2^adj := by
      rw [←pow_add,Nat.add_sub_cancel' (Nat.not_lt.mp h)]
    have hhigh : 2^24*2^(adj-23)=2^(adj+1) := by
      rw [←pow_add,show 24+(adj-23)=adj+1 by omega]
    refine ⟨?_,?_⟩
    · rw [←hlow]
      exact Nat.mul_le_mul_right _ (Nat.le_add_right ..)
    · rw [←hhigh]
      exact Nat.mul_lt_mul_of_pos_right (by omega) (Nat.two_pow_pos _)

theorem digCnt_eq (w : DigSize) (adj : ℕ) : (adj+1+(w.size-1))/w.size=adj/w.size+1 := by
  have hpos := w.pos
  rw [show adj+1+(w.size-1)=adj+w.size by omega,add_div_right _ hpos]

/-- The fraction with its leading one. -/
theorem frc_or (hfrc : frc<2^23) : frc|||2^23=2^23+frc := by
  rw [Nat.or_comm]
  exact (two_pow_add_eq_or_of_lt hfrc 1).symm

/-- The digits hold the integer part. -/
theorem wholePart_lt_base (hfrc : frc<2^23) : wholePart frc adj<w.base^(adj/w.size+1) := by
  have hbound := (@wholePart_bounds frc adj hfrc).2
  have hle : adj+1 ≤ w.size*(adj/w.size+1) := by
    have hdiv := div_add_mod adj w.size
    have hmod := Nat.mod_lt adj w.pos
    rw [mul_add,Nat.mul_one]
    omega
  rw [DigSize.base,←pow_mul]
  exact hbound.trans_le (Nat.pow_le_pow_right (by decide) hle)

/-- The integer part fills the digits. -/
theorem digits_wholePart (hfrc : frc<2^23) :
    Digits w (digitAt w.base (wholePart frc adj)) (adj/w.size+1) := by
  have hbase := w.base_pos
  refine ⟨fun t _ => digitAt_lt hbase _ t,fun n hn => ?_⟩
  have htop : w.base^n ≤ wholePart frc adj := by
    have hexp : w.size*n ≤ adj := by
      rw [←Nat.succ.inj hn]
      exact mul_div_le adj w.size
    rw [DigSize.base,←pow_mul]
    exact (Nat.pow_le_pow_right (by decide) hexp).trans (wholePart_bounds hfrc).1
  have hlt : wholePart frc adj/w.base^n<w.base := by
    have hbound := @wholePart_lt_base w frc adj hfrc
    rw [hn,pow_succ] at hbound
    exact Nat.div_lt_of_lt_mul hbound
  have hpos : 0<wholePart frc adj/w.base^n := Nat.div_pos htop (Nat.pow_pos hbase)
  rw [digitAt,Nat.mod_eq_of_lt hlt]
  omega

theorem wholePart_split (h : 23 ≤ adj) :
    wholePart frc adj=(2^23+frc)*2^((adj-23)%w.size)*w.base^((adj-23)/w.size) := by
  rw [wholePart,if_neg (Nat.not_lt.mpr h),DigSize.base,←pow_mul,Nat.mul_assoc,←pow_add,mod_add_div]

end WholePart

section Conversion

variable {w : DigSize} {st : Store} {z frc adj : ℕ}

/-- The first digit of the fraction, cut out of a word. -/
theorem firstDigit_eq (hdvd : w.size∣32) (h : 23 ≤ adj) :
    (((2^23+frc)<<<((adj-23)%w.size))%2^32)&&&w.digMask=
      digitAt w.base (wholePart frc adj) ((adj-23)/w.size) := by
  have hbase : w.base∣2^32 := pow_dvd_pow 2 (le_of_dvd (by decide) hdvd)
  have hpos : 0<w.base^((adj-23)/w.size) := Nat.pow_pos w.base_pos
  rw [DigSize.digMask,and_two_pow_sub_one_eq_mod,←DigSize.base,mod_mod_of_dvd _ hbase,
    Nat.shiftLeft_eq,digitAt,wholePart_split h,Nat.mul_div_cancel _ hpos]

/-- The fraction behind its first digit. -/
theorem restFrc_eq (h : 23 ≤ adj) : (2^23+frc)>>>(w.size-(adj-23)%w.size)=
      wholePart frc adj/w.base^((adj-23)/w.size+1) := by
  have hpos : 0<w.base^((adj-23)/w.size) := Nat.pow_pos w.base_pos
  have hmod := Nat.mod_lt (adj-23) w.pos
  rw [@wholePart_split w frc adj h,pow_succ w.base,←Nat.div_div_eq_div_mul,
    Nat.mul_div_cancel _ hpos,Nat.shiftRight_eq_div_pow]
  have hsplit : w.base=2^((adj-23)%w.size)*2^(w.size-(adj-23)%w.size) := by
    rw [←pow_add,Nat.add_sub_cancel' hmod.le]
    rfl
  rw [hsplit,←Nat.div_div_eq_div_mul,Nat.mul_div_cancel _ (Nat.two_pow_pos _)]

/-- The digits below the fraction. -/
theorem lowDigit_eq (h : 23 ≤ adj) {t : ℕ} (ht : t<(adj-23)/w.size) :
    digitAt w.base (wholePart frc adj) t=0 := by
  have hpos : 0<w.base^t := Nat.pow_pos w.base_pos
  have hsplit : w.base^((adj-23)/w.size)=w.base^((adj-23)/w.size-t-1)*w.base*w.base^t := by
    rw [←pow_succ,←pow_add]
    congr 1
    omega
  rw [digitAt,wholePart_split h,hsplit,←Nat.mul_assoc,Nat.mul_div_cancel _ hpos,←Nat.mul_assoc,
    mul_mod_left]

/-- Digits that are wider than the fraction hold it in two. -/
theorem wide_le (h : 23 ≤ adj) (hwide : 24 ≤ w.size) : adj/w.size+1 ≤ (adj-23)/w.size+2∧
      ((adj-23)%w.size=0 → adj/w.size+1 ≤ (adj-23)/w.size+1) := by
  have hlow := div_add_mod (adj-23) w.size
  have hlt := Nat.mod_lt (adj-23) w.pos
  refine ⟨succ_le_succ ?_,fun hzero => succ_le_succ ?_⟩
  · have hbound : adj<w.size*((adj-23)/w.size+2) := by
      rw [mul_add]
      omega
    exact Nat.le_of_lt_succ (Nat.div_lt_of_lt_mul hbound)
  · have hbound : adj<w.size*((adj-23)/w.size+1) := by
      rw [mul_add]
      omega
    exact Nat.le_of_lt_succ (Nat.div_lt_of_lt_mul hbound)

theorem digInd_le (w : DigSize) (adj : ℕ) : (adj-23)/w.size ≤ adj/w.size∧
      ((adj-23)%w.size≠0 → (adj-23)/w.size+1 ≤ adj/w.size+1) :=
  have hle := @Nat.div_le_div_right (adj-23) adj w.size (Nat.sub_le adj 23)
  ⟨hle,fun _ => succ_le_succ hle⟩

/-- The digits of a number of at least two are those of its integer part. -/
theorem setTwoOrMore_eq (hdvd : w.size∣32) (hfixed : (st z).fixedDig=false) (hfrc : frc<2^23) :
    setTwoOrMore w st z frc adj=
      .ok (written (setLen (grow st z (adj/w.size+1)) z (adj/w.size+1)) z (adj/w.size+1)
        (digitAt w.base (wholePart frc adj))) := by
  have halloc : adj/w.size+1 ≤ (setLen (grow st z (adj/w.size+1)) z (adj/w.size+1) z).alloc := by
    rw [setLen,update_self,grow_self]
    exact need_le_grown ..
  rw [setTwoOrMore]
  dsimp only
  rw [digCnt_eq,bind_ok _ (mpzNeedDig_eq hfixed),frc_or hfrc]
  generalize setLen (grow st z (adj/w.size+1)) z (adj/w.size+1)=st' at halloc ⊢
  have hV := @wholePart_lt_base w frc adj hfrc
  by_cases h : adj<23
  · have hwhole : (2^23+frc)>>>(23-adj)=wholePart frc adj/w.base^0 := by
      rw [wholePart,if_pos h,pow_zero,Nat.div_one,Nat.shiftRight_eq_div_pow]
    have hstart := @zeroDigs_written w st' z (wholePart frc adj) 0
      (fun t ht => absurd ht (not_lt_zero t))
    rw [if_pos h,if_pos h,if_pos h,if_neg (fun hne => hne rfl),hwhole,hstart]
    refine storeFrc_eq (zero_le _) halloc hV fun hwide => ?_
    rw [div_eq_of_lt (by omega)]
  · have hge : 23 ≤ adj := Nat.not_lt.mp h
    rw [if_neg h,if_neg h,if_neg h,shft_eq hdvd hge,
      zeroDigs_written (fun t ht => lowDigit_eq hge ht)]
    have hle := digInd_le w adj
    split
    case isTrue hshft =>
      rw [firstDigit_eq hdvd hge,bind_ok _ (writeDig_written (by omega)),restFrc_eq hge]
      exact storeFrc_eq (hle.2 hshft) halloc hV fun hwide => (wide_le hge hwide).1
    case isFalse hshft =>
      have hzero : (adj-23)%w.size=0 := Decidable.not_not.mp hshft
      have hwhole : 2^23+frc=wholePart frc adj/w.base^((adj-23)/w.size) := by
        have hpos : 0<w.base^((adj-23)/w.size) :=
          Nat.pow_pos w.base_pos
        rw [wholePart_split hge,hzero,pow_zero,Nat.mul_one,Nat.mul_div_cancel _ hpos]
      have hstore := @storeFrc_eq w st' z (wholePart frc adj) ((adj-23)/w.size)
        (adj/w.size+1) (le_succ_of_le hle.1) halloc hV
        fun hwide => (wide_le hge hwide).2 hzero
      rw [←hwhole] at hstore
      exact hstore

end Conversion

section Values

variable {w : DigSize} {st : Store} {z : ℕ} {src : UInt32}

/-- The magnitude that is stored. -/
def wholeOf (src : UInt32) : ℕ :=
  if fltExp src<127 then 0 else wholePart (fltFrc src) (fltExp src-127)

/-- The fraction fits its bits. -/
theorem fltFrc_lt (src : UInt32) : fltFrc src<2^23 := Nat.mod_lt _ (Nat.two_pow_pos 23)

/-- The sign of a number goes through its truncation. -/
theorem truncate_neg {q : ℚ} (h : 0 ≤ q) : truncate (-q)=-⌊q⌋ := by
  rw [truncate]
  split
  case isTrue hneg =>
    have hzero : q=0 := le_antisymm (neg_nonneg.mp hneg) h
    rw [hzero,neg_zero,Int.floor_zero,neg_zero]
  case isFalse => rw [Int.ceil_neg]

/-- A quotient of natural numbers is rounded down. -/
theorem floor_div_two_pow (a k : ℕ) : ⌊(a : ℚ)/2^k⌋=((a/2^k : ℕ) : ℤ) := by
  have hcast : (2 : ℚ)^k=((2^k : ℕ) : ℚ) := by
    push_cast
    rfl
  rw [hcast,Rat.floor_natCast_div_natCast]
  rfl

/-- The integer part of the magnitude. -/
theorem floor_absValue (src : UInt32) : ⌊absValue src⌋=(wholeOf src : ℤ) := by
  have hfrc := fltFrc_lt src
  have hcast : (2^23+fltFrc src : ℚ)=((2^23+fltFrc src : ℕ) : ℚ) := by
    push_cast
    rfl
  rw [absValue,wholeOf]
  split
  case isTrue hexp =>
    have hle : 2^23 ≤ 2^149 := Nat.pow_le_pow_right (by decide) (by decide)
    rw [floor_div_two_pow,if_pos (by omega),div_eq_of_lt (hfrc.trans_le hle)]
  case isFalse hexp =>
    rw [hcast]
    by_cases hbig : fltExp src<150
    · have hneg : (fltExp src : ℤ)-150=-((150-fltExp src : ℕ) : ℤ) := by omega
      rw [hneg,zpow_neg,zpow_natCast,←div_eq_mul_inv,floor_div_two_pow]
      split
      case isTrue hsmall =>
        have hle : 2^24 ≤ 2^(150-fltExp src) := Nat.pow_le_pow_right (by decide) (by omega)
        rw [div_eq_of_lt (by omega)]
      case isFalse hone =>
        rw [wholePart,if_pos (by omega),show 23-(fltExp src-127)=150-fltExp src by omega]
    · have hpos : (fltExp src : ℤ)-150=((fltExp src-150 : ℕ) : ℤ) := by omega
      have hprod : ((2^23+fltFrc src : ℕ) : ℚ)*2^(fltExp src-150)=
          (((2^23+fltFrc src)*2^(fltExp src-150) : ℕ) : ℚ) := by
        push_cast
        rfl
      rw [hpos,zpow_natCast,hprod,Int.floor_natCast,if_neg (by omega),wholePart,
        if_neg (by omega),show fltExp src-127-23=fltExp src-150 by omega]

/-- What a number is truncated to. -/
theorem truncate_floatValue (src : UInt32) :
    truncate (floatValue src)=if fltSgn src then -(wholeOf src : ℤ) else wholeOf src := by
  have hnonneg : 0 ≤ absValue src := by
    rw [absValue]
    split
    case isTrue => exact div_nonneg (cast_nonneg _) (by positivity)
    case isFalse => exact mul_nonneg (by positivity) (zpow_nonneg (by decide) _)
  rw [floatValue,←floor_absValue]
  split
  case isTrue => rw [neg_one_mul,truncate_neg hnonneg]
  case isFalse => rw [one_mul,truncate,if_pos hnonneg]

end Values

section Statement

variable {w : DigSize} {st : Store} {z : ℕ} {src : UInt32}

/-- The number is between minus two and minus one, where the one that is stored loses the
sign. -/
def LosesSign (src : UInt32) : Prop := fltSgn src=true∧fltExp src=127

theorem leaves_of_setNeg {b : Bool} {v : ℤ} {r : Except Fault Store}
    (h : Leaves w (setNeg st z b) z v r) : Leaves w st z v r := by
  obtain ⟨st',hrun,hresult⟩ := h
  refine ⟨st',hrun,hresult.normal,hresult.exact,fun a ha => ?_⟩
  rw [hresult.frame a ha,setNeg,update_of_ne ha]

/-- The integer part of a number of at least two is stored under the sign that is set. -/
theorem setTwoOrMore_leaves (hdvd : w.size∣32) (hfixed : (st z).fixedDig=false) {frc adj : ℕ}
    (hfrc : frc<2^23) :
    Leaves w st z (if (st z).neg then -(wholePart frc adj : ℤ) else wholePart frc adj)
      (setTwoOrMore w st z frc adj) := by
  have hdigits := @digits_wholePart w frc adj hfrc
  have hbelow : ∀ t<adj/w.size+1,
      (if t<adj/w.size+1 then digitAt w.base (wholePart frc adj) t else (st z).dig t)=
        digitAt w.base (wholePart frc adj) t := fun t ht => if_pos ht
  have hvalue : value w.base (fun t => if t<adj/w.size+1 then
      digitAt w.base (wholePart frc adj) t else (st z).dig t) (adj/w.size+1)=wholePart frc adj := by
    rw [value_congr hbelow,value_digitAt,Nat.mod_eq_of_lt (wholePart_lt_base hfrc)]
  have hself : written (setLen (grow st z (adj/w.size+1)) z (adj/w.size+1)) z (adj/w.size+1)
      (digitAt w.base (wholePart frc adj)) z={
        neg := (st z).neg
        fixedDig := (st z).fixedDig
        alloc := grown (st z).alloc (adj/w.size+1)
        len := adj/w.size+1
        dig := fun t => if t<adj/w.size+1 then digitAt w.base (wholePart frc adj) t
          else (st z).dig t } := by
    rw [written,setDig_self,setLen,update_self,grow_self]
  have hleaves := leaves_of_store (setTwoOrMore_eq hdvd hfixed hfrc) hself (need_le_grown ..)
    ⟨fun t ht => (hbelow t ht).symm ▸ hdigits.lt t ht,fun n hn =>
      (hbelow n (by omega)).symm ▸ hdigits.top n hn⟩ fun a ha => by
        rw [written_of_ne _ _ _ ha,setLen,update_of_ne ha,grow_of_ne _ _ ha]
  rw [hvalue] at hleaves
  exact hleaves

/-- What is stored is the integer part, but for a lost sign. -/
theorem mpzSetFromFloat_result (hdvd : w.size∣32) (hbits : 0<w.sizeBits)
    (hfixed : (st z).fixedDig=false) (hfinite : fltExp src≠2^8-1) :
    Leaves w st z (if fltSgn src=true∧fltExp src≠127 then -(wholeOf src : ℤ) else wholeOf src)
      (mpzSetFromFloat w st z src) := by
  have hself : setNeg st z (fltSgn src) z={st z with neg := fltSgn src} :=
    update_self ..
  have hroom : (setNeg st z (fltSgn src) z).fixedDig=false := by
    rw [hself]
    exact hfixed
  rw [mpzSetFromFloat]
  refine @leaves_of_setNeg w st z (fltSgn src) _ _ ?_
  generalize setNeg st z (fltSgn src)=st' at hself hroom ⊢
  by_cases hlow : fltExp src<127
  · have hwhole : wholeOf src=0 := if_pos hlow
    obtain ⟨st'',hrun,hresult,-⟩ := @mpzSetFromInt_result w st' z 0 (Nat.two_pow_pos _) (.inl hroom)
    rw [if_neg hfinite,if_pos hlow,ite_self,hwhole,Int.ofNat_zero,neg_zero,ite_self]
    exact ⟨st'',hrun,hresult⟩
  · rw [if_neg (show ¬fltExp src=0 by omega),if_neg hfinite,if_neg hlow]
    by_cases hone : fltExp src=127
    · have hwhole : wholeOf src=1 := by
        have hfrc := fltFrc_lt src
        rw [wholeOf,if_neg hlow,hone,wholePart,if_pos (by decide)]
        omega
      obtain ⟨st'',hrun,hresult,-⟩ := @mpzSetFromInt_result w st' z 1
        (Nat.one_lt_two_pow hbits.ne') (.inl hroom)
      rw [if_pos hone,if_neg (fun h => h.2 hone),hwhole]
      exact ⟨st'',hrun,hresult⟩
    · have hleaves := @setTwoOrMore_leaves w st' z hdvd hroom (fltFrc src) (fltExp src-127)
        (fltFrc_lt src)
      have hwhole : wholePart (fltFrc src) (fltExp src-127)=wholeOf src := (if_neg hlow).symm
      have hneg : (st' z).neg=fltSgn src := by rw [hself]
      rw [hwhole,hneg] at hleaves
      have hsign : (if fltSgn src=true∧fltExp src≠127 then -(wholeOf src : ℤ)
          else wholeOf src)=if fltSgn src=true then -(wholeOf src : ℤ) else wholeOf src :=
        if_congr ⟨And.left,fun h => ⟨h,hone⟩⟩ rfl rfl
      rw [if_neg hone,hsign]
      exact hleaves

/-- A finite single-precision number and the object its integer part is stored in. -/
structure Conversion (w : DigSize) where
  /-- The objects. -/
  store : Store
  /-- The object that is set. -/
  z : ℕ
  /-- The bits of the number. -/
  src : UInt32
  finite : fltExp src≠2^8-1
  growing : (store z).fixedDig=false
  /-- The size of a digit divides that of a word. -/
  size_dvd : w.size∣32
  /-- A machine word has bits. -/
  sizeBits_pos : 0<w.sizeBits

/-- The integer is the number truncated towards zero exactly when the number does not lie
between minus two and minus one, minus one included. -/
theorem mpzSetFromFloat_truncates_iff {w : DigSize} (o : Conversion w) :
    Leaves w o.store o.z (truncate (floatValue o.src)) (mpzSetFromFloat w o.store o.z o.src)↔
      ¬LosesSign o.src := by
  have hresult := mpzSetFromFloat_result o.size_dvd o.sizeBits_pos o.growing o.finite
  rw [leaves_iff hresult,truncate_floatValue]
  by_cases hneg : fltSgn o.src=true
  · rw [if_pos hneg]
    by_cases hone : fltExp o.src=127
    · have hwhole : wholeOf o.src=1 := by
        have hfrc := fltFrc_lt o.src
        rw [wholeOf,if_neg (by omega),hone,wholePart,if_pos (by decide)]
        omega
      rw [if_neg (fun h => h.2 hone),hwhole]
      exact ⟨fun h => absurd h (by decide),fun h => absurd ⟨hneg,hone⟩ h⟩
    · rw [if_pos ⟨hneg,hone⟩]
      exact ⟨fun _ h => hone h.2,fun _ => rfl⟩
  · rw [if_neg hneg,if_neg (fun h => hneg h.1)]
    exact ⟨fun _ h => hneg h.1,fun _ => rfl⟩

/-- Minus one and a half, converted into a new object. -/
def minusOneAndAHalf : Conversion size16 where
  store := fun _ => mpzInitZero
  z := 0
  src := 0xbfc00000
  finite := Nat.ne_of_beq_eq_false rfl
  growing := rfl
  size_dvd := by decide
  sizeBits_pos := Nat.succ_pos _

/-- Minus one and a half is stored as one. -/
theorem minusOneAndAHalf_not_truncated :
    ((mpzSetFromFloat size16 (fun _ => mpzInitZero) 0 0xbfc00000).map
        fun st => toInt size16 (st 0))=.ok 1∧
      truncate (floatValue 0xbfc00000)=-1∧
      ¬∀ (w : DigSize) (o : Conversion w),Leaves w o.store o.z (truncate (floatValue o.src))
          (mpzSetFromFloat w o.store o.z o.src) := by
  have hstored : ((mpzSetFromFloat size16 (fun _ => mpzInitZero) 0 0xbfc00000).map
      fun st => toInt size16 (st 0))=.ok 1 := by decide +kernel
  have hvalue : truncate (floatValue 0xbfc00000)=-1 := by
    rw [truncate_floatValue]
    decide
  refine ⟨hstored,hvalue,fun h => ?_⟩
  obtain ⟨st',hrun,hresult⟩ := h size16 minusOneAndAHalf
  change mpzSetFromFloat size16 (fun _ => mpzInitZero) 0 0xbfc00000=.ok st' at hrun
  rw [hrun] at hstored
  have hone : toInt size16 (st' 0)=1 := Except.ok.inj hstored
  have hminus : toInt size16 (st' 0)=-1 := hresult.exact.trans hvalue
  omega

end Statement

end MicroPython.MpzFloat
