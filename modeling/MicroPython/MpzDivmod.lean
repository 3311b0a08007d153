import MicroPython.MpzDivision

/-!
# Division in place

`mpz_divmod_inpl` divides the magnitudes with `mpn_div` and then, for operands of different
signs, takes one from the quotient and adds the divisor to the remainder, as Python's floor
division has it. `mpz_set_from_int` makes the one.
-/

namespace MicroPython.MpzDivmod

open Nat Function Positional LongDivision MpzDigits MpzArith MpzBitwise MpzShift MpzDivision
open Bool (false_eq_true true_eq_false)

/-- The digits of a machine word written to an object. -/
def fillDigs (w : DigSize) (st : Store) (z len uval : ℕ) : Except Fault (ℕ×Store) :=
  if h : 0<uval then do
    let st ← writeDig st z len (uval&&&w.digMask)
    fillDigs w st z (len+1) (uval>>>w.size)
  else .ok (len,st)
termination_by uval
decreasing_by
  rw [Nat.shiftRight_eq_div_pow]
  exact Nat.div_lt_self h (Nat.one_lt_two_pow w.pos.ne')

/-- `MPZ_NUM_DIG_FOR_INT`, for a word as wide as a `size_t`. -/
def numDigForInt (w : DigSize) : ℕ := (w.sizeBits+w.size-1)/w.size

/-- `mpz_init_zero`. -/
def mpzInitZero : Mpz where
  neg := false
  fixedDig := false
  alloc := 0
  len := 0
  dig := fun _ => 0

/-- `mpz_set_from_int`. -/
def mpzSetFromInt (w : DigSize) (st : Store) (z : ℕ) (val : ℤ) : Except Fault Store :=
  if val=0 then .ok (setLen st z 0)
  else do
    let st ← mpzNeedDig st z (numDigForInt w)
    let st := setNeg st z (decide (val<0))
    let r ← fillDigs w st z 0 (val.natAbs%2^w.sizeBits)
    .ok (setLen r.2 z r.1)

/-- `mpz_init_from_int`. -/
def mpzInitFromInt (w : DigSize) (st : Store) (z : ℕ) (val : ℤ) : Except Fault Store :=
  mpzSetFromInt w (Function.update st z mpzInitZero) z val

/-- `mpz_divmod_inpl` before the signs: the quotient gets zeros, the remainder the dividend,
and the digits are divided. -/
def divmodDigits (w : DigSize) (st : Store) (destQuo destRem lhs rhs : ℕ) : Except Fault Store := do
  let st ← mpzNeedDig st destQuo ((st lhs).len+1)
  let st := setLen (zeroDigs st destQuo ((st lhs).len+1)) destQuo 0
  let st ← mpzNeedDig st destRem ((st lhs).len+1)
  let st ← mpzSet st destRem lhs
  let r ← mpnDiv w st destRem (st destRem).len (.object rhs) (st rhs).len destQuo
  .ok (setLen (setLen r.2.2 destRem r.1) destQuo r.2.1)

/-- The signs of `mpz_divmod_inpl`: for operands of different signs the quotient is rounded
down and the remainder gets the sign of the divisor. -/
def divmodSigns (w : DigSize) (st : Store) (destQuo destRem lhs rhs mpzone : ℕ) :
    Except Fault Store :=
  if (st lhs).neg≠(st rhs).neg then
    let st := setNeg st destQuo true
    if (st destRem).len≠0 then do
      let st ← mpzInitFromInt w st mpzone (-1)
      let st ← mpzAddInpl w st destQuo destQuo mpzone
      mpzAddInpl w st destRem destRem rhs
    else .ok st
  else .ok st

/-- `mpz_divmod_inpl`, with the address of its local one. -/
def mpzDivmodInpl (w : DigSize) (st : Store) (destQuo destRem lhs rhs mpzone : ℕ) :
    Except Fault Store :=
  if (st rhs).len=0 then .error .assertion
  else do
    let st ← divmodDigits w st destQuo destRem lhs rhs
    divmodSigns w st destQuo destRem lhs rhs mpzone

section Words

variable {w : DigSize} {st : Store} {z : ℕ}

/-- The digits of a word are written from a place on. -/
theorem fillDigs_eq (k : ℕ) {st : Store} {len uval : ℕ} (huval : uval<w.base^k)
    (halloc : len+k ≤ (st z).alloc) :
    ∃ n g,fillDigs w st z len uval=.ok (len+n,setDig st z g)∧n ≤ k∧
      (∀ t<len,g t=(st z).dig t)∧Digits w (fun t => g (len+t)) n∧
      value w.base (fun t => g (len+t)) n=uval := by
  have hB := w.base_pos
  induction k generalizing st len uval with
  | zero =>
    have hzero : uval=0 := by
      rw [pow_zero] at huval
      omega
    refine ⟨0,(st z).dig,?_,le_refl 0,fun t _ => rfl,
      ⟨fun t ht => absurd ht (not_lt_zero t),fun n hn => absurd hn (succ_ne_zero n).symm⟩,
      hzero.symm⟩
    rw [fillDigs,dif_neg (by omega),setDig_dig]
    rfl
  | succ k ih =>
    rw [fillDigs]
    by_cases hpos : 0<uval
    · have hwrite : writeDig st z len (uval&&&w.digMask)=
          .ok (setDig st z (Function.update (st z).dig len (uval%w.base))) := by
        rw [DigSize.digMask,and_two_pow_sub_one_eq_mod]
        exact if_pos (by omega)
      obtain ⟨n,g,hrun,hn,hkeep,hdigits,hvalue⟩ := @ih
        (setDig st z (Function.update (st z).dig len (uval%w.base))) (len+1) (uval/w.base)
        (by
          rw [div_lt_iff_lt_mul hB,←pow_succ]
          exact huval)
        (by
          rw [setDig_self]
          change len+1+k ≤ (st z).alloc
          omega)
      rw [setDig_self] at hkeep
      have hfirst : g len=uval%w.base := by
        rw [hkeep len (lt_succ_self len)]
        exact update_self ..
      have hshift : ∀ t,g (len+1+t)=g (len+(1+t)) := fun t => by rw [add_assoc]
      refine ⟨n+1,g,?_,by omega,fun t ht => ?_,⟨fun t ht => ?_,fun m hm => ?_⟩,?_⟩
      · rw [dif_pos hpos,bind_ok _ hwrite,shiftRight_eq_div_pow,←DigSize.base,hrun,
          setDig_setDig,show len+1+n=len+(n+1) by omega]
      · rw [hkeep t (by omega)]
        exact update_of_ne (by omega) ..
      · cases t with
        | zero =>
          rw [add_zero,hfirst]
          exact mod_lt _ hB
        | succ t =>
          have hlt := hdigits.lt t (by omega)
          rw [hshift,add_comm 1] at hlt
          exact hlt
      · cases m with
        | zero =>
          rw [show n=0 by omega,value_zero] at hvalue
          have hmod := div_add_mod uval w.base
          rw [add_zero,hfirst]
          rw [←hvalue,mul_zero] at hmod
          omega
        | succ m =>
          have htop := hdigits.top m (by omega)
          rw [hshift,add_comm 1] at htop
          exact htop
      · rw [add_comm n 1,value_append,value_succ,value_zero,pow_zero,pow_one,mul_one,
          zero_add,add_zero,hfirst,←value_congr (fun t _ => hshift t),hvalue,
          mod_add_div]
    · refine ⟨0,(st z).dig,?_,zero_le _,fun t _ => rfl,⟨fun t ht => absurd ht (not_lt_zero t),
          fun n hn => absurd hn (succ_ne_zero n).symm⟩,?_⟩
      · rw [dif_neg hpos,setDig_dig]
        rfl
      · rw [value_zero]
        omega

/-- The digits for a word hold every word. -/
theorem word_lt_pow (w : DigSize) {n : ℕ} (hn : n<2^w.sizeBits) : n<w.base^numDigForInt w := by
  have hle : w.sizeBits ≤ w.size*numDigForInt w := by
    have hpos := w.pos
    have hdiv := div_add_mod (w.sizeBits+w.size-1) w.size
    have hmod := mod_lt (w.sizeBits+w.size-1) hpos
    rw [numDigForInt]
    omega
  rw [DigSize.base,←pow_mul]
  exact Nat.lt_of_lt_of_le hn (Nat.pow_le_pow_right (Nat.succ_pos 1) hle)

/-- An object that has its room needs no more. -/
theorem mpzNeedDig_room {need : ℕ} (h : (st z).fixedDig=false∨atLeastMin need ≤ (st z).alloc) :
    mpzNeedDig st z need=.ok (grow st z need) := by
  rcases h with hfixed | hroom
  · exact mpzNeedDig_eq hfixed
  · have hsame : grow st z need=st := by
      refine update_eq_self_iff.mpr ?_
      rw [grown,if_neg (not_lt.mpr hroom)]
    rw [hsame]
    change (if (st z).alloc<atLeastMin need then
      if (st z).fixedDig then .error .assertion
      else .ok (Function.update st z {st z with alloc := atLeastMin need})
      else .ok st)=(.ok _ : Except Fault Store)
    rw [if_neg (not_lt.mpr hroom)]

/-- `mpz_set_from_int` leaves the word, and the sign of one that is not zero. -/
theorem mpzSetFromInt_result {val : ℤ} (hval : val.natAbs<2^w.sizeBits)
    (hroom : (st z).fixedDig=false∨atLeastMin (numDigForInt w) ≤ (st z).alloc) :
    ∃ st',mpzSetFromInt w st z val=.ok st'∧Result w st z val st'∧
      (st' z).neg=(if val=0 then (st z).neg else decide (val<0))∧
      (st' z).fixedDig=(st z).fixedDig := by
  rw [mpzSetFromInt]
  split
  case isTrue hzero =>
    have hself : setLen st z 0 z={st z with len := 0} := update_self ..
    refine ⟨_,rfl,⟨?_,?_,fun a ha => update_of_ne ha ..⟩,?_,?_⟩
    · rw [hself]
      exact ⟨zero_le _,fun t ht => absurd ht (not_lt_zero t),
        fun n hn => absurd hn (succ_ne_zero n).symm⟩
    · rw [hself,hzero]
      exact toInt_of_len rfl
    · rw [hself]
    · rw [hself]
  case isFalse hne =>
    obtain ⟨st₁,hst₁⟩ : ∃ s,setNeg (grow st z (numDigForInt w)) z (decide (val<0))=s := ⟨_,rfl⟩
    have hself : st₁ z={grow st z (numDigForInt w) z with neg := decide (val<0)} := by
      rw [←hst₁]
      exact update_self ..
    obtain ⟨n,g,hrun,hn,-,hdigits,hvalue⟩ := @fillDigs_eq w z (numDigForInt w) st₁ 0
      val.natAbs (word_lt_pow w hval) (by
        rw [hself,zero_add]
        exact need_le_grow st z _)
    have hfun : (fun t => g (0+t))=g := funext fun t => by rw [zero_add]
    rw [hfun] at hdigits hvalue
    rw [zero_add] at hrun
    have hlast : setLen (setDig st₁ z g) z n z={grow st z (numDigForInt w) z with
        neg := decide (val<0)
        len := n
        dig := g} := by
      rw [setLen,update_self,setDig_self,hself]
    have hleave : (if decide (val<0) then -((value w.base g n : ℕ) : ℤ)
        else ((value w.base g n : ℕ) : ℤ))=val := by
      rw [hvalue]
      by_cases hneg : val<0
      · rw [if_pos (decide_eq_true hneg)]
        omega
      · rw [decide_eq_false hneg,if_neg Bool.false_ne_true]
        omega
    rw [mpzNeedDig_room hroom,mod_eq_of_lt hval]
    dsimp only [bind,Except.bind]
    rw [hst₁,hrun]
    refine ⟨_,rfl,⟨?_,?_,fun a ha => ?_⟩,?_,?_⟩
    · rw [hlast]
      exact ⟨le_trans hn (need_le_grow st z _),hdigits.lt,hdigits.top⟩
    · dsimp only
      rw [hlast]
      exact hleave
    · dsimp only
      rw [setLen,update_of_ne ha,setDig_of_ne _ _ ha,←hst₁,setNeg,update_of_ne ha,grow_of_ne _ _ ha]
    · dsimp only
      rw [hlast]
    · dsimp only
      rw [hlast,grow_self]

end Words

section DivMod

variable {w : DigSize} {st : Store}

/-- `mpz_set` copies the sign, the length and the digits. -/
theorem mpzSet_store {dest src : ℕ} (hfixed : (st dest).fixedDig=false)
    (halloc : (st src).len ≤ (st src).alloc) :
    mpzSet st dest src=.ok (Function.update st dest {
      neg := (st src).neg
      fixedDig := false
      alloc := grown (st dest).alloc (st src).len
      len := (st src).len
      dig := fun t => if t<(st src).len then (st src).dig t else (st dest).dig t}) := by
  have hroom := need_le_grown (st dest).alloc (st src).len
  have hneg : ∀ n,(setNeg (grow st dest (st src).len) dest n src).len=(st src).len := by
    intro n
    by_cases hne : src=dest
    · rw [hne,setNeg,update_self,grow_len]
    · rw [setNeg,update_of_ne hne,grow_len]
  have hset : ∀ n l,setLen (setNeg (grow st dest (st src).len) dest n) dest l=
      Function.update st dest {
        neg := n
        fixedDig := false
        alloc := grown (st dest).alloc (st src).len
        len := l
        dig := (st dest).dig} := by
    intro n l
    rw [setLen,setNeg,update_self,update_idem,grow_self,grow,update_idem]
    dsimp only
    rw [hfixed]
  rw [mpzSet,bind_ok _ (mpzNeedDig_eq hfixed)]
  dsimp only
  rw [grow_neg,hneg,hset,setDig,update_idem,update_self]
  by_cases hne : src=dest
  · rw [hne] at hroom ⊢
    rw [update_self]
    exact if_pos ⟨hroom,hroom⟩
  · rw [update_of_ne hne]
    exact if_pos ⟨halloc,hroom⟩

/-- Floor division of integers from that of their magnitudes. -/
theorem floor_of_magnitudes {a b : ℕ} (hb : 0<b) (s t : Bool) :
    let x : ℤ := if s then -a else a
    let y : ℤ := if t then -b else b
    let q : ℤ := (a/b : ℕ)
    let r : ℤ := if s then -(a%b : ℕ) else (a%b : ℕ)
    Int.fdiv x y=(if s=t then q else if a%b=0 then -q else -q-1)∧
      Int.fmod x y=(if s=t∨a%b=0 then r else r+y) := by
  have hdiv := div_add_mod a b
  have hmod := mod_lt a hb
  obtain ⟨q,hq⟩ : ∃ q,a/b=q := ⟨_,rfl⟩
  obtain ⟨r,hr⟩ : ∃ r,a%b=r := ⟨_,rfl⟩
  rw [hq,hr] at hdiv
  rw [hr] at hmod
  have hcast : (a : ℤ)=b*q+r := by rw [←hdiv,Int.natCast_add,Int.natCast_mul]
  rw [hq,hr]
  cases s with
  | false =>
    cases t with
    | false =>
      refine (Int.fdiv_fmod_unique (by simp only [false_eq_true,if_false]; omega)).mpr ⟨?_,?_⟩
      · simp only [false_eq_true,if_false,if_true,true_or,hcast]
        ring
      · simp only [false_eq_true,if_false,true_or,if_true]
        omega
    | true =>
      refine (Int.fdiv_fmod_unique' (by simp only [if_true]; omega)).mpr ⟨?_,?_⟩
      · by_cases hzero : r=0
        · simp only [false_eq_true,if_false,if_true,or_true,hcast,hzero]
          push_cast
          ring
        · simp only [false_eq_true,if_false,if_true,or_self,hcast,hzero]
          ring
      · by_cases hzero : r=0
        · simp only [false_eq_true,if_false,if_true,or_true,hzero]
          omega
        · simp only [false_eq_true,if_false,if_true,or_self,hzero]
          omega
  | true =>
    cases t with
    | false =>
      refine (Int.fdiv_fmod_unique (by simp only [false_eq_true,if_false]; omega)).mpr ⟨?_,?_⟩
      · by_cases hzero : r=0
        · simp only [true_eq_false,false_eq_true,if_false,if_true,or_true,hcast,hzero]
          push_cast
          ring
        · simp only [true_eq_false,false_eq_true,if_false,if_true,or_self,hcast,hzero]
          ring
      · by_cases hzero : r=0
        · simp only [true_eq_false,false_eq_true,if_false,if_true,or_true,hzero]
          omega
        · simp only [true_eq_false,false_eq_true,if_false,if_true,or_self,hzero]
          omega
    | true =>
      refine (Int.fdiv_fmod_unique' (by simp only [if_true]; omega)).mpr ⟨?_,?_⟩
      · simp only [if_true,true_or,hcast]
        ring
      · simp only [if_true,true_or]
        omega

end DivMod

section InPlace

/-- The objects of a division in place: the quotient is new, and the remainder may be the
dividend. -/
structure DivOperands (w : DigSize) where
  /-- The objects. -/
  store : Store
  destQuo : ℕ
  destRem : ℕ
  lhs : ℕ
  rhs : ℕ
  /-- The local one. -/
  mpzone : ℕ
  /-- The dividend is in the canonical form. -/
  normalLhs : Normal w (store lhs)
  /-- The divisor is in the canonical form. -/
  normalRhs : Normal w (store rhs)
  rhsLen : (store rhs).len≠0
  quoNeg : (store destQuo).neg=false
  quoGrowing : (store destQuo).fixedDig=false
  remGrowing : (store destRem).fixedDig=false
  /-- The results are different objects. -/
  quoRem : destQuo≠destRem
  lhsQuo : lhs≠destQuo
  rhsQuo : rhs≠destQuo
  rhsRem : rhs≠destRem
  oneQuo : mpzone≠destQuo
  oneRem : mpzone≠destRem
  oneRhs : mpzone≠rhs

variable {w : DigSize}

/-- What a division in place leaves. -/
structure DivResult (o : DivOperands w) (st' : Store) : Prop where
  /-- The quotient is in the canonical form. -/
  normalQuo : Normal w (st' o.destQuo)
  /-- The remainder is in the canonical form. -/
  normalRem : Normal w (st' o.destRem)
  /-- The quotient is rounded towards minus infinity. -/
  quo : toInt w (st' o.destQuo)=Int.fdiv (toInt w (o.store o.lhs)) (toInt w (o.store o.rhs))
  rem : toInt w (st' o.destRem)=Int.fmod (toInt w (o.store o.lhs)) (toInt w (o.store o.rhs))
  /-- The other objects do not change. -/
  frame : ∀ a,a≠o.destQuo → a≠o.destRem → a≠o.mpzone → st' a=o.store a

/-- The digits of the division, before the signs. -/
theorem divmodDigits_eq (hhalf : w.dblSize=2*w.size) (o : DivOperands w)
    (hfits : DivisionFits w (o.store o.lhs) (o.store o.rhs)) :
    ∃ quo rem st',divmodDigits w o.store o.destQuo o.destRem o.lhs o.rhs=.ok st'∧
      st' o.destQuo=quo∧st' o.destRem=rem∧Normal w quo∧Normal w rem∧
      mag w quo=mag w (o.store o.lhs)/mag w (o.store o.rhs)∧
      mag w rem=mag w (o.store o.lhs)%mag w (o.store o.rhs)∧quo.neg=false∧
      rem.neg=(o.store o.lhs).neg∧quo.fixedDig=false∧rem.fixedDig=false∧
      ∀ a,a≠o.destQuo → a≠o.destRem → st' a=o.store a := by
  obtain ⟨st,hst⟩ : ∃ s,o.store=s := ⟨_,rfl⟩
  have hl := o.normalLhs
  have hr := o.normalRhs
  have hqfix := o.quoGrowing
  have hrfix := o.remGrowing
  have hqneg := o.quoNeg
  have hqr := o.quoRem
  rw [hst] at hl hr hqfix hrfix hqneg hfits ⊢
  generalize hlen : (st o.lhs).len=len
  have hlq := o.lhsQuo
  -- The quotient gets its room and its zeros.
  generalize hst₁ : setLen (zeroDigs (grow st o.destQuo (len+1)) o.destQuo (len+1)) o.destQuo 0=st₁
  have hframe₁ : ∀ a,a≠o.destQuo → st₁ a=st a := by
    intro a ha
    rw [←hst₁,setLen,update_of_ne ha,zeroDigs,setDig_of_ne _ _ ha,grow_of_ne _ _ ha]
  have hquo₁ : (st₁ o.destQuo).alloc=grown (st o.destQuo).alloc (len+1)∧
      (st₁ o.destQuo).neg=false∧(st₁ o.destQuo).fixedDig=false := by
    rw [←hst₁,setLen,update_self,zeroDigs,setDig_self,grow_self]
    exact ⟨rfl,hqneg,hqfix⟩
  have hlhs₁ := hframe₁ o.lhs hlq
  -- The remainder gets its room and the dividend.
  generalize hst₂ : grow st₁ o.destRem (len+1)=st₂
  have hfix₂ : (st₂ o.destRem).fixedDig=false := by
    rw [←hst₂,grow_self]
    rw [hframe₁ _ hqr.symm]
    exact hrfix
  have hlhs₂ : (st₂ o.lhs).neg=(st o.lhs).neg∧(st₂ o.lhs).len=len∧
      (st₂ o.lhs).dig=(st o.lhs).dig∧len ≤ (st₂ o.lhs).alloc := by
    rw [←hst₂,grow_neg,grow_len,grow_dig,hlhs₁]
    have halloc := alloc_le_grow st₁ o.destRem (len+1) o.lhs
    rw [hlhs₁] at halloc
    exact ⟨rfl,hlen,rfl,le_trans (hlen ▸ hl.alloc) halloc⟩
  have hset := @mpzSet_store st₂ o.destRem o.lhs hfix₂ (by rw [hlhs₂.2.1]; exact hlhs₂.2.2.2)
  rw [hlhs₂.1,hlhs₂.2.1,hlhs₂.2.2.1] at hset
  obtain ⟨rem₀,hrem₀⟩ : ∃ z : Mpz,{
      neg := (st o.lhs).neg
      fixedDig := false
      alloc := grown (st₂ o.destRem).alloc len
      len := len
      dig := fun t => if t<len then (st o.lhs).dig t else (st₂ o.destRem).dig t}=z := ⟨_,rfl⟩
  generalize hst₃ : Function.update st₂ o.destRem rem₀=st₃
  rw [hrem₀,hst₃] at hset
  have hself₃ : st₃ o.destRem=rem₀ := by
    rw [←hst₃]
    exact update_self ..
  have hframe₃ : ∀ a,a≠o.destRem → st₃ a=st₁ a := by
    intro a ha
    rw [←hst₃,update_of_ne ha,←hst₂,grow_of_ne _ _ ha]
  have hroom : len+1 ≤ rem₀.alloc := by
    rw [←hrem₀]
    change len+1 ≤ grown (st₂ o.destRem).alloc len
    have halloc := alloc_le_grown (st₂ o.destRem).alloc len
    have hneed := need_le_grow st₁ o.destRem (len+1)
    rw [hst₂] at hneed
    omega
  have hmag₀ : mag w rem₀=mag w (st o.lhs) := by
    rw [←hrem₀,mag,mag,hlen]
    exact value_congr fun t ht => if_pos ht
  have hlen₀ : rem₀.len=len := by rw [←hrem₀]
  have hneg₀ : rem₀.neg=(st o.lhs).neg := by rw [←hrem₀]
  have hfix₀ : rem₀.fixedDig=false := by rw [←hrem₀]
  have hnormal₀ : Normal w rem₀ := by
    have hsame : ∀ t<len,rem₀.dig t=(st o.lhs).dig t := by
      intro t ht
      rw [←hrem₀]
      exact if_pos ht
    refine ⟨by omega,fun t ht => ?_,fun n hn => ?_⟩
    · rw [hsame t (by omega)]
      exact hl.lt t (by omega)
    · rw [hsame n (by omega)]
      exact hl.top n (by omega)
  have hrhs₃ : st₃ o.rhs=st o.rhs := by rw [hframe₃ _ o.rhsRem,hframe₁ _ o.rhsQuo]
  have hquo₃ : st₃ o.destQuo=st₁ o.destQuo := hframe₃ _ hqr
  have hqroom := need_le_grown (st o.destQuo).alloc (len+1)
  have hrhslen := o.rhsLen
  rw [hst] at hrhslen
  obtain ⟨n,m,g,q,hrun⟩ := @mpnDiv_eq w st₃ o.destRem o.destQuo (.object o.rhs) hhalf
    (by rw [hself₃]; exact hnormal₀) (by rw [Source.mpz,hrhs₃]; exact hr)
    (by rw [Source.mpz,hrhs₃]; exact pos_of_ne_zero hrhslen)
    (fun h => o.rhsRem (Source.object.inj h)) (fun h => o.rhsQuo (Source.object.inj h)) hqr
    (by rw [hself₃,hlen₀]; exact hroom) (by rw [hself₃,hlen₀,hquo₃,hquo₁.1]; exact hqroom)
    (by
      rw [Source.mpz,hrhs₃,hself₃,DivisionFits,hmag₀,hlen₀,←hlen]
      exact hfits)
  rw [Source.mpz,hself₃,hrhs₃] at hrun
  generalize hst₄ : setLen (setLen (setDig (setDig st₃ o.destRem g) o.destQuo q) o.destRem n)
    o.destQuo m=st₄
  have hquo₄ : st₄ o.destQuo={st₁ o.destQuo with
      len := m
      dig := q} := by
    rw [←hst₄,setLen,update_self,setLen,update_of_ne hqr,setDig_self,setDig_of_ne _ _ hqr,hquo₃]
  have hrem₄ : st₄ o.destRem={rem₀ with
      len := n
      dig := g} := by
    rw [←hst₄,setLen,update_of_ne hqr.symm,setLen,update_self,
      setDig_of_ne _ _ hqr.symm,setDig_self,hself₃]
  have hframe₄ : ∀ a,a≠o.destQuo → a≠o.destRem → st₄ a=st a := by
    intro a ha ha'
    rw [←hst₄,setLen,update_of_ne ha,setLen,update_of_ne ha',
      setDig_of_ne _ _ ha,setDig_of_ne _ _ ha',hframe₃ _ ha',hframe₁ _ ha]
  have hn := hrun.lenLe
  have hm := hrun.quoLe
  rw [hlen₀] at hn hm
  refine ⟨_,_,st₄,?_,hquo₄,hrem₄,?_,?_,?_,?_,hquo₁.2.1,hneg₀,hquo₁.2.2,hfix₀,hframe₄⟩
  · rw [divmodDigits,hlen,bind_ok _ (mpzNeedDig_eq hqfix)]
    dsimp only
    rw [grow_of_ne _ _ hlq,hlen,hst₁,hlhs₁,hlen,
      bind_ok _ (mpzNeedDig_eq (by rw [hframe₁ _ hqr.symm]; exact hrfix)),hst₂,bind_ok _ hset,
      hself₃,hrhs₃,bind_ok _ hrun.run]
    dsimp only
    rw [hst₄]
  · refine ⟨?_,hrun.quoDigits.lt,hrun.quoDigits.top⟩
    change m ≤ (st₁ o.destQuo).alloc
    rw [hquo₁.1]
    omega
  · exact ⟨le_trans hn hroom,hrun.digits.lt,hrun.digits.top⟩
  · exact hrun.div.trans (by rw [hmag₀])
  · exact hrun.rem.trans (by rw [hmag₀])

end InPlace

section Signs

variable {w : DigSize}

/-- A division in place rounds towards minus infinity and leaves a remainder with the sign
of the divisor, where the borrows fit. -/
theorem mpzDivmodInpl_result (hhalf : w.dblSize=2*w.size) (hword : 1<w.sizeBits)
    (o : DivOperands w) (hfits : DivisionFits w (o.store o.lhs) (o.store o.rhs)) :
    ∃ st',mpzDivmodInpl w o.store o.destQuo o.destRem o.lhs o.rhs o.mpzone=.ok st'∧
      DivResult o st' := by
  obtain ⟨quo,rem,st,hrun,hquo,hrem,hnq,hnr,hq,hr,hqneg,hrneg,hqfix,hrfix,hframe⟩ :=
    divmodDigits_eq hhalf o hfits
  generalize ha : o.store o.lhs=a
  generalize hb : o.store o.rhs=b
  rw [ha,hb] at hq hr
  rw [ha] at hrneg
  have hbpos : 0 < mag w b := by
    rw [←hb]
    exact mag_pos o.normalRhs o.rhsLen
  have hlhsneg : (st o.lhs).neg=a.neg := by
    by_cases h : o.lhs=o.destRem
    · rw [h,hrem,hrneg]
    · rw [hframe _ o.lhsQuo h,ha]
  have hrhs : st o.rhs=b := by
    rw [hframe _ o.rhsQuo o.rhsRem,hb]
  have hfloor := floor_of_magnitudes (a := mag w a) hbpos a.neg b.neg
  have hinta : toInt w a=if a.neg then -(mag w a : ℤ) else mag w a := rfl
  have hintb : toInt w b=if b.neg then -(mag w b : ℤ) else mag w b := rfl
  have hintrem : toInt w rem=
      if a.neg then -((mag w a%mag w b : ℕ) : ℤ) else ((mag w a%mag w b : ℕ) : ℤ) := by
    rw [toInt,hrneg,hr]
  dsimp only at hfloor
  rw [←hinta,←hintb,←hintrem] at hfloor
  have hzero : rem.len=0↔mag w a%mag w b=0 := by
    rw [←hr]
    exact hnr.digits.value_eq_zero_iff.symm
  rw [mpzDivmodInpl,if_neg o.rhsLen,bind_ok _ hrun,divmodSigns,hlhsneg,hrhs]
  by_cases hsame : a.neg=b.neg
  · rw [if_pos hsame,if_pos (.inl hsame)] at hfloor
    rw [if_neg (fun h => h hsame)]
    refine ⟨st,rfl,by rw [hquo]; exact hnq,by rw [hrem]; exact hnr,?_,?_,
      fun x hx hx' _ => hframe x hx hx'⟩
    · rw [hquo,ha,hb,hfloor.1,toInt,hqneg,hq]
      rfl
    · rw [hrem,ha,hb,hfloor.2]
  rw [if_pos hsame]
  obtain ⟨st₁,hst₁⟩ : ∃ s,setNeg st o.destQuo true=s := ⟨_,rfl⟩
  have hframe₁ : ∀ x,x≠o.destQuo → st₁ x=st x := by
    intro x hx
    rw [←hst₁,setNeg,update_of_ne hx]
  have hquo₁ : st₁ o.destQuo={quo with neg := true} := by
    rw [←hst₁,setNeg,update_self,hquo]
  have hnq₁ : Normal w (st₁ o.destQuo) := by
    rw [hquo₁]
    exact ⟨hnq.alloc,hnq.lt,hnq.top⟩
  have hint₁ : toInt w (st₁ o.destQuo)=-((mag w a/mag w b : ℕ) : ℤ) := by
    rw [hquo₁,←hq]
    rfl
  have hrem₁ : st₁ o.destRem=rem := by rw [hframe₁ _ o.quoRem.symm,hrem]
  rw [hst₁]
  dsimp only
  rw [hrem₁]
  by_cases hlen : rem.len=0
  · have hmod := hzero.mp hlen
    rw [if_neg hsame,if_pos hmod,if_pos (.inr hmod)] at hfloor
    rw [if_neg (fun h => h hlen)]
    refine ⟨st₁,rfl,hnq₁,by rw [hrem₁]; exact hnr,?_,?_,fun x hx hx' _ => ?_⟩
    · rw [ha,hb,hfloor.1,hint₁]
    · rw [hrem₁,ha,hb,hfloor.2]
    · rw [hframe₁ x hx,hframe x hx hx']
  have hmod : ¬mag w a%mag w b=0 := fun h => hlen (hzero.mpr h)
  rw [if_neg hsame,if_neg hmod,if_neg (fun h => h.elim hsame hmod)] at hfloor
  rw [if_pos hlen]
  -- One is taken from the quotient and the divisor is added to the remainder.
  obtain ⟨st₂,hone,hres₂,-,-⟩ := @mpzSetFromInt_result w
    (Function.update st₁ o.mpzone mpzInitZero) o.mpzone (-1)
    (Nat.lt_of_lt_of_le (by decide : (-1 : ℤ).natAbs<2^1)
      (Nat.pow_le_pow_right (Nat.succ_pos 1) (Nat.le_of_lt hword)))
    (.inl (by rw [update_self]; rfl))
  have hframe₂ : ∀ x,x≠o.mpzone → st₂ x=st₁ x := by
    intro x hx
    rw [hres₂.frame x hx,update_of_ne hx]
  have hquo₂ := hframe₂ _ o.oneQuo.symm
  have hrem₂ := hframe₂ _ o.oneRem.symm
  have hrhs₂ : st₂ o.rhs=b := by
    rw [hframe₂ _ o.oneRhs.symm,hframe₁ _ o.rhsQuo,hrhs]
  obtain ⟨st₃,hadd,hres₃⟩ := @mpzAddInpl_result w st₂ o.destQuo o.destQuo o.mpzone
    (by rw [hquo₂]; exact hnq₁) hres₂.normal (by rw [hquo₂,hquo₁]; exact hqfix)
  have hrem₃ : st₃ o.destRem=rem := by
    rw [hres₃.frame _ o.quoRem.symm,hrem₂,hrem₁]
  have hrhs₃ : st₃ o.rhs=b := by
    rw [hres₃.frame _ o.rhsQuo,hrhs₂]
  obtain ⟨st₄,hadd',hres₄⟩ := @mpzAddInpl_result w st₃ o.destRem o.destRem o.rhs
    (by rw [hrem₃]; exact hnr) (by rw [hrhs₃,←hb]; exact o.normalRhs) (by rw [hrem₃]; exact hrfix)
  have hquo₄ : st₄ o.destQuo=st₃ o.destQuo := hres₄.frame _ o.quoRem
  refine ⟨st₄,?_,by rw [hquo₄]; exact hres₃.normal,hres₄.normal,?_,?_,fun x hx hx' hx'' => ?_⟩
  · rw [mpzInitFromInt,bind_ok _ hone,bind_ok _ hadd]
    exact hadd'
  · rw [hquo₄,hres₃.exact,hquo₂,hint₁,hres₂.exact,ha,hb,hfloor.1]
    rfl
  · rw [hres₄.exact,hrem₃,hrhs₃,ha,hb,hfloor.2]
  · rw [hres₄.frame x hx',hres₃.frame x hx,hframe₂ x hx'',hframe₁ x hx,hframe x hx hx']

end Signs

section Floor

/-- A quotient and a remainder of Python's floor division. -/
structure FloorDivision (a b q r : ℤ) : Prop where
  /-- The quotient times the divisor with the remainder is the dividend. -/
  eq : a=q*b+r
  /-- The remainder is zero or has the sign of the divisor. -/
  sign : r=0∨r.sign=b.sign
  /-- The remainder is smaller than the divisor. -/
  lt : r.natAbs<b.natAbs

/-- The quotient rounded towards minus infinity and its remainder. -/
theorem floorDivision_fdiv (a : ℤ) {b : ℤ} (hb : b≠0) :
    FloorDivision a b (Int.fdiv a b) (Int.fmod a b) := by
  rcases Int.lt_or_gt_of_ne hb with hneg | hpos
  · obtain ⟨heq,hlow,hle⟩ := (Int.fdiv_fmod_unique' hneg).mp ⟨@rfl _ (Int.fdiv a b),rfl⟩
    rw [Int.mul_comm] at heq
    refine ⟨by omega,?_,by omega⟩
    rcases Int.lt_or_eq_of_le hle with hlt | hzero
    · exact .inr (by rw [Int.sign_eq_neg_one_of_neg hlt,Int.sign_eq_neg_one_of_neg hneg])
    · exact .inl hzero
  · obtain ⟨heq,hle,hhigh⟩ := (Int.fdiv_fmod_unique hpos).mp ⟨@rfl _ (Int.fdiv a b),rfl⟩
    rw [Int.mul_comm] at heq
    refine ⟨by omega,?_,by omega⟩
    rcases Int.lt_or_eq_of_le hle with hlt | hzero
    · exact .inr (by rw [Int.sign_eq_one_of_pos hlt,Int.sign_eq_one_of_pos hpos])
    · exact .inl hzero.symm

/-- A run of the division that leaves the floor quotient and the remainder, normalised. -/
def Floors {w : DigSize} (o : DivOperands w) (r : Except Fault Store) : Prop :=
  ∃ st',r=.ok st'∧Normal w (st' o.destQuo)∧Normal w (st' o.destRem)∧
    FloorDivision (toInt w (o.store o.lhs)) (toInt w (o.store o.rhs))
      (toInt w (st' o.destQuo)) (toInt w (st' o.destRem))

/-- An object for the digits of a list. -/
def ofDigits (neg : Bool) (digits : List ℕ) : Mpz where
  neg := neg
  fixedDig := false
  alloc := digits.length
  len := digits.length
  dig := fun t => digits.getD t 0

/-- The object for digits with a leading one that is not zero is in the canonical form. -/
theorem normal_ofDigits (neg : Bool) {digits : List ℕ} (h : ∀ d∈digits,d<65536)
    (htop : digits.getLast?≠some 0) : Normal size16 (ofDigits neg digits) := by
  refine ⟨le_refl _,fun t ht => ?_,fun n hn => ?_⟩
  · change digits.getD t 0<65536
    rw [List.getD_eq_getElem _ _ ht]
    exact h _ (List.getElem_mem ht)
  · change digits.length=n+1 at hn
    intro hzero
    apply htop
    change digits.getD n 0=0 at hzero
    rw [List.getD_eq_getElem _ _ (by omega)] at hzero
    rw [List.getLast?_eq_getElem?,hn,Nat.add_sub_cancel,List.getElem?_eq_getElem (by omega),hzero]

/-- A division of the digits of a list by those of another. -/
def divOperands (neg neg' : Bool) (digits digits' : List ℕ) (h : ∀ d∈digits,d<65536)
    (htop : digits.getLast?≠some 0) (h' : ∀ d∈digits',d<65536)
    (htop' : digits'.getLast?≠some 0) (hne : digits'≠[]) : DivOperands size16 where
  store := fun a => if a=0 then ofDigits neg digits else if a=1 then ofDigits neg' digits'
    else ofDigits false []
  destQuo := 2
  destRem := 3
  lhs := 0
  rhs := 1
  mpzone := 4
  normalLhs := normal_ofDigits neg h htop
  normalRhs := normal_ofDigits neg' h' htop'
  rhsLen := fun hzero => hne (List.length_eq_zero_iff.mp hzero)
  quoNeg := rfl
  quoGrowing := rfl
  remGrowing := rfl
  quoRem := by decide
  lhsQuo := by decide
  rhsQuo := by decide
  rhsRem := by decide
  oneQuo := by decide
  oneRem := by decide
  oneRhs := by decide

/-- Minus seven divided by two. -/
def minusSevenByTwo : DivOperands size16 :=
  divOperands true false [7] [2] (by decide) (by decide) (by decide) (by decide) (by decide)

/-- The division of a number by three digits that are all ones in binary. -/
def largestEstimate : DivOperands size16 :=
  divOperands false false [0,0,0,65535] [65535,65535,65535] (by decide) (by decide) (by decide)
    (by decide) (by decide)

end Floor

end MicroPython.MpzDivmod
