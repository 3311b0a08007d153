import MicroPython.MpzBitwise

/-!
# Shifts

A shift of the digits moves whole digits and takes the bits of two neighbours for each
place. To the left the digits are written from the top, to the right from the bottom, so
that the source may be the destination. A negative integer shifted to the right is
rounded towards minus infinity.
-/

namespace MicroPython.MpzShift

open Nat Function Positional MpzDigits MpzArith MpzBitwise

/-- A loop that writes one digit after another downwards, each from what it reads and from
what it carries along. -/
def digitLoopDown {σ : Type} (i : ℕ) (body : Store→ℕ→σ→Except Fault (ℕ×σ)) (t : ℕ) :
    ℕ→σ→Store→Except Fault (σ×Store)
  | 0,s,st => .ok (s,st)
  | n+1,s,st => do
    let r ← body st (t+n) s
    let st ← writeDig st i (t+n) r.1
    digitLoopDown i body t n r.2 st

/-- The whole digits of a shift to the left, rounded up, in the arithmetic of a word. -/
def shlWhole (w : DigSize) (n : ℕ) : ℕ := (n+w.size-1)%2^w.sizeBits/w.size

/-- The bits of a shift to the left within the last of the whole digits. -/
def shlPart (w : DigSize) (n : ℕ) : ℕ := if n%w.size=0 then w.size else n%w.size

/-- The digit of `mpn_shl` taken from a double digit. -/
def shlBits (w : DigSize) (n d : ℕ) : ℕ := (d>>>(w.size-shlPart w n))&&&w.digMask

/-- A digit of `mpn_shl`. -/
def shlDigit (w : DigSize) (jdig : Source) (n : ℕ) (st : Store) (t d : ℕ) : Except Fault (ℕ×ℕ) := do
  let j ← readDig st jdig (t-shlWhole w n)
  .ok (shlBits w n (d|||j),w.dbl ((d|||j)<<<w.size))

/-- The digits below a place set to zero. -/
def zeroDigs (st : Store) (i n : ℕ) : Store :=
  setDig st i (fun t => if t<n then 0 else (st i).dig t)

/-- `mpn_shl`. -/
def mpnShl (w : DigSize) (st : Store) (i : ℕ) (jdig : Source) (jlen n : ℕ) :
    Except Fault (ℕ×Store) := do
  let r ← digitLoopDown i (shlDigit w jdig n) (shlWhole w n) jlen 0 st
  -- without a whole digit the last one is stored below the array
  let st ← if shlWhole w n=0 then .error .digits
    else writeDig r.2 i (shlWhole w n-1) (shlBits w n r.1)
  let st := zeroDigs st i (shlWhole w n-1)
  let len ← mpnRemoveTrailingZeros st i (jlen+shlWhole w n)
  .ok (len,st)

/-- A digit of `mpn_shr`, with the bits of the one above unless it is the last. -/
def shrDigit (w : DigSize) (jdig : Source) (jlen n : ℕ) (st : Store) (t : ℕ) (_ : Unit) :
    Except Fault (ℕ×Unit) := do
  let j ← readDig st jdig (n/w.size+t)
  let d ←
    if t+1<jlen then do
      let above ← readDig st jdig (n/w.size+t+1)
      .ok (j|||w.dbl (above<<<w.size))
    else .ok j
  .ok ((d>>>(n%w.size))&&&w.digMask,())

/-- `mpn_shr`. -/
def mpnShr (w : DigSize) (st : Store) (i : ℕ) (jdig : Source) (jlen n : ℕ) :
    Except Fault (ℕ×Store) :=
  if jlen ≤ n/w.size then .ok (0,st)
  else do
    let jlen := jlen-n/w.size
    let r ← digitLoop i (shrDigit w jdig jlen n) jlen 0 () st
    let last ← readDig r.2 (.object i) (jlen-1)
    .ok (if last=0 then jlen-1 else jlen,r.2)

/-- `mpz_shl_inpl`. -/
def mpzShlInpl (w : DigSize) (st : Store) (dest lhs rhs : ℕ) : Except Fault Store :=
  if (st lhs).len=0∨rhs=0 then mpzSet st dest lhs
  else do
    let st ← mpzNeedDig st dest ((st lhs).len+shlWhole w rhs)
    let r ← mpnShl w st dest (.object lhs) (st lhs).len rhs
    let st := setLen r.2 dest r.1
    .ok (setNeg st dest (st lhs).neg)

/-- One of the digits below a place is not zero. -/
def someDigit (st : Store) (s : Source) (t : ℕ) : ℕ→Except Fault Bool
  | 0 => .ok false
  | n+1 => do
    let d ← readDig st s t
    if d≠0 then .ok true else someDigit st s (t+1) n

/-- One is added to the magnitude of the destination. -/
def addOne (w : DigSize) (st : Store) (dest : ℕ) : Except Fault Store :=
  if (st dest).len=0 then do
    let st ← writeDig st dest 0 1
    .ok (setLen st dest 1)
  else do
    let r ← mpnAdd w st dest (.object dest) (st dest).len oneDig 1
    .ok (setLen r.2 dest r.1)

/-- `mpz_shr_inpl` for a negative integer, after its magnitude is shifted. -/
def shrRoundUp (w : DigSize) (st : Store) (dest lhs rhs : ℕ) : Except Fault Store := do
  let lost ← someDigit st (.object lhs) 0 (min (st lhs).len (rhs/w.size))
  let part ←
    if rhs/w.size<(st lhs).len then do
      let d ← readDig st (.object lhs) (rhs/w.size)
      .ok (decide (d&&&(2^(rhs%w.size)-1)≠0))
    else .ok false
  if lost||part then addOne w st dest else .ok st

/-- `mpz_shr_inpl`. -/
def mpzShrInpl (w : DigSize) (st : Store) (dest lhs rhs : ℕ) : Except Fault Store :=
  if (st lhs).len=0∨rhs=0 then mpzSet st dest lhs
  else do
    let st ← mpzNeedDig st dest (st lhs).len
    let r ← mpnShr w st dest (.object lhs) (st lhs).len rhs
    let st := setLen r.2 dest r.1
    let st := setNeg st dest (st lhs).neg
    if (st dest).neg then shrRoundUp w st dest lhs rhs else .ok st

section Down

variable {st : Store} {i : ℕ}

/-- The digits of an object between two places replaced. -/
def between (st : Store) (i lo hi : ℕ) (g : ℕ→ℕ) : Store :=
  setDig st i (fun t => if lo ≤ t∧t<hi then g t else (st i).dig t)

/-- Nothing is replaced. -/
theorem between_self (st : Store) (i n : ℕ) (g : ℕ→ℕ) : between st i n n g=st := by
  have hdig : (fun t => if n ≤ t∧t<n then g t else (st i).dig t)=(st i).dig :=
    funext fun t => if_neg (by omega)
  rw [between,hdig,setDig_dig]

/-- What is allocated does not change. -/
theorem between_alloc (st : Store) (i lo hi : ℕ) (g : ℕ→ℕ) (s : Source) :
    (s.mpz (between st i lo hi g)).alloc=(s.mpz st).alloc := by
  cases s with
  | separate z => rfl
  | object a =>
    by_cases ha : a=i
    · rw [ha,Source.mpz,Source.mpz,between,setDig_self]
    · rw [Source.mpz,Source.mpz,between,setDig_of_ne st _ ha]

/-- A digit below the places that are replaced is read as it was. -/
theorem readDig_between {lo hi t : ℕ} {g : ℕ→ℕ} {s : Source} (ht : t<lo) (h : t<(s.mpz st).alloc) :
    readDig (between st i lo hi g) s t=.ok ((s.mpz st).dig t) := by
  have hdig : (s.mpz (between st i lo hi g)).dig t=(s.mpz st).dig t := by
    cases s with
    | separate z => rfl
    | object a =>
      by_cases ha : a=i
      · rw [ha,Source.mpz,Source.mpz,between,setDig_self]
        exact if_neg (by omega)
      · rw [Source.mpz,Source.mpz,between,setDig_of_ne st _ ha]
  rw [readDig_of_lt (by rw [between_alloc]; exact h),hdig]

/-- The next digit below is written. -/
theorem writeDig_between {t hi : ℕ} {g : ℕ→ℕ} (ht : t<hi) (h : t<(st i).alloc) :
    writeDig (between st i (t+1) hi g) i t (g t)=.ok (between st i t hi g) := by
  have halloc : (between st i (t+1) hi g i).alloc=(st i).alloc :=
    between_alloc st i (t+1) hi g (.object i)
  have hdig : Function.update (between st i (t+1) hi g i).dig t (g t)=
      (fun s => if t ≤ s∧s<hi then g s else (st i).dig s) := by
    funext s
    rw [between,setDig_self]
    by_cases hs : s=t
    · rw [hs,update_self,if_pos ⟨le_refl t,ht⟩]
    · rw [update_of_ne hs]
      dsimp only
      by_cases hin : t ≤ s∧s<hi
      · rw [if_pos hin,if_pos (by omega)]
      · rw [if_neg hin,if_neg (by omega)]
  rw [writeDig,if_pos (by rw [halloc]; exact h),hdig,between,setDig_setDig]
  rfl

/-- A loop downwards writes a sequence of digits when its body yields them one by one. -/
theorem digitLoopDown_between {σ : Type} {body : Store→ℕ→σ→Except Fault (ℕ×σ)} {g : ℕ→ℕ}
    {c : ℕ→σ} {t hi n : ℕ} (hn : t+n ≤ hi)
    (hbody : ∀ m<n,body (between st i (t+m+1) hi g) (t+m) (c (m+1))=.ok (g (t+m),c m))
    (halloc : hi ≤ (st i).alloc) :
    digitLoopDown i body t n (c n) (between st i (t+n) hi g)= .ok (c 0,between st i t hi g) := by
  induction n with
  | zero => rfl
  | succ n ih =>
    have hfirst := hbody n (lt_succ_self n)
    have hwrite := @writeDig_between st i (t+n) hi g (by omega) (by omega)
    have hrest := ih (by omega) (fun m hm => hbody m (by omega))
    rw [digitLoopDown,show t+(n+1)=t+n+1 by omega,bind_ok _ hfirst]
    rw [bind_ok _ hwrite]
    exact hrest

end Down

section Left

variable {w : DigSize}

/-- The whole digits of a shift are counted without a word running over its end. -/
def ShlFits (w : DigSize) (n : ℕ) : Prop := n+w.size-1<2^w.sizeBits

instance (w : DigSize) (n : ℕ) : Decidable (ShlFits w n) :=
  inferInstanceAs (Decidable (_ < _))

/-- A shift whose digits are counted beyond the end of a word has none. -/
theorem shlWhole_of_not_fits {n : ℕ} (hn : n<2^w.sizeBits) (h : ¬ShlFits w n) : shlWhole w n=0 := by
  rw [ShlFits] at h
  have hmod : (n+w.size-1)%2^w.sizeBits<w.size := by
    obtain ⟨p,hp⟩ : ∃ p,2^w.sizeBits=p := ⟨_,rfl⟩
    rw [hp] at hn h ⊢
    rcases lt_or_ge (n+w.size-1-p) p with hlt | hge
    · rw [mod_eq_sub_mod (by omega),mod_eq_of_lt hlt]
      omega
    · exact Nat.lt_of_lt_of_le (Nat.mod_lt _ (by omega)) (by omega)
  rw [shlWhole,Nat.div_eq_of_lt hmod]

/-- A shift to the left is made of its whole digits and of at least one bit. -/
theorem shl_split {n : ℕ} (hn : 0<n) (hfits : ShlFits w n) : ∃ whole,shlWhole w n=whole+1∧
    n=whole*w.size+shlPart w n∧shlPart w n ≤ w.size := by
  have hpos := w.pos
  have hdiv := div_add_mod n w.size
  have hmod := Nat.mod_lt n hpos
  by_cases hzero : n%w.size=0
  · have hone : 0<n/w.size := div_pos (le_of_dvd hn (dvd_of_mod_eq_zero hzero)) hpos
    have hwhole : shlWhole w n=n/w.size := by
      rw [shlWhole,mod_eq_of_lt hfits]
      refine Nat.div_eq_of_lt_le ?_ ?_
      · rw [Nat.mul_comm]
        omega
      · rw [Nat.succ_mul,Nat.mul_comm]
        omega
    refine ⟨n/w.size-1,by omega,?_,?_⟩
    · rw [shlPart,if_pos hzero,Nat.sub_mul,Nat.one_mul,Nat.mul_comm,Nat.sub_add_cancel]
      · omega
      · exact Nat.le_mul_of_pos_right _ hone
    · rw [shlPart,if_pos hzero]
  · have hwhole : shlWhole w n=n/w.size+1 := by
      rw [shlWhole,mod_eq_of_lt hfits]
      refine Nat.div_eq_of_lt_le ?_ ?_
      · rw [Nat.succ_mul,Nat.mul_comm]
        omega
      · rw [Nat.succ_mul,Nat.succ_mul,Nat.mul_comm]
        omega
    refine ⟨n/w.size,hwhole,?_,?_⟩
    · rw [shlPart,if_neg hzero,Nat.mul_comm]
      exact hdiv.symm
    · rw [shlPart,if_neg hzero]
      exact Nat.le_of_lt hmod

/-- A digit joined to the digits above it. -/
theorem or_digit (x : ℕ) : w.dbl (x/w.base*w.base)|||x%w.base=w.dbl x := by
  have hfits := w.fits
  have hsplit : 2^w.dblSize=w.base*2^(w.dblSize-w.size) := by
    rw [DigSize.base,←Nat.pow_add]
    congr 1
    omega
  have hlow : x%w.base<2^w.size := Nat.mod_lt _ w.base_pos
  have hmod := Nat.mod_mul (x := x) (a := w.base) (b := 2^(w.dblSize-w.size))
  rw [DigSize.dbl,DigSize.dbl,hsplit,Nat.mul_comm (x/w.base),mul_mod_mul_left,hmod]
  rw [DigSize.base] at hlow ⊢
  rw [←two_pow_add_eq_or_of_lt hlow,add_comm]

/-- A double digit moved up by a digit. -/
theorem dbl_shift (x : ℕ) : w.dbl (w.dbl x<<<w.size)=w.dbl (x*w.base) := by
  rw [DigSize.dbl,DigSize.dbl,Nat.shiftLeft_eq,mod_mul_mod]
  rfl

theorem bits_dbl {x a : ℕ} (ha : a ≤ w.size) : (w.dbl x>>>a)&&&w.digMask=x/2^a%w.base := by
  have hfits := w.fits
  rw [DigSize.digMask,and_two_pow_sub_one_eq_mod,shiftRight_eq_div_pow,DigSize.dbl,
    DigSize.base,show w.dblSize=a+(w.dblSize-a) by omega,Nat.pow_add,
    mod_mul_right_div_self,mod_mod_of_dvd]
  exact pow_dvd_pow 2 (by omega)

variable {st : Store} {i : ℕ} {jdig : Source}

/-- The digits of a number shifted to the left, from the digits that are moved. -/
theorem digitAt_shl {n whole part : ℕ} (hn : n=whole*w.size+part) (hpart : part ≤ w.size)
    (v m : ℕ) : digitAt w.base (v*2^n) (whole+1+m)=v/w.base^m/2^(w.size-part)%w.base := by
  have hpow : w.base^(whole+1+m)=2^n*(w.base^m*2^(w.size-part)) := by
    rw [DigSize.base,←pow_mul,←pow_mul,←Nat.pow_add,←Nat.pow_add,hn]
    congr 1
    rw [mul_add,mul_add,mul_one,Nat.mul_comm w.size whole]
    omega
  rw [digitAt,hpow,Nat.mul_comm v,Nat.mul_div_mul_left _ _ (Nat.two_pow_pos n),
    Nat.div_div_eq_div_mul]

/-- The loop of `mpn_shl`. -/
theorem shlLoop_eq (hj : Normal w (jdig.mpz st)) {n : ℕ} (hn : 0<n) (hfits : ShlFits w n)
    (halloc : (jdig.mpz st).len+shlWhole w n ≤ (st i).alloc) :
    digitLoopDown i (shlDigit w jdig n) (shlWhole w n) (jdig.mpz st).len 0 st=
      .ok (w.dbl (mag w (jdig.mpz st)*w.base),between st i (shlWhole w n)
        (shlWhole w n+(jdig.mpz st).len) (digitAt w.base (mag w (jdig.mpz st)*2^n))) := by
  obtain ⟨whole,hwhole,hsplit,hpart⟩ := @shl_split w n hn hfits
  have hlow := hj.digits.value_lt
  have hloop := @digitLoopDown_between st i _ (shlDigit w jdig n)
    (digitAt w.base (mag w (jdig.mpz st)*2^n))
    (fun m => w.dbl (mag w (jdig.mpz st)/w.base^m*w.base)) (shlWhole w n)
    (shlWhole w n+(jdig.mpz st).len) (jdig.mpz st).len (le_refl _) (fun m hm => ?_)
    (by omega)
  · rw [between_self,pow_zero,Nat.div_one,mag,Nat.div_eq_of_lt hlow,Nat.zero_mul] at hloop
    exact hloop
  · have halloc' := hj.alloc
    have hread := @readDig_between st i (shlWhole w n+m+1) (shlWhole w n+(jdig.mpz st).len) m
      (digitAt w.base (mag w (jdig.mpz st)*2^n)) jdig (by omega) (by omega)
    have hdigit : (jdig.mpz st).dig m=mag w (jdig.mpz st)/w.base^m%w.base :=
      (digitAt_value hm hj.lt).symm
    have habove : mag w (jdig.mpz st)/w.base^(m+1)=mag w (jdig.mpz st)/w.base^m/w.base := by
      rw [pow_succ,Nat.div_div_eq_div_mul]
    rw [shlDigit,Nat.add_sub_cancel_left,bind_ok _ hread,hdigit,habove,or_digit,dbl_shift,
      shlBits,bits_dbl (sub_le ..),hwhole,digitAt_shl hsplit hpart]

/-- `mpn_shl` leaves the number times the power of two. -/
theorem mpnShl_yields (hj : Normal w (jdig.mpz st)) {n : ℕ} (hn : 0<n) (hfits : ShlFits w n)
    (halloc : (jdig.mpz st).len+shlWhole w n ≤ (st i).alloc) :
    Yields w st i (mpnShl w st i jdig (jdig.mpz st).len n) (mag w (jdig.mpz st)*2^n) := by
  obtain ⟨whole,hwhole,hsplit,hpart⟩ := @shl_split w n hn hfits
  obtain ⟨v,hv⟩ : ∃ v,mag w (jdig.mpz st)=v := ⟨_,rfl⟩
  obtain ⟨len,hlen⟩ : ∃ l,(jdig.mpz st).len=l := ⟨_,rfl⟩
  have hB := w.base_pos
  have hloop := shlLoop_eq (i := i) hj hn hfits halloc
  have hlow : v<w.base^len := by
    rw [←hv,←hlen]
    exact hj.digits.value_lt
  rw [hv,hlen,hwhole] at hloop
  rw [hlen,hwhole] at halloc
  have hpow : 2^n=w.base^whole*2^shlPart w n := by
    rw [DigSize.base,←pow_mul,←Nat.pow_add,Nat.mul_comm w.size whole]
    exact congrArg _ hsplit
  have hbelow : v*2^n<w.base^(len+(whole+1)) := by
    have hle : 2^shlPart w n ≤ w.base := Nat.pow_le_pow_right (Nat.succ_pos 1) hpart
    have hle' : 2^n ≤ w.base^(whole+1) := by
      rw [hpow,pow_succ]
      exact mul_le_mul_left _ hle
    rw [pow_add]
    exact Nat.lt_of_lt_of_le ((Nat.mul_lt_mul_right (Nat.two_pow_pos n)).mpr hlow)
      (mul_le_mul_left _ hle')
  have hpart' : shlBits w n (w.dbl (v*w.base))=digitAt w.base (v*2^n) whole := by
    have hbase : w.base=2^shlPart w n*2^(w.size-shlPart w n) := by
      rw [DigSize.base,←Nat.pow_add]
      congr 1
      omega
    have hquotient : v*w.base/2^(w.size-shlPart w n)=v*2^shlPart w n := by
      rw [hbase,←Nat.mul_assoc,Nat.mul_div_cancel _ (Nat.two_pow_pos _)]
    rw [shlBits,bits_dbl (sub_le ..),hquotient,digitAt,hpow,mul_left_comm,
      Nat.mul_div_cancel_left _ (Nat.pow_pos hB)]
  have hwrite := @writeDig_between st i whole (whole+1+len) (digitAt w.base (v*2^n)) (by omega)
    (by omega)
  have hzero : zeroDigs (between st i whole (whole+1+len) (digitAt w.base (v*2^n))) i whole=
      written st i (len+(whole+1)) (digitAt w.base (v*2^n)) := by
    rw [zeroDigs,between,setDig_setDig,setDig_self,written]
    congr 1
    funext t
    by_cases ht : t<whole
    · have hdvd : w.base^(t+1)∣v*2^n := by
        rw [hpow]
        exact Dvd.dvd.mul_left (Dvd.dvd.mul_right (pow_dvd_pow _ ht) _) _
      obtain ⟨q,hq⟩ := hdvd
      rw [if_pos ht,if_pos (by omega),digitAt,hq,pow_succ,Nat.mul_assoc,
        Nat.mul_div_cancel_left _ (Nat.pow_pos hB),mul_mod_right]
    · rw [if_neg ht]
      dsimp only
      by_cases hin : whole ≤ t∧t<whole+1+len
      · rw [if_pos hin,if_pos (by omega)]
      · rw [if_neg hin,if_neg (by omega)]
  have hyields := @yields_trim w st i (len+(whole+1)) (digitAt w.base (v*2^n)) halloc
    (fun t _ => digitAt_lt hB _ t)
  rw [value_digitAt,mod_eq_of_lt hbelow] at hyields
  rw [hv,hlen,mpnShl,hwhole,bind_ok _ hloop]
  dsimp only
  rw [if_neg whole.succ_ne_zero,Nat.add_sub_cancel,hpart',bind_ok _ hwrite,hzero]
  exact hyields

end Left

section Right

variable {w : DigSize} {st : Store} {i : ℕ} {jdig : Source}

/-- A digit joined to the one above it. -/
theorem or_above (x : ℕ) : x%w.base|||w.dbl ((x/w.base%w.base)<<<w.size)=x%(w.base*w.base) := by
  have hlow := Nat.mod_lt x (mul_pos w.base_pos w.base_pos)
  have hor := or_digit (w := w) (x%(w.base*w.base))
  rw [w.dbl_of_lt hlow,mod_mul_right_div_self,mod_mul_left_mod] at hor
  rw [Nat.or_comm,Nat.shiftLeft_eq]
  exact hor

theorem bits_two {x a : ℕ} (ha : a ≤ w.size) :
    ((x%(w.base*w.base))>>>a)&&&w.digMask=x/2^a%w.base := by
  have hlow := Nat.mod_lt x (mul_pos w.base_pos w.base_pos)
  have hbits := bits_dbl (x := x%(w.base*w.base)) ha
  have hsplit : w.base*w.base=2^a*2^(2*w.size-a) := by
    rw [DigSize.base,←Nat.pow_add,←Nat.pow_add]
    congr 1
    omega
  have hdvd : w.base∣2^(2*w.size-a) := pow_dvd_pow 2 (by omega)
  rw [w.dbl_of_lt hlow] at hbits
  rw [hbits,hsplit,mod_mul_right_div_self,mod_mod_of_dvd _ hdvd]

theorem shr_split (w : DigSize) (n : ℕ) : 2^n=w.base^(n/w.size)*2^(n%w.size) := by
  rw [DigSize.base,←pow_mul,←Nat.pow_add,div_add_mod]

theorem digitAt_shr (v n t : ℕ) : digitAt w.base (v/2^n) t=
    v/w.base^(n/w.size+t)/2^(n%w.size)%w.base := by
  rw [digitAt,shr_split w n,Nat.div_div_eq_div_mul,Nat.div_div_eq_div_mul,Nat.pow_add,
    mul_right_comm]

/-- The loop of `mpn_shr`. -/
theorem shrLoop_eq (hj : Normal w (jdig.mpz st)) {n : ℕ} (hlen : n/w.size<(jdig.mpz st).len)
    (halloc : (jdig.mpz st).len-n/w.size ≤ (st i).alloc) :
    digitLoop i (shrDigit w jdig ((jdig.mpz st).len-n/w.size) n)
      ((jdig.mpz st).len-n/w.size) 0 () st=
      .ok ((),written st i ((jdig.mpz st).len-n/w.size)
        (digitAt w.base (mag w (jdig.mpz st)/2^n))) := by
  have hloop := @digitLoop_written _ st i (shrDigit w jdig ((jdig.mpz st).len-n/w.size) n)
    (digitAt w.base (mag w (jdig.mpz st)/2^n)) (fun _ => ())
    ((jdig.mpz st).len-n/w.size) 0 (fun t _ ht => ?_) (by omega)
  · rw [written_zero,zero_add] at hloop
    exact hloop
  · have hjalloc := hj.alloc
    have hwhole := zero_le (n/w.size)
    have hpart := Nat.le_of_lt (Nat.mod_lt n w.pos)
    have hread := @readDig_written st i t (n/w.size+t)
      (digitAt w.base (mag w (jdig.mpz st)/2^n)) jdig (by omega) (by omega)
    have hdigit : (jdig.mpz st).dig (n/w.size+t)=mag w (jdig.mpz st)/w.base^(n/w.size+t)%w.base :=
      (digitAt_value (by omega) hj.lt).symm
    rw [digitAt_shr,shrDigit,bind_ok _ hread,hdigit]
    by_cases hlast : t+1<(jdig.mpz st).len-n/w.size
    · have habove := @readDig_written st i t (n/w.size+t+1)
        (digitAt w.base (mag w (jdig.mpz st)/2^n)) jdig (by omega) (by omega)
      have hdigit' : (jdig.mpz st).dig (n/w.size+t+1)=
          mag w (jdig.mpz st)/w.base^(n/w.size+t)/w.base%w.base := by
        rw [Nat.div_div_eq_div_mul,←pow_succ]
        exact (digitAt_value (by omega) hj.lt).symm
      rw [if_pos hlast,bind_ok _ habove,hdigit',or_above]
      dsimp only [bind,Except.bind]
      rw [bits_two hpart]
    · have hbelow : mag w (jdig.mpz st)/w.base^(n/w.size+t)<w.base := by
        have hlow := hj.digits.value_lt
        rw [←mag,show (jdig.mpz st).len=n/w.size+t+1 by omega,pow_succ] at hlow
        exact Nat.div_lt_of_lt_mul hlow
      have hsquare : w.base ≤ w.base*w.base := Nat.le_mul_of_pos_left _ w.base_pos
      have htwo : mag w (jdig.mpz st)/w.base^(n/w.size+t)%w.base=
          mag w (jdig.mpz st)/w.base^(n/w.size+t)%(w.base*w.base) := by
        rw [mod_eq_of_lt hbelow,mod_eq_of_lt (Nat.lt_of_lt_of_le hbelow hsquare)]
      rw [if_neg hlast,htwo]
      dsimp only [bind,Except.bind]
      rw [bits_two hpart]

/-- A number shifted to the right loses at most one more digit than the whole ones. -/
theorem digits_shr {v n len : ℕ} (hlow : v<w.base^len) (htop : w.base^(len-1) ≤ v)
    (hlen : n/w.size<len) : Digits w (digitAt w.base (v/2^n))
      (if digitAt w.base (v/2^n) (len-n/w.size-1)=0 then len-n/w.size-1 else len-n/w.size) := by
  have hB := w.base_pos
  have hwhole := zero_le (n/w.size)
  refine ⟨fun t _ => digitAt_lt hB _ t,fun m hm => ?_⟩
  split at hm
  case isFalse hne => rwa [show len-n/w.size-1=m by omega] at hne
  case isTrue hzero =>
    have hpart : 2^(n%w.size) ≤ w.base :=
      Nat.pow_le_pow_right (Nat.succ_pos 1) (Nat.le_of_lt (Nat.mod_lt n w.pos))
    -- The number reaches the place below the last one.
    have hreach : w.base^m ≤ v/2^n := by
      rw [Nat.le_div_iff_mul_le (Nat.two_pow_pos n),shr_split w n]
      refine Nat.le_trans ?_ htop
      rw [show len-1=n/w.size+m+1 by omega,Nat.pow_succ,Nat.pow_add,←Nat.mul_assoc,
        Nat.mul_comm (w.base^m)]
      exact mul_le_mul_left _ hpart
    have hbelow : v/2^n<w.base^(m+2) := by
      rw [Nat.div_lt_iff_lt_mul (Nat.two_pow_pos n),shr_split w n]
      refine Nat.lt_of_lt_of_le hlow ?_
      rw [show len=m+2+n/w.size by omega,Nat.pow_add,←Nat.mul_assoc]
      exact Nat.le_mul_of_pos_right _ (Nat.two_pow_pos _)
    have hvalue := value_digitAt w.base (v/2^n) (m+2)
    rw [show len-n/w.size-1=m+1 by omega] at hzero
    rw [mod_eq_of_lt hbelow,value_succ,hzero,Nat.zero_mul,add_zero] at hvalue
    exact top_ne_zero (fun t _ => digitAt_lt hB _ t) (by rw [hvalue]; exact hreach)

/-- `mpn_shr` leaves the quotient by the power of two. -/
theorem mpnShr_yields (hj : Normal w (jdig.mpz st)) (n : ℕ)
    (halloc : (jdig.mpz st).len-n/w.size ≤ (st i).alloc) :
    Yields w st i (mpnShr w st i jdig (jdig.mpz st).len n) (mag w (jdig.mpz st)/2^n) := by
  have hB := w.base_pos
  have hwhole := zero_le (n/w.size)
  have hlow : mag w (jdig.mpz st)<w.base^(jdig.mpz st).len := hj.digits.value_lt
  rw [mpnShr]
  split
  case isTrue hle =>
    have hpow : 2^n=w.base^(n/w.size)*2^(n%w.size) := shr_split w n
    have hzero : mag w (jdig.mpz st)/2^n=0 := by
      refine Nat.div_eq_of_lt (Nat.lt_of_lt_of_le hlow ?_)
      rw [hpow]
      exact Nat.le_trans (Nat.pow_le_pow_right hB hle)
        (Nat.le_mul_of_pos_right _ (Nat.two_pow_pos _))
    rw [hzero]
    exact ⟨0,(st i).dig,by rw [setDig_dig],zero_le _,⟨fun t ht => absurd ht
      (not_lt_zero t),fun n hn => absurd hn (succ_ne_zero n).symm⟩,rfl⟩
  case isFalse hlt =>
    have hlen : n/w.size<(jdig.mpz st).len := by omega
    have hloop := shrLoop_eq (i := i) hj hlen halloc
    obtain ⟨k,hk⟩ : ∃ k,(jdig.mpz st).len=k+1 := ⟨(jdig.mpz st).len-1,by omega⟩
    have htop : w.base^((jdig.mpz st).len-1) ≤ mag w (jdig.mpz st) := by
      rw [mag,hk]
      exact le_value (hj.top k hk)
    have hdigits := digits_shr hlow htop hlen
    have hread : readDig (written st i ((jdig.mpz st).len-n/w.size)
        (digitAt w.base (mag w (jdig.mpz st)/2^n))) (.object i) ((jdig.mpz st).len-n/w.size-1)=
        .ok (digitAt w.base (mag w (jdig.mpz st)/2^n) ((jdig.mpz st).len-n/w.size-1)) := by
      rw [readDig_of_lt (by rw [written_alloc]; change _<(st i).alloc; omega)]
      exact congrArg Except.ok (written_dig_self st i _ (by omega))
    have hbelow : mag w (jdig.mpz st)/2^n<w.base^((jdig.mpz st).len-n/w.size) := by
      rw [Nat.div_lt_iff_lt_mul (Nat.two_pow_pos n),shr_split w n]
      refine Nat.lt_of_lt_of_le hlow ?_
      rw [←Nat.mul_assoc,←Nat.pow_add,Nat.sub_add_cancel (Nat.le_of_lt hlen)]
      exact Nat.le_mul_of_pos_right _ (Nat.two_pow_pos _)
    have hvalue : value w.base (digitAt w.base (mag w (jdig.mpz st)/2^n))
        (if digitAt w.base (mag w (jdig.mpz st)/2^n) ((jdig.mpz st).len-n/w.size-1)=0 then
          (jdig.mpz st).len-n/w.size-1 else (jdig.mpz st).len-n/w.size)=
        mag w (jdig.mpz st)/2^n := by
      have hall := value_digitAt w.base (mag w (jdig.mpz st)/2^n) ((jdig.mpz st).len-n/w.size)
      rw [mod_eq_of_lt hbelow] at hall
      split
      case isTrue hzero =>
        rw [←value_of_zeros (sub_le _ 1) (fun t ht ht' => ?_)]
        · exact hall
        · rw [show t=(jdig.mpz st).len-n/w.size-1 by omega]
          exact hzero
      · exact hall
    rw [bind_ok _ hloop]
    dsimp only
    rw [bind_ok _ hread]
    have hyields := yields_written rfl (by split <;> omega) halloc hdigits
    rw [hvalue] at hyields
    exact hyields

end Right

section InPlace

variable {w : DigSize} {st : Store} {dest lhs : ℕ}

/-- `mpz_set` leaves the integer of its source. -/
theorem mpzSet_result (h : Normal w (st lhs)) (hfixed : (st dest).fixedDig=false) :
    ∃ st',mpzSet st dest lhs=.ok st'∧Result w st dest (toInt w (st lhs)) st' := by
  by_cases hne : dest=lhs
  · have hneg : setNeg (grow st dest (st dest).len) dest (st dest).neg=
        grow st dest (st dest).len := by
      refine update_eq_self_iff.mpr ?_
      rw [grow_self]
    have hset : setLen (grow st dest (st dest).len) dest (st dest).len=
        grow st dest (st dest).len := by
      refine update_eq_self_iff.mpr ?_
      rw [grow_self]
    have hdig : (fun t => if t<(st dest).len then (st dest).dig t
        else (st dest).dig t)=(st dest).dig := funext fun t => ite_self _
    have hself : setDig (grow st dest (st dest).len) dest (st dest).dig=
        grow st dest (st dest).len := by
      refine update_eq_self_iff.mpr ?_
      rw [grow_self]
    rw [←hne] at h ⊢
    have hroom : (st dest).len ≤ (grow st dest (st dest).len dest).alloc∧
        (st dest).len ≤ (grow st dest (st dest).len dest).alloc :=
      ⟨need_le_grow .., need_le_grow ..⟩
    refine ⟨grow st dest (st dest).len,?_,h.grow dest _,toInt_grow ..,
      fun a ha => grow_of_ne _ _ ha⟩
    rw [mpzSet,bind_ok _ (mpzNeedDig_eq hfixed)]
    dsimp only
    rw [grow_neg,hneg,grow_len,hset,grow_len,if_pos hroom,grow_dig,hdig,hself]
  · obtain ⟨st',hrun,hnormal,-,hint,hframe⟩ := mpzSet_eq h hne hfixed
    exact ⟨st',hrun,hnormal,hint,hframe⟩

/-- `mpz_shl_inpl` leaves the product with the power of two where the digits are counted
within a word. -/
theorem mpzShlInpl_result (hl : Normal w (st lhs)) (hfixed : (st dest).fixedDig=false)
    {rhs : ℕ} (hfits : (st lhs).len=0∨rhs=0∨ShlFits w rhs) :
    ∃ st',mpzShlInpl w st dest lhs rhs=.ok st'∧Result w st dest (toInt w (st lhs)*2^rhs) st' := by
  rw [mpzShlInpl]
  split
  case isTrue hzero =>
    obtain ⟨st',hrun,hresult⟩ := mpzSet_result hl hfixed
    have hproduct : toInt w (st lhs)*2^rhs=toInt w (st lhs) := by
      rcases hzero with hz | hz
      · rw [toInt_of_len hz,Int.zero_mul]
      · rw [hz,pow_zero,Int.mul_one]
    rw [hproduct]
    exact ⟨st',hrun,hresult⟩
  case isFalse hne =>
    have hpos : 0<rhs := pos_of_ne_zero (fun hz => hne (.inr hz))
    have hin : ShlFits w rhs :=
      (hfits.resolve_left fun hz => hne (.inl hz)).resolve_left hpos.ne'
    have hyields := @mpnShl_yields w (grow st dest ((st lhs).len+shlWhole w rhs)) dest
      (.object lhs) (hl.grow dest _) rhs hpos hin
      (by rw [Source.mpz,grow_len]; exact need_le_grow ..)
    have hresult := result_of_yields hyields (fun s => (s lhs).neg)
      (fun g len => neg_setLen _ len g lhs)
    have hvalue : toInt w (st lhs)*2^rhs=if (st lhs).neg then
        -((mag w (st lhs)*2^rhs : ℕ) : ℤ) else ((mag w (st lhs)*2^rhs : ℕ) : ℤ) := by
      rw [toInt]
      push_cast
      split
      · rw [Int.neg_mul]
      · rfl
    simp only [Source.mpz,mag_grow] at hresult
    rw [hvalue,bind_ok _ (mpzNeedDig_eq hfixed)]
    exact hresult

/-- A shift to the left whose digits run over the end of a word stores one of them below the
array. -/
theorem mpzShlInpl_fails (hfixed : (st dest).fixedDig=false) (hlen : (st lhs).len≠0) {rhs : ℕ}
    (hne : rhs≠0) (hrhs : rhs<2^w.sizeBits) (hfits : ¬ShlFits w rhs) (st' : Store) :
    mpzShlInpl w st dest lhs rhs≠.ok st' := by
  have hwhole := shlWhole_of_not_fits hrhs hfits
  rw [mpzShlInpl,if_neg (fun h => h.elim hlen hne),bind_ok _ (mpzNeedDig_eq hfixed),grow_len,mpnShl]
  cases digitLoopDown dest (shlDigit w (.object lhs) rhs) (shlWhole w rhs) (st lhs).len 0
      (grow st dest ((st lhs).len+shlWhole w rhs)) with
  | error e => exact fun h => nomatch h
  | ok r =>
    dsimp only [bind,Except.bind]
    rw [if_pos hwhole]
    exact fun h => nomatch h

/-- The search for a digit that is not zero. -/
theorem someDigit_spec {s : Source} {t n : ℕ} (halloc : t+n ≤ (s.mpz st).alloc) :
    ∃ b,someDigit st s t n=.ok b∧(b=true↔∃ u,t ≤ u∧u<t+n∧(s.mpz st).dig u≠0) := by
  induction n generalizing t with
  | zero =>
    refine ⟨false,rfl,fun h => absurd h Bool.false_ne_true,fun ⟨u,hu,hn,_⟩ => ?_⟩
    omega
  | succ n ih =>
    rw [someDigit,bind_ok _ (readDig_of_lt (by omega))]
    split
    case isTrue hne => exact ⟨true,rfl,fun _ => ⟨t,le_refl t,by omega,hne⟩,fun _ => rfl⟩
    case isFalse hzero =>
      obtain ⟨b,hrest,hb⟩ := ih (t := t+1) (by omega)
      refine ⟨b,hrest,hb.trans ⟨fun ⟨u,hu,hn,hd⟩ => ⟨u,by omega,by omega,hd⟩,
        fun ⟨u,hu,hn,hd⟩ => ?_⟩⟩
      rcases eq_or_lt_of_le hu with heq | hlt
      · exact absurd (heq ▸ hd) hzero
      · exact ⟨u,hlt,by omega,hd⟩

theorem mod_two_pow_eq_zero_iff (w : DigSize) (v n : ℕ) :
    v%2^n=0↔v%w.base^(n/w.size)=0∧v/w.base^(n/w.size)%2^(n%w.size)=0 := by
  have hpos := Nat.pow_pos (n := n/w.size) w.base_pos
  rw [shr_split w n,Nat.mod_mul,Nat.add_eq_zero_iff,Nat.mul_eq_zero]
  exact and_congr_right fun _ => or_iff_right hpos.ne'

end InPlace

section RoundUp

variable {w : DigSize} {st : Store} {dest lhs : ℕ}

/-- `mpz_shr_inpl` rounds up when a bit is lost. -/
theorem shrRoundUp_eq (hl : Normal w (st lhs)) (rhs : ℕ) : shrRoundUp w st dest lhs rhs=
      if mag w (st lhs)%2^rhs≠0 then addOne w st dest else .ok st := by
  have hB := w.base_pos
  have halloc := hl.alloc
  obtain ⟨lost,hlost,hiff⟩ := @someDigit_spec st (.object lhs) 0
    (min (st lhs).len (rhs/w.size)) (by change _ ≤ (st lhs).alloc; omega)
  have hlow : lost=true↔mag w (st lhs)%w.base^(rhs/w.size)≠0 := by
    have hvalue : value w.base (st lhs).dig (min (st lhs).len (rhs/w.size))=
        mag w (st lhs)%w.base^(rhs/w.size) := by
      rcases le_total (rhs/w.size) (st lhs).len with hle | hle
      · rw [min_eq_right hle]
        exact (value_mod hle hl.lt).symm
      · rw [min_eq_left hle]
        have hbelow : mag w (st lhs)<w.base^(rhs/w.size) :=
          Nat.lt_of_lt_of_le hl.digits.value_lt (Nat.pow_le_pow_right hB hle)
        exact (mod_eq_of_lt hbelow).symm
    rw [hiff,←hvalue,value_ne_zero_iff hB]
    exact ⟨fun ⟨u,_,hu,hd⟩ => ⟨u,by omega,hd⟩,fun ⟨u,hu,hd⟩ => ⟨u,zero_le u,by omega,hd⟩⟩
  have hrest : ∀ part : Bool,(part=true↔mag w (st lhs)/w.base^(rhs/w.size)%2^(rhs%w.size)≠0) →
      (if lost||part then addOne w st dest else .ok st)=
        if mag w (st lhs)%2^rhs≠0 then addOne w st dest else .ok st := by
    intro part hpart
    refine if_congr ?_ rfl rfl
    rw [Bool.or_eq_true,hlow,hpart]
    have hzero := mod_two_pow_eq_zero_iff w (mag w (st lhs)) rhs
    exact Decidable.not_and_iff_or_not.symm.trans (not_congr hzero.symm)
  rw [shrRoundUp,bind_ok _ hlost]
  by_cases hin : rhs/w.size<(st lhs).len
  · have hdigit : (st lhs).dig (rhs/w.size)=mag w (st lhs)/w.base^(rhs/w.size)%w.base :=
      (digitAt_value hin hl.lt).symm
    have hdvd : 2^(rhs%w.size)∣w.base :=
      pow_dvd_pow 2 (Nat.le_of_lt (Nat.mod_lt rhs w.pos))
    have hread : readDig st (.object lhs) (rhs/w.size)=.ok ((st lhs).dig (rhs/w.size)) :=
      readDig_of_lt (Nat.lt_of_lt_of_le hin halloc)
    rw [if_pos hin,bind_ok _ hread]
    refine hrest _ ?_
    rw [decide_eq_true_iff,and_two_pow_sub_one_eq_mod,hdigit,mod_mod_of_dvd _ hdvd]
  · rw [if_neg hin]
    refine hrest false ⟨fun h => absurd h Bool.false_ne_true,fun h => absurd ?_ h⟩
    have hbelow : mag w (st lhs)<w.base^(rhs/w.size) :=
      Nat.lt_of_lt_of_le hl.digits.value_lt (Nat.pow_le_pow_right hB (by omega))
    rw [Nat.div_eq_of_lt hbelow,Nat.zero_mod]

/-- Adding one leaves the successor of the magnitude where there is room for it. -/
theorem addOne_eq (hd : Normal w (st dest)) {n : ℕ} (hlen : (st dest).len ≤ n)
    (hn : n ≤ (st dest).alloc) (hn' : 0<n) (hsum : mag w (st dest)+1<w.base^n) :
    ∃ len g,addOne w st dest=.ok (setLen (setDig st dest g) dest len)∧
      len ≤ (st dest).alloc∧Digits w g len∧value w.base g len=mag w (st dest)+1 := by
  have hone := mag_oneDig w st
  rw [addOne]
  split
  case isTrue hzero =>
    have hwrite : writeDig st dest 0 1=
        .ok (setDig st dest (Function.update (st dest).dig 0 1)) := if_pos (by omega)
    rw [bind_ok _ hwrite]
    refine ⟨1,_,rfl,by omega,⟨fun t ht => ?_,fun m hm => ?_⟩,?_⟩
    · rw [lt_one_iff.mp ht,update_self]
      exact w.one_lt_base
    · rw [show m=0 by omega,update_self]
      exact one_ne_zero
    · rw [value_succ,value_zero,update_self,pow_zero,mag,hzero,value_zero,Nat.one_mul]
  case isFalse hne =>
    have hyields : Yields w st dest (mpnAdd w st dest (.object dest) (st dest).len oneDig 1)
        (mag w (st dest)+1) := by
      rw [←hone]
      rcases eq_or_lt_of_le hlen with heq | hlt
      · refine @mpnAdd_yields_within w st dest (.object dest) _ hd (normal_oneDig w st)
          (one_le_iff_ne_zero.mpr hne) (Nat.le_trans hlen hn) ?_
        rw [hone]
        change mag w (st dest)+1<w.base^(st dest).len
        rwa [heq]
      · exact @mpnAdd_yields w st dest (.object dest) _ hd (normal_oneDig w st)
          (one_le_iff_ne_zero.mpr hne) (by change (st dest).len+1 ≤ (st dest).alloc; omega)
    obtain ⟨len,g,hrun,hl,hg,hv⟩ := hyields
    rw [bind_ok _ hrun]
    exact ⟨len,g,rfl,hl,hg,hv⟩

end RoundUp

section FloorShift

variable {w : DigSize} {st : Store} {dest lhs : ℕ}

/-- The quotient of a negative integer by a power of two is rounded away from zero. -/
theorem neg_ediv_two_pow (v n : ℕ) :
    -(v : ℤ)/2^n=-((if v%2^n≠0 then v/2^n+1 else v/2^n : ℕ) : ℤ) := by
  have hpos : (0 : ℤ)<2^n := Int.pow_pos (by decide)
  have hdiv := div_add_mod v (2^n)
  have hmod := Nat.mod_lt v (Nat.two_pow_pos n)
  obtain ⟨q,hq⟩ : ∃ q,v/2^n=q := ⟨_,rfl⟩
  obtain ⟨r,hr⟩ : ∃ r,v%2^n=r := ⟨_,rfl⟩
  obtain ⟨p,hp⟩ : ∃ p,2^n=p := ⟨_,rfl⟩
  have hcast : (2 : ℤ)^n=(p : ℕ) := by
    rw [←hp]
    push_cast
    rfl
  rw [hq,hr,hp] at hdiv
  rw [hr,hp] at hmod
  rw [hcast] at hpos ⊢
  rw [hr,hq]
  have hcastdiv : (v : ℤ)=p*q+r := by
    rw [←hdiv,Int.natCast_add,Int.natCast_mul]
  split
  case isTrue hne =>
    refine ((Int.ediv_emod_unique (r := p-r) hpos).mpr ⟨?_,by omega,by omega⟩).1
    rw [hcastdiv]
    push_cast
    ring
  case isFalse hzero =>
    refine ((Int.ediv_emod_unique (r := 0) hpos).mpr ⟨?_,Int.le_refl 0,hpos⟩).1
    rw [hcastdiv,Decidable.not_not.mp hzero]
    push_cast
    ring

/-- The magnitude whose low bits decide how `mpz_shr_inpl` rounds: that of the source, which
is already shifted where it is the destination. -/
def droppedFrom (w : DigSize) (st : Store) (dest lhs rhs : ℕ) : ℕ :=
  if dest=lhs then mag w (st lhs)/2^rhs else mag w (st lhs)

/-- What `mpz_shr_inpl` leaves. -/
def shiftedRight (w : DigSize) (st : Store) (dest lhs rhs : ℕ) : ℤ :=
  if (st lhs).len=0∨rhs=0 then toInt w (st lhs)
  else if (st lhs).neg then
    -((if droppedFrom w st dest lhs rhs%2^rhs≠0 then mag w (st lhs)/2^rhs+1
      else mag w (st lhs)/2^rhs : ℕ) : ℤ)
  else ((mag w (st lhs)/2^rhs : ℕ) : ℤ)

/-- `mpz_shr_inpl` leaves the magnitude shifted, and for a negative integer one more where
the bits it looks at are not all zero. -/
theorem mpzShrInpl_result (hl : Normal w (st lhs)) (hfixed : (st dest).fixedDig=false)
    (rhs : ℕ) : ∃ st',mpzShrInpl w st dest lhs rhs=.ok st'∧
      Result w st dest (shiftedRight w st dest lhs rhs) st' := by
  rw [mpzShrInpl,shiftedRight]
  split
  case isTrue hzero => exact mpzSet_result hl hfixed
  case isFalse hsome =>
    have hlen : (st lhs).len≠0 := fun h => hsome (.inl h)
    have hpos : 0<rhs := pos_of_ne_zero fun h => hsome (.inr h)
    have hroom := need_le_grow st dest (st lhs).len
    obtain ⟨len,g,hrun,hlength,hdigits,hvalue⟩ :=
      @mpnShr_yields w (grow st dest (st lhs).len) dest (.object lhs) (hl.grow dest _) rhs
        (by rw [Source.mpz,grow_len]; exact Nat.le_trans (sub_le ..) hroom)
    rw [Source.mpz,grow_len] at hrun
    rw [Source.mpz,mag_grow] at hvalue
    generalize hst₂ : setNeg (setLen (setDig (grow st dest (st lhs).len) dest g) dest len) dest (st
      lhs).neg=st₂
    have hresult := result_of_digits hlength hdigits (st lhs).neg
    have hdest := @setNeg_setLen_self dest
      (setDig (grow st dest (st lhs).len) dest g) len (st lhs).neg
    rw [hst₂,setDig_self] at hdest
    rw [hst₂,hvalue] at hresult
    have hmag : mag w (st₂ dest)=mag w (st lhs)/2^rhs := by
      rw [hdest]
      exact hvalue
    -- the source is as it was, unless it is the destination
    have hlhs : Normal w (st₂ lhs)∧mag w (st₂ lhs)=droppedFrom w st dest lhs rhs := by
      rw [droppedFrom]
      split
      case isTrue heq =>
        rw [heq] at hresult hmag
        rw [hmag]
        exact ⟨hresult.normal,rfl⟩
      case isFalse hne =>
        rw [hresult.frame lhs (fun h => hne h.symm)]
        exact ⟨hl,rfl⟩
    rw [bind_ok _ (mpzNeedDig_eq hfixed),grow_len,bind_ok _ hrun]
    dsimp only
    rw [neg_setLen,hst₂,show (st₂ dest).neg=(st lhs).neg by rw [hdest]]
    by_cases hneg : (st lhs).neg=true
    · rw [if_pos hneg,if_pos hneg,shrRoundUp_eq hlhs.1,hlhs.2]
      by_cases hlost : droppedFrom w st dest lhs rhs%2^rhs≠0
      · have hhalf : mag w (st lhs)/2^rhs ≤ mag w (st lhs)/2 := div_le_div_left
          (le_self_pow hpos.ne' 2) (by decide)
        have hlow : mag w (st lhs)<w.base^(st lhs).len := hl.digits.value_lt
        have hbase : 2 ≤ w.base^(st lhs).len :=
          Nat.le_trans w.one_lt_base (le_self_pow hlen _)
        have hlenle : len ≤ (st lhs).len := by
          refine hdigits.len_le_of_value_le hl.digits ?_
          rw [hvalue]
          exact div_le_self ..
        obtain ⟨len',g',hadd,hlength',hdigits',hvalue'⟩ :=
          @addOne_eq w st₂ dest hresult.normal (st lhs).len
            (by rw [hdest]; exact hlenle) (by rw [hdest]; exact hroom)
            (pos_of_ne_zero hlen) (by rw [hmag]; omega)
        have hlast : setLen (setDig st₂ dest g') dest len' dest=
            {grow st dest (st lhs).len dest with
              neg := true
              len := len'
              dig := g'} := by
          rw [setLen,update_self,setDig_self,hdest,hneg]
        have hleaves := @leaves_of_store w st dest _ _ _ _ _ _ _ hadd hlast
          (by rw [hdest] at hlength'; exact hlength') hdigits' (fun a ha => by
            rw [setLen,update_of_ne ha,setDig_of_ne _ _ ha,hresult.frame a ha])
        rw [if_pos rfl,hvalue',hmag] at hleaves
        rw [if_pos hlost,if_pos hlost]
        exact hleaves
      · rw [if_neg hlost,if_neg hlost]
        rw [hneg,if_pos rfl] at hresult
        exact ⟨st₂,rfl,hresult⟩
    · rw [Bool.eq_false_of_not_eq_true hneg,if_neg Bool.false_ne_true] at hresult
      rw [if_neg hneg,if_neg hneg]
      exact ⟨st₂,rfl,hresult⟩

/-- The bits that `mpz_shr_inpl` looks at are all zero when and only when those it drops
are. -/
def RoundsAlike (w : DigSize) (st : Store) (dest lhs rhs : ℕ) : Prop :=
  0 ≤ toInt w (st lhs)∨(droppedFrom w st dest lhs rhs%2^rhs=0↔mag w (st lhs)%2^rhs=0)

/-- What `mpz_shr_inpl` leaves is the quotient rounded towards minus infinity when and only
when it rounds by the bits that are dropped. -/
theorem shiftedRight_eq_iff {dest rhs : ℕ} :
    shiftedRight w st dest lhs rhs=toInt w (st lhs)/2^rhs↔RoundsAlike w st dest lhs rhs := by
  rw [shiftedRight,RoundsAlike]
  split
  case isTrue hzero =>
    rcases hzero with hlen | hrhs
    · rw [toInt_of_len hlen,Int.zero_ediv]
      exact ⟨fun _ => .inl (Int.le_refl 0),fun _ => rfl⟩
    · rw [hrhs,pow_zero,pow_zero,Int.ediv_one,mod_one,mod_one]
      exact ⟨fun _ => .inr Iff.rfl,fun _ => rfl⟩
  case isFalse hsome =>
    split
    case isTrue hneg =>
      have hint : toInt w (st lhs)=-(mag w (st lhs) : ℤ) := by rw [toInt,if_pos hneg]
      rw [hint,neg_ediv_two_pow]
      obtain ⟨v,hv⟩ : ∃ v,mag w (st lhs)=v := ⟨_,rfl⟩
      generalize hq : v/2^rhs=q
      generalize hr : v%2^rhs=r
      obtain ⟨d,hd⟩ : ∃ d,droppedFrom w st dest lhs rhs%2^rhs=d := ⟨_,rfl⟩
      have hzero : v=0 → r=0∧d=0 := by
        intro hz
        rw [←hr,←hd,droppedFrom,hv,hz,Nat.zero_div,ite_self,Nat.zero_mod]
        exact ⟨rfl,rfl⟩
      rw [hv,hq,hr,hd]
      constructor
      · intro heq
        split at heq <;> split at heq <;> omega
      · intro halike
        split <;> split <;> omega
    case isFalse hneg =>
      have hint : toInt w (st lhs)=(mag w (st lhs) : ℤ) := by rw [toInt,if_neg hneg]
      rw [hint]
      refine ⟨fun _ => .inl (Int.natCast_nonneg _),fun _ => ?_⟩
      push_cast
      rfl

/-- A shift in place: the source may be the destination. -/
structure Shift (w : DigSize) where
  /-- The objects. -/
  store : Store
  dest : ℕ
  lhs : ℕ
  rhs : ℕ
  /-- The integer is in the canonical form. -/
  normal : Normal w (store lhs)
  word : rhs<2^w.sizeBits
  growing : (store dest).fixedDig=false

/-- Shifts are exact when and only when the digits of the shift to the left are counted
within a word and that to the right rounds by the bits it drops. -/
theorem shifts_exact_iff {w : DigSize} (o : Shift w) :
    (Leaves w o.store o.dest (toInt w (o.store o.lhs)*2^o.rhs)
        (mpzShlInpl w o.store o.dest o.lhs o.rhs)∧
      Leaves w o.store o.dest (toInt w (o.store o.lhs)/2^o.rhs)
        (mpzShrInpl w o.store o.dest o.lhs o.rhs))↔
      ((o.store o.lhs).len=0∨o.rhs=0∨ShlFits w o.rhs)∧RoundsAlike w o.store o.dest o.lhs o.rhs := by
  refine and_congr ?_ ?_
  · refine ⟨fun ⟨st',hrun,_⟩ => ?_,mpzShlInpl_result o.normal o.growing⟩
    refine Decidable.byContradiction fun h => ?_
    rw [not_or,not_or] at h
    exact mpzShlInpl_fails o.growing h.1 h.2.1 o.word h.2.2 st' hrun
  · exact (leaves_iff (mpzShrInpl_result o.normal o.growing o.rhs)).trans shiftedRight_eq_iff

theorem normal_minusFive : Normal size16 (small true 5) := normal_small true (by decide)

/-- Minus five, shifted in place by one bit. -/
def minusFiveInPlace : Shift size16 where
  store := fun _ => small true 5
  dest := 0
  lhs := 0
  rhs := 1
  normal := normal_minusFive
  word := by decide
  growing := rfl

/-- Minus five shifted in place to the right by one bit is minus two, and one digit shifted
to the left by all the bits a word counts is stored below the array. -/
theorem shifts_not_exact :
    ((mpzShrInpl size16 (fun _ => small true 5) 0 0 1).map fun st => toInt size16 (st 0))= .ok (-2)∧
      ((mpzShlInpl size16 (fun _ => small false 5) 0 1 4294967295).map fun st => (st 0).len)=
        .error .digits∧
      ¬∀ (w : DigSize) (o : Shift w),Leaves w o.store o.dest (toInt w (o.store o.lhs)*2^o.rhs)
            (mpzShlInpl w o.store o.dest o.lhs o.rhs)∧
          Leaves w o.store o.dest (toInt w (o.store o.lhs)/2^o.rhs)
            (mpzShrInpl w o.store o.dest o.lhs o.rhs) := by
  have hvalue : ((mpzShrInpl size16 (fun _ => small true 5) 0 0 1).map
      fun st => toInt size16 (st 0))=.ok (-2) := by decide +kernel
  refine ⟨hvalue,by decide +kernel,fun h => ?_⟩
  obtain ⟨-,st',hrun,hresult⟩ := h size16 minusFiveInPlace
  change mpzShrInpl size16 (fun _ => small true 5) 0 0 1=.ok st' at hrun
  rw [hrun] at hvalue
  have hleft : toInt size16 (st' 0)=-2 := Except.ok.inj hvalue
  have hright : toInt size16 (st' 0)=-3 := hresult.exact
  omega

end FloorShift

end MicroPython.MpzShift
