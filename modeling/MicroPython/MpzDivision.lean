import MicroPython.LongDivision
import MicroPython.MpzShift

/-!
# Division

`mpn_div` shifts the numerator so that the leading bit of the denominator is set, takes
one digit of the quotient after another from an estimate, subtracts the estimate times
the denominator, and adds the denominator back as long as the estimate was too large.
When a digit is half a double digit, the borrow of the subtraction has no room for what
the largest estimates make of it.
-/

namespace MicroPython.MpzDivision

open Nat Function Positional LongDivision MpzDigits MpzArith MpzBitwise MpzShift
open Int (natCast_mul natCast_add)

/-- The shift that sets the leading bit of a digit. -/
def leadingZeros (w : DigSize) : ℕ→ℕ→ℕ
  | 0,_ => 0
  | n+1,d => if d&&&2^(w.size-1)=0 then leadingZeros w n (d<<<1)+1 else 0

/-- A digit of the numerator shifted, with the carry into the next. -/
def normDigit (w : DigSize) (i shift : ℕ) (st : Store) (t carry : ℕ) : Except Fault (ℕ×ℕ) := do
  let n ← readDig st (.object i) t
  .ok (((n<<<shift)|||carry)&&&w.digMask,n>>>(w.size-shift))

/-- A digit of the remainder shifted back, with the carry into the one below. -/
def unnormDigit (w : DigSize) (i shift : ℕ) (st : Store) (t carry : ℕ) : Except Fault (ℕ×ℕ) := do
  let n ← readDig st (.object i) t
  .ok (((n>>>shift)|||carry)&&&w.digMask,w.dbl (n<<<(w.size-shift)))

/-- The leading digit of the denominator shifted. -/
def leadDenDigit (w : DigSize) (st : Store) (den : Source) (denLen shift : ℕ) : Except Fault ℕ := do
  let d ← readDig st den (denLen-1)
  if 2 ≤ denLen then do
    let below ← readDig st den (denLen-2)
    .ok ((d<<<shift)|||(below>>>(w.size-shift)))
  else .ok (d<<<shift)

/-- A digit of the denominator shifted, above its own carry. -/
def normDen (w : DigSize) (shift d dNorm : ℕ) : ℕ := w.dbl (d<<<shift)|||(dNorm>>>w.size)

/-- A borrow negated, to the digit that it leaves. -/
def negDigit (w : DigSize) (borrow : ℕ) : ℕ := (2^w.dblSize-borrow)&&&w.digMask

/-- A borrow shifted to the right by a digit and rounded up. -/
def shiftUp (w : DigSize) (borrow : ℕ) : ℕ :=
  (borrow>>>w.size)+(if borrow&&&w.digMask=0 then 0 else 1)

/-- The digit and the borrow when a product and a borrow are subtracted from a digit, with
an unsigned borrow. -/
def subUnsigned (w : DigSize) (n x borrow : ℕ) : ℕ×ℕ :=
  if n ≤ x∨n-x ≤ borrow then
    (negDigit w (w.dbl (borrow+x-n)),shiftUp w (w.dbl (borrow+x-n)))
  else ((n-x-borrow)&&&w.digMask,0)

/-- A digit of the estimate times the denominator subtracted, for an unsigned borrow. -/
def subQuoUnsigned (w : DigSize) (i : ℕ) (den : Source) (shift quo off : ℕ) (st : Store)
    (t : ℕ) (s : ℕ×ℕ) : Except Fault (ℕ×ℕ×ℕ) := do
  let d ← readDig st den (t-off)
  let n ← readDig st (.object i) t
  let dNorm := normDen w shift d s.1
  let r := subUnsigned w n (w.dbl (quo*(dNorm&&&w.digMask))) s.2
  .ok (r.1,dNorm,r.2)

/-- A digit of the estimate times the denominator subtracted, for a signed borrow. -/
def subQuoSigned (w : DigSize) (i : ℕ) (den : Source) (shift quo off : ℕ) (st : Store)
    (t : ℕ) (s : ℕ×ℤ) : Except Fault (ℕ×ℕ×ℤ) := do
  let d ← readDig st den (t-off)
  let n ← readDig st (.object i) t
  let dNorm := normDen w shift d s.1
  let r := w.splitSigned (w.sdbl (s.2+(n-(quo*(dNorm&&&w.digMask) : ℕ))))
  .ok (r.1,dNorm,r.2)

/-- The estimate times the denominator subtracted from the digits from a place on, with the
borrow that remains: what is missing when it is unsigned, its negative when it is signed. -/
def subQuo (w : DigSize) (st : Store) (i : ℕ) (den : Source) (denLen shift quo off : ℕ) :
    Except Fault (ℤ×Store) :=
  if 2*w.size<w.dblSize then do
    let r ← digitLoop i (subQuoSigned w i den shift quo off) denLen off (0,0) st
    let top ← readDig r.2 (.object i) (off+denLen)
    let c := w.splitSigned (w.sdbl (r.1.2+top))
    let st ← writeDig r.2 i (off+denLen) c.1
    .ok (c.2,st)
  else do
    let r ← digitLoop i (subQuoUnsigned w i den shift quo off) denLen off (0,0) st
    let top ← readDig r.2 (.object i) (off+denLen)
    let c := subUnsigned w top 0 r.1.2
    let st ← writeDig r.2 i (off+denLen) c.1
    .ok (c.2,st)

/-- A digit of the denominator added back. -/
def addDenDigit (w : DigSize) (i : ℕ) (den : Source) (shift off : ℕ) (st : Store) (t : ℕ)
    (s : ℕ×ℕ) : Except Fault (ℕ×ℕ×ℕ) := do
  let d ← readDig st den (t-off)
  let n ← readDig st (.object i) t
  let dNorm := normDen w shift d s.1
  let c := w.split (w.dbl (s.2+(n+(dNorm&&&w.digMask))))
  .ok (c.1,dNorm,c.2)

/-- The borrow after a carry: it is signed or not as in the subtraction. -/
def borrowCarry (w : DigSize) (borrow : ℤ) (carry : ℕ) : ℤ :=
  if 2*w.size<w.dblSize then w.sdbl (borrow+carry) else (borrow-carry)%2^w.dblSize

/-- The denominator is added back while there is a borrow. The rounds have an end that the
C loop does not reach. -/
def adjustQuo (w : DigSize) (i : ℕ) (den : Source) (denLen shift off : ℕ) :
    ℕ→ℤ→ℕ→Store→Except Fault (ℕ×Store)
  | 0,_,quo,st => .ok (quo,st)
  | rounds+1,borrow,quo,st =>
    if borrow=0 then .ok (quo,st)
    else do
      let r ← digitLoop i (addDenDigit w i den shift off) denLen off (0,0) st
      let top ← readDig r.2 (.object i) (off+denLen)
      let c := w.split (w.dbl (r.1.2+top))
      let st ← writeDig r.2 i (off+denLen) c.1
      adjustQuo w i den denLen shift off rounds (borrowCarry w borrow c.2)
        (w.dbl (quo+2^w.dblSize-1)) st

/-- A digit of the quotient at a place: an estimate, the subtraction and its repair. -/
def divDigit (w : DigSize) (st : Store) (i : ℕ) (den : Source) (denLen shift lead quo off : ℕ) :
    Except Fault Store := do
  let top ← readDig st (.object i) (off+denLen)
  let next ← readDig st (.object i) (off+denLen-1)
  let q := (w.dbl (top<<<w.size)|||next)/lead
  let r ← subQuo w st i den denLen shift q off
  let r ← adjustQuo w i den denLen shift off (4*2^w.dblSize) r.1 q r.2
  writeDig r.2 quo off (r.1&&&w.digMask)

/-- The digits of the quotient from the top. -/
def divLoop (w : DigSize) (i : ℕ) (den : Source) (denLen shift lead quo : ℕ) :
    ℕ→Store→Except Fault Store
  | 0,st => .ok st
  | off+1,st => do
    let st ← divDigit w st i den denLen shift lead quo off
    divLoop w i den denLen shift lead quo off st

/-- `mpn_div`, with the lengths of the remainder and of the quotient. -/
def mpnDiv (w : DigSize) (st : Store) (i numLen : ℕ) (den : Source) (denLen quo : ℕ) :
    Except Fault (ℕ×ℕ×Store) := do
  let cmp ← mpnCmp w st (.object i) numLen den denLen
  if cmp=0 then do
    let st ← writeDig st quo 0 1
    .ok (0,1,st)
  else if cmp<0 then .ok (numLen,0,st)
  else do
    let d ← readDig st den (denLen-1)
    let shift := leadingZeros w w.size d
    let st ← writeDig st i numLen 0
    let r ← digitLoop i (normDigit w i shift) (numLen+1) 0 0 st
    let lead ← leadDenDigit w r.2 den denLen shift
    let st ← divLoop w i den denLen shift lead quo (numLen+1-denLen) r.2
    let r ← digitLoopDown i (unnormDigit w i shift) 0 denLen 0 st
    let quoLen ← mpnRemoveTrailingZeros r.2 quo (numLen+1-denLen)
    let len ← mpnRemoveTrailingZeros r.2 i denLen
    .ok (len,quoLen,r.2)

section Borrow

variable {w : DigSize}

theorem two_pow_dblSize (hhalf : w.dblSize=2*w.size) : 2^w.dblSize=w.base*w.base := by
  rw [hhalf,DigSize.base,←pow_add,two_mul]

/-- A digit with its unsigned borrow is that of the exact difference, where the borrow has
room. -/
theorem subUnsigned_eq (hhalf : w.dblSize=2*w.size) {n x b : ℕ} (hn : n<w.base)
    (hfit : b+x<w.base*w.base+n) : subUnsigned w n x b=
      ((((n : ℤ)-x-b)%w.base).toNat,(-(((n : ℤ)-x-b)/w.base)).toNat) := by
  have hB := w.base_pos
  rw [subUnsigned]
  split
  case isTrue hle =>
    obtain ⟨v,hv⟩ : ∃ v,b+x=n+v := ⟨b+x-n,by omega⟩
    have hint : (n : ℤ)-x-b=-(v : ℤ) := by omega
    have hsquare : v<w.base*w.base := by omega
    have hsplit := div_add_mod v w.base
    have hmod := mod_lt v hB
    have hdigit : negDigit w v=((-(v : ℤ))%w.base).toNat := by
      have hcast : ((w.base*w.base-v : ℕ) : ℤ)=-(v : ℤ)+w.base*w.base := by
        rw [Int.natCast_sub (Nat.le_of_lt hsquare),natCast_mul]
        omega
      rw [negDigit,two_pow_dblSize hhalf,DigSize.digMask,and_two_pow_sub_one_eq_mod,
        ←DigSize.base,←Int.add_mul_emod_self_right (-(v : ℤ)) w.base w.base,←hcast]
      exact (Int.toNat_natCast _).symm
    have hborrow : shiftUp w v=(-(-(v : ℤ)/w.base)).toNat := by
      rw [shiftUp,DigSize.digMask,and_two_pow_sub_one_eq_mod,←DigSize.base,
        Nat.shiftRight_eq_div_pow,←DigSize.base]
      obtain ⟨q,hq⟩ : ∃ q,v/w.base=q := ⟨_,rfl⟩
      obtain ⟨r,hr⟩ : ∃ r,v%w.base=r := ⟨_,rfl⟩
      rw [hq,hr] at hsplit
      rw [hr] at hmod
      rw [hq,hr]
      have hcast : (v : ℤ)=w.base*q+r := by rw [←hsplit,natCast_add,natCast_mul]
      split
      case isTrue hzero =>
        have hdiv : -(v : ℤ)/w.base=-q := by
          refine ((Int.ediv_emod_unique (r := 0) (by omega)).mpr ⟨?_,Int.le_refl 0,by omega⟩).1
          rw [hcast,hzero]
          push_cast
          ring
        rw [hdiv]
        omega
      case isFalse hne =>
        have hdiv : -(v : ℤ)/w.base=-q-1 := by
          refine ((Int.ediv_emod_unique (r := w.base-r) (by omega)).mpr ⟨?_,by omega,by omega⟩).1
          rw [hcast]
          ring
        rw [hdiv]
        omega
    rw [hint,show b+x-n=v by omega,w.dbl_of_lt hsquare,hdigit,hborrow]
  case isFalse hgt =>
    obtain ⟨v,hv⟩ : ∃ v,n=x+b+v := ⟨n-x-b,by omega⟩
    have hint : (n : ℤ)-x-b=v := by omega
    have hlt : v<w.base := by omega
    rw [hint,show n-x-b=v by omega,DigSize.digMask,and_two_pow_sub_one_eq_mod,
      ←DigSize.base,mod_eq_of_lt hlt,Int.emod_eq_of_lt (by omega) (by omega),
      Int.ediv_eq_zero_of_lt (by omega) (by omega)]
    rfl

end Borrow

section Normalised

variable {w : DigSize} {f : ℕ→ℕ} {shift m : ℕ}

/-- The digits of a number, each shifted. -/
def shifted (f : ℕ→ℕ) (shift t : ℕ) : ℕ := f t*2^shift

theorem carry_shifted_lt (hf : ∀ t < m,f t<w.base) :
    ∀ t ≤ m,carry w.base (shifted f shift) 0 t<2^shift := by
  refine carry_lt (Nat.two_pow_pos shift) (fun t ht x hx => ?_)
  have hle : (f t+1)*2^shift ≤ w.base*2^shift := mul_le_mul_right _ (hf t ht)
  rw [add_mul,one_mul] at hle
  rw [shifted,Nat.mul_comm _ w.base]
  omega

theorem value_shifted (B : ℕ) (f : ℕ→ℕ) (shift n : ℕ) :
    value B (shifted f shift) n=value B f n*2^shift := by
  have hfun : shifted f shift=fun t => 2^shift*f t := funext fun t => Nat.mul_comm ..
  rw [hfun,value_const_mul,Nat.mul_comm]

/-- What `d_norm` holds before a place. -/
def normState (w : DigSize) (f : ℕ→ℕ) (shift : ℕ) : ℕ→ℕ
  | 0 => 0
  | t+1 => carry w.base (shifted f shift) 0 t+shifted f shift t

theorem or_carry {d c : ℕ} (hc : c<2^shift) : d<<<shift|||c=c+d*2^shift := by
  rw [shiftLeft_eq,Nat.mul_comm d,←two_pow_add_eq_or_of_lt hc,add_comm]

/-- `d_norm` at the next place. -/
theorem normDen_eq (hf : ∀ t < m,f t<w.base) (hshift : shift ≤ w.size) {t : ℕ} (ht : t < m) :
    normDen w shift (f t) (normState w f shift t)=normState w f shift (t+1) := by
  have hcarry : normState w f shift t>>>w.size=carry w.base (shifted f shift) 0 t := by
    rw [Nat.shiftRight_eq_div_pow,←DigSize.base]
    cases t with
    | zero => exact Nat.zero_div _
    | succ t => rfl
  have hpow : 2^shift ≤ w.base := Nat.pow_le_pow_right (Nat.succ_pos 1) hshift
  have hroom : f t<<<shift<w.base*w.base := by
    rw [shiftLeft_eq]
    exact Nat.lt_of_lt_of_le ((Nat.mul_lt_mul_right (Nat.two_pow_pos shift)).mpr (hf t ht))
      (mul_le_mul_left _ hpow)
  rw [normDen,w.dbl_of_lt hroom,hcarry,or_carry (carry_shifted_lt hf t (Nat.le_of_lt ht))]
  rfl

theorem normState_digit (t : ℕ) : normState w f shift (t+1)&&&w.digMask=
    carryDigit w.base (shifted f shift) 0 t := by
  rw [DigSize.digMask,and_two_pow_sub_one_eq_mod]
  rfl

end Normalised

section Upwards

variable {w : DigSize} {st : Store} {i : ℕ}

/-- The next digit above is written. -/
theorem writeDig_above {lo t : ℕ} {g : ℕ→ℕ} (hlo : lo ≤ t) (h : t<(st i).alloc) :
    writeDig (between st i lo t g) i t (g t)=.ok (between st i lo (t+1) g) := by
  have halloc : (between st i lo t g i).alloc=(st i).alloc :=
    between_alloc st i lo t g (.object i)
  have hdig : Function.update (between st i lo t g i).dig t (g t)=
      (fun s => if lo ≤ s∧s<t+1 then g s else (st i).dig s) := by
    funext s
    rw [between,setDig_self]
    by_cases hs : s=t
    · rw [hs,update_self,if_pos ⟨hlo,lt_succ_self t⟩]
    · rw [update_of_ne hs]
      dsimp only
      by_cases hin : lo ≤ s∧s<t
      · rw [if_pos hin,if_pos (by omega)]
      · rw [if_neg hin,if_neg (by omega)]
  rw [writeDig,if_pos (by rw [halloc]; exact h),hdig,between,setDig_setDig]
  rfl

theorem readDig_above {lo hi t : ℕ} {g : ℕ→ℕ} (ht : hi ≤ t) (h : t<(st i).alloc) :
    readDig (between st i lo hi g) (.object i) t=.ok ((st i).dig t) := by
  have halloc : (between st i lo hi g i).alloc=(st i).alloc :=
    between_alloc st i lo hi g (.object i)
  have hdig : (between st i lo hi g i).dig t=(st i).dig t := by
    rw [between,setDig_self]
    exact if_neg (by omega)
  rw [readDig_of_lt (s := .object i) (by change t<(between st i lo hi g i).alloc; omega)]
  exact congrArg Except.ok hdig

theorem readDig_apart {lo hi t : ℕ} {g : ℕ→ℕ} {s : Source} (hs : s≠.object i)
    (h : t<(s.mpz st).alloc) :
    readDig (between st i lo hi g) s t=.ok ((s.mpz st).dig t) := by
  have hsame : s.mpz (between st i lo hi g)=s.mpz st := mpz_setDig_of_ne hs _
  rw [readDig_of_lt (by rw [hsame]; exact h),hsame]

/-- A loop upwards from a place writes a sequence of digits when its body yields them. -/
theorem digitLoop_between {σ : Type} {body : Store→ℕ→σ→Except Fault (ℕ×σ)} {g : ℕ→ℕ}
    {c : ℕ→σ} {lo n t : ℕ} (hlo : lo ≤ t)
    (hbody : ∀ s,t ≤ s → s<t+n → body (between st i lo s g) s (c s)=.ok (g s,c (s+1)))
    (halloc : t+n ≤ (st i).alloc) :
    digitLoop i body n t (c t) (between st i lo t g)= .ok (c (t+n),between st i lo (t+n) g) := by
  induction n generalizing t with
  | zero => rfl
  | succ n ih =>
    have hfirst := hbody t (le_refl t) (by omega)
    have hwrite := @writeDig_above st i lo t g hlo (by omega)
    have hrest := ih (by omega) (fun s hts hsn => hbody s (by omega) (by omega))
      (by omega : t+1+n ≤ (st i).alloc)
    rw [digitLoop,bind_ok _ hfirst]
    rw [bind_ok _ hwrite,show t+(n+1)=t+1+n by omega]
    exact hrest

end Upwards

section Subtraction

variable {w : DigSize} {st : Store} {i off shift : ℕ} {den : Source}

/-- The digits of the shifted denominator. -/
def denDigit (w : DigSize) (st : Store) (den : Source) (shift : ℕ) : ℕ→ℕ :=
  carryDigit w.base (shifted (den.mpz st).dig shift) 0

/-- What is left at a place when the estimate times the denominator is subtracted. -/
def leftAt (w : DigSize) (st : Store) (i : ℕ) (den : Source) (shift quo off t : ℕ) : ℤ :=
  ((st i).dig (off+t) : ℤ)-(quo : ℤ)*((padded (denDigit w st den shift) (den.mpz st).len t : ℕ) : ℤ)

/-- The borrows of the subtraction have room. -/
def Room (w : DigSize) (st : Store) (i : ℕ) (den : Source) (shift quo off : ℕ) : Prop :=
  ∀ t<(den.mpz st).len,
    (-borrow w.base (leftAt w st i den shift quo off) t).toNat+quo*denDigit w st den shift t<
      w.base*w.base+(st i).dig (off+t)

/-- What is left at a place is below the base. -/
theorem leftAt_lt (hnum : ∀ t ≤ (den.mpz st).len,(st i).dig (off+t)<w.base) {quo t : ℕ}
    (ht : t<(den.mpz st).len+1) : leftAt w st i den shift quo off t<w.base := by
  have hdigit := hnum t (le_of_lt_succ ht)
  have hprod : (0 : ℤ) ≤ (quo : ℤ)*
      ((padded (denDigit w st den shift) (den.mpz st).len t : ℕ) : ℤ) := by positivity
  rw [leftAt]
  omega

/-- The loop of the subtraction with an unsigned borrow. -/
theorem subQuoLoop_eq (hhalf : w.dblSize=2*w.size) (hden : Normal w (den.mpz st))
    (hne : den≠.object i) (hshift : shift ≤ w.size) {quo : ℕ}
    (hquo : ∀ t<(den.mpz st).len,quo*denDigit w st den shift t<w.base*w.base)
    (hnum : ∀ t ≤ (den.mpz st).len,(st i).dig (off+t)<w.base)
    (halloc : off+(den.mpz st).len<(st i).alloc) (hroom : Room w st i den shift quo off) :
    digitLoop i (subQuoUnsigned w i den shift quo off) (den.mpz st).len off (0,0) st=
      .ok ((normState w (den.mpz st).dig shift (den.mpz st).len,
        (-borrow w.base (leftAt w st i den shift quo off) (den.mpz st).len).toNat),
        between st i off (off+(den.mpz st).len)
          (fun t => borrowDigit w.base (leftAt w st i den shift quo off) (t-off))) := by
  have hB := w.base_pos
  have hnonpos := borrow_nonpos hB (s := leftAt w st i den shift quo off)
    (fun t ht => leftAt_lt hnum ht)
  have hloop := @digitLoop_between st i _ (subQuoUnsigned w i den shift quo off)
    (fun t => borrowDigit w.base (leftAt w st i den shift quo off) (t-off))
    (fun t => (normState w (den.mpz st).dig shift (t-off),
      (-borrow w.base (leftAt w st i den shift quo off) (t-off)).toNat))
    off (den.mpz st).len off (le_refl off) (fun s hs hs' => ?_) (by omega)
  · rw [between_self,Nat.sub_self,Nat.add_sub_cancel_left] at hloop
    exact hloop
  · obtain ⟨t,rfl⟩ := Nat.exists_eq_add_of_le hs
    have ht : t<(den.mpz st).len := by omega
    have hdalloc := hden.alloc
    have hdread := @readDig_apart st i off (off+t) t
      (fun t => borrowDigit w.base (leftAt w st i den shift quo off) (t-off)) den hne (by omega)
    have hnread := @readDig_above st i off (off+t) (off+t)
      (fun t => borrowDigit w.base (leftAt w st i den shift quo off) (t-off)) (le_refl _)
      (by omega)
    have hneg := hnonpos t (by omega)
    have hsub := @subUnsigned_eq w hhalf ((st i).dig (off+t)) (quo*denDigit w st den shift t)
      ((-borrow w.base (leftAt w st i den shift quo off) t).toNat) (hnum t (Nat.le_of_lt ht))
      (hroom t ht)
    have hleft : leftAt w st i den shift quo off t=
        ((st i).dig (off+t) : ℤ)-(quo : ℤ)*((denDigit w st den shift t : ℕ) : ℤ) := by
      rw [leftAt,padded,if_pos ht]
    have hint : ((st i).dig (off+t) : ℤ)-((quo*denDigit w st den shift t : ℕ) : ℤ)-
        ((-borrow w.base (leftAt w st i den shift quo off) t).toNat : ℤ)=
        borrow w.base (leftAt w st i den shift quo off) t+leftAt w st i den shift quo off t := by
      rw [Int.toNat_of_nonneg (by omega),natCast_mul,hleft]
      ring
    rw [hint] at hsub
    rw [subQuoUnsigned,Nat.add_sub_cancel_left,bind_ok _ hdread,bind_ok _ hnread]
    dsimp only
    rw [normDen_eq hden.lt hshift ht,normState_digit]
    rw [show carryDigit w.base (shifted (den.mpz st).dig shift) 0 t=
      denDigit w st den shift t from rfl,w.dbl_of_lt (hquo t ht),hsub,
      show off+t+1-off=t+1 by omega]
    rfl

end Subtraction

section Window

variable {w : DigSize} {st : Store} {i off shift : ℕ} {den : Source}

/-- The number in the digits from a place on, one more than the denominator has. -/
def window (w : DigSize) (st : Store) (i : ℕ) (den : Source) (off : ℕ) : ℕ :=
  value w.base (fun t => (st i).dig (off+t)) ((den.mpz st).len+1)

/-- The shifted denominator. -/
def divisor (w : DigSize) (st : Store) (den : Source) (shift : ℕ) : ℕ :=
  mag w (den.mpz st)*2^shift

theorem value_denDigit (h : divisor w st den shift<w.base^(den.mpz st).len) :
    value w.base (denDigit w st den shift) (den.mpz st).len=divisor w st den shift := by
  have hvalue := value_carryDigit w.base (shifted (den.mpz st).dig shift) 0 (den.mpz st).len
  rw [value_shifted,add_zero] at hvalue
  change divisor w st den shift=value w.base (denDigit w st den shift) _+_ at hvalue
  have hnone : carry w.base (shifted (den.mpz st).dig shift) 0 (den.mpz st).len=0 := by
    by_contra hne
    have hle := Nat.le_mul_of_pos_left (w.base^(den.mpz st).len) (Nat.pos_of_ne_zero hne)
    omega
  rw [hnone,zero_mul,add_zero] at hvalue
  exact hvalue.symm

/-- The places of the subtraction stand for the exact difference. -/
theorem value_leftAt (h : divisor w st den shift<w.base^(den.mpz st).len) (quo : ℕ) :
    value (w.base : ℤ) (leftAt w st i den shift quo off) ((den.mpz st).len+1)=
      (window w st i den off : ℤ)-quo*divisor w st den shift := by
  have hsum : value (w.base : ℤ) (fun t => leftAt w st i den shift quo off t+
      (quo : ℤ)*((padded (denDigit w st den shift) (den.mpz st).len t : ℕ) : ℤ))
      ((den.mpz st).len+1)=(window w st i den off : ℤ) := by
    rw [window,value_cast]
    exact value_congr (fun t _ => by rw [leftAt,Int.sub_add_cancel])
  rw [value_add,value_const_mul,←value_cast w.base (padded _ _),
    value_padded _ _ (le_succ _),value_denDigit h] at hsum
  omega

/-- A borrow with room is at most the base. -/
theorem neg_borrow_le {quo : ℕ} (hroom : Room w st i den shift quo off)
    (hnonpos : ∀ t ≤ (den.mpz st).len+1,borrow w.base (leftAt w st i den shift quo off) t ≤ 0) :
    ∀ t ≤ (den.mpz st).len,-borrow w.base (leftAt w st i den shift quo off) t ≤ w.base := by
  intro t ht
  have hbase := w.one_lt_base
  cases t with
  | zero =>
    rw [borrow]
    omega
  | succ t =>
    have hplace := hroom t (by omega)
    have hleft : leftAt w st i den shift quo off t=
        ((st i).dig (off+t) : ℤ)-((quo*denDigit w st den shift t : ℕ) : ℤ) := by
      rw [leftAt,padded,if_pos (by omega),natCast_mul]
    have hlow : -(w.base : ℤ) ≤ (borrow w.base (leftAt w st i den shift quo off) t+
        leftAt w st i den shift quo off t)/w.base := by
      refine Int.le_ediv_of_mul_le (by omega) ?_
      rw [Int.neg_mul,←natCast_mul,hleft]
      omega
    rw [borrow]
    omega

/-- The subtraction leaves the digits of the exact difference and what is missing. -/
theorem subQuo_eq (hhalf : w.dblSize=2*w.size) (hden : Normal w (den.mpz st))
    (hne : den≠.object i) (hshift : shift ≤ w.size) {quo : ℕ}
    (hquo : ∀ t<(den.mpz st).len,quo*denDigit w st den shift t<w.base*w.base)
    (hnum : ∀ t ≤ (den.mpz st).len,(st i).dig (off+t)<w.base)
    (halloc : off+(den.mpz st).len<(st i).alloc) (hroom : Room w st i den shift quo off) :
    subQuo w st i den (den.mpz st).len shift quo off=
      .ok (-borrow w.base (leftAt w st i den shift quo off) ((den.mpz st).len+1),
        between st i off (off+(den.mpz st).len+1)
          (fun t => borrowDigit w.base (leftAt w st i den shift quo off) (t-off))) := by
  have hB := w.base_pos
  have hnonpos := borrow_nonpos hB (s := leftAt w st i den shift quo off)
    (fun t ht => leftAt_lt hnum ht)
  have hneg := hnonpos (den.mpz st).len (le_succ _)
  have hlast := hnonpos ((den.mpz st).len+1) (le_refl _)
  have hbound := neg_borrow_le hroom hnonpos (den.mpz st).len (le_refl _)
  have hroom' := w.two_mul_base_le
  have hloop := subQuoLoop_eq hhalf hden hne hshift hquo hnum halloc hroom
  have hread := @readDig_above st i off (off+(den.mpz st).len) (off+(den.mpz st).len)
    (fun t => borrowDigit w.base (leftAt w st i den shift quo off) (t-off)) (le_refl _)
    halloc
  have hwrite := @writeDig_above st i off (off+(den.mpz st).len)
    (fun t => borrowDigit w.base (leftAt w st i den shift quo off) (t-off)) (Nat.le_add_right ..)
    halloc
  have hsub := @subUnsigned_eq w hhalf ((st i).dig (off+(den.mpz st).len)) 0
    ((-borrow w.base (leftAt w st i den shift quo off) (den.mpz st).len).toNat)
    (hnum _ (le_refl _)) (by omega)
  have hleft : leftAt w st i den shift quo off (den.mpz st).len=
      ((st i).dig (off+(den.mpz st).len) : ℤ) := by
    rw [leftAt,padded,if_neg (lt_irrefl _)]
    push_cast
    ring
  have hint : ((st i).dig (off+(den.mpz st).len) : ℤ)-((0 : ℕ) : ℤ)-
      ((-borrow w.base (leftAt w st i den shift quo off) (den.mpz st).len).toNat : ℤ)=
      borrow w.base (leftAt w st i den shift quo off) (den.mpz st).len+
        leftAt w st i den shift quo off (den.mpz st).len := by
    rw [Int.toNat_of_nonneg (by omega),hleft]
    push_cast
    ring
  rw [hint] at hsub
  rw [Nat.add_sub_cancel_left] at hwrite
  rw [subQuo,if_neg (by omega),bind_ok _ hloop]
  rw [bind_ok _ hread,hsub]
  change (writeDig _ i _ (borrowDigit w.base (leftAt w st i den shift quo off)
    (den.mpz st).len) >>= _)=_
  rw [bind_ok _ hwrite]
  change Except.ok (((-borrow w.base (leftAt w st i den shift quo off)
    ((den.mpz st).len+1)).toNat : ℤ),_)=_
  rw [Int.toNat_of_nonneg (by omega)]

/-- What is added at a place when the denominator is added back. -/
def backAt (w : DigSize) (st : Store) (i : ℕ) (den : Source) (shift off t : ℕ) : ℕ :=
  (st i).dig (off+t)+padded (denDigit w st den shift) (den.mpz st).len t

/-- The carries of adding back are at most one. -/
theorem carry_backAt_lt (hnum : ∀ t ≤ (den.mpz st).len,(st i).dig (off+t)<w.base) :
    ∀ t ≤ (den.mpz st).len+1,carry w.base (backAt w st i den shift off) 0 t<2 := by
  refine carry_lt (by omega) (fun t ht x hx => ?_)
  have hdigit := hnum t (le_of_lt_succ ht)
  have hden : padded (denDigit w st den shift) (den.mpz st).len t<w.base := by
    rw [padded]
    split
    · exact carryDigit_lt _ _ _ w.base_pos t
    · exact w.base_pos
  rw [backAt]
  omega

/-- A denominator is added back, with the carry out of the top digit. -/
theorem addBack_eq (hden : Normal w (den.mpz st)) (hne : den≠.object i)
    (hshift : shift ≤ w.size) (hnum : ∀ t ≤ (den.mpz st).len,(st i).dig (off+t)<w.base)
    (halloc : off+(den.mpz st).len<(st i).alloc) (k : ℕ→Store→Except Fault (ℕ×Store)) :
    (do
      let r ← digitLoop i (addDenDigit w i den shift off) (den.mpz st).len off (0,0) st
      let top ← readDig r.2 (.object i) (off+(den.mpz st).len)
      let c := w.split (w.dbl (r.1.2+top))
      let st ← writeDig r.2 i (off+(den.mpz st).len) c.1
      k c.2 st)=
      k (carry w.base (backAt w st i den shift off) 0 ((den.mpz st).len+1))
        (between st i off (off+(den.mpz st).len+1)
          (fun t => carryDigit w.base (backAt w st i den shift off) 0 (t-off))) := by
  have hcarry := @carry_backAt_lt w st i off shift den hnum
  have hsquare := w.two_mul_base_le
  have hloop := @digitLoop_between st i _ (addDenDigit w i den shift off)
    (fun t => carryDigit w.base (backAt w st i den shift off) 0 (t-off))
    (fun t => (normState w (den.mpz st).dig shift (t-off),
      carry w.base (backAt w st i den shift off) 0 (t-off)))
    off (den.mpz st).len off (le_refl off) (fun s hs hs' => ?_) (by omega)
  · have hread := @readDig_above st i off (off+(den.mpz st).len) (off+(den.mpz st).len)
      (fun t => carryDigit w.base (backAt w st i den shift off) 0 (t-off)) (le_refl _)
      halloc
    have hwrite := @writeDig_above st i off (off+(den.mpz st).len)
      (fun t => carryDigit w.base (backAt w st i den shift off) 0 (t-off))
      (Nat.le_add_right ..) halloc
    have htop := hnum _ (le_refl _)
    have hc := hcarry (den.mpz st).len (le_succ _)
    have hback : backAt w st i den shift off (den.mpz st).len=
        (st i).dig (off+(den.mpz st).len) := by
      rw [backAt,padded,if_neg (lt_irrefl _),add_zero]
    rw [between_self,Nat.sub_self,Nat.add_sub_cancel_left] at hloop
    rw [Nat.add_sub_cancel_left,carryDigit,hback] at hwrite
    have hstart : (normState w (den.mpz st).dig shift 0,
        carry w.base (backAt w st i den shift off) 0 0)=(0,0) := rfl
    rw [hstart] at hloop
    rw [bind_ok _ hloop]
    dsimp only
    rw [bind_ok _ hread,w.dbl_of_lt (by omega),w.split_eq]
    dsimp only
    rw [bind_ok _ hwrite,carry,hback]
  · obtain ⟨t,rfl⟩ := Nat.exists_eq_add_of_le hs
    have ht : t<(den.mpz st).len := by omega
    have hdalloc := hden.alloc
    have hdread := @readDig_apart st i off (off+t) t
      (fun t => carryDigit w.base (backAt w st i den shift off) 0 (t-off)) den hne (by omega)
    have hnread := @readDig_above st i off (off+t) (off+t)
      (fun t => carryDigit w.base (backAt w st i den shift off) 0 (t-off)) (le_refl _)
      (by omega)
    have hdigit := hnum t (Nat.le_of_lt ht)
    have hden' : denDigit w st den shift t<w.base :=
      carryDigit_lt _ _ _ w.base_pos t
    have hc := hcarry t (by omega)
    have hback : backAt w st i den shift off t=(st i).dig (off+t)+denDigit w st den shift t := by
      rw [backAt,padded,if_pos ht]
    rw [addDenDigit,Nat.add_sub_cancel_left,bind_ok _ hdread,bind_ok _ hnread]
    dsimp only
    rw [normDen_eq hden.lt hshift ht,normState_digit,
      show carryDigit w.base (shifted (den.mpz st).dig shift) 0 t=
        denDigit w st den shift t from rfl,w.dbl_of_lt (by omega),w.split_eq,
      show off+t+1-off=t+1 by omega,carryDigit,carry,hback]

end Window

section Adjustment

variable {w : DigSize} {i off shift : ℕ} {den : Source}

/-- The digits between the places replaced again. -/
theorem between_between (st : Store) (i lo hi : ℕ) (f g : ℕ→ℕ) :
    between (between st i lo hi f) i lo hi g=between st i lo hi g := by
  have hdig : (fun t => if lo ≤ t∧t<hi then g t else (between st i lo hi f i).dig t)=
      (fun t => if lo ≤ t∧t<hi then g t else (st i).dig t) := by
    funext t
    by_cases hin : lo ≤ t∧t<hi
    · rw [if_pos hin,if_pos hin]
    · rw [if_neg hin,if_neg hin,between,setDig_self]
      exact if_neg hin
  rw [between,hdig,between,between,setDig_setDig]

theorem between_dig (st : Store) (i lo hi : ℕ) : between st i lo hi (st i).dig=st := by
  rw [between,show (fun t => if lo ≤ t∧t<hi then (st i).dig t else (st i).dig t)=(st i).dig from
    funext fun t => ite_self _,setDig_dig]

theorem between_dig_of_mem (st : Store) {i lo hi t : ℕ} (g : ℕ→ℕ) (h : lo ≤ t∧t<hi) :
    (between st i lo hi g i).dig t=g t := by
  rw [between,setDig_self]
  exact if_pos h

theorem window_lt {st : Store} (hnum : ∀ t ≤ (den.mpz st).len,(st i).dig (off+t)<w.base) :
    window w st i den off<w.base^((den.mpz st).len+1) :=
  Positional.value_lt fun t ht => hnum t (le_of_lt_succ ht)

/-- Without a borrow the estimate is the quotient and the digits are the remainder. -/
theorem adjust_stop {v D r quo : ℕ} (hpos : 0<D) (hinv : (v : ℤ)=(r : ℤ)-((quo*D : ℕ) : ℤ))
    (hquo : r/D ≤ quo) : quo=r/D∧v=r%D := by
  have heq : r=v+D*quo := by
    rw [Nat.mul_comm]
    omega
  have hle : quo ≤ r/D := by
    rw [Nat.le_div_iff_mul_le hpos]
    omega
  have hsame := le_antisymm hle hquo
  have hdiv := div_add_mod r D
  rw [←hsame] at hdiv
  exact ⟨hsame,by omega⟩

/-- Adding the denominator back turns an estimate that is too large into the quotient and
leaves the remainder. -/
theorem adjustQuo_eq (hhalf : w.dblSize=2*w.size) (hne : den≠.object i)
    (hshift : shift ≤ w.size) {r : ℕ} (rounds : ℕ) {st : Store} {borrow : ℤ} {quo : ℕ}
    (hden : Normal w (den.mpz st)) (hpos : 0<divisor w st den shift)
    (hD : divisor w st den shift<w.base^(den.mpz st).len)
    (hnum : ∀ t ≤ (den.mpz st).len,(st i).dig (off+t)<w.base)
    (halloc : off+(den.mpz st).len<(st i).alloc) (hborrow : 0 ≤ borrow∧borrow ≤ 1)
    (hinv : (window w st i den off : ℤ)- ((w.base^((den.mpz st).len+1) : ℕ) : ℤ)*borrow=
        (r : ℤ)-((quo*divisor w st den shift : ℕ) : ℤ))
    (hquo : r/divisor w st den shift ≤ quo)
    (hrounds : quo ≤ r/divisor w st den shift+rounds) (hsmall : quo<2^w.dblSize) :
    ∃ h,adjustQuo w i den (den.mpz st).len shift off rounds borrow quo st=
        .ok (r/divisor w st den shift,between st i off (off+(den.mpz st).len+1) h)∧
      (∀ t ≤ (den.mpz st).len,h (off+t)<w.base)∧
      value w.base (fun t => h (off+t)) ((den.mpz st).len+1)=r%divisor w st den shift := by
  induction rounds generalizing st borrow quo with
  | zero =>
    have hsame : quo=r/divisor w st den shift := le_antisymm hrounds hquo
    have hzero : borrow=0 := by
      rcases (by omega : borrow=0∨borrow=1) with h | h
      · exact h
      · have hle := div_mul_le_self r (divisor w st den shift)
        have hbelow := window_lt hnum
        rw [h,hsame,Int.mul_one] at hinv
        omega
    rw [hzero,Int.mul_zero,Int.sub_zero] at hinv
    have hstop := adjust_stop hpos hinv hquo
    refine ⟨(st i).dig,?_,hnum,hstop.2⟩
    rw [adjustQuo,between_dig,←hstop.1]
  | succ rounds ih =>
    rw [adjustQuo]
    split
    case isTrue hzero =>
      rw [hzero,Int.mul_zero,Int.sub_zero] at hinv
      have hstop := adjust_stop hpos hinv hquo
      refine ⟨(st i).dig,?_,hnum,hstop.2⟩
      rw [between_dig,←hstop.1]
    case isFalse hsome =>
      have hone : borrow=1 := by omega
      have hbelow := window_lt hnum
      rw [hone,Int.mul_one] at hinv
      have hlarge : r/divisor w st den shift<quo := by
        rw [Nat.div_lt_iff_lt_mul hpos]
        omega
      obtain ⟨q,rfl⟩ := exists_eq_succ_of_ne_zero (ne_of_gt (zero_lt_of_lt hlarge))
      obtain ⟨c,hc⟩ : ∃ c,carry w.base (backAt w st i den shift off) 0
        ((den.mpz st).len+1)=c := ⟨_,rfl⟩
      have hcarry := @carry_backAt_lt w st i off shift den hnum _ (le_refl _)
      rw [hc] at hcarry
      obtain ⟨st',hst'⟩ : ∃ s,between st i off (off+(den.mpz st).len+1)
        (fun t => carryDigit w.base (backAt w st i den shift off) 0 (t-off))=s := ⟨_,rfl⟩
      have hsame : den.mpz st'=den.mpz st := by
        rw [←hst']
        exact mpz_setDig_of_ne hne _
      have hdivisor : divisor w st' den shift=divisor w st den shift := by
        rw [divisor,divisor,hsame]
      have hdigit : ∀ t ≤ (den.mpz st).len,(st' i).dig (off+t)=
          carryDigit w.base (backAt w st i den shift off) 0 t := by
        intro t ht
        rw [←hst',between_dig_of_mem st _ (by omega),Nat.add_sub_cancel_left]
      have hnum' : ∀ t ≤ (den.mpz st).len,(st' i).dig (off+t)<w.base := by
        intro t ht
        rw [hdigit t ht]
        exact carryDigit_lt _ _ _ w.base_pos t
      have halloc' : (st' i).alloc=(st i).alloc := by
        rw [←hst']
        exact between_alloc st i _ _ _ (.object i)
      have hwindow : window w st i den off+divisor w st den shift=
          window w st' i den off+c*w.base^((den.mpz st).len+1) := by
        have hvalue := value_carryDigit w.base (backAt w st i den shift off) 0 ((den.mpz st).len+1)
        have hsum : value w.base (backAt w st i den shift off) ((den.mpz st).len+1)=
            window w st i den off+divisor w st den shift := by
          unfold backAt
          rw [value_add,value_padded _ _ (le_succ _),value_denDigit hD,window]
        rw [hsum,hc,add_zero] at hvalue
        rw [hvalue,window,hsame]
        congr 1
        exact value_congr fun t ht => (hdigit t (le_of_lt_succ ht)).symm
      have hnext : borrowCarry w 1 c=1-c := by
        have hpow := two_pow_dblSize hhalf
        have hcast : ((2 : ℤ)^w.dblSize)=((w.base*w.base : ℕ) : ℤ) := by
          rw [←hpow]
          push_cast
          rfl
        rw [borrowCarry,if_neg (by omega),hcast]
        exact Int.emod_eq_of_lt (by omega) (by omega)
      have hless : w.dbl (q+1+2^w.dblSize-1)=q := by
        rw [DigSize.dbl,show q+1+2^w.dblSize-1=q+2^w.dblSize by omega,add_mod_right,
          mod_eq_of_lt (by omega)]
      have hfinal := @ih st' (1-c) q (by rw [hsame]; exact hden) (by rw [hdivisor]; exact hpos)
        (by rw [hdivisor,hsame]; exact hD) (by rw [hsame]; exact hnum')
        (by rw [hsame,halloc']; exact halloc) (by omega)
        (by
          rw [hdivisor,hsame]
          have hmul : (((q+1)*divisor w st den shift : ℕ) : ℤ)=
              ((q*divisor w st den shift : ℕ) : ℤ)+(divisor w st den shift : ℕ) := by
            rw [succ_mul,natCast_add]
          rw [hmul] at hinv
          rw [Int.mul_sub,Int.mul_one,Int.mul_comm _ (c : ℤ)]
          omega)
        (by rw [hdivisor]; omega) (by rw [hdivisor]; omega) (by omega)
      obtain ⟨h,hrun,hlt,hvalue⟩ := hfinal
      rw [hsame] at hrun hlt hvalue
      rw [hdivisor] at hrun hvalue
      refine ⟨h,?_,hlt,hvalue⟩
      rw [hone,addBack_eq hden hne hshift hnum halloc
        (fun c s => adjustQuo w i den (den.mpz st).len shift off rounds (borrowCarry w 1 c)
          (w.dbl (q+1+2^w.dblSize-1)) s),hc,hst',hnext,hless,hrun,←hst',
        between_between]

end Adjustment

section QuotientDigit

variable {w : DigSize} {st : Store} {i off shift quo : ℕ} {den : Source}

/-- The leading digits of the window above those of the divisor. -/
theorem window_div (hnum : ∀ t ≤ (den.mpz st).len,(st i).dig (off+t)<w.base)
    (hlen : 0<(den.mpz st).len) :
    window w st i den off/w.base^((den.mpz st).len-1)=
      (st i).dig (off+(den.mpz st).len-1)+(st i).dig (off+(den.mpz st).len)*w.base := by
  obtain ⟨m,hm⟩ : ∃ m,(den.mpz st).len=m+1 := ⟨_,(succ_pred_eq_of_pos hlen).symm⟩
  rw [hm] at hnum
  have hdiv := @value_div w.base (fun t => (st i).dig (off+t)) (m+1+1) m (by omega)
    (fun t ht => hnum t (le_of_lt_succ ht))
  rw [window,hm,Nat.add_sub_cancel,hdiv,show m+1+1-m=2 by omega,value_succ,value_succ,
    value_zero,pow_zero,pow_one,mul_one,Nat.zero_add,
    show off+(m+1)-1=off+(m+0) by omega]

/-- The borrows that fit have room. -/
theorem room_of_fits (hD : divisor w st den shift<w.base^(den.mpz st).len)
    (hnum : ∀ t ≤ (den.mpz st).len,(st i).dig (off+t)<w.base)
    (hfits : Fits w.base (den.mpz st).len (divisor w st den shift) (window w st i den off)) :
    Room w st i den shift (estimate (w.base^((den.mpz st).len-1)) (divisor w st den shift)
        (window w st i den off)) off := by
  intro t ht
  have hB := w.base_pos
  have hfit := hfits t ht
  obtain ⟨e,he⟩ : ∃ e,estimate (w.base^((den.mpz st).len-1)) (divisor w st den shift)
    (window w st i den off)=e := ⟨_,rfl⟩
  rw [he] at hfit ⊢
  have hdigit : ∀ s<(den.mpz st).len,denDigit w st den shift s<w.base :=
    fun s _ => carryDigit_lt _ _ _ hB s
  have hDmod : ∀ s ≤ (den.mpz st).len,divisor w st den shift%w.base^s=
      value w.base (denDigit w st den shift) s := by
    intro s hs
    rw [←value_denDigit hD,value_mod hs hdigit]
  have hRmod : ∀ s ≤ (den.mpz st).len,window w st i den off%w.base^s=
      value w.base (fun t => (st i).dig (off+t)) s := by
    intro s hs
    rw [window,value_mod (le_succ_of_le hs) (fun t ht => hnum t (le_of_lt_succ ht))]
  have hvalue := @value_borrowDigit w.base (leftAt w st i den shift e off) hB t
  have hlow : value w.base (borrowDigit w.base (leftAt w st i den shift e off)) t<w.base^t :=
    Positional.value_lt fun s _ => borrowDigit_lt hB s
  have hleft : value (w.base : ℤ) (leftAt w st i den shift e off) t=
      ((value w.base (fun t => (st i).dig (off+t)) t : ℕ) : ℤ)-
        e*((value w.base (denDigit w st den shift) t : ℕ) : ℤ) := by
    have hsum : value (w.base : ℤ) (fun t => leftAt w st i den shift e off t+
        (e : ℤ)*((padded (denDigit w st den shift) (den.mpz st).len t : ℕ) : ℤ)) t=
        ((value w.base (fun t => (st i).dig (off+t)) t : ℕ) : ℤ) := by
      rw [value_cast]
      exact value_congr (fun t _ => by rw [leftAt,Int.sub_add_cancel])
    have hpad : value w.base (padded (denDigit w st den shift) (den.mpz st).len) t=
        value w.base (denDigit w st den shift) t :=
      value_congr fun s hs => if_pos (by omega)
    rw [value_add,value_const_mul,←value_cast w.base (padded _ _),hpad] at hsum
    omega
  rw [hleft] at hvalue
  rw [hDmod (t+1) ht,hRmod (t+1) ht,value_succ,value_succ] at hfit
  generalize hp : w.base^t=p
  have hcast : ((w.base : ℤ)^t)=(p : ℕ) := by
    rw [←hp]
    push_cast
    rfl
  rw [hcast] at hvalue
  rw [hp] at hlow hfit
  obtain ⟨b,hb⟩ : ∃ b,borrow w.base (leftAt w st i den shift e off) t=b := ⟨_,rfl⟩
  rw [hb] at hvalue ⊢
  have hneg : b ≤ 0 := by
    rw [←hb]
    exact borrow_nonpos hB (s := leftAt w st i den shift e off)
      (fun s hs => leftAt_lt hnum hs) t (by omega)
  -- The claim times the power of the place.
  have hmul : (e*denDigit w st den shift t : ℤ)*p<
      (b+((st i).dig (off+t) : ℤ)+w.base*w.base)*p := by
    have hsquare : 0<w.base*w.base := mul_pos hB hB
    have hfit' : (e : ℤ)*((value w.base (denDigit w st den shift) t : ℕ) : ℤ)+
        (e : ℤ)*((denDigit w st den shift t : ℕ) : ℤ)*p ≤
        ((value w.base (fun t => (st i).dig (off+t)) t : ℕ) : ℤ)+
          ((st i).dig (off+t) : ℤ)*p+((w.base*w.base : ℕ) : ℤ)*p-p := by
      have hz := Int.ofNat_le.mpr hfit
      rw [natCast_mul,natCast_add,natCast_add,natCast_mul,natCast_add,
        natCast_mul,natCast_mul,Int.natCast_sub hsquare,Int.sub_mul] at hz
      rw [Int.mul_add,←Int.mul_assoc] at hz
      omega
    rw [natCast_mul] at hfit'
    rw [Int.add_mul,Int.add_mul,Int.mul_comm b]
    omega
  have hlt := lt_of_mul_lt_mul_right hmul (by omega)
  rw [←natCast_mul,←natCast_mul] at hlt
  omega

/-- A digit of the quotient, with what is left in the digits that it was taken from. -/
theorem divDigit_eq (hhalf : w.dblSize=2*w.size) (hden : Normal w (den.mpz st))
    (hne : den≠.object i) (hquo : quo≠i) (hshift : shift ≤ w.size)
    (hlen : 0<(den.mpz st).len) (hD : divisor w st den shift<w.base^(den.mpz st).len)
    (hlead : w.base ≤ 2*(divisor w st den shift/w.base^((den.mpz st).len-1)))
    (hnum : ∀ t ≤ (den.mpz st).len,(st i).dig (off+t)<w.base)
    (halloc : off+(den.mpz st).len<(st i).alloc) (hqalloc : off<(st quo).alloc)
    (hR : window w st i den off<w.base*divisor w st den shift)
    (hfits : Fits w.base (den.mpz st).len (divisor w st den shift) (window w st i den off)) :
    ∃ h,divDigit w st i den (den.mpz st).len shift
        (divisor w st den shift/w.base^((den.mpz st).len-1)) quo off=
        .ok (setDig (between st i off (off+(den.mpz st).len+1) h) quo
          (Function.update (st quo).dig off (window w st i den off/divisor w st den shift)))∧
      (∀ t ≤ (den.mpz st).len,h (off+t)<w.base)∧
      value w.base (fun t => h (off+t)) ((den.mpz st).len+1)=
        window w st i den off%divisor w st den shift := by
  have hB := w.base_pos
  have hbase := w.one_lt_base
  have hP : 0<w.base^((den.mpz st).len-1) := Nat.pow_pos hB
  have hpos : 0<divisor w st den shift := by
    refine Nat.pos_of_ne_zero fun hzero => ?_
    rw [hzero,Nat.zero_div] at hlead
    omega
  have hroom := room_of_fits hD hnum hfits
  have hle := estimate_le hP hlead hR hB
  have hle2 := estimate_le_add hP hlead hR hB
  have hge := div_le_estimate (P := w.base^((den.mpz st).len-1))
    (R := window w st i den off) (by omega : 0<divisor w st den shift/_)
  obtain ⟨e,he⟩ : ∃ e,estimate (w.base^((den.mpz st).len-1)) (divisor w st den shift)
    (window w st i den off)=e := ⟨_,rfl⟩
  rw [he] at hroom hle hle2 hge
  have hsquare : (w.base+1)*(w.base-1)<w.base*w.base := by
    obtain ⟨c,hc⟩ : ∃ c,w.base=c+1 := ⟨w.base-1,by omega⟩
    rw [hc,Nat.add_sub_cancel]
    nlinarith
  have hprod : ∀ t<(den.mpz st).len,e*denDigit w st den shift t<w.base*w.base := by
    intro t _
    have hdigit : denDigit w st den shift t<w.base := carryDigit_lt _ _ _ hB t
    exact Nat.lt_of_le_of_lt (Nat.mul_le_mul hle (Nat.le_sub_one_of_lt hdigit)) hsquare
  have hsub := subQuo_eq hhalf hden hne hshift hprod hnum halloc hroom
  have hnonpos := borrow_nonpos hB (s := leftAt w st i den shift e off)
    (fun t ht => leftAt_lt hnum ht) ((den.mpz st).len+1)
    (le_refl _)
  have hvalue := @value_borrowDigit w.base (leftAt w st i den shift e off) hB ((den.mpz st).len+1)
  rw [value_leftAt hD] at hvalue
  obtain ⟨b,hb⟩ : ∃ b,borrow w.base (leftAt w st i den shift e off)
    ((den.mpz st).len+1)=b := ⟨_,rfl⟩
  obtain ⟨st₁,hst₁⟩ : ∃ s,between st i off (off+(den.mpz st).len+1)
    (fun t => borrowDigit w.base (leftAt w st i den shift e off) (t-off))=s := ⟨_,rfl⟩
  rw [hb] at hsub hnonpos hvalue
  rw [hst₁] at hsub
  have hsame : den.mpz st₁=den.mpz st := by
    rw [←hst₁]
    exact mpz_setDig_of_ne hne _
  have hdivisor : divisor w st₁ den shift=divisor w st den shift := by
    rw [divisor,divisor,hsame]
  have hdigit : ∀ t ≤ (den.mpz st).len,(st₁ i).dig (off+t)=
      borrowDigit w.base (leftAt w st i den shift e off) t := by
    intro t ht
    rw [←hst₁,between_dig_of_mem st _ (by omega),Nat.add_sub_cancel_left]
  have hwindow : window w st₁ i den off=value w.base
      (borrowDigit w.base (leftAt w st i den shift e off)) ((den.mpz st).len+1) := by
    rw [window,hsame]
    exact value_congr fun t ht => hdigit t (le_of_lt_succ ht)
  have hbelow : window w st₁ i den off<w.base^((den.mpz st).len+1) := by
    rw [hwindow]
    exact Positional.value_lt fun t _ => borrowDigit_lt hB t
  have hcast : ((w.base : ℤ)^((den.mpz st).len+1))=((w.base^((den.mpz st).len+1) : ℕ) : ℤ) := by
    push_cast
    rfl
  have halloc₁ : (st₁ i).alloc=(st i).alloc := by
    rw [←hst₁]
    exact between_alloc st i _ _ _ (.object i)
  rw [←hwindow,hcast] at hvalue
  have hinv : (window w st₁ i den off : ℤ)-((w.base^((den.mpz st).len+1) : ℕ) : ℤ)*(-b)=
      (window w st i den off : ℤ)-((e*divisor w st den shift : ℕ) : ℤ) := by
    rw [natCast_mul,Int.mul_neg]
    omega
  -- The estimate is at most two too large, so that at most one is missing.
  have hmissing : -b ≤ 1 := by
    have htwo : e*divisor w st den shift ≤ window w st i den off+2*divisor w st den shift := by
      have hmul := mul_le_mul_right (divisor w st den shift) hle2
      rw [add_mul] at hmul
      have hdiv := div_mul_le_self (window w st i den off) (divisor w st den shift)
      omega
    have hpow : 2*w.base^(den.mpz st).len ≤ w.base^((den.mpz st).len+1) := by
      rw [pow_succ']
      exact mul_le_mul_right _ hbase
    by_contra hmore
    obtain ⟨p,hp⟩ : ∃ p,w.base^((den.mpz st).len+1)=p := ⟨_,rfl⟩
    rw [hp] at hinv hbelow hpow
    have hbig : (p : ℤ)*2 ≤ p*(-b) := Int.mul_le_mul_of_nonneg_left (by omega) (by omega)
    omega
  obtain ⟨h,hrun,hlt,hrem⟩ := @adjustQuo_eq w i off shift den hhalf hne hshift
    (window w st i den off) (4*2^w.dblSize) st₁ (-b) e (by rw [hsame]; exact hden)
    (by rw [hdivisor]; exact hpos) (by rw [hdivisor,hsame]; exact hD)
    (by
      rw [hsame]
      intro t ht
      rw [hdigit t ht]
      exact borrowDigit_lt hB t)
    (by rw [hsame,halloc₁]; exact halloc) ⟨by omega,hmissing⟩
    (by rw [hsame,hdivisor]; exact hinv) (by rw [hdivisor]; exact hge)
    (by
      rw [hdivisor]
      have := Nat.two_pow_pos w.dblSize
      omega)
    (by
      rw [two_pow_dblSize hhalf]
      have hbase' := mul_le_mul_right w.base hbase
      omega)
  rw [hsame] at hrun hlt hrem
  rw [hdivisor] at hrun hrem
  have hquotient : window w st i den off/divisor w st den shift<w.base := by
    rw [Nat.div_lt_iff_lt_mul hpos]
    exact hR
  have htop := hnum _ (le_refl _)
  have hnext := hnum ((den.mpz st).len-1) (Nat.sub_le ..)
  have hreadTop : readDig st (.object i) (off+(den.mpz st).len)=
      .ok ((st i).dig (off+(den.mpz st).len)) := readDig_of_lt halloc
  have hreadNext : readDig st (.object i) (off+(den.mpz st).len-1)=
      .ok ((st i).dig (off+(den.mpz st).len-1)) :=
    readDig_of_lt (Nat.lt_of_le_of_lt (Nat.sub_le ..) halloc)
  have hestimate : (w.dbl ((st i).dig (off+(den.mpz st).len)<<<w.size)|||
      (st i).dig (off+(den.mpz st).len-1))/
        (divisor w st den shift/w.base^((den.mpz st).len-1))=e := by
    have hjoin : (st i).dig (off+(den.mpz st).len-1)<2^w.size := by
      rw [show off+(den.mpz st).len-1=off+((den.mpz st).len-1) by omega]
      exact hnext
    have htwo : (st i).dig (off+(den.mpz st).len)<<<w.size<w.base*w.base := by
      rw [shiftLeft_eq]
      exact (Nat.mul_lt_mul_right hB).mpr htop
    rw [w.dbl_of_lt htwo,or_carry hjoin,←he,estimate,window_div hnum hlen]
    rfl
  refine ⟨h,?_,hlt,hrem⟩
  rw [divDigit,bind_ok _ hreadTop,bind_ok _ hreadNext]
  rw [hestimate,bind_ok _ hsub]
  dsimp only
  rw [bind_ok _ hrun]
  dsimp only
  rw [←hst₁,between_between,DigSize.digMask,and_two_pow_sub_one_eq_mod,←DigSize.base,
    mod_eq_of_lt hquotient]
  have hqsame : between st i off (off+(den.mpz st).len+1) h quo=st quo :=
    setDig_of_ne _ _ hquo
  rw [writeDig,hqsame,if_pos hqalloc]

end QuotientDigit

section Quotient

variable {w : DigSize} {i shift quo : ℕ} {den : Source}

/-- The digits of two objects replaced again. -/
theorem setDig_twice (st : Store) {i quo : ℕ} (h : quo≠i) (lo hi : ℕ) (f g q r : ℕ→ℕ) :
    setDig (setDig (setDig (between st i lo hi f) quo q) i g) quo r=
      setDig (setDig st i g) quo r := by
  funext a
  by_cases ha : a=quo
  · rw [ha,setDig_self,setDig_self,setDig_of_ne _ _ h,setDig_of_ne _ _ h,setDig_self,between,
      setDig_of_ne _ _ h]
  · rw [setDig_of_ne _ _ ha,setDig_of_ne _ _ ha]
    by_cases hi' : a=i
    · rw [hi',setDig_self,setDig_self,setDig_of_ne _ _ h.symm,between,setDig_self]
    · rw [setDig_of_ne _ _ hi',setDig_of_ne _ _ hi',setDig_of_ne _ _ ha,between,
        setDig_of_ne _ _ hi']

/-- The digits of the quotient are taken from the top, and the remainder is left below. -/
theorem divLoop_eq (hhalf : w.dblSize=2*w.size) (hne : den≠.object i) (hne' : den≠.object quo)
    (hquo : quo≠i) (hshift : shift ≤ w.size) (n : ℕ) {st : Store}
    (hden : Normal w (den.mpz st)) (hlen : 0<(den.mpz st).len)
    (hD : divisor w st den shift<w.base^(den.mpz st).len)
    (hlead : w.base ≤ 2*(divisor w st den shift/w.base^((den.mpz st).len-1)))
    (hnum : ∀ t<n+(den.mpz st).len,(st i).dig t<w.base)
    (halloc : n+(den.mpz st).len ≤ (st i).alloc) (hqalloc : n ≤ (st quo).alloc)
    (hV : value w.base (st i).dig (n+(den.mpz st).len)<divisor w st den shift*w.base^n)
    (hfits : AllFit w.base (den.mpz st).len (divisor w st den shift)
      (value w.base (st i).dig (n+(den.mpz st).len)) n) :
    ∃ g q,divLoop w i den (den.mpz st).len shift
        (divisor w st den shift/w.base^((den.mpz st).len-1)) quo n st=
        .ok (setDig (setDig st i g) quo q)∧
      (∀ t<(den.mpz st).len,g t<w.base)∧
      value w.base g (den.mpz st).len=
        value w.base (st i).dig (n+(den.mpz st).len)%divisor w st den shift∧
      (∀ t<n,q t<w.base)∧
      value w.base q n=value w.base (st i).dig (n+(den.mpz st).len)/divisor w st den shift∧
      ∀ t,n ≤ t → q t=(st quo).dig t := by
  have hB := w.base_pos
  induction n generalizing st with
  | zero =>
    rw [Nat.zero_add] at hV hnum ⊢
    rw [pow_zero,mul_one] at hV
    refine ⟨(st i).dig,(st quo).dig,?_,hnum,(mod_eq_of_lt hV).symm,
      fun t ht => absurd ht (not_lt_zero t),(Nat.div_eq_of_lt hV).symm,fun t _ => rfl⟩
    rw [setDig_dig,setDig_dig]
    rfl
  | succ n ih =>
    obtain ⟨v,hv⟩ : ∃ v,value w.base (st i).dig (n+1+(den.mpz st).len)=v := ⟨_,rfl⟩
    have hpos : 0<divisor w st den shift := by
      refine Nat.pos_of_ne_zero fun hzero => ?_
      rw [hzero,zero_mul] at hV
      exact absurd hV (not_lt_zero _)
    have hwindow : window w st i den n=v/w.base^n := by
      rw [←hv,value_div (by omega) hnum,window]
      congr 1
      omega
    have hlow : v%w.base^n=value w.base (st i).dig n := by
      rw [←hv]
      exact value_mod (by omega) hnum
    rw [hv] at hV hfits ⊢
    have hfirst : Fits w.base (den.mpz st).len (divisor w st den shift) (window w st i den n) := by
      rw [hwindow,←partialRem_top hB hV]
      exact hfits n (lt_succ_self n)
    have hR : window w st i den n<w.base*divisor w st den shift := by
      rw [hwindow,Nat.div_lt_iff_lt_mul (Nat.pow_pos hB),Nat.mul_comm w.base,Nat.mul_assoc,
        ←pow_succ']
      exact hV
    obtain ⟨h,hrun,hlt,hrem⟩ := @divDigit_eq w st i n shift quo den hhalf hden hne hquo hshift
      hlen hD hlead (fun t ht => hnum (n+t) (by omega)) (by omega) (by omega) hR hfirst
    obtain ⟨st₁,hst₁⟩ : ∃ s,setDig (between st i n (n+(den.mpz st).len+1) h) quo
      (Function.update (st quo).dig n (window w st i den n/divisor w st den shift))=s := ⟨_,rfl⟩
    have hsame : den.mpz st₁=den.mpz st := by
      rw [←hst₁,mpz_setDig_of_ne hne' _]
      exact mpz_setDig_of_ne hne _
    have hdivisor : divisor w st₁ den shift=divisor w st den shift := by
      rw [divisor,divisor,hsame]
    have hi : st₁ i=between st i n (n+(den.mpz st).len+1) h i := by
      rw [←hst₁,setDig_of_ne _ _ hquo.symm]
    have hq : st₁ quo={st quo with
        dig := Function.update (st quo).dig n (window w st i den n/divisor w st den shift)} := by
      rw [←hst₁,setDig_self,between,setDig_of_ne _ _ hquo]
    have hbelow : ∀ t<n,(st₁ i).dig t=(st i).dig t := by
      intro t ht
      rw [hi,between,setDig_self]
      exact if_neg (by omega)
    have habove : ∀ t ≤ (den.mpz st).len,(st₁ i).dig (n+t)=h (n+t) := by
      intro t ht
      rw [hi,between_dig_of_mem st h (by omega)]
    -- The top digit of what is left is zero.
    have hleft : value w.base (fun t => h (n+t)) (den.mpz st).len=
        window w st i den n%divisor w st den shift := by
      have hmod := lt_trans (mod_lt (window w st i den n) hpos) hD
      rw [←hrem,value_succ] at hmod
      have hzero : h (n+(den.mpz st).len)=0 := by
        by_contra hne
        have hle := Nat.le_mul_of_pos_left (w.base^(den.mpz st).len) (Nat.pos_of_ne_zero hne)
        omega
      rw [value_succ,hzero,zero_mul,add_zero] at hrem
      exact hrem
    have hV₁ : value w.base (st₁ i).dig (n+(den.mpz st).len)=
        stepRem w.base (divisor w st den shift) v n := by
      have hhigh : value w.base (fun t => (st₁ i).dig (n+t)) (den.mpz st).len=
          window w st i den n%divisor w st den shift := by
        rw [←hleft]
        exact value_congr fun t ht => habove t (Nat.le_of_lt ht)
      rw [value_append,value_congr hbelow,hhigh,stepRem,←hlow,hwindow]
      ring
    have halloc₁ : (st₁ i).alloc=(st i).alloc := by
      rw [hi]
      exact between_alloc st i _ _ _ (.object i)
    obtain ⟨g,q,hloop,hg,hgv,hqlt,hqv,hqrest⟩ := @ih st₁ (by rw [hsame]; exact hden)
      (by rw [hsame]; exact hlen) (by rw [hsame,hdivisor]; exact hD)
      (by rw [hsame,hdivisor]; exact hlead)
      (by
        rw [hsame]
        intro t ht
        rcases lt_or_ge t n with hlow | hge
        · rw [hbelow t hlow]
          exact hnum t (by omega)
        · obtain ⟨s,rfl⟩ := Nat.exists_eq_add_of_le hge
          rw [habove s (by omega)]
          exact hlt s (by omega))
      (by rw [hsame,halloc₁]; omega) (by rw [hq]; change n ≤ (st quo).alloc; omega)
      (by rw [hsame,hdivisor,hV₁]; exact stepRem_lt hB hpos)
      (by
        rw [hsame,hdivisor,hV₁]
        intro j hj
        rw [partialRem_step hB hj]
        exact hfits j (lt_succ_of_lt hj))
    rw [hsame] at hloop hg hgv hqv
    rw [hdivisor] at hloop hgv hqv
    rw [hV₁] at hgv hqv
    have hqn : q n=window w st i den n/divisor w st den shift := by
      rw [hqrest n (le_refl n),hq]
      exact update_self ..
    refine ⟨g,q,?_,hg,?_,fun t ht => ?_,?_,fun t ht => ?_⟩
    · rw [divLoop,bind_ok _ hrun,hst₁,hloop,←hst₁,setDig_twice st hquo]
    · rw [hgv]
      exact (mod_step ..).symm
    · rcases lt_or_eq_of_le (le_of_lt_succ ht) with hlow | heq
      · exact hqlt t hlow
      · rw [heq,hqn,Nat.div_lt_iff_lt_mul hpos]
        exact hR
    · rw [value_succ,hqv,hqn,hwindow]
      exact (div_step hpos).symm
    · rw [hqrest t (by omega),hq]
      exact update_of_ne (by omega) ..

end Quotient

section Normalising

variable {w : DigSize}

/-- The leading bit of a digit is set when the digit reaches it. -/
theorem and_msb_eq_zero_iff {d : ℕ} (hd : d<w.base) : d&&&2^(w.size-1)=0↔d<2^(w.size-1) := by
  have hbase : w.base=2^(w.size-1)*2 := by
    rw [DigSize.base,←pow_succ,Nat.sub_add_cancel w.pos]
  rw [and_two_pow]
  refine ⟨fun h => ?_,fun h => ?_⟩
  · by_contra hge
    have hbit : d.testBit (w.size-1)=true := by
      rw [testBit_eq_decide_div_mod_eq]
      have hone : d/2^(w.size-1)=1 := Nat.div_eq_of_lt_le (by omega) (by omega)
      rw [hone]
      rfl
    rw [hbit] at h
    exact absurd h (by rw [Bool.toNat_true,one_mul]; exact (Nat.two_pow_pos _).ne')
  · rw [testBit_lt_two_pow h]
    exact zero_mul _

/-- The shift sets the leading bit and loses none. -/
theorem leadingZeros_spec (n : ℕ) {d : ℕ} (hd : d<w.base) (hn : w.base ≤ d*2^n) :
    d*2^leadingZeros w n d<w.base∧w.base ≤ 2*(d*2^leadingZeros w n d) := by
  have hbase : w.base=2^(w.size-1)*2 := by
    rw [DigSize.base,←pow_succ,Nat.sub_add_cancel w.pos]
  induction n generalizing d with
  | zero =>
    rw [pow_zero,mul_one] at hn
    omega
  | succ n ih =>
    rw [leadingZeros]
    split
    case isTrue hzero =>
      have hlow := (and_msb_eq_zero_iff hd).mp hzero
      have hshift : d<<<1=d*2 := by rw [shiftLeft_eq,pow_one]
      have hrest := ih (d := d<<<1) (by omega) (by
        rw [hshift,Nat.mul_assoc,←pow_succ']
        exact hn)
      rw [hshift,Nat.mul_assoc,←pow_succ'] at hrest
      rw [hshift]
      exact hrest
    case isFalse hne =>
      have hge : 2^(w.size-1) ≤ d := not_lt.mp fun h =>
        hne ((and_msb_eq_zero_iff hd).mpr h)
      rw [pow_zero,mul_one]
      omega

theorem leadingZeros_le {d : ℕ} (hd : d<w.base) (hpos : 0<d) :
    leadingZeros w w.size d ≤ w.size := by
  have hspec := leadingZeros_spec w.size hd (Nat.le_mul_of_pos_left _ hpos)
  have hle : 2^leadingZeros w w.size d ≤ d*2^leadingZeros w w.size d :=
    Nat.le_mul_of_pos_left _ hpos
  exact Nat.le_of_lt ((Nat.pow_lt_pow_iff_right (by decide)).mp (Nat.lt_of_le_of_lt hle hspec.1))

variable {shift : ℕ}

/-- The carry of a shifted digit is its upper bits. -/
theorem carry_div {c n : ℕ} (hc : c<2^shift) (hshift : shift ≤ w.size) :
    (c+n*2^shift)/w.base=n>>>(w.size-shift) := by
  have hbase : w.base=2^shift*2^(w.size-shift) := by
    rw [DigSize.base,←pow_add]
    congr 1
    omega
  rw [hbase,←Nat.div_div_eq_div_mul,Nat.add_mul_div_right _ _ (Nat.two_pow_pos shift),
    Nat.div_eq_of_lt hc,Nat.zero_add,Nat.shiftRight_eq_div_pow]

/-- The leading part of the shifted denominator. -/
theorem leadDenDigit_eq {st : Store} {den : Source} (hden : Normal w (den.mpz st))
    (hlen : 0<(den.mpz st).len) (hshift : shift ≤ w.size) :
    leadDenDigit w st den (den.mpz st).len shift=
      .ok (divisor w st den shift/w.base^((den.mpz st).len-1)) := by
  obtain ⟨m,hm⟩ : ∃ m,(den.mpz st).len=m+1 := ⟨_,(succ_pred_eq_of_pos hlen).symm⟩
  have halloc := hden.alloc
  have hB := w.base_pos
  have hcarry := @carry_shifted_lt w (den.mpz st).dig shift _ hden.lt
  have hlead : divisor w st den shift/w.base^m=
      carry w.base (shifted (den.mpz st).dig shift) 0 m+(den.mpz st).dig m*2^shift := by
    have hlow : value w.base (carryDigit w.base (shifted (den.mpz st).dig shift) 0) m<
        w.base^m := Positional.value_lt fun t _ => carryDigit_lt _ _ _ hB t
    have hvalue := value_carryDigit w.base (shifted (den.mpz st).dig shift) 0 m
    have hsplit : divisor w st den shift=
        value w.base (shifted (den.mpz st).dig shift) m+(den.mpz st).dig m*2^shift*w.base^m := by
      rw [divisor,mag,hm,←value_shifted,value_succ]
      rfl
    rw [add_zero] at hvalue
    rw [hsplit,hvalue,add_assoc,←add_mul,
      Nat.add_mul_div_right _ _ (Nat.pow_pos hB),Nat.div_eq_of_lt hlow,Nat.zero_add]
  have hread : readDig st den m=.ok ((den.mpz st).dig m) := readDig_of_lt (by omega)
  rw [hm,leadDenDigit,Nat.add_sub_cancel,bind_ok _ hread,hlead]
  split
  case isTrue htwo =>
    obtain ⟨k,rfl⟩ : ∃ k,m=k+1 := ⟨m-1,by omega⟩
    have hbelow : readDig st den k=.ok ((den.mpz st).dig k) := readDig_of_lt (by omega)
    have hc := hcarry (k+1) (by omega)
    have hc' := hcarry k (by omega)
    have hnext : carry w.base (shifted (den.mpz st).dig shift) 0 (k+1)=
        (den.mpz st).dig k>>>(w.size-shift) := by
      rw [carry,shifted,carry_div hc' hshift]
    rw [show k+1+1-2=k by omega,bind_ok _ hbelow]
    rw [hnext] at hc ⊢
    rw [or_carry hc]
  case isFalse hone =>
    have hzero : m=0 := by omega
    rw [hzero,carry,Nat.zero_add,shiftLeft_eq]

/-- The shift of the leading digit keeps the length of the denominator and makes its leading
part large. -/
theorem divisor_bounds {st : Store} {den : Source} (hden : Normal w (den.mpz st)) {m : ℕ}
    (hm : (den.mpz st).len=m+1)
    (hshift : leadingZeros w w.size ((den.mpz st).dig m)=shift) :
    shift ≤ w.size∧divisor w st den shift<w.base^(m+1)∧
      w.base ≤ 2*(divisor w st den shift/w.base^m) := by
  have hB := w.base_pos
  have htop := hden.lt m (by omega)
  have hpos := Nat.pos_of_ne_zero (hden.top m hm)
  have hspec := leadingZeros_spec w.size htop (Nat.le_mul_of_pos_left _ hpos)
  have hle := leadingZeros_le htop hpos
  rw [hshift] at hspec hle
  have hlow : value w.base (den.mpz st).dig m<w.base^m :=
    Positional.value_lt fun t ht => hden.lt t (by omega)
  have hsplit : divisor w st den shift=value w.base (den.mpz st).dig m*2^shift+
      (den.mpz st).dig m*2^shift*w.base^m := by
    rw [divisor,mag,hm,value_succ]
    ring
  have hpow : w.base=2^shift*2^(w.size-shift) := by
    rw [DigSize.base,←pow_add]
    congr 1
    omega
  refine ⟨hle,?_,?_⟩
  · have hfew : (den.mpz st).dig m+1 ≤ 2^(w.size-shift) := by
      have hlt : (den.mpz st).dig m*2^shift<2^(w.size-shift)*2^shift := by
        rw [Nat.mul_comm (2^(w.size-shift)),←hpow]
        exact hspec.1
      exact Nat.lt_of_mul_lt_mul_right hlt
    have hmul : ((den.mpz st).dig m+1)*(2^shift*w.base^m) ≤ w.base^(m+1) := by
      have hmul := mul_le_mul_right (2^shift*w.base^m) hfew
      refine le_trans hmul (le_of_eq ?_)
      rw [pow_succ',←Nat.mul_assoc,Nat.mul_comm (2^(w.size-shift)),←hpow]
    have hpart : value w.base (den.mpz st).dig m*2^shift<2^shift*w.base^m := by
      rw [Nat.mul_comm]
      exact (Nat.mul_lt_mul_left (Nat.two_pow_pos shift)).mpr hlow
    rw [add_mul,one_mul,←Nat.mul_assoc] at hmul
    omega
  · have hge : (den.mpz st).dig m*2^shift ≤ divisor w st den shift/w.base^m := by
      rw [Nat.le_div_iff_mul_le (Nat.pow_pos hB),hsplit]
      exact Nat.le_add_left ..
    omega

/-- The numerator is shifted. -/
theorem normLoop_eq {st : Store} {i n : ℕ} (hnum : ∀ t<n,(st i).dig t<w.base)
    (hshift : shift ≤ w.size) (halloc : n ≤ (st i).alloc) :
    digitLoop i (normDigit w i shift) n 0 0 st= .ok (carry w.base (shifted (st i).dig shift) 0 n,
        written st i n (carryDigit w.base (shifted (st i).dig shift) 0)) := by
  have hcarry := @carry_shifted_lt w (st i).dig shift _ hnum
  have hloop := @digitLoop_written _ st i (normDigit w i shift)
    (carryDigit w.base (shifted (st i).dig shift) 0)
    (carry w.base (shifted (st i).dig shift) 0) n 0 (fun t _ ht => ?_) (by omega)
  · rw [written_zero,Nat.zero_add] at hloop
    exact hloop
  · have hc := hcarry t (by omega)
    have hread : readDig (written st i t (carryDigit w.base (shifted (st i).dig shift) 0))
        (.object i) t=.ok ((st i).dig t) :=
      readDig_written (s := .object i) (le_refl t) (Nat.lt_of_lt_of_le (by omega) halloc)
    rw [normDigit,bind_ok _ hread,or_carry hc,DigSize.digMask,
      and_two_pow_sub_one_eq_mod,←carry_div hc hshift,carryDigit,carry]
    rfl

/-- A digit shifted back with the bits of the one above it. -/
theorem unnorm_digit (x : ℕ) (hshift : shift ≤ w.size) :
    ((x%w.base)>>>shift|||w.dbl ((x/w.base%w.base)<<<(w.size-shift)))&&&w.digMask=
      x/2^shift%w.base := by
  have hB := w.base_pos
  have hbase : w.base=2^shift*2^(w.size-shift) := by
    rw [DigSize.base,←pow_add]
    congr 1
    omega
  have habove : x/w.base%w.base<w.base := mod_lt _ hB
  have hlow : (x%w.base)>>>shift<2^(w.size-shift) := by
    rw [Nat.shiftRight_eq_div_pow,Nat.div_lt_iff_lt_mul (Nat.two_pow_pos shift),Nat.mul_comm,←hbase]
    exact mod_lt x hB
  have hroom : (x/w.base%w.base)<<<(w.size-shift)<w.base*w.base := by
    have hpow : 2^(w.size-shift) ≤ w.base :=
      Nat.pow_le_pow_right (Nat.succ_pos 1) (Nat.sub_le ..)
    rw [shiftLeft_eq]
    exact Nat.lt_of_lt_of_le ((Nat.mul_lt_mul_right (Nat.two_pow_pos _)).mpr habove)
      (mul_le_mul_left _ hpow)
  have htwo : (x%(w.base*w.base))>>>shift=(x%w.base)>>>shift+x/w.base%w.base*2^(w.size-shift) := by
    have hmod : x%(w.base*w.base)=x%w.base+2^shift*(2^(w.size-shift)*(x/w.base%w.base)) := by
      rw [←Nat.mul_assoc,←hbase]
      exact mod_mul
    rw [Nat.shiftRight_eq_div_pow,hmod,Nat.add_mul_div_left _ _ (Nat.two_pow_pos shift),
      Nat.shiftRight_eq_div_pow,Nat.mul_comm (2^(w.size-shift))]
  rw [w.dbl_of_lt hroom,Nat.or_comm,or_carry hlow,←htwo,bits_two hshift]

/-- The remainder is shifted back. -/
theorem unnormLoop_eq {st : Store} {i m : ℕ} (hnum : ∀ t < m,(st i).dig t<w.base)
    (hshift : shift ≤ w.size) (halloc : m ≤ (st i).alloc) :
    ∃ c,digitLoopDown i (unnormDigit w i shift) 0 m 0 st=
      .ok (c,between st i 0 m (digitAt w.base (value w.base (st i).dig m/2^shift))) := by
  have hlow : value w.base (st i).dig m<w.base^m := Positional.value_lt hnum
  have hdigit : ∀ t < m,value w.base (st i).dig m/w.base^t%w.base=(st i).dig t :=
    fun t ht => digitAt_value ht hnum
  have hloop := @digitLoopDown_between st i _ (unnormDigit w i shift)
    (digitAt w.base (value w.base (st i).dig m/2^shift))
    (fun t => w.dbl ((value w.base (st i).dig m/w.base^t%w.base)<<<(w.size-shift)))
    0 m m (by omega) (fun t ht => ?_) halloc
  · have hzero : w.dbl ((value w.base (st i).dig m/w.base^m%w.base)<<<(w.size-shift))=0 := by
      rw [Nat.div_eq_of_lt hlow,zero_mod,zero_shiftLeft]
      exact zero_mod _
    rw [hzero,Nat.zero_add,between_self] at hloop
    exact ⟨_,hloop⟩
  · rw [Nat.zero_add]
    have hread : readDig (between st i (t+1) m
        (digitAt w.base (value w.base (st i).dig m/2^shift))) (.object i) t=
        .ok ((st i).dig t) :=
      readDig_between (s := .object i) (lt_succ_self t) (Nat.lt_of_lt_of_le ht halloc)
    have habove : value w.base (st i).dig m/w.base^(t+1)=
        value w.base (st i).dig m/w.base^t/w.base := by
      rw [pow_succ,Nat.div_div_eq_div_mul]
    rw [unnormDigit,bind_ok _ hread,←hdigit t ht,habove,unnorm_digit _ hshift,digitAt,
      Nat.div_right_comm]

end Normalising

section Lengths

variable {w : DigSize}

/-- The shift of the leading digit of a number of digits. -/
def normShift (w : DigSize) (z : Mpz) : ℕ := leadingZeros w w.size (z.dig (z.len-1))

/-- The borrows fit at each step of the division of one integer by another. -/
def DivisionFits (w : DigSize) (a b : Mpz) : Prop :=
  AllFit w.base b.len (mag w b*2^normShift w b) (mag w a*2^normShift w b) (a.len+1-b.len)

instance (w : DigSize) (a b : Mpz) : Decidable (DivisionFits w a b) :=
  inferInstanceAs (Decidable (AllFit ..))

theorem mpnRemoveTrailingZeros_eq {st : Store} {i n : ℕ} (halloc : n ≤ (st i).alloc) :
    mpnRemoveTrailingZeros st i n=.ok (trim (st i).dig n) := by
  have hwritten := @mpnRemoveTrailingZeros_written st i n (st i).dig halloc
  rw [written_same fun t _ => rfl] at hwritten
  exact hwritten

/-- The digits without the zeros on top. -/
theorem digits_trim {f : ℕ→ℕ} {n : ℕ} (hf : ∀ t<n,f t<w.base) :
    Digits w f (trim f n)∧value w.base f (trim f n)=value w.base f n :=
  ⟨⟨fun t ht => hf t (Nat.lt_of_lt_of_le ht (trim_le f n)),fun _ hm => trim_top f hm⟩,
    value_trim f w.base n⟩

/-- What `mpn_div` leaves: the remainder in place of the numerator, the quotient, and their
lengths. -/
structure Divided (w : DigSize) (st : Store) (i quo a b : ℕ)
    (r : Except Fault (ℕ×ℕ×Store)) (num rest len quoLen : ℕ) (g q : ℕ→ℕ) : Prop where
  run : r=.ok (len,quoLen,setDig (setDig st i g) quo q)
  /-- The length of the remainder is allocated. -/
  lenLe : len ≤ num
  quoLe : quoLen ≤ rest
  /-- The remainder has no leading zero. -/
  digits : Digits w g len
  /-- The quotient has no leading zero. -/
  quoDigits : Digits w q quoLen
  rem : value w.base g len=a%b
  div : value w.base q quoLen=a/b

variable {st : Store} {i quo : ℕ} {den : Source}

/-- `mpn_div` divides where the borrows fit. -/
theorem mpnDiv_eq (hhalf : w.dblSize=2*w.size) (hi : Normal w (st i))
    (hden : Normal w (den.mpz st)) (hlen : 0<(den.mpz st).len) (hne : den≠.object i)
    (hne' : den≠.object quo) (hquo : quo≠i) (halloc : (st i).len+1 ≤ (st i).alloc)
    (hqalloc : (st i).len+1 ≤ (st quo).alloc)
    (hfits : DivisionFits w (st i) (den.mpz st)) :
    ∃ len quoLen g q,Divided w st i quo (mag w (st i)) (mag w (den.mpz st))
      (mpnDiv w st i (st i).len den (den.mpz st).len quo) ((st i).len+1) ((st i).len+1)
      len quoLen g q := by
  have hB := w.base_pos
  obtain ⟨c,hcmp,hless,hmore⟩ :
      ∃ c,mpnCmp w st (.object i) (st i).len den (den.mpz st).len=.ok c∧
        (c<0↔mag w (st i) < mag w (den.mpz st))∧(0<c↔mag w (den.mpz st) < mag w (st i)) :=
    @mpnCmp_spec w st (.object i) den hi hden
  unfold mpnDiv
  rw [bind_ok _ hcmp]
  by_cases hzero : c=0
  · have heq : mag w (st i)=mag w (den.mpz st) := by omega
    have hpos := mag_pos hden hlen.ne'
    have hwrite : writeDig st quo 0 1=.ok (setDig st quo (Function.update (st quo).dig 0 1)) :=
      if_pos (by omega)
    refine ⟨0,1,(st i).dig,Function.update (st quo).dig 0 1,⟨?_,zero_le _,by omega,
      ⟨fun t ht => absurd ht (not_lt_zero t),fun n hn => absurd hn (succ_ne_zero n).symm⟩,
      ⟨fun t ht => ?_,fun n hn => ?_⟩,?_,?_⟩⟩
    · rw [if_pos hzero,bind_ok _ hwrite,setDig_dig]
    · rw [lt_one_iff.mp ht,update_self]
      exact w.one_lt_base
    · rw [show n=0 by omega,update_self]
      exact one_ne_zero
    · rw [heq,mod_self,value_zero]
    · rw [heq,Nat.div_self hpos,value_succ,value_zero,update_self,pow_zero,one_mul,Nat.zero_add]
  rw [if_neg hzero]
  by_cases hlt : c<0
  · have hsmall := hless.mp hlt
    refine ⟨(st i).len,0,(st i).dig,(st quo).dig,⟨?_,by omega,zero_le _,hi.digits,
      ⟨fun t ht => absurd ht (not_lt_zero t),fun n hn => absurd hn (succ_ne_zero n).symm⟩,
      (mod_eq_of_lt hsmall).symm,(Nat.div_eq_of_lt hsmall).symm⟩⟩
    rw [if_pos hlt,setDig_dig,setDig_dig]
  rw [if_neg hlt]
  have hlarge := hmore.mp (by omega)
  obtain ⟨m,hm⟩ : ∃ m,(den.mpz st).len=m+1 := ⟨_,(succ_pred_eq_of_pos hlen).symm⟩
  obtain ⟨len,hn⟩ : ∃ n,(st i).len=n := ⟨_,rfl⟩
  obtain ⟨s,hs⟩ : ∃ s,normShift w (den.mpz st)=s := ⟨_,rfl⟩
  have hshift : leadingZeros w w.size ((den.mpz st).dig m)=s := by
    rw [←hs,normShift,hm,Nat.add_sub_cancel]
  have hlenle : m+1 ≤ len := by
    rw [←hm,←hn]
    exact hden.digits.len_le_of_value_le hi.digits (Nat.le_of_lt hlarge)
  obtain ⟨hsle,hD,hlead⟩ := divisor_bounds hden hm hshift
  have hdalloc := hden.alloc
  have hread : readDig st den m=.ok ((den.mpz st).dig m) := readDig_of_lt (by omega)
  rw [hn] at halloc hqalloc
  have hwrite : writeDig st i len 0=.ok (setDig st i (Function.update (st i).dig len 0)) :=
    if_pos halloc
  obtain ⟨st₁,hst₁⟩ : ∃ s,setDig st i (Function.update (st i).dig len 0)=s := ⟨_,rfl⟩
  have hi₁ : (st₁ i).dig=Function.update (st i).dig len 0 := by
    rw [←hst₁,setDig_self]
  have halloc₁ : (st₁ i).alloc=(st i).alloc := by
    rw [←hst₁,setDig_self]
  have hnum₁ : ∀ t<len+1,(st₁ i).dig t<w.base := by
    intro t ht
    rw [hi₁]
    by_cases heq : t=len
    · rw [heq,update_self]
      exact hB
    · rw [update_of_ne heq]
      exact hi.lt t (by omega)
  have hnorm := normLoop_eq (i := i) hnum₁ hsle (by rw [halloc₁]; exact halloc)
  obtain ⟨st₂,hst₂⟩ : ∃ s',written st₁ i (len+1)
    (carryDigit w.base (shifted (st₁ i).dig s) 0)=s' := ⟨_,rfl⟩
  have hsame : den.mpz st₂=den.mpz st := by
    rw [←hst₂,written,mpz_setDig_of_ne hne,←hst₁,mpz_setDig_of_ne hne]
  have hdivisor : divisor w st₂ den s=divisor w st den s := by
    rw [divisor,divisor,hsame]
  have hquo₂ : st₂ quo=st quo := by
    rw [←hst₂,written_of_ne _ _ _ hquo,←hst₁,setDig_of_ne _ _ hquo]
  have hi₂ : ∀ t<len+1,(st₂ i).dig t=carryDigit w.base (shifted (st₁ i).dig s) 0 t := by
    intro t ht
    rw [←hst₂,written_dig_self _ _ _ ht]
  have halloc₂ : (st₂ i).alloc=(st i).alloc := by
    have hw := written_alloc st₁ i (len+1) (carryDigit w.base (shifted (st₁ i).dig s) 0) (.object i)
    rw [hst₂] at hw
    exact hw.trans halloc₁
  have hnum₂ : ∀ t<len+1,(st₂ i).dig t<w.base := by
    intro t ht
    rw [hi₂ t ht]
    exact carryDigit_lt _ _ _ hB t
  -- The digits after the shift stand for the shifted numerator.
  have hN : value w.base (st₁ i).dig (len+1)=mag w (st i) := by
    have hlow : value w.base (Function.update (st i).dig len 0) len=mag w (st i) := by
      rw [mag,hn]
      exact value_congr fun t ht => update_of_ne (by omega) ..
    rw [hi₁,value_succ,hlow,update_self,zero_mul,add_zero]
  have hpow : 2^s ≤ w.base := Nat.pow_le_pow_right (Nat.succ_pos 1) hsle
  have hlow : mag w (st i)<w.base^len := by
    rw [←hn]
    exact hi.digits.value_lt
  have hV : value w.base (st₂ i).dig (len+1)=mag w (st i)*2^s := by
    have hvalue := value_carryDigit w.base (shifted (st₁ i).dig s) 0 (len+1)
    rw [value_shifted,hN,add_zero] at hvalue
    have hbelow : mag w (st i)*2^s<w.base^(len+1) := by
      rw [pow_succ]
      exact Nat.lt_of_lt_of_le ((Nat.mul_lt_mul_right (Nat.two_pow_pos s)).mpr hlow)
        (mul_le_mul_left _ hpow)
    have hnone : carry w.base (shifted (st₁ i).dig s) 0 (len+1)=0 := by
      by_contra hcarry
      have hle := Nat.le_mul_of_pos_left (w.base^(len+1)) (Nat.pos_of_ne_zero hcarry)
      omega
    rw [hnone,zero_mul,add_zero] at hvalue
    rw [hvalue]
    exact value_congr hi₂
  obtain ⟨n,hnsteps⟩ : ∃ n,len+1=n+(m+1) := ⟨len-m,by omega⟩
  have hVlt : mag w (st i)*2^s<divisor w st den s*w.base^n := by
    have htop : w.base^m ≤ mag w (den.mpz st) := by
      rw [mag,hm]
      exact le_value (hden.top m hm)
    have hle : w.base^len*2^s ≤ divisor w st den s*w.base^n := by
      rw [divisor,show len=m+n by omega,pow_add,mul_right_comm]
      exact mul_le_mul_right _ (mul_le_mul_right _ htop)
    exact Nat.lt_of_lt_of_le ((Nat.mul_lt_mul_right (Nat.two_pow_pos s)).mpr hlow) hle
  have hden₂ : Normal w (den.mpz st₂) := by
    rw [hsame]
    exact hden
  have hleadDen := @leadDenDigit_eq w s st₂ den hden₂ (by rw [hsame,hm]; omega) hsle
  rw [hsame,hm,hdivisor,Nat.add_sub_cancel] at hleadDen
  have hall : AllFit w.base (m+1) (divisor w st den s) (mag w (st i)*2^s) n := by
    rw [DivisionFits,hs,hm,hn,hnsteps,Nat.add_sub_cancel] at hfits
    exact hfits
  obtain ⟨g,q,hloop,hg,hgv,hq,hqv,-⟩ := @divLoop_eq w i s quo den hhalf hne hne' hquo hsle n st₂
    hden₂ (by rw [hsame,hm]; omega) (by rw [hdivisor,hsame,hm]; exact hD)
    (by rw [hdivisor,hsame,hm]; exact hlead)
    (by rw [hsame,hm,←hnsteps]; exact hnum₂) (by rw [hsame,hm,←hnsteps,halloc₂]; exact halloc)
    (by rw [hquo₂]; omega)
    (by rw [hsame,hm,←hnsteps,hV,hdivisor]; exact hVlt)
    (by rw [hsame,hm,←hnsteps,hV,hdivisor]; exact hall)
  rw [hsame,hm,hdivisor,Nat.add_sub_cancel] at hloop
  rw [hsame,hm] at hg hgv
  rw [hsame,hm,←hnsteps,hV,hdivisor] at hqv
  rw [←hnsteps,hV,hdivisor] at hgv
  have hrem : mag w (st i)*2^s%divisor w st den s=
      mag w (st i)%mag w (den.mpz st)*2^s := mul_mod_mul_right ..
  have hdiv : mag w (st i)*2^s/divisor w st den s=mag w (st i)/mag w (den.mpz st) :=
    Nat.mul_div_mul_right _ _ (Nat.two_pow_pos s)
  rw [hrem] at hgv
  rw [hdiv] at hqv
  obtain ⟨st₃,hst₃⟩ : ∃ s,setDig (setDig st₂ i g) quo q=s := ⟨_,rfl⟩
  have hi₃ : st₃ i={st₂ i with dig := g} := by
    rw [←hst₃,setDig_of_ne _ _ hquo.symm,setDig_self]
  have hdig₃ : (st₃ i).dig=g := by rw [hi₃]
  have halloc₃ : (st₃ i).alloc=(st i).alloc := by
    rw [hi₃]
    exact halloc₂
  obtain ⟨c',hback⟩ := @unnormLoop_eq w s st₃ i (m+1) (by rw [hdig₃]; exact hg) hsle
    (by rw [halloc₃]; omega)
  rw [hdig₃,hgv,Nat.mul_div_cancel _ (Nat.two_pow_pos s)] at hback
  obtain ⟨r,hr⟩ : ∃ r,mag w (st i)%mag w (den.mpz st)=r := ⟨_,rfl⟩
  obtain ⟨g',hg'⟩ : ∃ g',(fun t => if 0 ≤ t∧t < m+1 then digitAt w.base r t else g t)=g' :=
    ⟨_,rfl⟩
  have hstore : between st₃ i 0 (m+1) (digitAt w.base r)=setDig (setDig st i g') quo q := by
    rw [between,hdig₃,hg']
    funext a
    by_cases ha : a=i
    · rw [ha,setDig_self,setDig_of_ne _ _ hquo.symm,setDig_self,hi₃,←hst₂,written,
        setDig_self,←hst₁,setDig_self]
    · rw [setDig_of_ne _ _ ha,←hst₃]
      by_cases hq' : a=quo
      · rw [hq',setDig_self,setDig_self,setDig_of_ne _ _ hquo,hquo₂,setDig_of_ne _ _ hquo]
      · rw [setDig_of_ne _ _ hq',setDig_of_ne _ _ hq',setDig_of_ne _ _ ha,
          setDig_of_ne _ _ ha,←hst₂,written_of_ne _ _ _ ha,←hst₁,setDig_of_ne _ _ ha]
  obtain ⟨st₄,hst₄⟩ : ∃ s,setDig (setDig st i g') quo q=s := ⟨_,rfl⟩
  have hi₄ : st₄ i={st i with dig := g'} := by
    rw [←hst₄,setDig_of_ne _ _ hquo.symm,setDig_self]
  have hquo₄ : st₄ quo={st quo with dig := q} := by
    rw [←hst₄,setDig_self,setDig_of_ne _ _ hquo]
  have hsame' : ∀ t < m+1,g' t=digitAt w.base r t := fun t ht => by
    rw [←hg']
    exact if_pos ⟨zero_le t,ht⟩
  have hlt' : ∀ t < m+1,g' t<w.base := by
    intro t ht
    rw [hsame' t ht]
    exact digitAt_lt hB _ t
  have hrlt : r<w.base^(m+1) := by
    rw [←hr,←hm]
    exact lt_trans (mod_lt _ (mag_pos hden hlen.ne')) hden.digits.value_lt
  have hrvalue : value w.base g' (m+1)=r := by
    rw [value_congr hsame',value_digitAt,mod_eq_of_lt hrlt]
  have hqtrim := @mpnRemoveTrailingZeros_eq st₄ quo n (by
    rw [hquo₄]
    change n ≤ (st quo).alloc
    omega)
  have htrim := @mpnRemoveTrailingZeros_eq st₄ i (m+1) (by
    rw [hi₄]
    change m+1 ≤ (st i).alloc
    omega)
  rw [show (st₄ quo).dig=q by rw [hquo₄]] at hqtrim
  rw [show (st₄ i).dig=g' by rw [hi₄]] at htrim
  obtain ⟨hdigits,hvalue⟩ := digits_trim hlt'
  obtain ⟨hqdigits,hqvalue⟩ := digits_trim hq
  have hlentrim := trim_le g' (m+1)
  have hquotrim := trim_le q n
  refine ⟨trim g' (m+1),trim q n,g',q,⟨?_,by omega,by omega,hdigits,hqdigits,?_,?_⟩⟩
  · rw [hm,hn,Nat.add_sub_cancel,bind_ok _ hread]
    rw [hshift,bind_ok _ hwrite,hst₁,bind_ok _ hnorm]
    dsimp only
    rw [hst₂,bind_ok _ hleadDen,show len+1-(m+1)=n by omega,bind_ok _ hloop,hst₃,bind_ok _ hback]
    dsimp only
    rw [hr,hstore,hst₄,bind_ok _ hqtrim,bind_ok _ htrim]
  · rw [hvalue,hrvalue,hr]
  · rw [hqvalue,hqv]

end Lengths

end MicroPython.MpzDivision
