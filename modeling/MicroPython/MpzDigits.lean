import MicroPython.Positional

/-!
# Integers of arbitrary precision

`py/mpz.c` keeps an integer as a sign and an array of digits, the lowest digit first.
The operations write the digits of the destination while they read those of the
sources, which may be the same object.
-/

namespace MicroPython.MpzDigits

open Nat Function Positional

/-- The sizes of the types of digits. -/
structure DigSize where
  /-- `MPZ_DIG_SIZE`, the bits of a digit that are used. -/
  size : ℕ
  /-- The bits of `mpz_dbl_dig_t` and `mpz_dbl_dig_signed_t`. -/
  dblSize : ℕ
  /-- The bits of `size_t`. -/
  sizeBits : ℕ
  pos : 0 < size
  /-- The double digit has room for two digits. -/
  fits : 2*size ≤ dblSize

/-- `DIG_BASE`. -/
def DigSize.base (w : DigSize) : ℕ := 2^w.size

/-- `DIG_MASK`. -/
def DigSize.digMask (w : DigSize) : ℕ := 2^w.size-1

/-- A number stored in an `mpz_dbl_dig_t`. -/
def DigSize.dbl (w : DigSize) (x : ℕ) : ℕ := x%2^w.dblSize

/-- A number stored in an `mpz_dbl_dig_signed_t`. -/
def DigSize.sdbl (w : DigSize) (x : ℤ) : ℤ := x.bmod (2^w.dblSize)

/-- A `size_t` decremented. -/
def DigSize.pred (w : DigSize) (x : ℕ) : ℕ := (x+2^w.sizeBits-1)%2^w.sizeBits

/-- `mpz_t`, with a digit array that is null when nothing is allocated. -/
structure Mpz where
  /-- The sign. -/
  neg : Bool
  /-- The digit array cannot grow. -/
  fixedDig : Bool
  /-- The digits there is room for. -/
  alloc : ℕ
  /-- The digits in use. -/
  len : ℕ
  /-- The digits, with anything at all past the allocated ones. -/
  dig : ℕ→ℕ

/-- The objects by their addresses. -/
abbrev Store := ℕ→Mpz

/-- Why an operation ends early. -/
inductive Fault
  /-- A digit outside the allocated ones. -/
  | digits
  | assertion
deriving DecidableEq

/-- Where digits are read from. -/
inductive Source
  | object (z : ℕ)
  /-- Digits that belong to no object of the store: a local digit or a clone. -/
  | separate (z : Mpz)

/-- The object that is read. -/
def Source.mpz (st : Store) : Source→Mpz
  | .object z => st z
  | .separate z => z

/-- A digit is read. -/
def readDig (st : Store) (s : Source) (t : ℕ) : Except Fault ℕ :=
  if t<(s.mpz st).alloc then .ok ((s.mpz st).dig t) else .error .digits

/-- The digit array of an object replaced. -/
def setDig (st : Store) (i : ℕ) (dig : ℕ→ℕ) : Store :=
  Function.update st i {st i with dig := dig}

/-- A digit is written. -/
def writeDig (st : Store) (i t d : ℕ) : Except Fault Store :=
  if t<(st i).alloc then .ok (setDig st i (Function.update (st i).dig t d)) else .error .digits

/-- A loop that writes one digit after another, each from what it reads at its place
and from the carries. -/
def digitLoop {σ : Type} (i : ℕ) (body : Store→ℕ→σ→Except Fault (ℕ×σ)) :
    ℕ→ℕ→σ→Store→Except Fault (σ×Store)
  | 0,_,s,st => .ok (s,st)
  | n+1,t,s,st => do
    let r ← body st t s
    let st ← writeDig st i t r.1
    digitLoop i body n (t+1) r.2 st

/-- `mpn_remove_trailing_zeros`, from the digit below the end downwards. -/
def mpnRemoveTrailingZeros (st : Store) (i : ℕ) : ℕ→Except Fault ℕ
  | 0 => .ok 0
  | n+1 => do
    let d ← readDig st (.object i) n
    if d=0 then mpnRemoveTrailingZeros st i n else .ok (n+1)

/-- The digits of `mpn_cmp` compared from the top. -/
def cmpDigits (w : DigSize) (st : Store) (idig jdig : Source) : ℕ→Except Fault ℤ
  | 0 => .ok 0
  | n+1 => do
    let i ← readDig st idig n
    let j ← readDig st jdig n
    let cmp := w.sdbl ((i : ℤ)-j)
    if cmp<0 then .ok (-1)
    else if 0<cmp then .ok 1
    else cmpDigits w st idig jdig n

/-- `mpn_cmp`. -/
def mpnCmp (w : DigSize) (st : Store) (idig : Source) (ilen : ℕ) (jdig : Source) (jlen : ℕ) :
    Except Fault ℤ :=
  if ilen<jlen then .ok (-1)
  else if jlen < ilen then .ok 1
  else cmpDigits w st idig jdig ilen

/-- A digit and the carry out of a double digit. -/
def DigSize.split (w : DigSize) (carry : ℕ) : ℕ×ℕ := (carry&&&w.digMask,carry>>>w.size)

/-- The carry of a loop stored on top when there is one. -/
def storeCarry (st : Store) (i n carry : ℕ) : Except Fault (ℕ×Store) :=
  if carry≠0 then do
    let st ← writeDig st i n carry
    .ok (n+1,st)
  else .ok (n,st)

/-- `mpn_add` while both have digits. -/
def addBoth (w : DigSize) (jdig kdig : Source) (st : Store) (t carry : ℕ) : Except Fault (ℕ×ℕ) := do
  let j ← readDig st jdig t
  let k ← readDig st kdig t
  .ok (w.split (w.dbl (carry+w.dbl (j+k))))

/-- `mpn_add` past the digits of the shorter one. -/
def addRest (w : DigSize) (jdig : Source) (st : Store) (t carry : ℕ) : Except Fault (ℕ×ℕ) := do
  let j ← readDig st jdig t
  .ok (w.split (w.dbl (carry+j)))

/-- `mpn_add`. -/
def mpnAdd (w : DigSize) (st : Store) (i : ℕ) (jdig : Source) (jlen : ℕ) (kdig : Source)
    (klen : ℕ) : Except Fault (ℕ×Store) := do
  let both ← digitLoop i (addBoth w jdig kdig) klen 0 0 st
  let rest ← digitLoop i (addRest w jdig) (jlen-klen) klen both.1 both.2
  storeCarry rest.2 i (klen+(jlen-klen)) rest.1

/-- A digit and the borrow out of a signed double digit. -/
def DigSize.splitSigned (w : DigSize) (borrow : ℤ) : ℕ×ℤ :=
  ((borrow%w.base).toNat,borrow>>>w.size)

/-- `mpn_sub` while both have digits. -/
def subBoth (w : DigSize) (jdig kdig : Source) (st : Store) (t : ℕ) (borrow : ℤ) :
    Except Fault (ℕ×ℤ) := do
  let j ← readDig st jdig t
  let k ← readDig st kdig t
  .ok (w.splitSigned (w.sdbl (borrow+((j : ℤ)-k))))

/-- `mpn_sub` past the digits of the shorter one. -/
def subRest (w : DigSize) (jdig : Source) (st : Store) (t : ℕ) (borrow : ℤ) :
    Except Fault (ℕ×ℤ) := do
  let j ← readDig st jdig t
  .ok (w.splitSigned (w.sdbl (borrow+j)))

/-- `mpn_sub`. -/
def mpnSub (w : DigSize) (st : Store) (i : ℕ) (jdig : Source) (jlen : ℕ) (kdig : Source)
    (klen : ℕ) : Except Fault (ℕ×Store) := do
  let both ← digitLoop i (subBoth w jdig kdig) klen 0 0 st
  let rest ← digitLoop i (subRest w jdig) (jlen-klen) klen both.1 both.2
  let len ← mpnRemoveTrailingZeros rest.2 i (klen+(jlen-klen))
  .ok (len,rest.2)

/-- One digit of `mpn_mul` in the row of a digit of the second factor. -/
def mulDigit (w : DigSize) (i : ℕ) (jdig kdig : Source) (row : ℕ) (st : Store) (t carry : ℕ) :
    Except Fault (ℕ×ℕ) := do
  let id ← readDig st (.object i) t
  let j ← readDig st jdig (t-row)
  let k ← readDig st kdig row
  .ok (w.split (w.dbl (carry+w.dbl (id+w.dbl (j*k)))))

/-- The rows of `mpn_mul`. -/
def mulRows (w : DigSize) (i : ℕ) (jdig : Source) (jlen : ℕ) (kdig : Source) :
    ℕ→ℕ→ℕ→Store→Except Fault (ℕ×Store)
  | 0,_,ilen,st => .ok (ilen,st)
  | klen+1,row,_,st => do
    let r ← digitLoop i (mulDigit w i jdig kdig row) jlen row 0 st
    let r ← storeCarry r.2 i (row+jlen) r.1
    mulRows w i jdig jlen kdig klen (row+1) r.1 r.2

/-- `mpn_mul`. -/
def mpnMul (w : DigSize) (st : Store) (i : ℕ) (jdig : Source) (jlen : ℕ) (kdig : Source)
    (klen : ℕ) : Except Fault (ℕ×Store) :=
  mulRows w i jdig jlen kdig klen 0 0 st

/-- `MIN_ALLOC`. -/
def minAlloc : ℕ := 2

/-- `mpz_need_dig`. -/
def mpzNeedDig (st : Store) (z need : ℕ) : Except Fault Store :=
  let need := if need < minAlloc then minAlloc else need
  if (st z).alloc<need then
    if (st z).fixedDig then .error .assertion
    else .ok (Function.update st z {st z with alloc := need})
  else .ok st

/-- `mpz_clone`. -/
def mpzClone (src : Mpz) : Mpz := {src with fixedDig := false}

/-- The length of an object. -/
def setLen (st : Store) (z len : ℕ) : Store := Function.update st z {st z with len := len}

/-- The sign of an object. -/
def setNeg (st : Store) (z : ℕ) (neg : Bool) : Store :=
  Function.update st z {st z with neg := neg}

/-- `mpz_set`. -/
def mpzSet (st : Store) (dest src : ℕ) : Except Fault Store := do
  let st ← mpzNeedDig st dest (st src).len
  let st := setNeg st dest (st src).neg
  let st := setLen st dest (st src).len
  let len := (st src).len
  if len ≤ (st src).alloc∧len ≤ (st dest).alloc then
    .ok (setDig st dest (fun t => if t<len then (st src).dig t else (st dest).dig t))
  else .error .digits

/-- `mpz_add_inpl` after its operands are in order. -/
def addInplOrdered (w : DigSize) (st : Store) (dest lhs rhs : ℕ) : Except Fault Store := do
  let r ←
    if (st lhs).neg=(st rhs).neg then do
      let st ← mpzNeedDig st dest ((st lhs).len+1)
      mpnAdd w st dest (.object lhs) (st lhs).len (.object rhs) (st rhs).len
    else do
      let st ← mpzNeedDig st dest (st lhs).len
      mpnSub w st dest (.object lhs) (st lhs).len (.object rhs) (st rhs).len
  let st := setLen r.2 dest r.1
  .ok (setNeg st dest (st lhs).neg)

/-- `mpz_add_inpl`. -/
def mpzAddInpl (w : DigSize) (st : Store) (dest lhs rhs : ℕ) : Except Fault Store := do
  let cmp ← mpnCmp w st (.object lhs) (st lhs).len (.object rhs) (st rhs).len
  if cmp<0 then addInplOrdered w st dest rhs lhs else addInplOrdered w st dest lhs rhs

/-- `mpz_sub_inpl` after its operands are in order. -/
def subInplOrdered (w : DigSize) (st : Store) (dest lhs rhs : ℕ) (neg : Bool) :
    Except Fault Store := do
  let r ←
    if (st lhs).neg≠(st rhs).neg then do
      let st ← mpzNeedDig st dest ((st lhs).len+1)
      mpnAdd w st dest (.object lhs) (st lhs).len (.object rhs) (st rhs).len
    else do
      let st ← mpzNeedDig st dest (st lhs).len
      mpnSub w st dest (.object lhs) (st lhs).len (.object rhs) (st rhs).len
  let st := setLen r.2 dest r.1
  .ok (setNeg st dest (if neg then !(st lhs).neg else (st lhs).neg))

/-- `mpz_sub_inpl`. -/
def mpzSubInpl (w : DigSize) (st : Store) (dest lhs rhs : ℕ) : Except Fault Store := do
  let cmp ← mpnCmp w st (.object lhs) (st lhs).len (.object rhs) (st rhs).len
  if cmp<0 then subInplOrdered w st dest rhs lhs true
  else subInplOrdered w st dest lhs rhs false

/-- The factors of `mpz_mul_inpl`: one that is the destination is cloned. -/
def mulFactors (st : Store) (dest lhs rhs : ℕ) : Source×Source :=
  if lhs=dest then
    (.separate (mpzClone (st lhs)),
      if rhs=dest then .separate (mpzClone (st lhs)) else .object rhs)
  else if rhs=dest then (.object lhs,.separate (mpzClone (st rhs)))
  else (.object lhs,.object rhs)

/-- `mpz_mul_inpl`. -/
def mpzMulInpl (w : DigSize) (st : Store) (dest lhs rhs : ℕ) : Except Fault Store :=
  if (st lhs).len=0∨(st rhs).len=0 then .ok (setLen st dest 0)
  else do
    let f := mulFactors st dest lhs rhs
    let st ← mpzNeedDig st dest ((f.1.mpz st).len+(f.2.mpz st).len)
    let st := setDig st dest (fun t => if t<(st dest).alloc then 0 else (st dest).dig t)
    let r ← mpnMul w st dest f.1 (f.1.mpz st).len f.2 (f.2.mpz st).len
    let st := setLen r.2 dest r.1
    .ok (setNeg st dest (if (f.1.mpz st).neg=(f.2.mpz st).neg then false else true))

variable (w : DigSize) (st : Store)

/-- There is more than one digit. -/
theorem DigSize.one_lt_base : 1<w.base := Nat.one_lt_two_pow w.pos.ne'

theorem DigSize.base_pos : 0<w.base := zero_lt_of_lt w.one_lt_base

/-- A double digit has room for two digits. -/
theorem DigSize.base_mul_base_le : w.base*w.base ≤ 2^w.dblSize := by
  rw [base,←pow_add]
  exact Nat.pow_le_pow_right (Nat.succ_pos 1) (by have := w.fits; omega)

theorem DigSize.dbl_of_lt {x : ℕ} (h : x<w.base*w.base) : w.dbl x=x :=
  mod_eq_of_lt (lt_of_lt_of_le h w.base_mul_base_le)

/-- Twice the base fits in a double digit. -/
theorem DigSize.two_mul_base_le : 2*w.base ≤ w.base*w.base :=
  mul_le_mul_right _ w.one_lt_base

theorem DigSize.sdbl_of_lt {x : ℤ} (hlow : -(w.base : ℤ) ≤ x)
    (hhigh : x<w.base) : w.sdbl x=x := by
  have hroom := le_trans w.two_mul_base_le w.base_mul_base_le
  refine Int.bmod_eq_of_le_mul_two ?_ ?_
  · omega
  · omega

theorem DigSize.split_eq (x : ℕ) : w.split x=(x%w.base,x/w.base) := by
  rw [split,digMask,and_two_pow_sub_one_eq_mod,shiftRight_eq_div_pow]
  rfl

theorem DigSize.splitSigned_eq (x : ℤ) :
    w.splitSigned x=((x%w.base).toNat,x/w.base) := by
  rw [splitSigned,Int.shiftRight_eq_div_pow]
  rfl

/-- The digits of an object below a place replaced. -/
def written (st : Store) (i n : ℕ) (g : ℕ→ℕ) : Store :=
  setDig st i (fun t => if t<n then g t else (st i).dig t)

/-- The object whose digits are replaced. -/
@[simp] theorem setDig_self (i : ℕ) (g : ℕ→ℕ) :
    setDig st i g i={st i with dig := g} := update_self ..

variable {i a n len carry : ℕ} {g f : ℕ→ℕ}

/-- The other objects. -/
theorem setDig_of_ne (g : ℕ→ℕ) (h : a≠i) : setDig st i g a=st a :=
  update_of_ne h ..

/-- The digits replaced twice. -/
@[simp] theorem setDig_setDig (i : ℕ) (f g : ℕ→ℕ) :
    setDig (setDig st i f) i g=setDig st i g := by
  unfold setDig
  rw [update_idem,update_self]

/-- The digits replaced by themselves. -/
theorem setDig_dig (i : ℕ) : setDig st i (st i).dig=st :=
  update_eq_self ..

/-- The digits below the place are replaced by themselves. -/
theorem written_same {st : Store} (h : ∀ t<n,g t=(st i).dig t) : written st i n g=st := by
  have hdig : (fun t => if t<n then g t else (st i).dig t)=(st i).dig := by
    funext t
    split
    case isTrue ht => exact h t ht
    · rfl
  rw [written,hdig,setDig_dig]

/-- Nothing is replaced. -/
theorem written_zero (i : ℕ) (g : ℕ→ℕ) : written st i 0 g=st :=
  written_same (fun t ht => absurd ht (not_lt_zero t))

/-- Only the digits below the place count. -/
theorem written_congr (i : ℕ) (h : ∀ t<n,f t=g t) : written st i n f=written st i n g := by
  have hdig : (fun t => if t<n then f t else (st i).dig t)=
      (fun t => if t<n then g t else (st i).dig t) := by
    funext t
    split
    case isTrue ht => exact h t ht
    · rfl
  rw [written,written,hdig]

/-- What is allocated does not change. -/
theorem written_alloc (i n : ℕ) (g : ℕ→ℕ) (s : Source) :
    (s.mpz (written st i n g)).alloc=(s.mpz st).alloc := by
  cases s with
  | separate z => rfl
  | object a =>
    by_cases ha : a=i
    · rw [ha,Source.mpz,Source.mpz,written,setDig_self]
    · rw [Source.mpz,Source.mpz,written,setDig_of_ne st _ ha]

/-- The digits at the place and above it do not change. -/
theorem written_dig (i : ℕ) {t : ℕ} (g : ℕ→ℕ) (s : Source) (h : n ≤ t) :
    (s.mpz (written st i n g)).dig t=(s.mpz st).dig t := by
  cases s with
  | separate z => rfl
  | object a =>
    by_cases ha : a=i
    · rw [ha,Source.mpz,Source.mpz,written,setDig_self]
      exact if_neg (not_lt.mpr h)
    · rw [Source.mpz,Source.mpz,written,setDig_of_ne st _ ha]

theorem written_dig_self (i : ℕ) {t : ℕ} (g : ℕ→ℕ) (h : t<n) : (written st i n g i).dig t=g t := by
  rw [written,setDig_self]
  exact if_pos h

/-- The other objects. -/
theorem written_of_ne (n : ℕ) (g : ℕ→ℕ) (h : a≠i) :
    written st i n g a=st a := setDig_of_ne st _ h

theorem readDig_of_lt {st : Store} {s : Source} {t : ℕ} (h : t<(s.mpz st).alloc) :
    readDig st s t=.ok ((s.mpz st).dig t) := if_pos h

theorem readDig_written {st : Store} {i n t : ℕ} {g : ℕ→ℕ} {s : Source} (hn : n ≤ t)
    (h : t<(s.mpz st).alloc) : readDig (written st i n g) s t=.ok ((s.mpz st).dig t) := by
  rw [readDig_of_lt (by rw [written_alloc]; exact h),written_dig st i g s hn]

/-- The next digit is written. -/
theorem writeDig_written {st : Store} {i t : ℕ} {g : ℕ→ℕ} (h : t<(st i).alloc) :
    writeDig (written st i t g) i t (g t)=.ok (written st i (t+1) g) := by
  have halloc := written_alloc st i t g (.object i)
  have hdig : Function.update (written st i t g i).dig t (g t)=
      (fun s => if s<t+1 then g s else (st i).dig s) := by
    funext s
    rcases lt_trichotomy s t with hs | hs | hs
    · rw [update_of_ne hs.ne,written_dig_self st i g hs,if_pos (lt_succ_of_lt hs)]
    · rw [hs,update_self,if_pos (lt_succ_self t)]
    · have hkeep : (written st i t g i).dig s=(st i).dig s :=
        written_dig st i g (.object i) (le_of_lt hs)
      rw [update_of_ne hs.ne',hkeep,if_neg (by omega)]
  rw [writeDig,if_pos (by rw [show (written st i t g i).alloc=(st i).alloc from halloc]; exact h),
    hdig,written,setDig_setDig]
  rfl

/-- A loop writes a sequence of digits when its body yields them one by one. -/
theorem digitLoop_written {σ : Type} {st : Store} {i : ℕ}
    {body : Store→ℕ→σ→Except Fault (ℕ×σ)} {g : ℕ→ℕ} {c : ℕ→σ} {n t : ℕ}
    (hbody : ∀ s,t ≤ s → s<t+n → body (written st i s g) s (c s)=.ok (g s,c (s+1)))
    (halloc : t+n ≤ (st i).alloc) :
    digitLoop i body n t (c t) (written st i t g)=.ok (c (t+n),written st i (t+n) g) := by
  induction n generalizing t with
  | zero => rfl
  | succ n ih =>
    have hfirst := hbody t (le_refl t) (by omega)
    have hwrite := @writeDig_written st i t g (by omega)
    have hrest := ih (fun s hts hsn => hbody s (by omega) (by omega))
      (by omega : t+1+n ≤ (st i).alloc)
    rw [digitLoop,hfirst]
    have hstep : (do
        let st' ← writeDig (written st i t g) i t (g t)
        digitLoop i body n (t+1) (c (t+1)) st')=
        .ok (c (t+(n+1)),written st i (t+(n+1)) g) := by
      rw [hwrite,show t+(n+1)=t+1+n by omega]
      exact hrest
    exact hstep

/-- The magnitude of an object. -/
def mag (w : DigSize) (z : Mpz) : ℕ := value w.base z.dig z.len

/-- The integer that an object stands for. -/
def toInt (w : DigSize) (z : Mpz) : ℤ := if z.neg then -(mag w z) else mag w z

/-- The digits of an object are allocated, fit their type and end in one that is not
zero. The sign of a zero may be anything. -/
structure Normal (w : DigSize) (z : Mpz) : Prop where
  alloc : z.len ≤ z.alloc
  lt : ∀ t<z.len,z.dig t<w.base
  /-- No zero leads the digits. -/
  top : ∀ n,z.len=n+1 → z.dig n≠0

/-- A sequence of digits with its length has no leading zero and fits the type. -/
structure Digits (w : DigSize) (g : ℕ→ℕ) (len : ℕ) : Prop where
  lt : ∀ t<len,g t<w.base
  /-- No zero leads the digits. -/
  top : ∀ n,len=n+1 → g n≠0

/-- A function on digits leaves a number in the digits of an object and answers its
length. -/
def Yields (w : DigSize) (st : Store) (i : ℕ) (r : Except Fault (ℕ×Store)) (v : ℕ) : Prop :=
  ∃ len g,r=.ok (len,setDig st i g)∧len ≤ (st i).alloc∧Digits w g len∧value w.base g len=v

/-- The carry on top of the digits. -/
def withTop (g : ℕ→ℕ) (n top : ℕ) : ℕ→ℕ := fun t => if t<n then g t else top

theorem value_withTop (B : ℕ) (g : ℕ→ℕ) (n top : ℕ) :
    value B (withTop g n top) (n+1)=value B g n+top*B^n := by
  have hlow : value B (withTop g n top) n=value B g n :=
    value_congr (fun t ht => if_pos ht)
  rw [value_succ,hlow,withTop,if_neg (lt_irrefl n)]

theorem yields_written {w : DigSize} {st : Store}
    {r : Except Fault (ℕ×Store)} (hr : r=.ok (len,written st i n g)) (hlen : len ≤ n)
    (halloc : n ≤ (st i).alloc) (hg : Digits w g len) : Yields w st i r (value w.base g len) := by
  have hsame : ∀ t<len,(if t<n then g t else (st i).dig t)=g t := fun t ht =>
    if_pos (lt_of_lt_of_le ht hlen)
  refine ⟨len,_,hr,le_trans hlen halloc,⟨fun t ht => ?_,fun m hm => ?_⟩,value_congr hsame⟩
  · rw [hsame t ht]
    exact hg.lt t ht
  · rw [hsame m (by omega)]
    exact hg.top m hm

/-- The carry is stored on top when there is one. -/
theorem storeCarry_eq {st : Store} (halloc : (if carry=0 then n else n+1) ≤ (st i).alloc) :
    storeCarry (written st i n g) i n carry=.ok (if carry=0 then n else n+1,
      written st i (if carry=0 then n else n+1) (withTop g n carry)) := by
  have hwritten : written st i n g=written st i n (withTop g n carry) :=
    written_congr st i (fun t ht => (if_pos ht).symm)
  by_cases hzero : carry=0
  · rw [if_pos hzero,←hwritten]
    exact if_neg (fun h => h hzero)
  · rw [if_neg hzero] at halloc
    have htop : withTop g n carry n=carry := if_neg (lt_irrefl n)
    have hwrite := @writeDig_written st i n (withTop g n carry) halloc
    rw [htop,←hwritten] at hwrite
    rw [storeCarry,if_pos hzero,if_neg hzero,hwrite]
    rfl

theorem value_storeCarry (B : ℕ) (g : ℕ→ℕ) (n carry : ℕ) :
    value B (withTop g n carry) (if carry=0 then n else n+1)=value B g n+carry*B^n := by
  split
  case isTrue hzero =>
    rw [hzero,zero_mul,add_zero]
    exact value_congr (fun t ht => if_pos ht)
  · exact value_withTop B g n carry

/-- The digits with the carry on top fit the base. -/
theorem withTop_lt {B : ℕ} (hg : ∀ t<n,g t<B) (hcarry : carry<B) (t : ℕ) :
    withTop g n carry t<B := by
  rw [withTop]
  split
  case isTrue hlt => exact hg t hlt
  · exact hcarry

/-- The carry is stored on top of digits that end in one that is not zero. -/
theorem storeCarry_written {w : DigSize} {st : Store}
    (halloc : n+1 ≤ (st i).alloc) (hg : ∀ t<n,g t<w.base) (hcarry : carry<w.base)
    (htop : carry=0→∀ m,n=m+1 → g m≠0) :
    Yields w st i (storeCarry (written st i n g) i n carry) (value w.base g n+carry*w.base^n) := by
  rw [←value_storeCarry]
  have hroom : (if carry=0 then n else n+1) ≤ (st i).alloc := by split <;> omega
  refine yields_written (storeCarry_eq hroom) (le_refl _) hroom
    ⟨fun t _ => withTop_lt hg hcarry t,fun m hm => ?_⟩
  rw [withTop]
  split at hm
  case isTrue hzero =>
    rw [if_pos (by omega)]
    exact htop hzero m hm
  case isFalse hsome =>
    rw [if_neg (by omega)]
    exact hsome

/-- The zeros on top are removed. -/
theorem mpnRemoveTrailingZeros_written {st : Store} {i n : ℕ} {g : ℕ→ℕ}
    (halloc : n ≤ (st i).alloc) :
    mpnRemoveTrailingZeros (written st i n g) i n=.ok (trim g n) := by
  have hgeneral : ∀ m ≤ n,mpnRemoveTrailingZeros (written st i n g) i m=.ok (trim g m) := by
    intro m
    induction m with
    | zero => exact fun _ => rfl
    | succ m ih =>
      intro hm
      have hrest := ih (by omega)
      have halloc' := written_alloc st i n g (.object i)
      have hbound : m<((Source.object i).mpz (written st i n g)).alloc := by
        rw [halloc']
        exact lt_of_lt_of_le hm halloc
      have hread := readDig_of_lt hbound
      rw [show ((Source.object i).mpz (written st i n g)).dig m=g m from
        written_dig_self st i g hm] at hread
      rw [mpnRemoveTrailingZeros,hread,trim]
      have hstep : (if g m=0 then mpnRemoveTrailingZeros (written st i n g) i m
          else .ok (m+1))=.ok (if g m=0 then trim g m else m+1) := by
        split
        · exact hrest
        · rfl
      exact hstep
  exact hgeneral n (le_refl n)

/-- What a loop has written, without the zeros on top. -/
theorem yields_trim {w : DigSize} {st : Store} {i n : ℕ} {g : ℕ→ℕ}
    (halloc : n ≤ (st i).alloc) (hg : ∀ t<n,g t<w.base) :
    Yields w st i (do
      let len ← mpnRemoveTrailingZeros (written st i n g) i n
      .ok (len,written st i n g)) (value w.base g n) := by
  have htrim := trim_le g n
  rw [mpnRemoveTrailingZeros_written halloc,←value_trim g]
  exact yields_written rfl htrim halloc
    ⟨fun t ht => hg t (lt_of_lt_of_le ht htrim),fun m hm => trim_top g hm⟩

theorem Normal.digits {w : DigSize} {z : Mpz} (h : Normal w z) : Digits w z.dig z.len :=
  ⟨h.lt,h.top⟩

/-- The digits bound the number from above. -/
theorem Digits.value_lt {w : DigSize} (h : Digits w g len) :
    value w.base g len<w.base^len := Positional.value_lt h.lt

/-- More digits make a larger number. -/
theorem Digits.value_lt_of_len {w : DigSize} {m : ℕ} (hf : Digits w f m)
    (hg : Digits w g n) (hlt : m<n) : value w.base f m<value w.base g n := by
  obtain ⟨k,rfl⟩ : ∃ k,n=k+1 := ⟨n-1,by omega⟩
  have hpow : w.base^m ≤ w.base^k :=
    Nat.pow_le_pow_right w.base_pos (by omega)
  exact lt_of_lt_of_le hf.value_lt (le_trans hpow (le_value (hg.top k rfl)))

/-- A smaller number has no more digits. -/
theorem Digits.len_le_of_value_le {w : DigSize} {m : ℕ} (hf : Digits w f m)
    (hg : Digits w g n) (hle : value w.base f m ≤ value w.base g n) : m ≤ n := by
  rcases lt_or_ge n m with hlt | hge
  · exact absurd (hg.value_lt_of_len hf hlt) (not_lt.mpr hle)
  · exact hge

theorem Digits.value_eq_zero_iff {w : DigSize} (h : Digits w g len) :
    value w.base g len=0↔len=0 := by
  refine ⟨fun hv => ?_,fun hl => by rw [hl,value_zero]⟩
  cases len with
  | zero => rfl
  | succ n =>
    have hpos : 0<w.base^n := Nat.pow_pos w.base_pos
    have hle := @le_value w.base g n (h.top n rfl)
    omega

/-- The digits compared from the top tell which number is smaller and which is larger. -/
theorem cmpDigits_spec {w : DigSize} {st : Store} {idig jdig : Source}
    (hialloc : n ≤ (idig.mpz st).alloc) (hjalloc : n ≤ (jdig.mpz st).alloc)
    (hi : ∀ t<n,(idig.mpz st).dig t<w.base) (hj : ∀ t<n,(jdig.mpz st).dig t<w.base) :
    ∃ c,cmpDigits w st idig jdig n=.ok c∧
      (c<0↔value w.base (idig.mpz st).dig n<value w.base (jdig.mpz st).dig n)∧
      (0<c↔value w.base (jdig.mpz st).dig n<value w.base (idig.mpz st).dig n) := by
  induction n with
  | zero =>
    have hnone : (0 : ℤ)<0↔0<0 := ⟨fun h => absurd h (Int.lt_irrefl 0),
      fun h => absurd h (lt_irrefl 0)⟩
    exact ⟨0,rfl,hnone,hnone⟩
  | succ n ih =>
    have hilow : ∀ t<n,(idig.mpz st).dig t<w.base := fun t ht => hi t (lt_succ_of_lt ht)
    have hjlow : ∀ t<n,(jdig.mpz st).dig t<w.base := fun t ht => hj t (lt_succ_of_lt ht)
    have hitop := hi n (lt_succ_self n)
    have hjtop := hj n (lt_succ_self n)
    have hcmp := @DigSize.sdbl_of_lt w (((idig.mpz st).dig n : ℤ)-(jdig.mpz st).dig n)
      (by omega) (by omega)
    rw [cmpDigits,readDig_of_lt (s := idig) hialloc,readDig_of_lt (s := jdig) hjalloc]
    change ∃ c,(if w.sdbl (((idig.mpz st).dig n : ℤ)-(jdig.mpz st).dig n)<0 then .ok (-1)
      else if 0<w.sdbl (((idig.mpz st).dig n : ℤ)-(jdig.mpz st).dig n) then .ok 1
      else cmpDigits w st idig jdig n)=Except.ok c∧_∧_
    rw [hcmp]
    split
    case isTrue hlt =>
      have hvalue := @value_lt_value w.base _ (jdig.mpz st).dig n hilow (by omega)
      exact ⟨-1,rfl,⟨fun _ => hvalue,fun _ => by decide⟩,
        ⟨fun h => absurd h (by decide),fun h => absurd h (lt_asymm hvalue)⟩⟩
    case isFalse hge =>
      split
      case isTrue hgt =>
        have hvalue := @value_lt_value w.base _ (idig.mpz st).dig n hjlow (by omega)
        exact ⟨1,rfl,⟨fun h => absurd h (by decide),fun h => absurd h (lt_asymm hvalue)⟩,
          ⟨fun _ => hvalue,fun _ => by decide⟩⟩
      case isFalse hle =>
        obtain ⟨c,hrun,hless,hmore⟩ := ih (by omega) (by omega) hilow hjlow
        have hsame : (idig.mpz st).dig n=(jdig.mpz st).dig n := by omega
        refine ⟨c,hrun,?_,?_⟩
        · rw [hless,value_succ,value_succ,hsame]
          omega
        · rw [hmore,value_succ,value_succ,hsame]
          omega

/-- `mpn_cmp` tells which magnitude is smaller and which is larger. -/
theorem mpnCmp_spec {w : DigSize} {st : Store} {idig jdig : Source}
    (hi : Normal w (idig.mpz st)) (hj : Normal w (jdig.mpz st)) :
    ∃ c,mpnCmp w st idig (idig.mpz st).len jdig (jdig.mpz st).len=.ok c∧
      (c<0↔mag w (idig.mpz st) < mag w (jdig.mpz st))∧
      (0<c↔mag w (jdig.mpz st) < mag w (idig.mpz st)) := by
  rw [mpnCmp]
  split
  case isTrue hlt =>
    have hvalue := hi.digits.value_lt_of_len hj.digits hlt
    exact ⟨-1,rfl,⟨fun _ => hvalue,fun _ => by decide⟩,
      ⟨fun h => absurd h (by decide),fun h => absurd h (lt_asymm hvalue)⟩⟩
  case isFalse hge =>
    split
    case isTrue hgt =>
      have hvalue := hj.digits.value_lt_of_len hi.digits hgt
      exact ⟨1,rfl,⟨fun h => absurd h (by decide),fun h => absurd h (lt_asymm hvalue)⟩,
        ⟨fun _ => hvalue,fun _ => by decide⟩⟩
    case isFalse hle =>
      have hlen : (jdig.mpz st).len=(idig.mpz st).len := by omega
      have hjalloc := hj.alloc
      have hjlt := hj.lt
      rw [hlen] at hjalloc hjlt
      rw [mag,mag,hlen]
      exact cmpDigits_spec hi.alloc hjalloc hi.lt hjlt

/-- What `mpz_need_dig` asks for. -/
def atLeastMin (need : ℕ) : ℕ := if need < minAlloc then minAlloc else need

/-- What is needed is asked for. -/
theorem le_atLeastMin (need : ℕ) : need ≤ atLeastMin need := by
  unfold atLeastMin
  split <;> omega

/-- The digits that are allocated after `mpz_need_dig`. -/
def grown (alloc need : ℕ) : ℕ := if alloc<atLeastMin need then atLeastMin need else alloc

/-- There is room for what is needed. -/
theorem need_le_grown (alloc need : ℕ) : need ≤ grown alloc need := by
  have hneed := le_atLeastMin need
  unfold grown
  split <;> omega

theorem alloc_le_grown (alloc need : ℕ) : alloc ≤ grown alloc need := by
  unfold grown
  split <;> omega

/-- An object with room for more digits. -/
def grow (st : Store) (z need : ℕ) : Store :=
  Function.update st z {st z with alloc := grown (st z).alloc need}

@[simp] theorem grow_self (z need : ℕ) :
    grow st z need z={st z with alloc := grown (st z).alloc need} := update_self ..

/-- The other objects. -/
theorem grow_of_ne {z : ℕ} (need : ℕ) (h : a≠z) : grow st z need a=st a :=
  update_of_ne h ..

/-- An object that may grow gets its room. -/
theorem mpzNeedDig_eq {st : Store} {z need : ℕ} (h : (st z).fixedDig=false) :
    mpzNeedDig st z need=.ok (grow st z need) := by
  change (if (st z).alloc<atLeastMin need then
    if (st z).fixedDig then .error .assertion
    else .ok (Function.update st z {st z with alloc := atLeastMin need})
    else .ok st)=(.ok _ : Except Fault Store)
  rw [grow,grown]
  split
  · rw [if_neg (by rw [h]; exact Bool.false_ne_true)]
  · rw [update_eq_self]

/-- The sign does not change. -/
@[simp] theorem grow_neg (z need a : ℕ) : (grow st z need a).neg=(st a).neg := by
  by_cases h : a=z
  · rw [h,grow_self]
  · rw [grow_of_ne st need h]

/-- The length does not change. -/
@[simp] theorem grow_len (z need a : ℕ) : (grow st z need a).len=(st a).len := by
  by_cases h : a=z
  · rw [h,grow_self]
  · rw [grow_of_ne st need h]

/-- The digits do not change. -/
@[simp] theorem grow_dig (z need a : ℕ) : (grow st z need a).dig=(st a).dig := by
  by_cases h : a=z
  · rw [h,grow_self]
  · rw [grow_of_ne st need h]

/-- The allocated digits do not become fewer. -/
theorem alloc_le_grow (z need a : ℕ) : (st a).alloc ≤ (grow st z need a).alloc := by
  by_cases h : a=z
  · rw [h,grow_self]
    exact alloc_le_grown _ _
  · rw [grow_of_ne st need h]

/-- The magnitude does not change. -/
@[simp] theorem mag_grow (z need a : ℕ) :
    mag w (grow st z need a)=mag w (st a) := by
  rw [mag,grow_len,grow_dig,mag]

/-- The integer does not change. -/
@[simp] theorem toInt_grow (z need a : ℕ) :
    toInt w (grow st z need a)=toInt w (st a) := by
  rw [toInt,grow_neg,mag_grow,toInt]

/-- An object keeps its canonical form. -/
theorem Normal.grow {w : DigSize} {st : Store} (h : Normal w (st a)) (z need : ℕ) :
    Normal w (grow st z need a) := by
  refine ⟨?_,?_,?_⟩
  · rw [grow_len]
    exact le_trans h.alloc (alloc_le_grow st z need a)
  · rw [grow_len,grow_dig]
    exact h.lt
  · rw [grow_len,grow_dig]
    exact h.top

/-- The outcome of an operation: the destination holds the integer in the canonical form
and the other objects are as they were. -/
structure Result (w : DigSize) (st : Store) (dest : ℕ) (v : ℤ) (st' : Store) : Prop where
  /-- The destination is in the canonical form. -/
  normal : Normal w (st' dest)
  exact : toInt w (st' dest)=v
  /-- The other objects do not change. -/
  frame : ∀ a≠dest,st' a=st a

theorem setNeg_setLen (dest len : ℕ) (neg : Bool) :
    setNeg (setLen st dest len) dest neg=
      Function.update st dest {st dest with
        neg := neg
        len := len} := by
  unfold setNeg setLen
  rw [update_idem,update_self]

/-- The digits that a function on digits leaves, with their length and a sign. -/
theorem result_of_digits {w : DigSize} {st : Store} {dest need len : ℕ} {g : ℕ→ℕ}
    (hlen : len ≤ (grow st dest need dest).alloc) (hg : Digits w g len) (neg : Bool) :
    Result w st dest (if neg then -(value w.base g len : ℕ) else (value w.base g len : ℕ))
      (setNeg (setLen (setDig (grow st dest need) dest g) dest len) dest neg) := by
  rw [setNeg_setLen,setDig_self]
  refine ⟨?_,?_,fun a ha => ?_⟩
  · rw [update_self]
    exact ⟨hlen,hg.lt,hg.top⟩
  · rw [update_self]
    rfl
  · rw [update_of_ne ha,setDig_of_ne _ _ ha,grow_of_ne _ _ ha]

/-- The operands of an operation in place: any of them may be the destination. -/
structure Operands (w : DigSize) where
  /-- The objects. -/
  store : Store
  dest : ℕ
  lhs : ℕ
  rhs : ℕ
  /-- The left operand is in the canonical form. -/
  normalLhs : Normal w (store lhs)
  /-- The right operand is in the canonical form. -/
  normalRhs : Normal w (store rhs)
  /-- The length of the left operand is a `size_t`. -/
  lhsLen : (store lhs).len<2^w.sizeBits
  /-- The length of the right operand is a `size_t`. -/
  rhsLen : (store rhs).len<2^w.sizeBits
  growing : (store dest).fixedDig=false

end MicroPython.MpzDigits
