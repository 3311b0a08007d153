import MicroPython.MpzDivmod

/-!
# Integers as bytes

`int.to_bytes` writes the low bytes of an integer and `int.from_bytes` reads them back, for
small integers with the bytes of a machine word and for the others with the bytes of digits.
-/

namespace MicroPython.IntBytes

open Nat Function Positional MpzDigits MpzArith MpzBitwise MpzShift MpzDivmod

/-- Why a conversion ends early. -/
inductive ByteFault
  | mpz (fault : Fault)
  | outside
  /-- `ValueError`. -/
  | valueError
deriving DecidableEq

/-- An operation on digits within a conversion. -/
def onDigits {α : Type} : Except Fault α→Except ByteFault α := Except.mapError .mpz

/-- `int`: a small integer or the address of the digits of another one. -/
inductive IntObj
  | small (value : ℤ)
  | mpz (z : ℕ)

/-- `MP_SMALL_INT_MAX`, which is also the mask of the positive small integers. -/
def smallIntMax (w : DigSize) : ℕ := 2^(w.sizeBits-2)-1

/-- A byte is read from a buffer. -/
def getByte (buf : ℕ→UInt8) (len : ℕ) (p : ℤ) : Except ByteFault ℕ :=
  if 0 ≤ p∧p < len then .ok (buf p.toNat).toNat else .error .outside

/-- A byte is written to a buffer. -/
def setByte (data : ℕ→UInt8) (len : ℕ) (p : ℤ) (val : ℕ) : Except ByteFault (ℕ→UInt8) :=
  if 0 ≤ p∧p < len then .ok (Function.update data p.toNat (UInt8.ofNat val))
  else .error .outside

/-- The state of `mpz_as_bytes`. -/
structure AsBytes where
  /-- The bits of the digits that are not written yet. -/
  bits : ℕ
  /-- These digits. -/
  d : ℕ
  /-- The carry of the complement of two. -/
  carry : ℕ
  /-- The place in the buffer. -/
  b : ℤ
  data : ℕ→UInt8
  /-- The function has returned. -/
  done : Bool

/-- The inner loop of `mpz_as_bytes`. -/
def writeBits (neg bigEndian : Bool) (len : ℕ) (s : AsBytes) : Except ByteFault AsBytes :=
  if h : 8 ≤ s.bits then do
    let val := if neg then 255-s.d%256+s.carry else s.d
    let place := if bigEndian then s.b-1 else s.b
    let data ← setByte s.data len place val
    let b := if bigEndian then s.b-1 else s.b+1
    if b=(if bigEndian then 0 else (len : ℤ)) then
      .ok {
        bits := s.bits
        d := s.d
        carry := if neg then val>>>8 else s.carry
        b := b
        data := data
        done := true }
    else writeBits neg bigEndian len {
      bits := s.bits-8
      d := s.d>>>8
      carry := if neg then val>>>8 else s.carry
      b := b
      data := data
      done := s.done }
  else .ok s
termination_by s.bits
decreasing_by omega

/-- The outer loop of `mpz_as_bytes`, with the digits that are left. -/
def writeDigits (w : DigSize) (st : Store) (z : ℕ) (bigEndian : Bool) (len : ℕ) :
    ℕ→ℕ→AsBytes→Except ByteFault AsBytes
  | 0,_,s => .ok s
  | zlen+1,t,s => do
    let dig ← onDigits (readDig st (.object z) t)
    let s ← writeBits (st z).neg bigEndian len {s with
      bits := s.bits+w.size
      d := w.dbl (s.d<<<w.size)|||dig }
    if s.done then .ok s else writeDigits w st z bigEndian len zlen (t+1) s

/-- `mpz_as_bytes`. -/
def mpzAsBytes (w : DigSize) (st : Store) (z : ℕ) (bigEndian : Bool) (len : ℕ)
    (buf : ℕ→UInt8) : Except ByteFault (ℕ→UInt8) := do
  let s ← writeDigits w st z bigEndian len (st z).len 0 {
    bits := 0
    d := 0
    carry := 1
    b := if bigEndian then len else 0
    data := buf
    done := false }
  .ok s.data

/-- The bytes of a machine word in memory. -/
def wordBytes (w : DigSize) (little : Bool) (val : ℤ) (i : ℕ) : ℕ :=
  digitAt 256 (val%2^w.sizeBits).toNat (if little then i else w.sizeBits/8-1-i)

/-- The bytes copied upwards, by `memcpy`. -/
def copyBytes (len : ℕ) (src : ℕ→ℕ) : ℕ→ℤ→ℕ→(ℕ→UInt8)→Except ByteFault (ℕ→UInt8)
  | 0,_,_,data => .ok data
  | n+1,dest,i,data => do
    let data ← setByte data len dest (src i)
    copyBytes len src n (dest+1) (i+1) data

/-- The loop of `mp_binary_set_int`, with the end of the bytes that are copied. -/
def copyDown (len : ℕ) (src : ℕ→ℕ) : ℕ→ℤ→ℕ→(ℕ→UInt8)→Except ByteFault (ℕ→UInt8)
  | 0,_,_,data => .ok data
  | n+1,dest,i,data => do
    let data ← setByte data len dest (src (i-1))
    copyDown len src n (dest+1) (i-1) data

/-- `mp_binary_set_int`, on a machine of either order of bytes. -/
def mpBinarySetInt (w : DigSize) (little : Bool) (len valSz : ℕ) (bigEndian : Bool) (dest : ℤ)
    (val : ℤ) (data : ℕ→UInt8) : Except ByteFault (ℕ→UInt8) :=
  if little&&!bigEndian then copyBytes len (wordBytes w little val) valSz dest 0 data
  else if !little&&bigEndian then
    copyBytes len (wordBytes w little val) valSz dest (w.sizeBits/8-valSz) data
  else copyDown len (wordBytes w little val) valSz dest
    (if little then valSz else w.sizeBits/8) data

/-- `int_to_bytes`: the buffer it fills. -/
def intToBytes (w : DigSize) (little : Bool) (st : Store) (self : IntObj) (len : ℤ)
    (bigEndian : Bool) : Except ByteFault (ℕ→UInt8) :=
  if len < 0 then .error .valueError
  else
    let data := fun _ => 0
    match self with
    | .mpz z => mpzAsBytes w st z bigEndian len.toNat data
    | .small val =>
      let l := min len.toNat (w.sizeBits/8)
      mpBinarySetInt w little len.toNat l bigEndian (if bigEndian then len-l else 0) val data

/-- The bytes of a digit that `mpz_set_from_bytes` gathers, with the bytes that are left. The
type of a digit is as wide as the digit. -/
def gatherDigit (w : DigSize) (buf : ℕ→UInt8) (bufLen : ℕ) (delta : ℤ) :
    ℕ→ℤ→ℕ→ℕ→Except ByteFault (ℕ×ℤ×ℕ×ℕ)
  | 0,p,d,numBits => .ok (0,p,d,numBits)
  | len+1,p,d,numBits =>
    if numBits<w.size then do
      let c ← getByte buf bufLen p
      gatherDigit w buf bufLen delta len (p+delta) ((d|||c<<<numBits)%w.base) (numBits+8)
    else .ok (len+1,p,d,numBits)

/-- The loop of `mpz_set_from_bytes`, with a bound for its turns, which take a byte each. For
digits of whole bytes none of them is left in `d`. -/
def gatherDigits (w : DigSize) (buf : ℕ→UInt8) (bufLen : ℕ) (delta : ℤ) (z : ℕ) :
    ℕ→ℕ→ℤ→ℕ→ℕ→Store→Except ByteFault (ℕ×Store)
  | 0,len,_,_,zlen,st => if len=0 then .ok (zlen,st) else .error .outside
  | turns+1,len,p,numBits,zlen,st =>
    if len=0 then .ok (zlen,st)
    else do
      let r ← gatherDigit w buf bufLen delta len p 0 numBits
      let st ← onDigits (writeDig st z zlen (r.2.2.1&&&w.digMask))
      gatherDigits w buf bufLen delta z turns r.1 r.2.1 (r.2.2.2-w.size) (zlen+1) st

/-- `mpz_set_from_bytes`. -/
def mpzSetFromBytes (w : DigSize) (st : Store) (z : ℕ) (bigEndian : Bool) (len : ℕ)
    (buf : ℕ→UInt8) : Except ByteFault Store := do
  let st ← onDigits (mpzNeedDig st z ((len*8+w.size-1)%2^w.sizeBits/w.size))
  let r ← gatherDigits w buf len (if bigEndian then -1 else 1) z len len
    (if bigEndian then len-1 else 0) 0 0 (setNeg st z false)
  let zlen ← onDigits (mpnRemoveTrailingZeros r.2 z r.1)
  .ok (setLen r.2 z zlen)

/-- `mpz_set_from_ll`. -/
def mpzSetFromLl (w : DigSize) (st : Store) (z : ℕ) (val : ℤ) (isSigned : Bool) :
    Except Fault Store := do
  let st ← mpzNeedDig st z ((64+w.size-1)/w.size)
  let neg := isSigned&&decide (val < 0)
  let r ← fillDigs w (setNeg st z neg) z 0 ((if neg then -val else val)%2^64).toNat
  .ok (setLen r.2 z r.1)

/-- `mp_obj_new_int_from_uint`, with the address of a new object. -/
def mpObjNewIntFromUint (w : DigSize) (st : Store) (z value : ℕ) : Except Fault (IntObj×Store) :=
  if value ≤ smallIntMax w then .ok (.small value,st)
  else do
    let st ← mpzSetFromLl w (Function.update st z mpzInitZero) z value false
    .ok (.mpz z,st)

/-- The loop of `int_from_bytes`: the value, unless it gets too large for a small integer. -/
def gatherValue (w : DigSize) (buf : ℕ→UInt8) (bufLen : ℕ) (delta : ℤ) :
    ℕ→ℤ→ℕ→Except ByteFault (Option ℕ)
  | 0,_,value => .ok (some value)
  | len+1,p,value =>
    if smallIntMax w>>>8 < value then .ok none
    else do
      let c ← getByte buf bufLen p
      gatherValue w buf bufLen delta len (p+delta) ((value<<<8)%2^w.sizeBits|||c)

/-- `int_from_bytes`, with the address of a new object. -/
def intFromBytes (w : DigSize) (st : Store) (z : ℕ) (buf : ℕ→UInt8) (len : ℕ)
    (bigEndian : Bool) : Except ByteFault (IntObj×Store) := do
  let value ← gatherValue w buf len (if bigEndian then 1 else -1) len
    (if bigEndian then 0 else len-1) 0
  match value with
  | none => do
    let st ← mpzSetFromBytes w (Function.update st z mpzInitZero) z bigEndian len buf
    .ok (.mpz z,st)
  | some value => onDigits (mpObjNewIntFromUint w st z value)

section Buffer

variable {buf data : ℕ→UInt8} {len : ℕ}

theorem getByte_of_lt {i : ℕ} {p : ℤ} (hp : p=i) (h : i < len) :
    getByte buf len p=.ok (buf i).toNat := by
  rw [hp]
  exact if_pos ⟨Int.natCast_nonneg _,Int.ofNat_lt.mpr h⟩

/-- A byte inside of the buffer is written. -/
theorem setByte_of_lt {i : ℕ} {p : ℤ} (hp : p=i) (h : i < len) (val : ℕ) :
    setByte data len p val=.ok (Function.update data i (UInt8.ofNat val)) := by
  rw [hp]
  exact if_pos ⟨Int.natCast_nonneg _,Int.ofNat_lt.mpr h⟩

/-- An operation on digits that goes well. -/
theorem onDigits_ok {α : Type} {x : Except Fault α} {a : α} (h : x=.ok a) : onDigits x=.ok a := by
  rw [h]
  rfl

/-- The significance of a byte of a buffer, and the place of a byte of a significance. -/
def placeOf (bigEndian : Bool) (len i : ℕ) : ℕ := if bigEndian then len-1-i else i

variable (bigEndian : Bool)

/-- A place is inside of the buffer. -/
theorem placeOf_lt {i : ℕ} (h : i < len) : placeOf bigEndian len i < len := by
  unfold placeOf
  split <;> omega

theorem placeOf_placeOf {i : ℕ} (h : i < len) :
    placeOf bigEndian len (placeOf bigEndian len i)=i := by
  unfold placeOf
  split <;> omega

/-- The bytes of a number up to a significance, in a buffer. -/
def filled (bigEndian : Bool) (len v : ℕ) (data : ℕ→UInt8) (j i : ℕ) : UInt8 :=
  if i < len∧placeOf bigEndian len i < j then
    UInt8.ofNat (digitAt 256 v (placeOf bigEndian len i))
  else data i

/-- The byte of the next significance. -/
theorem update_filled {v j : ℕ} (h : j < len) :
    Function.update (filled bigEndian len v data j) (placeOf bigEndian len j)
      (UInt8.ofNat (digitAt 256 v j))=filled bigEndian len v data (j+1) := by
  funext i
  by_cases hi : i=placeOf bigEndian len j
  · rw [hi,update_self,filled,placeOf_placeOf _ h,
      if_pos ⟨placeOf_lt _ h,lt_succ_self j⟩]
  · rw [update_of_ne hi,filled,filled]
    have hne : i < len → placeOf bigEndian len i≠j := fun hlt heq => by
      rw [←heq,placeOf_placeOf _ hlt] at hi
      exact hi rfl
    refine if_congr ⟨fun hlt => ⟨hlt.1,lt_succ_of_lt hlt.2⟩,fun hlt => ⟨hlt.1,?_⟩⟩ rfl rfl
    omega

/-- No byte yet. -/
theorem filled_zero (v : ℕ) : filled bigEndian len v data 0=data := by
  funext i
  exact if_neg fun h => not_lt_zero _ h.2

/-- The bytes of a number without its higher ones. -/
theorem filled_min {v j : ℕ} (h : v < 256^j) :
    filled bigEndian len v (fun _ => 0) (min j len)=filled bigEndian len v (fun _ => 0) len := by
  funext i
  rw [filled,filled]
  by_cases hlow : i < len∧placeOf bigEndian len i < min j len
  · rw [if_pos hlow,if_pos ⟨hlow.1,by omega⟩]
  · rw [if_neg hlow]
    split
    case isFalse => rfl
    case isTrue hi =>
      have hle : j ≤ placeOf bigEndian len i := by omega
      rw [digitAt_of_lt (h.trans_le (Nat.pow_le_pow_right (by decide) hle))]
      rfl

end Buffer

section AsBytes

variable {w : DigSize} {st : Store} {z len v : ℕ} {bigEndian : Bool} {data : ℕ→UInt8}

/-- The place in the buffer after some bytes. -/
def cursor (bigEndian : Bool) (len j : ℕ) : ℤ := if bigEndian then len-j else j

/-- The low byte of what is left of a digit is written. -/
theorem setByte_filled (bigEndian : Bool) {d j : ℕ} (h : j < len) (hd : d%256=digitAt 256 v j) :
    setByte (filled bigEndian len v data j) len
      (if bigEndian then cursor bigEndian len j-1 else cursor bigEndian len j) d=
        .ok (filled bigEndian len v data (j+1)) := by
  have hplace : (if bigEndian then cursor bigEndian len j-1 else cursor bigEndian len j)=
      (placeOf bigEndian len j : ℤ) := by
    unfold cursor placeOf
    split <;> omega
  have hbyte : UInt8.ofNat d=UInt8.ofNat (digitAt 256 v j) := by
    refine UInt8.toNat_inj.mp ?_
    rw [UInt8.toNat_ofNat',UInt8.toNat_ofNat',←hd]
    exact (mod_mod d 256).symm
  rw [setByte_of_lt hplace (placeOf_lt bigEndian h),hbyte,update_filled bigEndian h]

/-- The bytes of a digit are written, up to the end of the buffer. -/
theorem writeBits_eq (k : ℕ) {d j carry : ℕ} (hj : j < len)
    (hd : ∀ i < k,digitAt 256 d i=digitAt 256 v (j+i)) :
    ∃ s,writeBits false bigEndian len {
        bits := 8*k
        d := d
        carry := carry
        b := cursor bigEndian len j
        data := filled bigEndian len v data j
        done := false }=.ok s∧s.data=filled bigEndian len v data (min (j+k) len)∧
      s.done=decide (len ≤ j+k)∧
      (j+k < len → s.bits=0∧s.d=d/256^k∧s.b=cursor bigEndian len (j+k)) := by
  induction k generalizing d j with
  | zero =>
    refine ⟨_,by rw [writeBits,dif_neg (show ¬8 ≤ 8*0 by decide)],?_,?_,fun _ => ⟨rfl,?_,rfl⟩⟩
    · rw [add_zero,min_eq_left hj.le]
    · exact (decide_eq_false (by omega)).symm
    · rw [pow_zero,Nat.div_one]
  | succ k ih =>
    have hfirst : d%256=digitAt 256 v j := by
      have hzero := hd 0 (succ_pos k)
      rw [digitAt,pow_zero,Nat.div_one] at hzero
      exact hzero
    have hshift : ∀ i,d>>>8/256^i=d/256^(i+1) := fun i => by
      rw [Nat.shiftRight_eq_div_pow,Nat.div_div_eq_div_mul,show 2^8=256 from rfl,pow_succ' 256]
    have hnext : (if bigEndian then cursor bigEndian len j-1 else cursor bigEndian len j+1)=
        cursor bigEndian len (j+1) := by
      unfold cursor
      split <;> omega
    have hend : cursor bigEndian len (j+1)=(if bigEndian then 0 else (len : ℤ))↔j+1=len := by
      unfold cursor
      split <;> omega
    rw [writeBits,dif_pos (show 8 ≤ 8*(k+1) by omega)]
    dsimp only
    rw [if_neg Bool.false_ne_true,if_neg Bool.false_ne_true,
      bind_ok _ (setByte_filled bigEndian hj hfirst),hnext]
    by_cases hlast : cursor bigEndian len (j+1)=(if bigEndian then 0 else (len : ℤ))
    · rw [if_pos hlast]
      refine ⟨_,rfl,?_,?_,fun h => absurd h (by omega)⟩
      · rw [show min (j+(k+1)) len=j+1 by omega]
      · exact (decide_eq_true (by omega)).symm
    · have hlt : j+1 < len := by
        omega
      obtain ⟨s,hrun,hdata,hdone,hstate⟩ := @ih (d>>>8) (j+1) hlt (fun i hi => by
        have hbyte := hd (i+1) (succ_lt_succ hi)
        rw [digitAt,hshift,show j+1+i=j+(i+1) by omega]
        exact hbyte)
      rw [if_neg hlast,show 8*(k+1)-8=8*k by omega]
      refine ⟨s,hrun,?_,?_,fun h => ?_⟩
      · rw [hdata,show j+1+k=j+(k+1) by omega]
      · rw [hdone,show j+1+k=j+(k+1) by omega]
      · obtain ⟨hbits,hrest,hb⟩ := hstate (by omega)
        refine ⟨hbits,?_,?_⟩
        · rw [hrest,hshift]
        · rw [hb,show j+1+k=j+(k+1) by omega]

/-- The digits are of whole bytes, and their types have the same size. -/
def ByteDigits (w : DigSize) : Prop := w.size=8∨w.size=16∨w.size=32

theorem ByteDigits.size_eq (h : ByteDigits w) :
    w.size=8*(w.size/8)∧0<w.size/8∧w.base=256^(w.size/8) := by
  have hsize : w.size=8*(w.size/8) := by
    rcases h with h | h | h <;> rw [h]
  have hbase : w.base=256^(w.size/8) := by
    rw [show 256=2^8 from rfl,←pow_mul,←hsize]
    rfl
  have hpos := w.pos
  exact ⟨hsize,by omega,hbase⟩

theorem digitAt_digitAt {m t i : ℕ} (h : i < m) :
    digitAt 256 (digitAt (256^m) v t) i=digitAt 256 v (m*t+i) := by
  have hsplit : 256^m=256^i*256*256^(m-i-1) := by
    rw [←pow_succ,←pow_add,show i+1+(m-i-1)=m by omega]
  rw [digitAt,digitAt,digitAt,hsplit,Nat.mul_assoc,mod_mul_right_div_self,mod_mul_right_mod,
    ←Nat.mul_assoc,←hsplit,Nat.div_div_eq_div_mul,←pow_mul,←pow_add]

/-- The digits that are left are written, up to the end of the buffer. -/
theorem writeDigits_eq (hw : ByteDigits w) (hz : Normal w (st z)) (hneg : (st z).neg=false)
    {n t carry : ℕ} (hn : t+n=(st z).len) (ht : w.size/8*t < len) :
    ∃ s,writeDigits w st z bigEndian len n t {
        bits := 0
        d := 0
        carry := carry
        b := cursor bigEndian len (w.size/8*t)
        data := filled bigEndian len (mag w (st z)) data (w.size/8*t)
        done := false }=.ok s∧
      s.data=filled bigEndian len (mag w (st z)) data (min (w.size/8*(t+n)) len) := by
  obtain ⟨hsize,hpos,hbase⟩ := hw.size_eq
  induction n generalizing t carry with
  | zero => exact ⟨_,rfl,by rw [add_zero,min_eq_left ht.le]⟩
  | succ n ih =>
    have hlt : t < (st z).len := by omega
    have hdig : (st z).dig t=digitAt w.base (mag w (st z)) t :=
      (digitAt_value hlt hz.lt).symm
    have hread := onDigits_ok (@readDig_of_lt st (.object z) t (hlt.trans_le hz.alloc))
    obtain ⟨s,hrun,hdata,hdone,hstate⟩ := @writeBits_eq len (mag w (st z)) bigEndian data
      (w.size/8) ((st z).dig t) (w.size/8*t) carry ht (fun i hi => by
        rw [hdig,hbase,digitAt_digitAt hi])
    have hd : w.dbl (0<<<w.size)|||(st z).dig t=(st z).dig t := by
      rw [zero_shiftLeft,DigSize.dbl,zero_mod,zero_or]
    rw [writeDigits,bind_ok _ hread]
    rw [←hsize] at hrun
    rw [zero_add,hneg,show (Source.object z).mpz st=st z from rfl,hd,bind_ok _ hrun,hdone]
    have hnext : w.size/8*t+w.size/8=w.size/8*(t+1) := by rw [mul_add,mul_one]
    by_cases hfull : len ≤ w.size/8*t+w.size/8
    · refine ⟨s,if_pos (decide_eq_true hfull),?_⟩
      have hmore : w.size/8*(t+1) ≤ w.size/8*(t+(n+1)) := mul_le_mul_left _ (by omega)
      rw [hdata,min_eq_right hfull,min_eq_right (by omega)]
    · have hlt' : w.size/8*(t+1) < len := by omega
      obtain ⟨hbits,hrest,hb⟩ := hstate (by omega)
      have hnone : s.d=0 := by
        rw [hrest,←hbase]
        exact div_eq_of_lt (hz.lt t hlt)
      have hs : s={
          bits := 0
          d := 0
          carry := s.carry
          b := cursor bigEndian len (w.size/8*(t+1))
          data := filled bigEndian len (mag w (st z)) data (w.size/8*(t+1))
          done := false } := by
        rw [hnext] at hb hdata
        rw [min_eq_left hlt'.le] at hdata
        rw [decide_eq_false hfull] at hdone
        rw [←hb,←hdata,←hdone,←hbits]
        cases s
        rw [AsBytes.mk.injEq]
        exact ⟨rfl,hnone.trans hbits.symm,rfl,rfl,rfl,rfl⟩
      have hrun' := @ih (t+1) s.carry (by omega) hlt'
      rw [←hs,show t+1+n=t+(n+1) by omega] at hrun'
      rw [if_neg (by rw [decide_eq_false hfull]; exact Bool.false_ne_true)]
      exact hrun'

/-- The bytes of a number, at their places in a buffer of zeros. -/
def bytesOf (bigEndian : Bool) (len v : ℕ) : ℕ→UInt8 := filled bigEndian len v (fun _ => 0) len

/-- The bytes of the digits are written. -/
theorem mpzAsBytes_eq (hw : ByteDigits w) (hz : Normal w (st z)) (hneg : (st z).neg=false)
    (hlen : 0 < len) :
    mpzAsBytes w st z bigEndian len (fun _ => 0)=.ok (bytesOf bigEndian len (mag w (st z))) := by
  obtain ⟨hsize,hpos,hbase⟩ := hw.size_eq
  obtain ⟨s,hrun,hdata⟩ := @writeDigits_eq w st z len bigEndian (fun _ => 0) hw hz hneg
    (st z).len 0 1 (zero_add _) hlen
  have hlt : mag w (st z) < 256^(w.size/8*(0+(st z).len)) := by
    rw [zero_add,pow_mul,←hbase]
    exact hz.digits.value_lt
  rw [filled_min bigEndian hlt] at hdata
  rw [mul_zero,filled_zero] at hrun
  have hstart : cursor bigEndian len 0=(if bigEndian then (len : ℤ) else 0) := by
    unfold cursor
    split <;> omega
  rw [hstart] at hrun
  rw [mpzAsBytes,bind_ok _ hrun,hdata]
  rfl

/-- Without room for a byte, the first one is written outside of the buffer. -/
theorem mpzAsBytes_empty (hw : ByteDigits w) (hz : Normal w (st z)) :
    mpzAsBytes w st z bigEndian 0 data=
      if (st z).len=0 then .ok data else .error .outside := by
  split
  case isTrue hlen =>
    rw [mpzAsBytes,hlen]
    rfl
  case isFalse hlen =>
    obtain ⟨n,hn⟩ := exists_eq_succ_of_ne_zero hlen
    have hsize := hw.size_eq
    have hread := onDigits_ok (@readDig_of_lt st (.object z) 0
      (lt_of_lt_of_le (pos_of_ne_zero hlen) hz.alloc))
    have hplace : ∀ val,setByte data 0 (if bigEndian then (if bigEndian then ((0 : ℕ) : ℤ) else 0)-1
        else if bigEndian then ((0 : ℕ) : ℤ) else 0) val=.error .outside := fun val => by
      rw [setByte,if_neg]
      split <;> omega
    rw [mpzAsBytes,hn,writeDigits,bind_ok _ hread]
    rw [writeBits,dif_pos (show 8 ≤ 0+w.size by omega)]
    dsimp only
    rw [hplace]
    rfl

end AsBytes

section SmallInts

variable {w : DigSize} {st : Store} {len : ℕ} {bigEndian little : Bool} {data : ℕ→UInt8}

/-- A part of a buffer replaced. -/
def copied (data : ℕ→UInt8) (dest n : ℕ) (f : ℕ→ℕ) (i : ℕ) : UInt8 :=
  if dest ≤ i∧i < dest+n then UInt8.ofNat (f i) else data i

/-- The first byte of a part that is replaced. -/
theorem copied_succ (data : ℕ→UInt8) (dest n : ℕ) (f : ℕ→ℕ) :
    copied (Function.update data dest (UInt8.ofNat (f dest))) (dest+1) n f=
      copied data dest (n+1) f := by
  funext i
  rw [copied,copied]
  by_cases hi : i=dest
  · rw [hi,if_neg (by omega),if_pos (by omega),update_self]
  · rw [update_of_ne hi]
    exact if_congr (by omega) rfl rfl

/-- The bytes are copied upwards. -/
theorem copyBytes_eq {src f : ℕ→ℕ} {n dest i : ℕ} (h : dest+n ≤ len)
    (hf : ∀ k < n,f (dest+k)=src (i+k)) :
    copyBytes len src n dest i data=.ok (copied data dest n f) := by
  induction n generalizing dest i data with
  | zero =>
    have hnone : copied data dest 0 f=data := by
      funext k
      exact if_neg (by omega)
    rw [hnone]
    rfl
  | succ n ih =>
    have hfirst : f dest=src i := hf 0 (succ_pos n)
    rw [copyBytes,bind_ok _ (setByte_of_lt rfl (by omega) _),←hfirst,←copied_succ,←Int.natCast_succ]
    exact ih (by omega) fun k hk => by
      rw [show dest+1+k=dest+(k+1) by omega,show i+1+k=i+(k+1) by omega]
      exact hf (k+1) (succ_lt_succ hk)

/-- The bytes are copied from the end. -/
theorem copyDown_eq {src f : ℕ→ℕ} {n dest i : ℕ} (h : dest+n ≤ len)
    (hf : ∀ k < n,f (dest+k)=src (i-1-k)) :
    copyDown len src n dest i data=.ok (copied data dest n f) := by
  induction n generalizing dest i data with
  | zero =>
    have hnone : copied data dest 0 f=data := by
      funext k
      exact if_neg (by omega)
    rw [hnone]
    rfl
  | succ n ih =>
    have hfirst : f dest=src (i-1) := hf 0 (succ_pos n)
    rw [copyDown,bind_ok _ (setByte_of_lt rfl (by omega) _),←hfirst,←copied_succ,←Int.natCast_succ]
    exact ih (by omega) fun k hk => by
      rw [show dest+1+k=dest+(k+1) by omega,show i-1-1-k=i-1-(k+1) by omega]
      exact hf (k+1) (succ_lt_succ hk)

/-- The low bytes of a word are the bytes of the number, with zeros for the others. -/
theorem copied_eq {v l : ℕ} (hv : v < 256^l∨l=len) (hl : l ≤ len) :
    copied (fun _ => 0) (if bigEndian then len-l else 0) l
      (fun i => digitAt 256 v (placeOf bigEndian len i))=bytesOf bigEndian len v := by
  funext i
  have hiff : (if bigEndian then len-l else 0) ≤ i∧i < (if bigEndian then len-l else 0)+l↔
      i < len∧placeOf bigEndian len i < l := by
    unfold placeOf
    split <;> omega
  rw [copied,bytesOf,filled,if_congr hiff rfl rfl]
  by_cases hi : i < len∧placeOf bigEndian len i < l
  · rw [if_pos hi,if_pos ⟨hi.1,by omega⟩]
  · rw [if_neg hi]
    split
    case isFalse => rfl
    case isTrue hlow =>
      have hle : l ≤ placeOf bigEndian len i := by omega
      have hsmall : v < 256^l := by
        rcases hv with hv | hv
        · exact hv
        · omega
      rw [digitAt_of_lt (hsmall.trans_le (Nat.pow_le_pow_right (by decide) hle))]
      rfl

/-- The bytes of a small integer are written. -/
theorem mpBinarySetInt_eq (hword : w.sizeBits=8*(w.sizeBits/8)) {v : ℕ} (hv : v < 2^w.sizeBits) :
    mpBinarySetInt w little len (min len (w.sizeBits/8)) bigEndian
      (if bigEndian then len-(min len (w.sizeBits/8) : ℕ) else 0) v (fun _ => 0)=
        .ok (bytesOf bigEndian len v) := by
  have hle : min len (w.sizeBits/8) ≤ len := min_le_left ..
  have hsize : min len (w.sizeBits/8) ≤ w.sizeBits/8 := min_le_right ..
  have hlow : v < 256^(min len (w.sizeBits/8))∨min len (w.sizeBits/8)=len := by
    rcases le_total len (w.sizeBits/8) with h | h
    · exact .inr (min_eq_left h)
    · rw [min_eq_right h,show 256=2^8 from rfl,←pow_mul,←hword]
      exact .inl hv
  rw [←copied_eq hlow hle]
  have hval : ((v : ℤ)%2^w.sizeBits).toNat=v := by
    have hmod : (v : ℤ)%2^w.sizeBits=v := Int.emod_eq_of_lt (Int.natCast_nonneg v) (by
      exact_mod_cast hv)
    rw [hmod,Int.toNat_natCast]
  have hbyte : ∀ i,wordBytes w little v i=
      digitAt 256 v (if little then i else w.sizeBits/8-1-i) := fun i => by
    rw [wordBytes,hval]
  generalize min len (w.sizeBits/8)=l at hle hsize ⊢
  have hdest : (if bigEndian then (len : ℤ)-(l : ℕ) else 0)=
      ((if bigEndian then len-l else 0 : ℕ) : ℤ) := by split <;> omega
  have hplace : ∀ k < l,placeOf bigEndian len ((if bigEndian then len-l else 0)+k)=
      if bigEndian then l-1-k else k := fun k hk => by
    unfold placeOf
    split <;> omega
  have hroom : (if bigEndian then len-l else 0)+l ≤ len := by split <;> omega
  rw [mpBinarySetInt,hdest]
  cases little with
  | true =>
    cases bigEndian with
    | false =>
      refine copyBytes_eq hroom fun k hk => ?_
      rw [hplace k hk,hbyte,zero_add]
      rfl
    | true =>
      refine copyDown_eq hroom fun k hk => ?_
      rw [hplace k hk,hbyte]
      rfl
  | false =>
    cases bigEndian with
    | false =>
      refine copyDown_eq hroom fun k hk => ?_
      rw [hplace k hk,hbyte]
      change digitAt 256 v k=digitAt 256 v (w.sizeBits/8-1-(w.sizeBits/8-1-k))
      rw [show w.sizeBits/8-1-(w.sizeBits/8-1-k)=k by omega]
    | true =>
      refine copyBytes_eq hroom fun k hk => ?_
      rw [hplace k hk,hbyte]
      change digitAt 256 v (l-1-k)=digitAt 256 v (w.sizeBits/8-1-(w.sizeBits/8-l+k))
      rw [show w.sizeBits/8-1-(w.sizeBits/8-l+k)=l-1-k by omega]

end SmallInts

section FromBytes

variable {w : DigSize} {st : Store} {z len : ℕ} {bigEndian : Bool} {buf : ℕ→UInt8}

/-- The byte of a significance. -/
def byteOf (buf : ℕ→UInt8) (bigEndian : Bool) (len s : ℕ) : ℕ :=
  (buf (placeOf bigEndian len s)).toNat

/-- The number the bytes of a buffer stand for. -/
def valueOf (buf : ℕ→UInt8) (bigEndian : Bool) (len : ℕ) : ℕ :=
  value 256 (byteOf buf bigEndian len) len

theorem byteOf_lt (s : ℕ) : byteOf buf bigEndian len s < 256 := UInt8.toNat_lt _

/-- A word has room for a byte above the small integers. -/
theorem smallIntMax_shift (hbits : 16 ≤ w.sizeBits) :
    smallIntMax w=256*(smallIntMax w>>>8)+255∧256*(smallIntMax w>>>8)+255 < 2^w.sizeBits := by
  have hsplit : 2^(w.sizeBits-2)=2^(w.sizeBits-10)*256 := by
    rw [show 256=2^8 from rfl,←pow_add,show w.sizeBits-10+8=w.sizeBits-2 by omega]
  have hlt : 2^(w.sizeBits-2)<2^w.sizeBits := Nat.pow_lt_pow_right (by decide) (by omega)
  have hpos : 0<2^(w.sizeBits-10) := Nat.two_pow_pos _
  rw [smallIntMax,Nat.shiftRight_eq_div_pow]
  omega

/-- The value, unless it is too large for a small integer. -/
theorem gatherValue_eq (hbits : 16 ≤ w.sizeBits) {r : ℕ} (hr : r ≤ len)
    (hv : valueOf buf bigEndian len/256^r ≤ smallIntMax w) :
    gatherValue w buf len (if bigEndian then 1 else -1) r
      (if bigEndian then (len : ℤ)-r else r-1) (valueOf buf bigEndian len/256^r)=
        .ok (if valueOf buf bigEndian len ≤ smallIntMax w then some (valueOf buf bigEndian len)
          else none) := by
  obtain ⟨hmax,hword⟩ := smallIntMax_shift hbits
  induction r with
  | zero =>
    rw [pow_zero,Nat.div_one] at hv ⊢
    rw [if_pos hv]
    rfl
  | succ r ih =>
    have hnext : valueOf buf bigEndian len/256^r=
        256*(valueOf buf bigEndian len/256^(r+1))+byteOf buf bigEndian len r := by
      have hdigit : digitAt 256 (valueOf buf bigEndian len) r=byteOf buf bigEndian len r :=
        digitAt_value (by omega) fun s _ => byteOf_lt s
      rw [←hdigit,digitAt,pow_succ,←Nat.div_div_eq_div_mul,Nat.div_add_mod]
    rw [gatherValue]
    split
    case isTrue hlarge =>
      have hdiv : valueOf buf bigEndian len/256^r ≤ valueOf buf bigEndian len :=
        div_le_self ..
      rw [if_neg (by omega)]
    case isFalse hsmall =>
      have hp : (if bigEndian then (len : ℤ)-(r+1 : ℕ) else (r+1 : ℕ)-1)=
          (placeOf bigEndian len r : ℤ) := by
        unfold placeOf
        split <;> omega
      have hp' : (if bigEndian then (len : ℤ)-(r+1 : ℕ) else (r+1 : ℕ)-1)+
          (if bigEndian then 1 else -1)=if bigEndian then (len : ℤ)-r else r-1 := by
        split <;> omega
      have hbyte : (buf (placeOf bigEndian len r)).toNat=byteOf buf bigEndian len r := rfl
      have hor : ((valueOf buf bigEndian len/256^(r+1))<<<8)%2^w.sizeBits|||
          byteOf buf bigEndian len r=valueOf buf bigEndian len/256^r := by
        have hlow : byteOf buf bigEndian len r < 2^8 := byteOf_lt r
        rw [Nat.shiftLeft_eq,Nat.mul_comm,mod_eq_of_lt (by omega),
          ←Nat.two_pow_add_eq_or_of_lt hlow,hnext]
      rw [bind_ok _ (getByte_of_lt hp (placeOf_lt bigEndian (by omega))),hp',hbyte,hor]
      have hlow := @byteOf_lt len bigEndian buf r
      exact ih (by omega) (by omega)

/-- The place a pass over the bytes has come to, from the least significant one on. -/
def position (bigEndian : Bool) (len k : ℕ) : ℤ := if bigEndian then len-1-k else k

/-- The next place. -/
theorem position_succ (len k : ℕ) :
    position bigEndian len k+(if bigEndian then -1 else 1)=position bigEndian len (k+1) := by
  unfold position
  split <;> omega

/-- The bytes of a digit are gathered. -/
theorem gatherDigit_eq (hw : ByteDigits w) {n k i : ℕ} (hk : k+i+n=len) (hi : i ≤ w.size/8) :
    gatherDigit w buf len (if bigEndian then -1 else 1) n (position bigEndian len (k+i))
      (value 256 (fun s => byteOf buf bigEndian len (k+s)) i) (8*i)=
        .ok (len-(k+min (w.size/8) (i+n)),position bigEndian len (k+min (w.size/8) (i+n)),
          value 256 (fun s => byteOf buf bigEndian len (k+s)) (min (w.size/8) (i+n)),
          8*min (w.size/8) (i+n)) := by
  obtain ⟨hsize,hpos,hbase⟩ := hw.size_eq
  induction n generalizing i with
  | zero =>
    rw [add_zero,min_eq_right hi,show len-(k+i)=0 by omega]
    rfl
  | succ n ih =>
    rw [gatherDigit]
    by_cases hmore : i < w.size/8
    · have hp : position bigEndian len (k+i)=(placeOf bigEndian len (k+i) : ℤ) := by
        unfold position placeOf
        split <;> omega
      have hlt : ∀ s < i+1,byteOf buf bigEndian len (k+s) < 256 := fun s _ => byteOf_lt _
      have hlow : value 256 (fun s => byteOf buf bigEndian len (k+s)) i < 2^(8*i) := by
        rw [pow_mul]
        exact value_lt fun s hs => hlt s (by omega)
      have hnext : (value 256 (fun s => byteOf buf bigEndian len (k+s)) i|||
          byteOf buf bigEndian len (k+i)<<<(8*i))%w.base=
            value 256 (fun s => byteOf buf bigEndian len (k+s)) (i+1) := by
        have hfits : value 256 (fun s => byteOf buf bigEndian len (k+s)) (i+1) < w.base := by
          rw [hbase]
          exact (value_lt hlt).trans_le (Nat.pow_le_pow_right (by decide) hmore)
        have hsum : value 256 (fun s => byteOf buf bigEndian len (k+s)) i|||
            byteOf buf bigEndian len (k+i)<<<(8*i)=
              value 256 (fun s => byteOf buf bigEndian len (k+s)) (i+1) := by
          rw [Nat.or_comm,Nat.shiftLeft_eq,Nat.mul_comm,←Nat.two_pow_add_eq_or_of_lt hlow,
            value_succ,add_comm,Nat.mul_comm,pow_mul]
          rfl
        rw [hsum,mod_eq_of_lt hfits]
      have hbyte : (buf (placeOf bigEndian len (k+i))).toNat=byteOf buf bigEndian len (k+i) :=
        rfl
      have hrest := @ih (i+1) (by omega) hmore
      rw [if_pos (show 8*i < w.size by omega),
        bind_ok _ (getByte_of_lt hp (placeOf_lt bigEndian (by omega))),hbyte,hnext,
        position_succ,show 8*i+8=8*(i+1) by omega,show i+(n+1)=i+1+n by omega]
      exact hrest
    · have hfull : i=w.size/8 := by omega
      rw [if_neg (show ¬8*i < w.size by omega),min_eq_left (by omega),←hfull,
        show len-(k+i)=n+1 by omega]

/-- The digits a number of bytes needs. -/
def digitsFor (w : DigSize) (len : ℕ) : ℕ := (len*8+w.size-1)/w.size

/-- A digit is needed for the next byte. -/
theorem lt_digitsFor_iff (hw : ByteDigits w) (len t : ℕ) :
    t < digitsFor w len↔w.size/8*t < len := by
  obtain ⟨hsize,hpos,-⟩ := hw.size_eq
  have hle := @le_div_iff_mul_le w.size (t+1) (len*8+w.size-1) w.pos
  have hmul : (t+1)*w.size=8*(w.size/8*t)+w.size := by
    rw [add_mul,one_mul,←Nat.mul_assoc,←hsize,Nat.mul_comm]
  rw [hmul] at hle
  rw [digitsFor]
  omega

theorem value_byteOf (hw : ByteDigits w) {t : ℕ} (ht : w.size/8*t < len) :
    value 256 (fun s => byteOf buf bigEndian len (w.size/8*t+s)) (min (w.size/8) (len-w.size/8*t))=
      digitAt w.base (valueOf buf bigEndian len) t := by
  obtain ⟨-,-,hbase⟩ := hw.size_eq
  have hlt : ∀ s < len,byteOf buf bigEndian len s < 256 := fun s _ => byteOf_lt s
  have hlt' : ∀ s < len-w.size/8*t,byteOf buf bigEndian len (w.size/8*t+s) < 256 :=
    fun s _ => byteOf_lt _
  rw [digitAt,hbase,←pow_mul,valueOf,value_div ht.le hlt]
  rcases le_total (w.size/8) (len-w.size/8*t) with h | h
  · rw [min_eq_left h,value_mod h hlt']
  · have hbound := (value_lt hlt').trans_le (Nat.pow_le_pow_right (by decide) h)
    rw [min_eq_right h,mod_eq_of_lt hbound]

/-- The digits are written as long as they are allocated. -/
theorem gatherDigits_eq (hw : ByteDigits w) {turns t k : ℕ} (hk : k=min (w.size/8*t) len)
    (hturns : len-k ≤ turns) (ht : t ≤ digitsFor w len) (halloc : t ≤ (st z).alloc) :
    gatherDigits w buf len (if bigEndian then -1 else 1) z turns (len-k)
      (position bigEndian len k) 0 t
      (written st z t (digitAt w.base (valueOf buf bigEndian len)))=
        if digitsFor w len ≤ (st z).alloc then
          .ok (digitsFor w len,written st z (digitsFor w len)
            (digitAt w.base (valueOf buf bigEndian len)))
        else .error (.mpz .digits) := by
  obtain ⟨hsize,hpos,hbase⟩ := hw.size_eq
  induction turns generalizing t k with
  | zero =>
    have hend : t=digitsFor w len := by
      have hiff := lt_digitsFor_iff hw len t
      omega
    rw [gatherDigits,if_pos (by omega),if_pos (by omega),hend]
  | succ turns ih =>
    have hiff := lt_digitsFor_iff hw len t
    rw [gatherDigits]
    split
    case isTrue hzero =>
      have hend : t=digitsFor w len := by omega
      rw [if_pos (by omega),hend]
    case isFalse hsome =>
      have hlt : w.size/8*t < len := by omega
      have hkt : k=w.size/8*t := by omega
      have hgather := @gatherDigit_eq w len bigEndian buf hw (len-k) k 0 (by omega) (by omega)
      rw [add_zero,value_zero,mul_zero,zero_add,hkt,value_byteOf hw hlt,←hkt] at hgather
      have hmask : digitAt w.base (valueOf buf bigEndian len) t&&&w.digMask=
          digitAt w.base (valueOf buf bigEndian len) t := by
        rw [DigSize.digMask,and_two_pow_sub_one_eq_mod,←DigSize.base]
        exact mod_mod _ _
      rw [bind_ok _ hgather,hmask]
      by_cases hroom : t < (st z).alloc
      · have hwrite := onDigits_ok (@writeDig_written st z t
          (digitAt w.base (valueOf buf bigEndian len)) hroom)
        have hmul : w.size/8*(t+1)=w.size/8*t+w.size/8 := by rw [mul_add,mul_one]
        rw [bind_ok _ hwrite,show 8*min (w.size/8) (len-k)-w.size=0 by omega]
        exact ih (by omega) (by omega) (hiff.mpr hlt) hroom
      · have hfault : writeDig (written st z t (digitAt w.base (valueOf buf bigEndian len))) z t
            (digitAt w.base (valueOf buf bigEndian len) t)=.error .digits := by
          have hsame := written_alloc st z t (digitAt w.base (valueOf buf bigEndian len))
            (.object z)
          refine if_neg ?_
          rw [show (written st z t _ z).alloc=(st z).alloc from hsame]
          exact hroom
        have hfull : ¬digitsFor w len ≤ (st z).alloc := by omega
        rw [hfault,if_neg hfull]
        rfl

end FromBytes

section NewInt

variable {w : DigSize} {st : Store} {z len : ℕ} {bigEndian : Bool} {buf : ℕ→UInt8}

theorem valueOf_lt (hw : ByteDigits w) : valueOf buf bigEndian len < w.base^(digitsFor w len) := by
  obtain ⟨-,-,hbase⟩ := hw.size_eq
  have hlt : valueOf buf bigEndian len < 256^len := value_lt fun s _ => byteOf_lt s
  have hle : len ≤ w.size/8*digitsFor w len := by
    have hiff := lt_digitsFor_iff hw len (digitsFor w len)
    omega
  rw [hbase,←pow_mul]
  exact hlt.trans_le (Nat.pow_le_pow_right (by decide) hle)

/-- The loop over the bytes from its start. -/
theorem mpzSetFromBytes_run (hw : ByteDigits w) (hfixed : (st z).fixedDig=false) :
    mpzSetFromBytes w st z bigEndian len buf=
      if digitsFor w len ≤ grown (st z).alloc ((len*8+w.size-1)%2^w.sizeBits/w.size) then
        .ok (setLen (written (setNeg (grow st z ((len*8+w.size-1)%2^w.sizeBits/w.size)) z false) z
          (digitsFor w len) (digitAt w.base (valueOf buf bigEndian len))) z
          (trim (digitAt w.base (valueOf buf bigEndian len)) (digitsFor w len)))
      else .error (.mpz .digits) := by
  have halloc : (setNeg (grow st z ((len*8+w.size-1)%2^w.sizeBits/w.size)) z false z).alloc=
      grown (st z).alloc ((len*8+w.size-1)%2^w.sizeBits/w.size) := by
    rw [setNeg,update_self,grow_self]
  have hrun := @gatherDigits_eq w
    (setNeg (grow st z ((len*8+w.size-1)%2^w.sizeBits/w.size)) z false) z len bigEndian buf hw
    len 0 0 (by omega) (by omega) (zero_le _) (zero_le _)
  have hstart : position bigEndian len 0=(if bigEndian then (len : ℤ)-1 else 0) := by
    unfold position
    split <;> omega
  rw [written_zero,hstart,halloc,Nat.sub_zero] at hrun
  rw [mpzSetFromBytes,bind_ok _ (onDigits_ok (mpzNeedDig_eq hfixed)),hrun]
  by_cases hroom : digitsFor w len ≤ grown (st z).alloc ((len*8+w.size-1)%2^w.sizeBits/w.size)
  · rw [if_pos hroom,if_pos hroom]
    exact bind_ok _ (onDigits_ok (mpnRemoveTrailingZeros_written (halloc.symm ▸ hroom)))
  · rw [if_neg hroom,if_neg hroom]
    rfl

/-- The digits are counted by a word. -/
def BytesFit (w : DigSize) (len : ℕ) : Prop := len*8+w.size-1<2^w.sizeBits

/-- It is decided by comparing numbers. -/
instance (w : DigSize) (len : ℕ) : Decidable (BytesFit w len) :=
  inferInstanceAs (Decidable (len*8+w.size-1<2^w.sizeBits))

/-- The number the bytes stand for is stored. -/
theorem mpzSetFromBytes_result (hw : ByteDigits w) (hfixed : (st z).fixedDig=false)
    (hfit : BytesFit w len) :
    ∃ st',mpzSetFromBytes w st z bigEndian len buf=.ok st'∧
      Result w st z (valueOf buf bigEndian len) st' := by
  have hneed : (len*8+w.size-1)%2^w.sizeBits/w.size=digitsFor w len := by
    rw [mod_eq_of_lt hfit,digitsFor]
  have hroom := need_le_grown (st z).alloc (digitsFor w len)
  have hrun := @mpzSetFromBytes_run w st z len bigEndian buf hw hfixed
  rw [hneed,if_pos hroom] at hrun
  refine ⟨_,hrun,?_⟩
  have hbase := w.base_pos
  have htrim := trim_le (digitAt w.base (valueOf buf bigEndian len)) (digitsFor w len)
  have hbelow : ∀ t < trim (digitAt w.base (valueOf buf bigEndian len)) (digitsFor w len),
      (if t < digitsFor w len then digitAt w.base (valueOf buf bigEndian len) t
        else (st z).dig t)=digitAt w.base (valueOf buf bigEndian len) t := fun t ht =>
    if_pos (ht.trans_le htrim)
  have hself : setLen (written (setNeg (grow st z (digitsFor w len)) z false) z
      (digitsFor w len) (digitAt w.base (valueOf buf bigEndian len))) z
      (trim (digitAt w.base (valueOf buf bigEndian len)) (digitsFor w len)) z={
        neg := false
        fixedDig := (st z).fixedDig
        alloc := grown (st z).alloc (digitsFor w len)
        len := trim (digitAt w.base (valueOf buf bigEndian len)) (digitsFor w len)
        dig := fun t => if t < digitsFor w len then
          digitAt w.base (valueOf buf bigEndian len) t else (st z).dig t } := by
    rw [setLen,update_self,written,setDig_self,setNeg,update_self,grow_self]
  refine ⟨?_,?_,fun a ha => ?_⟩
  · rw [hself]
    refine ⟨htrim.trans hroom,fun t ht => ?_,fun n hn => ?_⟩
    · change (if t < digitsFor w len then _ else _) < w.base
      rw [hbelow t ht]
      exact digitAt_lt hbase _ t
    · change (if n < digitsFor w len then _ else _)≠0
      have hn' : trim (digitAt w.base (valueOf buf bigEndian len)) (digitsFor w len)=n+1 := hn
      rw [hbelow n (by omega)]
      exact trim_top _ hn
  · rw [hself]
    change ((value w.base _ _ : ℕ) : ℤ)=_
    rw [value_congr hbelow,value_trim,value_digitAt,mod_eq_of_lt (valueOf_lt hw)]
  · rw [setLen,update_of_ne ha,written_of_ne _ _ _ ha,setNeg,update_of_ne ha,grow_of_ne _ _ ha]

/-- More bytes than a word counts the bits of are stored past the digits of a new object. -/
theorem mpzSetFromBytes_fails (hw : ByteDigits w) (hbits : 16 ≤ w.sizeBits)
    (hfixed : (st z).fixedDig=false) (halloc : (st z).alloc=0) (hfit : ¬BytesFit w len) :
    mpzSetFromBytes w st z bigEndian len buf=.error (.mpz .digits) := by
  have hdvd : ∃ c,2^w.sizeBits=w.size*c∧3 ≤ c := by
    have hpow : 2^w.sizeBits=32*2^(w.sizeBits-5) := by
      rw [show 32=2^5 from rfl,←pow_add,Nat.add_sub_cancel' (by omega)]
    have hlow : 2^11 ≤ 2^(w.sizeBits-5) := Nat.pow_le_pow_right (by decide) (by omega)
    rcases hw with h | h | h
    · exact ⟨4*2^(w.sizeBits-5),by rw [hpow,h]; omega,by omega⟩
    · exact ⟨2*2^(w.sizeBits-5),by rw [hpow,h]; omega,by omega⟩
    · exact ⟨2^(w.sizeBits-5),by rw [hpow,h],by omega⟩
  obtain ⟨c,hc,hthree⟩ := hdvd
  have hneed : (len*8+w.size-1)%2^w.sizeBits/w.size < c := by
    refine Nat.div_lt_of_lt_mul ?_
    rw [←hc]
    exact mod_lt _ (Nat.two_pow_pos _)
  have hcount : c ≤ digitsFor w len := by
    rw [digitsFor,le_div_iff_mul_le w.pos,Nat.mul_comm,←hc]
    exact not_lt.mp hfit
  have hsmall : ¬digitsFor w len ≤ grown (st z).alloc ((len*8+w.size-1)%2^w.sizeBits/w.size) := by
    rw [halloc,grown,atLeastMin,minAlloc]
    split <;> split <;> omega
  rw [mpzSetFromBytes_run hw hfixed,if_neg hsmall]

end NewInt

section RoundTrip

variable {w : DigSize} {st : Store} {self : IntObj} {z v len : ℕ} {bigEndian little : Bool}

/-- An integer stands for a number. -/
def Holds (w : DigSize) (st : Store) : IntObj→ℕ→Prop
  | .small value,v => value=v∧v ≤ smallIntMax w
  | .mpz z,v => Normal w (st z)∧toInt w (st z)=v

/-- An integer has digits in an object. -/
def HasDigits (st : Store) : IntObj→Prop
  | .small _ => False
  | .mpz z => (st z).len≠0

/-- The bytes are those of the number. -/
theorem bytesOf_eq (bigEndian : Bool) (len v i : ℕ) : bytesOf bigEndian len v i=
      if i < len then UInt8.ofNat (digitAt 256 v (placeOf bigEndian len i)) else 0 := by
  rw [bytesOf,filled]
  exact if_congr ⟨And.left,fun h => ⟨h,placeOf_lt _ h⟩⟩ rfl rfl

/-- The bytes stand for the number when they are enough. -/
theorem valueOf_bytesOf (h : v < 256^len) : valueOf (bytesOf bigEndian len v) bigEndian len=v := by
  have hbyte : ∀ s < len,byteOf (bytesOf bigEndian len v) bigEndian len s=digitAt 256 v s :=
    fun s hs => by
      rw [byteOf,bytesOf_eq,if_pos (placeOf_lt _ hs),placeOf_placeOf _ hs,UInt8.toNat_ofNat']
      exact mod_eq_of_lt (digitAt_lt (by decide) v s)
  rw [valueOf,value_congr hbyte,value_digitAt,mod_eq_of_lt h]

/-- The bytes of an integer are written unless there are digits and no room at all. -/
theorem intToBytes_eq (hw : ByteDigits w) (hword : w.sizeBits=8*(w.sizeBits/8))
    (hv : Holds w st self v) :
    (¬(len=0∧HasDigits st self) →
      intToBytes w little st self len bigEndian=.ok (bytesOf bigEndian len v))∧
    (len=0∧HasDigits st self → intToBytes w little st self len bigEndian=.error .outside) := by
  rw [intToBytes,if_neg (Int.not_lt.mpr (Int.natCast_nonneg len)),Int.toNat_natCast]
  cases self with
  | small value =>
    obtain ⟨hvalue,hmax⟩ := hv
    have hlt : v < 2^w.sizeBits := by
      have hle : 2^(w.sizeBits-2) ≤ 2^w.sizeBits := Nat.pow_le_pow_right (by decide) (by omega)
      have hpos : 0 < 2^(w.sizeBits-2) := Nat.two_pow_pos _
      rw [smallIntMax] at hmax
      omega
    rw [hvalue]
    exact ⟨fun _ => mpBinarySetInt_eq hword hlt,fun h => h.2.elim⟩
  | mpz a =>
    obtain ⟨hnormal,hvalue⟩ := hv
    have hmag : mag w (st a)=v∧((st a).len≠0 → (st a).neg=false) := by
      rw [toInt] at hvalue
      split at hvalue
      case isTrue hneg =>
        have hzero : mag w (st a)=0 := by omega
        refine ⟨by omega,fun hlen => ?_⟩
        obtain ⟨n,hn⟩ := exists_eq_succ_of_ne_zero hlen
        have hle := @le_value w.base (st a).dig n (hnormal.top n hn)
        have hpos := @Nat.pow_pos w.base n w.base_pos
        rw [mag,hn] at hzero
        change value w.base (st a).dig (n+1)=0 at hzero
        omega
      case isFalse hneg => exact ⟨by omega,fun _ => Bool.eq_false_of_not_eq_true hneg⟩
    refine ⟨fun h => ?_,fun h => ?_⟩
    · by_cases hlen : (st a).len=0
      · have hzero : v=0 := by rw [←hmag.1,mag,hlen,value_zero]
        have hdata : (fun _ => 0)=bytesOf bigEndian len v := by
          funext i
          rw [bytesOf_eq,hzero,digitAt,Nat.zero_div]
          split <;> rfl
        rw [←hdata]
        dsimp only
        rw [mpzAsBytes,hlen]
        rfl
      · have hpos : 0 < len := pos_of_ne_zero fun hzero => h ⟨hzero,hlen⟩
        rw [←hmag.1]
        exact mpzAsBytes_eq hw hnormal (hmag.2 hlen) hpos
    · rw [h.1]
      dsimp only
      rw [mpzAsBytes_empty hw hnormal,if_neg h.2]

/-- The number the bytes stand for is read, unless it needs more digits than a word counts the
bits of. -/
theorem intFromBytes_eq (hw : ByteDigits w) (hbits : 16 ≤ w.sizeBits) {buf : ℕ→UInt8}
    (hv : valueOf buf bigEndian len=v) :
    (v ≤ smallIntMax w∨BytesFit w len → ∃ r st',
      intFromBytes w st z buf len bigEndian=.ok (r,st')∧Holds w st' r v∧∀ a≠z,st' a=st a)∧
    (¬(v ≤ smallIntMax w∨BytesFit w len) →
      intFromBytes w st z buf len bigEndian=.error (.mpz .digits)) := by
  have hlt : valueOf buf bigEndian len < 256^len := value_lt fun s _ => byteOf_lt s
  have hgather := @gatherValue_eq w len bigEndian buf hbits len (le_refl len) (by
    rw [div_eq_of_lt hlt]
    exact zero_le _)
  have hstart : (if bigEndian then (len : ℤ)-len else len-1)=
      if bigEndian then 0 else (len : ℤ)-1 := by split <;> omega
  rw [div_eq_of_lt hlt,hstart,hv] at hgather
  have hself : Function.update st z mpzInitZero z=mpzInitZero := update_self ..
  have hfixed : (Function.update st z mpzInitZero z).fixedDig=false := by rw [hself]; rfl
  rw [intFromBytes,bind_ok _ hgather]
  by_cases hsmall : v ≤ smallIntMax w
  · rw [if_pos hsmall]
    dsimp only
    rw [mpObjNewIntFromUint,if_pos hsmall]
    exact ⟨fun _ => ⟨_,_,rfl,⟨rfl,hsmall⟩,fun _ _ => rfl⟩,fun h => absurd (.inl hsmall) h⟩
  · rw [if_neg hsmall]
    dsimp only
    refine ⟨fun h => ?_,fun h => ?_⟩
    · obtain ⟨st',hrun,hresult⟩ := @mpzSetFromBytes_result w (Function.update st z mpzInitZero) z
        len bigEndian buf hw hfixed (h.resolve_left hsmall)
      rw [hv] at hresult
      exact ⟨_,_,bind_ok _ hrun,⟨hresult.normal,hresult.exact⟩,fun a ha =>
        (hresult.frame a ha).trans (update_of_ne ha ..)⟩
    · rw [mpzSetFromBytes_fails hw hbits hfixed (by rw [hself]; rfl) fun hfit => h (.inr hfit)]
      rfl

/-- A conversion of an integer to bytes and back into a new object. -/
structure Conversion (w : DigSize) where
  /-- The objects. -/
  store : Store
  self : IntObj
  /-- The number it stands for. -/
  v : ℕ
  len : ℕ
  /-- The order of the bytes. -/
  bigEndian : Bool
  /-- The order of the bytes of a word of the machine. -/
  little : Bool
  /-- The address of the new object. -/
  z : ℕ
  /-- The integer stands for the number. -/
  holds : Holds w store self v
  digits : ByteDigits w
  /-- A word is of whole bytes. -/
  whole : w.sizeBits=8*(w.sizeBits/8)
  /-- A word has two bytes at least. -/
  wide : 16 ≤ w.sizeBits

variable (o : Conversion w)

/-- `int.to_bytes` fills the bytes of the result with the low bytes of the number and writes
nothing else. -/
def Conversion.Writes : Prop :=
  ∃ data,intToBytes w o.little o.store o.self o.len o.bigEndian=.ok data∧
    ∀ i,data i=if i < o.len then UInt8.ofNat (digitAt 256 o.v (placeOf o.bigEndian o.len i))
      else 0

/-- `int.from_bytes` reads the number from the bytes when they are enough. -/
def Conversion.ReadsBack : Prop :=
  o.v < 256^o.len → ∀ data,intToBytes w o.little o.store o.self o.len o.bigEndian=.ok data →
    ∃ r st',intFromBytes w o.store o.z data o.len o.bigEndian=.ok (r,st')∧Holds w st' r o.v∧
      ∀ a≠o.z,st' a=o.store a

/-- Integers go through bytes exactly when no digits are written to an empty buffer and the
bits of a number that is no small integer are counted by a word. -/
theorem bytes_exact_iff : o.Writes∧o.ReadsBack↔ ¬(o.len=0∧HasDigits o.store o.self)∧
        (o.v < 256^o.len → o.v ≤ smallIntMax w∨BytesFit w o.len) := by
  obtain ⟨hwrites,hfails⟩ := @intToBytes_eq w o.store o.self o.v o.len o.bigEndian o.little
    o.digits o.whole o.holds
  refine ⟨fun h => ?_,fun h => ?_⟩
  · obtain ⟨⟨data,hrun,-⟩,hback⟩ := h
    have hroom : ¬(o.len=0∧HasDigits o.store o.self) := fun hempty => by
      rw [hfails hempty] at hrun
      cases hrun
    refine ⟨hroom,fun hv => Decidable.byContradiction fun hlarge => ?_⟩
    obtain ⟨r,st',hread,-⟩ := hback hv _ (hwrites hroom)
    have hfault := (@intFromBytes_eq w o.store o.z o.v o.len o.bigEndian o.digits o.wide _
      (valueOf_bytesOf hv)).2 hlarge
    rw [hfault] at hread
    cases hread
  · refine ⟨⟨_,hwrites h.1,bytesOf_eq o.bigEndian o.len o.v⟩,fun hv data hrun => ?_⟩
    have hdata : bytesOf o.bigEndian o.len o.v=data :=
      Except.ok.inj ((hwrites h.1).symm.trans hrun)
    rw [←hdata]
    exact (intFromBytes_eq o.digits o.wide (valueOf_bytesOf hv)).1 (h.2 hv)

/-- The digits of `1<<32`. -/
def twoTo32 : Mpz where
  neg := false
  fixedDig := false
  alloc := 3
  len := 3
  dig := fun t => if t=2 then 1 else 0

/-- The number `1<<32` and no bytes. -/
def twoTo32Empty (bigEndian : Bool) : Conversion size16 where
  store := fun _ => twoTo32
  self := .mpz 0
  v := 2^32
  len := 0
  bigEndian := bigEndian
  little := true
  z := 1
  holds := ⟨⟨by decide,by decide,fun n hn => by rw [←Nat.succ.inj hn]; decide⟩,by decide⟩
  digits := .inr (.inl rfl)
  whole := by decide
  wide := by decide

/-- In either order of bytes a byte is written outside of the empty result. -/
theorem twoTo32_outside : (∀ bigEndian,
        intToBytes size16 true (fun _ => twoTo32) (.mpz 0) (0 : ℕ) bigEndian=.error .outside)∧
      ¬∀ (w : DigSize) (o : Conversion w),o.Writes∧o.ReadsBack := by
  have hfault : ∀ bigEndian,intToBytes size16 true (fun _ => twoTo32) (.mpz 0) (0 : ℕ) bigEndian=
      .error .outside := fun bigEndian =>
    (@intToBytes_eq size16 (fun _ => twoTo32) (.mpz 0) (2^32) 0 bigEndian true
      (.inr (.inl rfl)) (by decide) (twoTo32Empty bigEndian).holds).2 ⟨rfl,show 3≠0 by decide⟩
  refine ⟨hfault,fun h => ?_⟩
  obtain ⟨⟨data,hrun,-⟩,-⟩ := h size16 (twoTo32Empty true)
  cases (hfault true).symm.trans hrun

end RoundTrip

end MicroPython.IntBytes
