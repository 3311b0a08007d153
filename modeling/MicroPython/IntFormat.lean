import MicroPython.MpzFromStr
import MicroPython.IntBytes
import Mathlib.Data.Nat.Digits.Lemmas

/-!
# Integers as text in any base

`mp_obj_int_formatted` writes the digits of a small integer from the end of a buffer downwards.
`mpz_as_str_inpl` divides the digits of any other integer again and again, writes the remainders
from the start of the buffer on and turns the text around. Both insert a comma after three
digits.
-/

namespace MicroPython.IntFormat

open Function List Positional MpzDigits MpzArith MpzBitwise MpzFromStr IntBytes

/-- How an integer is written. -/
structure Format where
  base : ℕ
  /-- The characters in front of the digits, none for a null pointer. -/
  lead : List UInt8
  /-- The letter for the digit ten. -/
  baseChar : UInt8
  /-- The character between groups of digits, or zero. -/
  comma : UInt8

/-- `log_base2_floor`. -/
def logBase2Floor : List ℕ := [0,1,1,2,2,2,2,3,3,3,3,3,3,3,3,4]

/-- `mp_int_format_size`. -/
def mpIntFormatSize (numBits : ℕ) (f : Format) : ℕ :=
  let numDigits := numBits/logBase2Floor.getD (f.base-1) 0+1
  let numCommas := if f.comma≠0 then numDigits/3 else 0
  numDigits+numCommas+f.lead.length+2

/-- A character is written to a buffer, if it is inside of it. -/
def putChar (str : ℕ→UInt8) (size p : ℕ) (c : UInt8) : Option (ℕ→UInt8) :=
  if p < size then some (Function.update str p c) else none

/-- Characters are written one after another. -/
def putChars (size : ℕ) : ℕ→List UInt8→(ℕ→UInt8)→Option (ℕ→UInt8)
  | _,[],str => some str
  | p,c::cs,str => do
    let str ← putChar str size p c
    putChars size (p+1) cs str

/-- The character of a digit in `mp_obj_int_formatted`. -/
def digitChar (f : Format) (c : ℕ) : UInt8 :=
  if 10 ≤ c then UInt8.ofNat (c+f.baseChar.toNat-10) else UInt8.ofNat (c+48)

/-- The loop over the digits in `mp_obj_int_formatted`: the place of the last character that is
written. -/
def smallLoop (f : Format) (size : ℕ) : ℕ→ℕ→ℕ→(ℕ→UInt8)→Option (ℕ×(ℕ→UInt8))
  | 0,_,_,_ => none
  | b+1,num,lastComma,str => do
    let str ← putChar str size b (digitChar f (num%f.base))
    let num := num/f.base
    if f.comma≠0∧num≠0∧0 < b∧lastComma-b=3 then
      match b with
      | 0 => none
      | b+1 => do
        let str ← putChar str size b f.comma
        if 0 < b∧num≠0 then smallLoop f size b num b str else some (b,str)
    else if 0 < b∧num≠0 then smallLoop f size b num lastComma str
    else some (b,str)

/-- The digits in `mp_obj_int_formatted`. -/
def putNum (f : Format) (size num b : ℕ) (str : ℕ→UInt8) : Option (ℕ×(ℕ→UInt8)) :=
  if num=0 then do
    let str ← putChar str size (b-1) 48
    some (b-1,str)
  else smallLoop f size b num b str

/-- The characters in front of the digits in `mp_obj_int_formatted`. -/
def putLead (f : Format) (size b : ℕ) (str : ℕ→UInt8) : Option (ℕ×(ℕ→UInt8)) :=
  if f.lead.length < b then do
    let str ← putChars size (b-f.lead.length) f.lead str
    some (b-f.lead.length,str)
  else some (b,str)

/-- The sign in `mp_obj_int_formatted`. -/
def putSign (neg : Bool) (size b : ℕ) (str : ℕ→UInt8) : Option (ℕ×(ℕ→UInt8)) :=
  if neg=true∧0 < b then do
    let str ← putChar str size (b-1) 45
    some (b-1,str)
  else some (b,str)

/-- `mp_obj_int_formatted` for a small integer: the place of the first character, the length of
the text and the buffer. -/
def mpObjIntFormatted (w : DigSize) (f : Format) (num : ℤ) (bufSize : ℕ) (buf : ℕ→UInt8) :
    Option (ℕ×ℕ×(ℕ→UInt8)) := do
  let neededSize := mpIntFormatSize w.sizeBits f
  -- a buffer that is too small is replaced by a new one
  let size := if bufSize < neededSize then neededSize else bufSize
  let str ← putChar buf size (neededSize-1) 0
  let r ← putNum f size num.natAbs (neededSize-1) str
  let r ← putLead f size r.1 r.2
  let r ← putSign (decide (num < 0)) size r.1 r.2
  some (r.1,neededSize-r.1-1,r.2)

/-- The digits divided by the base from the top, with what remains. -/
def divDigits (w : DigSize) (base : ℕ) : ℕ→ℕ→(ℕ→ℕ)→ℕ×(ℕ→ℕ)
  | 0,a,dig => (a,dig)
  | d+1,a,dig =>
    let a := w.dbl (a<<<w.size)|||dig d
    divDigits w base d (a%base) (Function.update dig d (a/base))

/-- All the digits are zero. -/
def allZero (dig : ℕ→ℕ) : ℕ→Bool
  | 0 => true
  | n+1 => if dig n≠0 then false else allZero dig n

/-- The character of a digit in `mpz_as_str_inpl`. -/
def mpzDigitChar (f : Format) (a : ℕ) : UInt8 :=
  if 57 < a+48 then UInt8.ofNat (a+48+f.baseChar.toNat-57-1) else UInt8.ofNat (a+48)

/-- The loop of `mpz_as_str_inpl`, with the bytes of the buffer that are left: the end of the
text. -/
def strLoop (w : DigSize) (f : Format) (ilen : ℕ) : ℕ→ℕ→ℕ→(ℕ→ℕ)→(ℕ→UInt8)→Option (ℕ×(ℕ→UInt8))
  | 0,_,_,_,_ => none
  | room+1,s,lastComma,dig,str =>
    let r := divDigits w f.base ilen 0 dig
    let str := Function.update str s (mpzDigitChar f r.1)
    let done := allZero r.2 ilen
    if f.comma≠0∧s+1-lastComma=3 then
      match room with
      | 0 => none
      | room+1 =>
        let str := Function.update str (s+1) f.comma
        if done then some (s+2,str) else strLoop w f ilen room (s+2) (s+2) r.2 str
    else if done then some (s+1,str)
    else strLoop w f ilen room (s+1) lastComma r.2 str

/-- One turn of the loop, while the buffer has room. -/
theorem strLoop_succ (w : DigSize) (f : Format) (ilen room s lastComma : ℕ) (dig : ℕ→ℕ)
    (str : ℕ→UInt8) :
    strLoop w f ilen (room+1) s lastComma dig str=
      let r := divDigits w f.base ilen 0 dig
      let str := Function.update str s (mpzDigitChar f r.1)
      let done := allZero r.2 ilen
      if f.comma≠0∧s+1-lastComma=3 then
        match room with
        | 0 => none
        | room+1 =>
          let str := Function.update str (s+1) f.comma
          if done then some (s+2,str) else strLoop w f ilen room (s+2) (s+2) r.2 str
      else if done then some (s+1,str)
      else strLoop w f ilen room (s+1) lastComma r.2 str := by
  cases room <;> rfl

/-- The characters from one place to another turned around. -/
def reverseChars : ℕ→ℕ→(ℕ→UInt8)→ℕ→UInt8
  | _,0,str => str
  | u,v+1,str =>
    if u < v+1 then
      reverseChars (u+1) v (Function.update (Function.update str u (str (v+1))) (v+1) (str u))
    else str

/-- The sign in `mpz_as_str_inpl`. -/
def putSignUp (neg : Bool) (size s : ℕ) (str : ℕ→UInt8) : Option (ℕ×(ℕ→UInt8)) :=
  if neg then do
    let str ← putChar str size s 45
    some (s+1,str)
  else some (s,str)

/-- `mpz_as_str_inpl` for a buffer of a size: the length of the text and the buffer. -/
def mpzAsStrInpl (w : DigSize) (z : Mpz) (f : Format) (size : ℕ) (str : ℕ→UInt8) :
    Option (ℕ×(ℕ→UInt8)) :=
  if f.base < 2∨32 < f.base then do
    let str ← putChar str size 0 0
    some (0,str)
  else if z.len=0 then do
    let str ← putChars size 0 f.lead str
    let str ← putChar str size f.lead.length 48
    let str ← putChar str size (f.lead.length+1) 0
    some (f.lead.length+1,str)
  else do
    let r ← strLoop w f z.len size 0 0 z.dig str
    let str ← putChars size r.1 f.lead.reverse r.2
    let r ← putSignUp z.neg size (r.1+f.lead.length) str
    let str ← putChar (reverseChars 0 (r.1-1) r.2) size r.1 0
    some (r.1,str)

/-- `mp_obj_int_formatted_impl`: the length of the text and the buffer. -/
def mpObjIntFormattedImpl (w : DigSize) (z : Mpz) (f : Format) (bufSize : ℕ) (buf : ℕ→UInt8) :
    Option (ℕ×(ℕ→UInt8)) :=
  let neededSize := mpIntFormatSize (z.len*w.size) f
  mpzAsStrInpl w z f (if bufSize < neededSize then neededSize else bufSize) buf

section Buffers

variable {str : ℕ→UInt8} {size : ℕ}

/-- The characters of a buffer from a place on. -/
def chars (str : ℕ→UInt8) (start n : ℕ) : List UInt8 := (List.range n).map fun i => str (start+i)

/-- A buffer with characters from a place on. -/
def upFrom : ℕ→List UInt8→(ℕ→UInt8)→ℕ→UInt8
  | _,[],str => str
  | p,c::cs,str => upFrom (p+1) cs (Function.update str p c)

/-- A buffer with characters below a place, the first one on top. -/
def downFrom : ℕ→List UInt8→(ℕ→UInt8)→ℕ→UInt8
  | _,[],str => str
  | p,c::cs,str => downFrom (p-1) cs (Function.update str (p-1) c)

theorem length_chars (str : ℕ→UInt8) (start n : ℕ) : (chars str start n).length=n := by
  rw [chars,length_map,length_range]

theorem getElem_chars {start n i : ℕ} (h : i < (chars str start n).length) :
    (chars str start n)[i]=str (start+i) := by
  simp only [chars,getElem_map,getElem_range]

theorem chars_congr {str' : ℕ→UInt8} {start n : ℕ}
    (h : ∀ i,start ≤ i → i < start+n → str i=str' i) : chars str start n=chars str' start n :=
  map_congr_left fun i hi => h _ (by omega) (by
    have hlt := mem_range.mp hi
    omega)

/-- The characters of two parts. -/
theorem chars_append (str : ℕ→UInt8) (start m n : ℕ) :
    chars str start (m+n)=chars str start m++chars str (start+m) n := by
  rw [chars,chars,chars,range_add,map_append,map_map]
  simp only [comp_def,Nat.add_assoc]

theorem chars_one (str : ℕ→UInt8) (start : ℕ) : chars str start 1=[str start] := rfl

variable (cs : List UInt8) (f : Format)

/-- Characters from a place on leave those below it. -/
theorem upFrom_below {p i : ℕ} (h : i < p) : upFrom p cs str i=str i := by
  induction cs generalizing p str with
  | nil => rfl
  | cons c cs ih =>
    rw [upFrom,ih (Nat.lt_succ_of_lt h)]
    exact update_of_ne h.ne ..

/-- The characters that are written from a place on. -/
theorem chars_upFrom (p : ℕ) (str : ℕ→UInt8) :
    chars (upFrom p cs str) p cs.length=cs := by
  induction cs generalizing p str with
  | nil => rfl
  | cons c cs ih =>
    have hfirst : upFrom (p+1) cs (Function.update str p c) p=c := by
      rw [upFrom_below cs (Nat.lt_succ_self p)]
      exact update_self ..
    rw [length_cons,Nat.add_comm,chars_append,chars_one,upFrom,hfirst,ih]
    rfl

/-- Characters written one after another. -/
theorem upFrom_append (cs ds : List UInt8) (p : ℕ) (str : ℕ→UInt8) :
    upFrom p (cs++ds) str=upFrom (p+cs.length) ds (upFrom p cs str) := by
  induction cs generalizing p str with
  | nil => rfl
  | cons c cs ih =>
    rw [cons_append,upFrom,upFrom,ih,length_cons,show p+1+cs.length=p+(cs.length+1) by
      omega]

/-- Characters below a place leave those from it on. -/
theorem downFrom_above {p i : ℕ} (hp : cs.length ≤ p) (h : p ≤ i) :
    downFrom p cs str i=str i := by
  induction cs generalizing p str with
  | nil => rfl
  | cons c cs ih =>
    rw [length_cons] at hp
    rw [downFrom,ih (by omega) (by omega)]
    exact update_of_ne (by omega) ..

/-- The characters that are written below a place. -/
theorem chars_downFrom {p : ℕ} (hp : cs.length ≤ p) (str : ℕ→UInt8) :
    chars (downFrom p cs str) (p-cs.length) cs.length=cs.reverse := by
  induction cs generalizing p str with
  | nil => rfl
  | cons c cs ih =>
    rw [length_cons] at hp ⊢
    have hfirst : downFrom (p-1) cs (Function.update str (p-1) c) (p-1)=c := by
      rw [downFrom_above cs (by omega) (Nat.le_refl _)]
      exact update_self ..
    rw [chars_append,chars_one,downFrom,show p-(cs.length+1)+cs.length=p-1 by omega,hfirst,
      show p-(cs.length+1)=p-1-cs.length by omega,ih (by omega),reverse_cons]

/-- Characters that fit a buffer are written. -/
theorem putChars_eq {p : ℕ} (h : p+cs.length ≤ size) (str : ℕ→UInt8) :
    putChars size p cs str=some (upFrom p cs str) := by
  induction cs generalizing p str with
  | nil => rfl
  | cons c cs ih =>
    rw [length_cons] at h
    rw [putChars,putChar,if_pos (by omega)]
    exact ih (by omega) _

/-- A turned part of a buffer. -/
theorem reverseChars_eq {u v : ℕ} (h : u ≤ v+1) (str : ℕ→UInt8) (i : ℕ) :
    reverseChars u v str i=if u ≤ i∧i ≤ v then str (u+v-i) else str i := by
  induction v generalizing u str with
  | zero =>
    rw [reverseChars]
    split
    case isTrue hi => rw [show u+0-i=i by omega]
    case isFalse => rfl
  | succ v ih =>
    rw [reverseChars]
    by_cases huv : u < v+1
    · rw [if_pos huv,ih (by omega)]
      by_cases hu : i=u
      · rw [if_neg (by omega),if_pos (by omega),hu,update_of_ne (by omega),
          update_self,show u+(v+1)-u=v+1 by omega]
      · by_cases hv : i=v+1
        · rw [if_neg (by omega),if_pos (by omega),hv,update_self,show u+(v+1)-(v+1)=u by omega]
        · by_cases hi : u+1 ≤ i∧i ≤ v
          · rw [if_pos hi,if_pos (by omega),update_of_ne (by omega),
              update_of_ne (by omega),show u+1+v-i=u+(v+1)-i by omega]
          · rw [if_neg hi,if_neg (by omega),update_of_ne hv,update_of_ne hu]
    · rw [if_neg huv]
      split
      case isTrue hi => rw [show u+(v+1)-i=i by omega]
      case isFalse => rfl

/-- The text turned around. -/
theorem chars_reverse (str : ℕ→UInt8) (n : ℕ) :
    chars (reverseChars 0 (n-1) str) 0 n=(chars str 0 n).reverse := by
  refine ext_getElem ?_ fun i hi _ => ?_
  · rw [length_reverse,length_chars,length_chars]
  · rw [length_chars] at hi
    rw [getElem_reverse,getElem_chars,getElem_chars,reverseChars_eq (by omega),
      if_pos (by omega)]
    simp only [length_chars]
    rw [show 0+(n-1)-(0+i)=0+(n-1-i) by omega]

end Buffers

section Digits

variable {w : DigSize} {f : Format}

/-- The digits of a number as they are written, the lowest one first, with a comma after three
of them. Without `last` no comma follows the last digit. -/
def withCommas (f : Format) (last : Bool) : ℕ→List ℕ→List UInt8
  | _,[] => []
  | k,d::ds =>
    digitChar f d::
      if f.comma≠0∧k=2∧(last=true∨ds≠[]) then f.comma::withCommas f last 0 ds
      else withCommas f last (k+1) ds

theorem mpzDigitChar_eq (a : ℕ) : mpzDigitChar f a=digitChar f a := by
  rw [mpzDigitChar,digitChar]
  refine if_ctx_congr (by omega) (fun h => ?_) fun _ => rfl
  rw [show a+48+f.baseChar.toNat-57-1=a+f.baseChar.toNat-10 by omega]

theorem withCommas_plain (h : f.comma=0) (last : Bool) (k : ℕ) (ds : List ℕ) :
    withCommas f last k ds=ds.map (digitChar f) := by
  induction ds generalizing k with
  | nil => rfl
  | cons d ds ih => rw [withCommas,if_neg (fun hcomma => hcomma.1 h),ih,map_cons]

/-- At most one character in four is a comma. -/
theorem length_withCommas_le (last : Bool) (ds : List ℕ) {k : ℕ} (hk : k ≤ 2) :
    (withCommas f last k ds).length ≤ ds.length+if f.comma≠0 then (k+ds.length)/3 else 0 := by
  by_cases hcomma : f.comma≠0
  · rw [if_pos hcomma]
    induction ds generalizing k with
    | nil => exact Nat.zero_le _
    | cons d ds ih =>
      rw [withCommas,length_cons,length_cons]
      split
      case isTrue h =>
        have hrest := @ih 0 (by omega)
        rw [length_cons]
        omega
      case isFalse h =>
        by_cases hk2 : k=2
        · have hnil : ds=[] := Decidable.not_not.mp fun hds => h ⟨hcomma,hk2,.inr hds⟩
          rw [hnil]
          exact Nat.le_add_right 1 _
        · have hrest := @ih (k+1) (by omega)
          omega
  · rw [withCommas_plain (Decidable.not_not.mp hcomma),length_map]
    exact Nat.le_add_right ..

theorem withCommas_comma {last : Bool} {k d : ℕ} {ds : List ℕ}
    (h : f.comma≠0∧k=2∧(last=true∨ds≠[])) :
    withCommas f last k (d::ds)=digitChar f d::f.comma::withCommas f last 0 ds := by
  rw [withCommas,if_pos h]

theorem withCommas_digit {last : Bool} {k d : ℕ} {ds : List ℕ}
    (h : ¬(f.comma≠0∧k=2∧(last=true∨ds≠[]))) :
    withCommas f last k (d::ds)=digitChar f d::withCommas f last (k+1) ds := by
  rw [withCommas,if_neg h]

/-- The last comma is the only difference between the texts. -/
theorem withCommas_last (f : Format) (ds : List ℕ) {k : ℕ} (hk : k ≤ 2) :
    withCommas f true k ds=withCommas f false k ds++
      if f.comma≠0∧ds≠[]∧(k+ds.length)%3=0 then [f.comma] else [] := by
  by_cases hcomma : f.comma≠0
  · induction ds generalizing k with
    | nil =>
      rw [if_neg (fun h => h.2.1 rfl)]
      rfl
    | cons d ds ih =>
      have hiff : ∀ j ≤ 2,(j+ds.length)%3=(k+(d::ds).length)%3 → (ds=[] → j≠0) →
          ((f.comma≠0∧ds≠[]∧(j+ds.length)%3=0)↔
            f.comma≠0∧d::ds≠[]∧(k+(d::ds).length)%3=0) := fun j hj hmod hnil => by
        refine ⟨fun h => ⟨h.1,cons_ne_nil d ds,by omega⟩,fun h => ⟨h.1,fun hds => ?_,by omega⟩⟩
        have hne := hnil hds
        rw [←hmod,hds,length_nil] at h
        omega
      by_cases hk2 : k=2
      · rw [withCommas_comma ⟨hcomma,hk2,.inl rfl⟩,ih (by omega)]
        by_cases hds : ds=[]
        · have hno : ¬(f.comma≠0∧k=2∧(false=true∨ds≠[])) := fun h =>
            h.2.2.elim Bool.false_ne_true fun hne => hne hds
          have hlength : (d::ds).length=1 := by rw [hds]; rfl
          have hend : f.comma≠0∧d::ds≠[]∧(k+(d::ds).length)%3=0 :=
            ⟨hcomma,cons_ne_nil d ds,by omega⟩
          rw [withCommas_digit hno,if_pos hend,hds,if_neg (fun h => h.2.1 rfl)]
          rfl
        · rw [withCommas_comma ⟨hcomma,hk2,.inr hds⟩,cons_append,cons_append,
            if_congr (hiff 0 (by omega) (by rw [length_cons]; omega)
              fun h => absurd h hds) rfl rfl]
      · rw [withCommas_digit (fun h => hk2 h.2.1),withCommas_digit (fun h => hk2 h.2.1),
          ih (by omega),cons_append,if_congr (hiff (k+1) (by omega) (by
            rw [length_cons]
            omega) fun _ => Nat.succ_ne_zero k) rfl rfl]
  · have hzero : f.comma=0 := Decidable.not_not.mp hcomma
    rw [withCommas_plain hzero,withCommas_plain hzero,if_neg (fun h => h.1 hzero),append_nil]

/-- The loop for a small integer writes the digits below the end of the buffer. -/
theorem smallLoop_eq {size : ℕ} (hbase : 2 ≤ f.base) {num : ℕ} (hnum : 0 < num) {b k : ℕ}
    {str : ℕ→UInt8} (hb : (withCommas f false k (f.base.digits num)).length < b)
    (hsize : b ≤ size) :
    smallLoop f size b num (b+k) str=some (b-(withCommas f false k (f.base.digits num)).length,
        downFrom b (withCommas f false k (f.base.digits num)) str) := by
  induction num using Nat.strongRecOn generalizing b k str with
  | ind num ih =>
    have hdigits : f.base.digits num=num%f.base::f.base.digits (num/f.base) :=
      Nat.digits_def' (by omega) hnum
    rw [hdigits] at hb ⊢
    cases b with
    | zero => exact absurd hb (Nat.not_lt_zero _)
    | succ b =>
      rw [smallLoop,putChar,if_pos (by omega)]
      dsimp only [bind,Option.bind]
      by_cases hlast : num/f.base=0
      · have hno : ¬(f.comma≠0∧k=2∧(false=true∨f.base.digits (num/f.base)≠[])) := fun h =>
          h.2.2.elim Bool.false_ne_true fun hne => hne (by rw [hlast,Nat.digits_zero])
        rw [withCommas_digit hno,hlast,if_neg (fun h => h.2.1 rfl),if_neg (fun h => h.2 rfl),
          Nat.digits_zero]
        rfl
      · have hmore : f.base.digits (num/f.base)≠[] := Nat.digits_ne_nil_iff_ne_zero.mpr hlast
        have hless : num/f.base < num := Nat.div_lt_self hnum (by omega)
        by_cases hcomma : f.comma≠0∧k=2
        · rw [withCommas_comma ⟨hcomma.1,hcomma.2,.inr hmore⟩] at hb ⊢
          rw [length_cons,length_cons] at hb ⊢
          rw [if_pos ⟨hcomma.1,hlast,by omega,by omega⟩]
          cases b with
          | zero => omega
          | succ b =>
            have hrest := @ih (num/f.base) hless (Nat.pos_of_ne_zero hlast) b 0
              (Function.update (Function.update str (b+1) (digitChar f (num%f.base))) b f.comma)
              (by omega) (by omega)
            dsimp only
            rw [putChar,if_pos (by omega)]
            dsimp only
            rw [if_pos ⟨by omega,hlast⟩]
            rw [Nat.add_zero] at hrest
            rw [hrest,show b+1+1-((withCommas f false 0 (f.base.digits (num/f.base))).length+1+1)=
              b-(withCommas f false 0 (f.base.digits (num/f.base))).length by omega]
            rfl
        · have hno : ¬(f.comma≠0∧k=2∧(false=true∨f.base.digits (num/f.base)≠[])) := fun h =>
            hcomma ⟨h.1,h.2.1⟩
          rw [withCommas_digit hno] at hb ⊢
          rw [length_cons] at hb ⊢
          have hrest := @ih (num/f.base) hless (Nat.pos_of_ne_zero hlast) b (k+1)
            (Function.update str b (digitChar f (num%f.base))) (by omega) (by omega)
          rw [if_neg (fun h => hcomma ⟨h.1,by omega⟩),if_pos ⟨by
            omega,hlast⟩,show b+1+k=b+(k+1) by omega,hrest,
            show b+1-((withCommas f false (k+1) (f.base.digits (num/f.base))).length+1)=
              b-(withCommas f false (k+1) (f.base.digits (num/f.base))).length by omega]
          rfl

/-- The digits divided by the base stand for the quotient. -/
theorem divDigits_eq {base : ℕ} (hpos : 0 < base) (hbase : base ≤ w.base) (n : ℕ) {a : ℕ}
    {dig : ℕ→ℕ} (ha : a < base) (hdig : ∀ t<n,dig t<w.base) :
    (divDigits w base n a dig).1=(a*w.base^n+value w.base dig n)%base∧
      value w.base (divDigits w base n a dig).2 n=(a*w.base^n+value w.base dig n)/base∧
      (∀ t<n,(divDigits w base n a dig).2 t<w.base)∧
      ∀ t,n ≤ t → (divDigits w base n a dig).2 t=dig t := by
  induction n generalizing a dig with
  | zero =>
    rw [divDigits,pow_zero,Nat.mul_one,value_zero,Nat.add_zero,Nat.mod_eq_of_lt ha,
      Nat.div_eq_of_lt ha]
    exact ⟨rfl,rfl,fun t ht => absurd ht (Nat.not_lt_zero t),fun _ _ => rfl⟩
  | succ n ih =>
    have hlow : dig n<w.base := hdig n (Nat.lt_succ_self n)
    have hfits : a*w.base+dig n < base*w.base := by
      have hle : (a+1)*w.base ≤ base*w.base := Nat.mul_le_mul_right _ ha
      rw [Nat.add_mul,Nat.one_mul] at hle
      omega
    have hnext : w.dbl (a<<<w.size)|||dig n=a*w.base+dig n := by
      have hsquare : base*w.base ≤ w.base*w.base := Nat.mul_le_mul_right _ hbase
      rw [Nat.shiftLeft_eq,←DigSize.base,w.dbl_of_lt (by omega),Nat.mul_comm a]
      exact (Nat.two_pow_add_eq_or_of_lt hlow a).symm
    have hkeep : ∀ t<n,Function.update dig n ((a*w.base+dig n)/base) t=dig t := fun t ht =>
      update_of_ne ht.ne ..
    obtain ⟨hrem,hquo,hlt,habove⟩ := @ih ((a*w.base+dig n)%base)
      (Function.update dig n ((a*w.base+dig n)/base)) (Nat.mod_lt _ hpos) fun t ht => by
        rw [hkeep t ht]
        exact hdig t (Nat.lt_succ_of_lt ht)
    rw [value_congr hkeep] at hrem hquo
    have hsum : a*w.base^(n+1)+value w.base dig (n+1)=base*((a*w.base+dig n)/base*w.base^n)+
          ((a*w.base+dig n)%base*w.base^n+value w.base dig n) := by
      have hdiv := Nat.div_add_mod (a*w.base+dig n) base
      have hmul : (a*w.base+dig n)*w.base^n=
          base*((a*w.base+dig n)/base*w.base^n)+(a*w.base+dig n)%base*w.base^n := by
        rw [←Nat.mul_assoc,←Nat.add_mul,hdiv]
      rw [Nat.add_mul,Nat.mul_assoc,←pow_succ'] at hmul
      rw [value_succ]
      omega
    have htop : (divDigits w base n ((a*w.base+dig n)%base)
        (Function.update dig n ((a*w.base+dig n)/base))).2 n=(a*w.base+dig n)/base := by
      rw [habove n (Nat.le_refl n),update_self]
    rw [divDigits,hnext,hsum,Nat.mul_add_mod,Nat.mul_add_div hpos,value_succ,htop,hquo]
    refine ⟨hrem,Nat.add_comm ..,fun t ht => ?_,fun t ht => ?_⟩
    · rcases Nat.lt_succ_iff_lt_or_eq.mp ht with ht | ht
      · exact hlt t ht
      · rw [ht,htop]
        exact Nat.div_lt_of_lt_mul hfits
    · rw [habove t (by omega),update_of_ne (by omega)]

theorem allZero_eq {B : ℕ} (hB : 0 < B) (dig : ℕ→ℕ) (n : ℕ) :
    allZero dig n=decide (value B dig n=0) := by
  induction n with
  | zero => rfl
  | succ n ih =>
    have hpow : 0 < B^n := Nat.pow_pos hB
    rw [allZero,value_succ]
    split
    case isTrue hne =>
      have hmul := Nat.mul_pos (Nat.pos_of_ne_zero hne) hpow
      exact (decide_eq_false (by omega)).symm
    case isFalse hzero => rw [ih,Decidable.not_not.mp hzero,Nat.zero_mul,Nat.add_zero]

/-- The loop for a long integer writes the digits from the start of the buffer on. -/
theorem strLoop_eq (hbase : 2 ≤ f.base) (hle : f.base ≤ w.base) {ilen v : ℕ} (hv : 0 < v)
    {room k lastComma : ℕ} {dig : ℕ→ℕ} {str : ℕ→UInt8} (hdig : ∀ t < ilen,dig t<w.base)
    (hvalue : value w.base dig ilen=v)
    (hroom : (withCommas f true k (f.base.digits v)).length ≤ room) :
    strLoop w f ilen room (lastComma+k) lastComma dig str=
      some (lastComma+k+(withCommas f true k (f.base.digits v)).length,
        upFrom (lastComma+k) (withCommas f true k (f.base.digits v)) str) := by
  induction v using Nat.strongRecOn generalizing room k lastComma dig str with
  | ind v ih =>
    have hdigits : f.base.digits v=v%f.base::f.base.digits (v/f.base) :=
      Nat.digits_def' (by omega) hv
    obtain ⟨hrem,hquo,hlt,-⟩ := divDigits_eq (by omega : 0 < f.base) hle ilen
      (by omega : 0 < f.base) hdig
    rw [Nat.zero_mul,Nat.zero_add,hvalue] at hrem hquo
    have hless : v/f.base < v := Nat.div_lt_self hv (by omega)
    have hdone : allZero (divDigits w f.base ilen 0 dig).2 ilen=decide (v/f.base=0) := by
      rw [allZero_eq w.base_pos,hquo]
    rw [hdigits] at hroom ⊢
    cases room with
    | zero =>
      rw [withCommas,length_cons] at hroom
      exact absurd hroom (Nat.not_succ_le_zero _)
    | succ room =>
      rw [strLoop_succ]
      dsimp only
      rw [hdone,hrem,mpzDigitChar_eq]
      by_cases hcomma : f.comma≠0∧k=2
      · rw [withCommas_comma ⟨hcomma.1,hcomma.2,.inl rfl⟩] at hroom ⊢
        rw [length_cons,length_cons] at hroom ⊢
        rw [if_pos ⟨hcomma.1,by omega⟩]
        cases room with
        | zero => exact absurd hroom (by omega)
        | succ room =>
          dsimp only
          by_cases hlast : v/f.base=0
          · rw [if_pos (decide_eq_true hlast),hlast,Nat.digits_zero]
            rfl
          · have hrest := @ih (v/f.base) hless (Nat.pos_of_ne_zero hlast) room 0 (lastComma+k+2)
              (divDigits w f.base ilen 0 dig).2
              (Function.update (Function.update str (lastComma+k) (digitChar f (v%f.base)))
                (lastComma+k+1) f.comma) hlt hquo (by omega)
            rw [Nat.add_zero] at hrest
            rw [if_neg (by rw [decide_eq_false hlast]; exact Bool.false_ne_true),hrest,
              show lastComma+k+2+(withCommas f true 0 (f.base.digits (v/f.base))).length=
                lastComma+k+((withCommas f true 0 (f.base.digits (v/f.base))).length+1+1) by omega]
            rfl
      · rw [withCommas_digit (fun h => hcomma ⟨h.1,h.2.1⟩)] at hroom ⊢
        rw [length_cons] at hroom ⊢
        rw [if_neg (fun h => hcomma ⟨h.1,by omega⟩)]
        by_cases hlast : v/f.base=0
        · rw [if_pos (decide_eq_true hlast),hlast,Nat.digits_zero]
          rfl
        · have hrest := @ih (v/f.base) hless (Nat.pos_of_ne_zero hlast) room (k+1) lastComma
            (divDigits w f.base ilen 0 dig).2
            (Function.update str (lastComma+k) (digitChar f (v%f.base))) hlt hquo (by omega)
          rw [if_neg (by rw [decide_eq_false hlast]; exact Bool.false_ne_true),
            show lastComma+k+1=lastComma+(k+1) by omega,hrest,
            show lastComma+(k+1)+(withCommas f true (k+1) (f.base.digits (v/f.base))).length=
              lastComma+k+((withCommas f true (k+1) (f.base.digits (v/f.base))).length+1) by omega]
          rfl

end Digits

section Texts

variable {w : DigSize} {f : Format}

/-- The digits of a number with the commas, the most significant digit first. With `last` a
comma follows the last digit of a full group too, which puts it in front. -/
def bodyText (f : Format) (last : Bool) (n : ℕ) : List UInt8 :=
  if n=0 then [48] else (withCommas f last 0 (f.base.digits n)).reverse

/-- The sign of an integer. -/
def signText (neg : Bool) : List UInt8 := if neg then [45] else []

/-- The text of an integer. -/
def formatText (f : Format) (last neg : Bool) (n : ℕ) : List UInt8 :=
  signText neg++f.lead++bodyText f last n

theorem length_signText_le (neg : Bool) : (signText neg).length ≤ 1 := by
  cases neg
  · exact Nat.zero_le 1
  · exact Nat.le_refl 1

/-- Characters above those that are written. -/
theorem upFrom_above (cs : List UInt8) {p i : ℕ} (h : p+cs.length ≤ i) (str : ℕ→UInt8) :
    upFrom p cs str i=str i := by
  induction cs generalizing p str with
  | nil => rfl
  | cons c cs ih =>
    rw [length_cons] at h
    rw [upFrom,ih (by omega)]
    exact update_of_ne (by omega) ..

section

variable (hlow : 2 ≤ f.base) (hhigh : f.base ≤ 16)
include hlow hhigh

theorem logBase2Floor_eq :
    0 < logBase2Floor.getD (f.base-1) 0∧2^logBase2Floor.getD (f.base-1) 0 ≤ f.base := by
  generalize f.base=base at hlow hhigh ⊢
  interval_cases base <;> decide

/-- The digits are as many as the format size counts. -/
theorem length_digits_le {n bits : ℕ} (hn : n≠0)
    (hbits : n<2^bits) :
    (f.base.digits n).length ≤ bits/logBase2Floor.getD (f.base-1) 0+1 := by
  obtain ⟨hpos,hpow⟩ := logBase2Floor_eq hlow hhigh
  have hlog : f.base^Nat.log f.base n ≤ n := Nat.pow_log_le_self f.base hn
  have hle : 2^(logBase2Floor.getD (f.base-1) 0*Nat.log f.base n) ≤ n := by
    rw [pow_mul]
    exact (Nat.pow_le_pow_left hpow _).trans hlog
  have hexp := (Nat.pow_lt_pow_iff_right (by decide : 1<2)).mp (hle.trans_lt hbits)
  rw [Nat.length_digits f.base n (by omega) hn,Nat.succ_le_succ_iff,Nat.le_div_iff_mul_le hpos,
    Nat.mul_comm]
  exact hexp.le

/-- The digits leave room for a sign and a terminator in the format size. -/
theorem length_bodyText_le (last : Bool)
    {n bits : ℕ} (hbits : n<2^bits) :
    (bodyText f last n).length+f.lead.length+2 ≤ mpIntFormatSize bits f := by
  rw [bodyText,mpIntFormatSize]
  by_cases hn : n=0
  · rw [if_pos hn,length_singleton]
    generalize bits/logBase2Floor.getD (f.base-1) 0=q
    omega
  · have hdigits := length_digits_le hlow hhigh hn hbits
    have hcommas := @length_withCommas_le f last (f.base.digits n) 0 (by omega)
    rw [if_neg hn,length_reverse]
    generalize bits/logBase2Floor.getD (f.base-1) 0=q at hdigits ⊢
    by_cases hcomma : f.comma≠0
    · rw [if_pos hcomma] at hcommas ⊢
      omega
    · rw [if_neg hcomma] at hcommas ⊢
      omega

theorem length_formatText_le (last neg : Bool)
    {n bits : ℕ} (hbits : n<2^bits) :
    (formatText f last neg n).length+1 ≤ mpIntFormatSize bits f := by
  have hbody := length_bodyText_le hlow hhigh last hbits
  have hsign := length_signText_le neg
  rw [formatText,length_append,length_append]
  omega

end

/-- The text of the small-integer path: its characters in the buffer. -/
def smallText (w : DigSize) (f : Format) (num : ℤ) (bufSize : ℕ) (buf : ℕ→UInt8) :
    Option (List UInt8) :=
  (mpObjIntFormatted w f num bufSize buf).map fun r => chars r.2.2 r.1 r.2.1

/-- The text of the other path. -/
def mpzText (w : DigSize) (z : Mpz) (f : Format) (bufSize : ℕ) (buf : ℕ→UInt8) :
    Option (List UInt8) :=
  (mpObjIntFormattedImpl w z f bufSize buf).map fun r => chars r.2 0 r.1

/-- The digits are written below a place. -/
theorem putNum_eq (hbase : 2 ≤ f.base) {size num b : ℕ} (hsize : b ≤ size) (str : ℕ→UInt8)
    (hb : (bodyText f false num).length < b) :
    ∃ str',putNum f size num b str=some (b-(bodyText f false num).length,str')∧
      chars str' (b-(bodyText f false num).length) (bodyText f false num).length=
        bodyText f false num := by
  rw [putNum]
  by_cases hnum : num=0
  · have hbody : bodyText f false num=[48] := if_pos hnum
    rw [hbody,length_singleton] at hb ⊢
    rw [if_pos hnum,putChar,if_pos (by omega)]
    refine ⟨_,rfl,?_⟩
    rw [chars_one,update_self]
  · have hbody : bodyText f false num=(withCommas f false 0 (f.base.digits num)).reverse :=
      if_neg hnum
    rw [hbody,length_reverse] at hb ⊢
    rw [if_neg hnum]
    exact ⟨_,smallLoop_eq hbase (Nat.pos_of_ne_zero hnum) (k := 0) hb hsize,
      chars_downFrom _ hb.le str⟩

theorem chars_upFrom_cons (str : ℕ→UInt8) {b : ℕ} {cs text : List UInt8} (hb : cs.length ≤ b)
    (htext : chars str b text.length=text) :
    chars (upFrom (b-cs.length) cs str) (b-cs.length) (cs++text).length=cs++text := by
  have habove : chars (upFrom (b-cs.length) cs str) b text.length=chars str b text.length :=
    chars_congr fun i hi _ => upFrom_above cs (by omega) str
  rw [length_append,chars_append,chars_upFrom,show b-cs.length+cs.length=b by omega,habove,htext]

theorem putLead_eq {size b : ℕ} (hb : f.lead.length < b) (hsize : b ≤ size) (str : ℕ→UInt8) :
    putLead f size b str=some (b-f.lead.length,upFrom (b-f.lead.length) f.lead str) := by
  rw [putLead,if_pos hb,putChars_eq f.lead (by omega)]
  rfl

/-- The sign is written when there is room for it. -/
theorem putSign_eq (neg : Bool) {size b : ℕ} (hb : 0 < b) (hsize : b ≤ size) (str : ℕ→UInt8) :
    putSign neg size b str=some (b-(signText neg).length,
      upFrom (b-(signText neg).length) (signText neg) str) := by
  cases neg with
  | false => exact if_neg fun h => Bool.false_ne_true h.1
  | true =>
    rw [putSign,if_pos ⟨rfl,hb⟩,putChar,if_pos (by omega)]
    rfl

/-- The text of a small integer ends at its terminator. -/
theorem smallText_eq (hlow : 2 ≤ f.base) (hhigh : f.base ≤ 16) {num : ℤ}
    (hnum : num.natAbs<2^w.sizeBits) (bufSize : ℕ) (buf : ℕ→UInt8) :
    smallText w f num bufSize buf=some (formatText f false (decide (num < 0)) num.natAbs) := by
  have hfits := length_bodyText_le hlow hhigh false hnum
  have hsign := length_signText_le (decide (num < 0))
  obtain ⟨size,hsize⟩ : ∃ size,(if bufSize < mpIntFormatSize w.sizeBits f then
      mpIntFormatSize w.sizeBits f else bufSize)=size := ⟨_,rfl⟩
  have hroom : mpIntFormatSize w.sizeBits f ≤ size := by
    rw [←hsize]
    split <;> omega
  obtain ⟨str,hrun,hchars⟩ := @putNum_eq f hlow size num.natAbs
    (mpIntFormatSize w.sizeBits f-1) (by omega)
    (Function.update buf (mpIntFormatSize w.sizeBits f-1) 0) (by omega)
  have hlead := @chars_upFrom_cons str _ f.lead _ (by omega) hchars
  have hall := @chars_upFrom_cons _ _ (signText (decide (num < 0))) _ (by omega) hlead
  rw [smallText,mpObjIntFormatted]
  dsimp only [bind]
  rw [hsize,putChar,if_pos (by omega)]
  dsimp only [Option.bind]
  rw [hrun]
  dsimp only
  rw [putLead_eq (by omega) (by omega)]
  dsimp only
  rw [putSign_eq _ (by omega) (by omega)]
  dsimp only
  rw [Option.map_some,formatText,append_assoc]
  refine congrArg some (Eq.trans ?_ hall)
  rw [length_append,length_append]
  dsimp only
  congr 1
  omega

theorem chars_terminated (cs : List UInt8) (buf : ℕ→UInt8) (c : UInt8) :
    chars (Function.update (upFrom 0 cs buf) cs.length c) 0 cs.length=cs := by
  have hsame := chars_upFrom cs 0 buf
  refine Eq.trans (chars_congr fun i _ hi => ?_) hsame
  exact update_of_ne (by omega) ..

theorem chars_reversed (cs : List UInt8) (buf : ℕ→UInt8) (c : UInt8) :
    chars (Function.update (reverseChars 0 (cs.length-1) (upFrom 0 cs buf)) cs.length c) 0
      cs.length=cs.reverse := by
  have hturned := chars_reverse (upFrom 0 cs buf) cs.length
  rw [chars_upFrom] at hturned
  refine Eq.trans (chars_congr fun i _ hi => ?_) hturned
  exact update_of_ne (by omega) ..

/-- The sign behind the characters that are turned around. -/
theorem putSignUp_eq (neg : Bool) {size s : ℕ} (hs : s < size) (str : ℕ→UInt8) :
    putSignUp neg size s str=some (s+(signText neg).length,upFrom s (signText neg) str) := by
  cases neg with
  | false => rfl
  | true =>
    rw [putSignUp,if_pos rfl,putChar,if_pos hs]
    rfl

/-- A sign turned around. -/
theorem signText_reverse (neg : Bool) : (signText neg).reverse=signText neg := by
  cases neg <;> rfl

/-- The text of a long integer ends at its terminator. -/
theorem mpzText_eq (hlow : 2 ≤ f.base) (hhigh : f.base ≤ 16) {z : Mpz} (hsize : 4 ≤ w.size)
    (hz : Normal w z) (bufSize : ℕ) (buf : ℕ→UInt8) :
    mpzText w z f bufSize buf=some (formatText f true (decide (toInt w z < 0)) (mag w z)) := by
  have hmag : mag w z<2^(z.len*w.size) := by
    have hlt := hz.digits.value_lt
    rw [DigSize.base,←pow_mul,Nat.mul_comm] at hlt
    exact hlt
  have hfits := length_bodyText_le hlow hhigh true hmag
  obtain ⟨size,hroom⟩ : ∃ size,(if bufSize < mpIntFormatSize (z.len*w.size) f then
      mpIntFormatSize (z.len*w.size) f else bufSize)=size := ⟨_,rfl⟩
  have hle : mpIntFormatSize (z.len*w.size) f ≤ size := by
    rw [←hroom]
    split <;> omega
  have hbase : f.base ≤ w.base := by
    have hpow : 2^4 ≤ w.base := Nat.pow_le_pow_right (by decide) hsize
    omega
  rw [mpzText,mpObjIntFormattedImpl,hroom,mpzAsStrInpl,if_neg (by omega)]
  by_cases hlen : z.len=0
  · have hzero : mag w z=0 := by rw [mag,hlen,value_zero]
    have hsign : ¬toInt w z < 0 := by
      rw [toInt,hzero]
      split <;> omega
    have hbody : bodyText f true (mag w z)=[48] := if_pos hzero
    have hchars := chars_terminated (f.lead++[48]) buf 0
    rw [hbody,length_singleton] at hfits
    rw [upFrom_append,length_append,length_singleton,Nat.zero_add] at hchars
    rw [if_pos hlen,formatText,hbody,decide_eq_false hsign]
    dsimp only [bind]
    rw [putChars_eq f.lead (by omega)]
    dsimp only [Option.bind]
    rw [putChar,if_pos (by omega)]
    dsimp only
    rw [putChar,if_pos (by omega)]
    exact congrArg some hchars
  · obtain ⟨n,hn⟩ := Nat.exists_eq_succ_of_ne_zero hlen
    have hpos : 0 < mag w z := by
      have hpow : 0 < w.base^n := Nat.pow_pos w.base_pos
      have htop := @le_value w.base z.dig n (hz.top n hn)
      rw [mag,hn]
      exact hpow.trans_le htop
    have hsign : decide (toInt w z < 0)=z.neg := by
      rw [toInt]
      cases z.neg with
      | false => exact decide_eq_false (by rw [if_neg Bool.false_ne_true]; omega)
      | true => exact decide_eq_true (by rw [if_pos rfl]; omega)
    have hbody : bodyText f true (mag w z)=
        (withCommas f true 0 (f.base.digits (mag w z))).reverse := if_neg hpos.ne'
    have hsignle := length_signText_le z.neg
    rw [hbody,length_reverse] at hfits
    have hloop := @strLoop_eq w f hlow hbase z.len (mag w z) hpos size 0 0 z.dig buf hz.lt rfl
      (by omega)
    have hchars := chars_reversed (withCommas f true 0 (f.base.digits (mag w z))++
      (f.lead.reverse++signText z.neg)) buf 0
    rw [upFrom_append,upFrom_append,length_append,length_append,length_reverse,
      reverse_append,reverse_append,reverse_reverse,signText_reverse,
      Nat.zero_add] at hchars
    rw [Nat.zero_add,Nat.zero_add] at hloop
    rw [if_neg hlen,formatText,hbody,hsign]
    dsimp only [bind]
    rw [hloop]
    dsimp only [Option.bind]
    rw [putChars_eq f.lead.reverse (by rw [length_reverse]; omega)]
    dsimp only
    rw [putSignUp_eq z.neg (by omega)]
    dsimp only
    rw [putChar,if_pos (by omega)]
    rw [Nat.add_assoc]
    exact congrArg some hchars

end Texts

section Statement

variable {w : DigSize} {f : Format}

/-- The digits of a number, the most significant one first. -/
def digitsDown (base n : ℕ) : List ℕ := if n=0 then [0] else (base.digits n).reverse

/-- The format without the characters in front and without commas. -/
def Format.plain (f : Format) : Format := {f with
  lead := []
  comma := 0 }

/-- Without commas the text consists of the digits. -/
theorem formatText_plain (last neg : Bool) (n : ℕ) :
    formatText f.plain last neg n=signText neg++(digitsDown f.base n).map (digitChar f) := by
  have hbody : bodyText f.plain last n=(digitsDown f.base n).map (digitChar f) := by
    rw [bodyText,digitsDown]
    split
    case isTrue => rfl
    case isFalse =>
      rw [withCommas_plain rfl,map_reverse]
      rfl
  rw [formatText,hbody]
  change signText neg++[]++_=_
  rw [append_nil]

theorem digitsDown_lt {base : ℕ} (hbase : 2 ≤ base) (n : ℕ) : ∀ d∈digitsDown base n,d < base := by
  intro d hd
  rw [digitsDown] at hd
  split at hd
  case isTrue =>
    rw [mem_singleton.mp hd]
    omega
  case isFalse => exact Nat.digits_lt_base hbase (mem_reverse.mp hd)

/-- The digits stand for the number. -/
theorem readValue_digitsDown (base n : ℕ) : readValue base 0 (digitsDown base n)=n := by
  rw [digitsDown,readValue]
  split
  case isTrue hn =>
    rw [hn]
    exact Nat.zero_mul _
  case isFalse =>
    have hfun : (fun d m => m*base+d : ℕ→ℕ→ℕ)=fun d m => d+base*m := by
      funext d m
      rw [Nat.add_comm,Nat.mul_comm]
    have hdigits := Nat.ofDigits_digits base n
    rw [Nat.ofDigits_eq_foldr] at hdigits
    rw [foldl_reverse,hfun]
    exact hdigits

/-- The character of a digit is read as the digit. -/
theorem digitOf_digitChar (hhigh : f.base ≤ 16)
    (hletter : 10 < f.base → f.baseChar=97∨f.baseChar=65) {d : ℕ} (hd : d < f.base) :
    digitOf (digitChar f d)=some d := by
  rw [digitChar]
  split
  case isTrue hten =>
    have hvalue : ∀ c,c=97∨c=65 → (UInt8.ofNat (d+c-10)).toNat=d+c-10 := fun c hc => by
      rw [UInt8.toNat_ofNat']
      exact Nat.mod_eq_of_lt (by rcases hc with hc | hc <;> omega)
    rcases hletter (by omega) with h | h
    · have htext := hvalue 97 (.inl rfl)
      rw [h,show (97 : UInt8).toNat=97 from rfl,digitOf,htext,if_neg (by omega),
        if_neg (by omega),if_pos (by omega)]
      exact congrArg some (by omega)
    · have htext := hvalue 65 (.inr rfl)
      rw [h,show (65 : UInt8).toNat=65 from rfl,digitOf,htext,if_neg (by omega),
        if_pos (by omega)]
      exact congrArg some (by omega)
  case isFalse hten =>
    have htext : (UInt8.ofNat (d+48)).toNat=d+48 := by
      rw [UInt8.toNat_ofNat']
      exact Nat.mod_eq_of_lt (by omega)
    rw [digitOf,htext,if_pos (by omega)]
    exact congrArg some (by omega)

/-- `MP_SMALL_INT_FITS`. -/
def IsSmall (w : DigSize) (n : ℤ) : Prop := -(smallIntMax w : ℤ)-1 ≤ n∧n ≤ smallIntMax w

/-- An integer with digits and how it is formatted: the base, the letters, what stands in front,
the buffer and the object the text is read back into. -/
structure Formatting (w : DigSize) where
  /-- How the integer is written. -/
  f : Format
  /-- The base is two at least. -/
  low : 2 ≤ f.base
  /-- The base is sixteen at most. -/
  high : f.base ≤ 16
  /-- Digits above nine are letters. -/
  letter : 10 < f.base → f.baseChar=97∨f.baseChar=65
  /-- The integer. -/
  z : Mpz
  normal : Normal w z
  bufSize : ℕ
  /-- What the buffer holds. -/
  buf : ℕ→UInt8
  /-- The objects. -/
  store : Store
  /-- The object the text is read into. -/
  dest : ℕ
  growing : (store dest).fixedDig=false
  /-- The base fits a digit. -/
  wide : 4 ≤ w.size
  /-- A machine word has bits. -/
  sizeBits_pos : 0 < w.sizeBits

variable (o : Formatting w)

/-- The two paths give the same text for an integer that both of them can have. -/
def Formatting.SameText : Prop :=
  IsSmall w (toInt w o.z) →
    smallText w o.f (toInt w o.z) o.bufSize o.buf=mpzText w o.z o.f o.bufSize o.buf

/-- The texts of both paths and their terminators fit the format size. -/
def Formatting.Fits : Prop :=
  (∃ text,mpzText w o.z o.f o.bufSize o.buf=some text∧
    text.length+1 ≤ mpIntFormatSize (o.z.len*w.size) o.f)∧
  (IsSmall w (toInt w o.z) → ∃ text,smallText w o.f (toInt w o.z) o.bufSize o.buf=some text∧
      text.length+1 ≤ mpIntFormatSize w.sizeBits o.f)

/-- The plain text of either path behind its sign is read back as the integer. -/
def Formatting.ReadsBack : Prop :=
  ∃ text,mpzText w o.z o.f.plain o.bufSize o.buf=some (signText (decide (toInt w o.z < 0))++text)∧
    (IsSmall w (toInt w o.z) → smallText w o.f.plain (toInt w o.z) o.bufSize o.buf=
      some (signText (decide (toInt w o.z < 0))++text))∧
    ∃ st',mpzSetFromStr w o.store o.dest text (decide (toInt w o.z < 0)) o.f.base=
        .ok (text.length,st')∧
      Result w o.store o.dest (toInt w o.z) st'

/-- An integer of both paths is written with commas and its digits fill the last group. -/
def Formatting.FullGroup : Prop :=
  IsSmall w (toInt w o.z)∧o.f.comma≠0∧toInt w o.z≠0∧
    (o.f.base.digits (toInt w o.z).natAbs).length%3=0

theorem natAbs_toInt (w : DigSize) (z : Mpz) : (toInt w z).natAbs=mag w z := by
  rw [toInt]
  split <;> omega

/-- A small integer fits a word. -/
theorem IsSmall.natAbs_lt {n : ℤ} (h : IsSmall w n) (hbits : 0 < w.sizeBits) :
    n.natAbs<2^w.sizeBits := by
  have hpow : 2^(w.sizeBits-2)<2^w.sizeBits := Nat.pow_lt_pow_right (by decide) (by omega)
  have hpos : 0<2^(w.sizeBits-2) := Nat.two_pow_pos _
  obtain ⟨hlow,hhigh⟩ := h
  rw [smallIntMax] at hlow hhigh
  omega

/-- The texts of the two paths are the same unless the digits fill the last group. -/
theorem formatText_last_iff (f : Format) (neg : Bool) (n : ℕ) :
    formatText f false neg n=formatText f true neg n↔
      ¬(f.comma≠0∧n≠0∧(f.base.digits n).length%3=0) := by
  rw [formatText,formatText,append_right_inj,bodyText,bodyText]
  by_cases hn : n=0
  · rw [if_pos hn,if_pos hn]
    exact ⟨fun _ h => h.2.1 hn,fun _ => rfl⟩
  · have hdigits : f.base.digits n≠[] := Nat.digits_ne_nil_iff_ne_zero.mpr hn
    rw [if_neg hn,if_neg hn,withCommas_last f _ (by omega : 0 ≤ 2),reverse_append,Nat.zero_add]
    by_cases hfull : f.comma≠0∧f.base.digits n≠[]∧(f.base.digits n).length%3=0
    · rw [if_pos hfull]
      refine ⟨fun h => ?_,fun h => absurd ⟨hfull.1,hn,hfull.2.2⟩ h⟩
      have hlength := congrArg List.length h
      rw [length_append,length_reverse,length_reverse,length_singleton] at hlength
      omega
    · rw [if_neg hfull]
      exact ⟨fun _ h => hfull ⟨h.1,hdigits,h.2.2⟩,fun _ => rfl⟩

/-- Both paths give the same text, which fits its buffer and is read back, exactly when no comma
is due behind the last digit. -/
theorem formatted_exact_iff : o.SameText∧o.Fits∧o.ReadsBack↔¬o.FullGroup := by
  have hmag := natAbs_toInt w o.z
  have hbits : mag w o.z<2^(o.z.len*w.size) := by
    have hlt := o.normal.digits.value_lt
    rw [DigSize.base,←pow_mul,Nat.mul_comm] at hlt
    exact hlt
  have hmpz := mpzText_eq o.low o.high o.wide o.normal o.bufSize o.buf
  have hsmall := fun h : IsSmall w (toInt w o.z) =>
    smallText_eq o.low o.high (h.natAbs_lt o.sizeBits_pos) o.bufSize o.buf
  have hfits : o.Fits := ⟨⟨_,hmpz,length_formatText_le o.low o.high _ _ hbits⟩,fun h =>
    ⟨_,hsmall h,length_formatText_le o.low o.high _ _ (h.natAbs_lt o.sizeBits_pos)⟩⟩
  have hreads : o.ReadsBack := by
    have hplain := @mpzText_eq w o.f.plain o.low o.high o.z o.wide o.normal o.bufSize o.buf
    have hplain' := fun h : IsSmall w (toInt w o.z) =>
      @smallText_eq w o.f.plain o.low o.high (toInt w o.z) (h.natAbs_lt o.sizeBits_pos) o.bufSize
        o.buf
    have hbase : o.f.base ≤ w.base := by
      have hpow : 2^4 ≤ w.base := Nat.pow_le_pow_right (by decide) o.wide
      have hhigh := o.high
      omega
    have hchars : ((digitsDown o.f.base (mag w o.z)).map (digitChar o.f)).map digitOf=
        (digitsDown o.f.base (mag w o.z)).map some := by
      rw [List.map_map]
      exact List.map_congr_left fun d hd =>
        digitOf_digitChar o.high o.letter (digitsDown_lt o.low _ d hd)
    obtain ⟨st',hrun,hresult⟩ := mpzSetFromStr_eq hchars (digitsDown_lt o.low _)
      (o.high.trans (by decide)) hbase o.growing (decide (toInt w o.z < 0))
    rw [formatText_plain] at hplain
    refine ⟨_,hplain,fun h => ?_,st',hrun,?_⟩
    · rw [hplain' h,formatText_plain,hmag]
    · rw [readValue_digitsDown] at hresult
      have hvalue : (if decide (toInt w o.z < 0) then -(mag w o.z : ℤ) else mag w o.z)=
          toInt w o.z := by
        by_cases hneg : toInt w o.z < 0
        · rw [if_pos (decide_eq_true hneg)]
          omega
        · rw [if_neg (by rw [decide_eq_false hneg]; exact Bool.false_ne_true)]
          omega
      rw [hvalue] at hresult
      exact hresult
  have hsame : o.SameText↔¬o.FullGroup := by
    refine ⟨fun h hfull => ?_,fun h hs => ?_⟩
    · have heq := h hfull.1
      rw [hsmall hfull.1,hmpz,←hmag] at heq
      exact (formatText_last_iff _ _ _).mp (Option.some.inj heq)
        ⟨hfull.2.1,Int.natAbs_ne_zero.mpr hfull.2.2.1,hfull.2.2.2⟩
    · rw [hsmall hs,hmpz,←hmag]
      refine congrArg some ((formatText_last_iff _ _ _).mpr fun hfull => h ?_)
      exact ⟨hs,hfull.1,Int.natAbs_ne_zero.mp hfull.2.1,hfull.2.2⟩
  exact ⟨fun h => hsame.mp h.1,fun h => ⟨hsame.mpr h,hfits,hreads⟩⟩

/-- The number 123 in decimal with commas. -/
def oneTwoThree : Formatting size16 where
  f := {
    base := 10
    lead := []
    baseChar := 97
    comma := 44 }
  low := by decide
  high := by decide
  letter := fun h => absurd h (by decide)
  z := small false 123
  normal := normal_small false (by decide)
  bufSize := 0
  buf := fun _ => 0
  store := fun _ => small false 0
  dest := 0
  growing := rfl
  wide := by decide
  sizeBits_pos := by decide

/-- A long integer 123 starts with a comma. -/
theorem oneTwoThree_comma : smallText size16 oneTwoThree.f 123 0 (fun _ => 0)=some [49,50,51]∧
      mpzText size16 (small false 123) oneTwoThree.f 0 (fun _ => 0)=some [44,49,50,51]∧
      ¬∀ (w : DigSize) (o : Formatting w),o.SameText∧o.Fits∧o.ReadsBack := by
  have htexts : smallText size16 oneTwoThree.f 123 0 (fun _ => 0)=some [49,50,51]∧
      mpzText size16 (small false 123) oneTwoThree.f 0 (fun _ => 0)=some [44,49,50,51] := by
    decide +kernel
  refine ⟨htexts.1,htexts.2,fun h => ?_⟩
  have hsame := (h size16 oneTwoThree).1 (by unfold IsSmall; decide)
  have hbad : some [49,50,51]=some [(44 : UInt8),49,50,51] :=
    htexts.1.symm.trans (hsame.trans htexts.2)
  exact absurd hbad (by decide)

end Statement

end MicroPython.IntFormat
