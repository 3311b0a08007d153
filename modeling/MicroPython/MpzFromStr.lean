import MicroPython.MpzBitwise

/-!
# Long integers from text

`mpz_set_from_str` reads digits of a base from the most significant one on and multiplies the
digits of the number it has so far with `mpn_mul_dig_add_dig`.
-/

namespace MicroPython.MpzFromStr

open Nat Function List Positional MpzDigits MpzArith MpzBitwise

/-- One digit of `mpn_mul_dig_add_dig`. -/
def mulAddDigit (w : DigSize) (i dmul : ℕ) (st : Store) (t carry : ℕ) : Except Fault (ℕ×ℕ) := do
  let d ← readDig st (.object i) t
  .ok (w.split (w.dbl (carry+w.dbl (d*dmul))))

/-- `mpn_mul_dig_add_dig`. -/
def mpnMulDigAddDig (w : DigSize) (st : Store) (i ilen dmul dadd : ℕ) : Except Fault (ℕ×Store) := do
  let r ← digitLoop i (mulAddDigit w i dmul) ilen 0 dadd st
  storeCarry r.2 i ilen r.1

/-- The value of a character as a digit, or nothing for other characters. -/
def digitOf (c : UInt8) : Option ℕ :=
  if 48 ≤ c.toNat∧c.toNat ≤ 57 then some (c.toNat-48)
  else if 65 ≤ c.toNat∧c.toNat ≤ 90 then some (c.toNat-(65-10))
  else if 97 ≤ c.toNat∧c.toNat ≤ 122 then some (c.toNat-(97-10))
  else none

/-- The loop of `mpz_set_from_str`: the characters it has read and the objects. -/
def readDigits (w : DigSize) (z base : ℕ) : List UInt8→ℕ→Store→Except Fault (ℕ×Store)
  | [],cur,st => .ok (cur,st)
  | c::str,cur,st =>
    match digitOf c with
    | none => .ok (cur,st)
    | some v =>
      if base ≤ v then .ok (cur,st)
      else do
        let r ← mpnMulDigAddDig w st z (st z).len base v
        readDigits w z base str (cur+1) (setLen r.2 z r.1)

/-- `mpz_set_from_str`. -/
def mpzSetFromStr (w : DigSize) (st : Store) (z : ℕ) (str : List UInt8) (neg : Bool)
    (base : ℕ) : Except Fault (ℕ×Store) :=
  if 36 < base then .error .assertion
  else do
    let st ← mpzNeedDig st z (str.length*8/w.size+1)
    readDigits w z base str 0 (setLen (setNeg st z neg) z 0)

section Digits

variable {w : DigSize} {st : Store} {i z : ℕ}

/-- `mpn_mul_dig_add_dig` leaves the product and the digit, when they fit. -/
theorem mpnMulDigAddDig_yields (hi : Normal w (st i)) {dmul dadd : ℕ} (hdadd : dadd<dmul)
    (hdmul : dmul ≤ w.base) (hroom : mag w (st i)*dmul+dadd<w.base^(st i).alloc) :
    Yields w st i (mpnMulDigAddDig w st i (st i).len dmul dadd) (mag w (st i)*dmul+dadd) := by
  have hbase := w.one_lt_base
  have hB : 0<w.base := zero_lt_of_lt hbase
  have hpos : 0<dmul := zero_lt_of_lt hdadd
  have hterm : ∀ t<(st i).len,∀ x<dmul,x+(st i).dig t*dmul<dmul*w.base := fun t ht x hx => by
    have hdig := hi.lt t ht
    have hle : ((st i).dig t+1)*dmul ≤ w.base*dmul := mul_le_mul_right _ hdig
    rw [add_mul,one_mul,mul_comm w.base] at hle
    omega
  have hcarry := carry_lt hdadd hterm
  have hvalue := value_carryDigit w.base (fun t => (st i).dig t*dmul) dadd (st i).len
  have hmag : value w.base (fun t => (st i).dig t*dmul) (st i).len=mag w (st i)*dmul := by
    have hswap : (fun t => (st i).dig t*dmul)=fun t => dmul*(st i).dig t := by
      funext t
      exact mul_comm ..
    rw [hswap,value_const_mul,mag,mul_comm]
  rw [hmag] at hvalue
  have hloop := @digitLoop_written _ st i (mulAddDigit w i dmul)
    (carryDigit w.base (fun t => (st i).dig t*dmul) dadd)
    (carry w.base (fun t => (st i).dig t*dmul) dadd) (st i).len 0 (fun t _ ht => by
      have hlt : t<(st i).len := by omega
      have hsum := hterm t hlt _ (hcarry t hlt.le)
      have hsquare : dmul*w.base ≤ w.base*w.base := mul_le_mul_right _ hdmul
      have hread : readDig (written st i t
          (carryDigit w.base (fun t => (st i).dig t*dmul) dadd)) (.object i) t=
            .ok ((st i).dig t) :=
        @readDig_written st i t t _ (.object i) (le_refl t) (hlt.trans_le hi.alloc)
      rw [mulAddDigit,bind_ok _ hread,w.dbl_of_lt (x := (st i).dig t*dmul) (by omega),
        w.dbl_of_lt (by omega),w.split_eq,carryDigit,carry])
    (by have halloc := hi.alloc; omega)
  rw [written_zero,zero_add] at hloop
  have hrun : digitLoop i (mulAddDigit w i dmul) (st i).len 0 dadd st=_ := hloop
  have hlow : ∀ t<(st i).len,carryDigit w.base (fun t => (st i).dig t*dmul) dadd t<w.base :=
    fun t _ => carryDigit_lt w.base _ dadd hB t
  have hlast := hcarry (st i).len (le_refl _)
  rw [mpnMulDigAddDig,bind_ok _ hrun,hvalue]
  rw [hvalue] at hroom
  by_cases hnone : carry w.base (fun t => (st i).dig t*dmul) dadd (st i).len=0
  · rw [hnone,zero_mul,add_zero] at hvalue ⊢
    refine yields_written rfl (le_refl _) hi.alloc ⟨hlow,fun m hm => ?_⟩
    -- Without a carry the product reaches the place of the top digit.
    have htop : w.base^m ≤ mag w (st i) := by
      rw [mag,hm]
      exact le_value (hi.top m hm)
    have hgrow : mag w (st i) ≤ mag w (st i)*dmul := Nat.le_mul_of_pos_right _ hpos
    rw [hm] at hvalue
    exact top_ne_zero (fun t _ => carryDigit_lt w.base _ dadd hB t) (by omega)
  · have hpow : w.base^(st i).len<w.base^(st i).alloc := by
      have hle := Nat.le_mul_of_pos_left (w.base^(st i).len) (Nat.pos_of_ne_zero hnone)
      omega
    refine storeCarry_written ?_ hlow (hlast.trans_le hdmul) fun hzero => absurd hzero hnone
    exact (Nat.pow_lt_pow_iff_right hbase).mp hpow

end Digits

section Text

variable {w : DigSize} {st : Store} {z base : ℕ}

/-- The number that digits stand for, the most significant one first, after digits read
before. -/
def readValue (base m : ℕ) (ds : List ℕ) : ℕ := ds.foldl (fun m d => m*base+d) m

/-- The number does not get smaller. -/
theorem le_readValue (hbase : 0<base) (ds : List ℕ) (m : ℕ) : m ≤ readValue base m ds := by
  induction ds generalizing m with
  | nil => exact le_refl m
  | cons d ds ih =>
    have hfirst : m ≤ m*base := Nat.le_mul_of_pos_right m hbase
    have hrest := ih (m*base+d)
    change m ≤ readValue base (m*base+d) ds
    omega

/-- The number is below the power of the count of digits. -/
theorem readValue_lt {ds : List ℕ} (hds : ∀ d∈ds,d<base) (m : ℕ) :
    readValue base m ds<(m+1)*base^ds.length := by
  induction ds generalizing m with
  | nil =>
    rw [length_nil,pow_zero,mul_one]
    exact lt_succ_self m
  | cons d ds ih =>
    have hd := hds d mem_cons_self
    have hrest := ih (fun x hx => hds x (mem_cons_of_mem _ hx)) (m*base+d)
    have hle : (m*base+d+1)*base^ds.length ≤ (m+1)*base^(d::ds).length := by
      rw [length_cons,pow_succ',←mul_assoc]
      refine mul_le_mul_right _ ?_
      rw [add_mul,one_mul]
      omega
    exact hrest.trans_le hle

/-- A text does not go on with a digit of the base. -/
def Stops (base : ℕ) (rest : List UInt8) : Prop :=
  ∀ c,rest.head?=some c→∀ v,digitOf c=some v→base ≤ v

/-- The loop stops where the text does not go on with a digit. -/
theorem readDigits_stops {rest : List UInt8} (h : Stops base rest) (cur : ℕ) :
    readDigits w z base rest cur st=.ok (cur,st) := by
  cases rest with
  | nil => rfl
  | cons c rest =>
    rw [readDigits]
    split
    case h_1 => rfl
    case h_2 v hv => rw [if_pos (h c rfl v hv)]

/-- The digits that a text starts with are read into the digits of the object. -/
theorem readDigits_eq {str rest : List UInt8} {ds : List ℕ}
    (hstr : str.map digitOf=ds.map some) (hds : ∀ d∈ds,d<base) (hrest : Stops base rest)
    (hbase : base ≤ w.base) (cur : ℕ) (hz : Normal w (st z))
    (hroom : readValue base (mag w (st z)) ds<w.base^(st z).alloc) :
    ∃ st',readDigits w z base (str++rest) cur st=.ok (cur+str.length,st')∧Normal w (st' z)∧
      mag w (st' z)=readValue base (mag w (st z)) ds∧(st' z).neg=(st z).neg∧
      ∀ a≠z,st' a=st a := by
  induction str generalizing ds cur st with
  | nil =>
    have hnil : ds=[] := map_eq_nil_iff.mp hstr.symm
    rw [hnil]
    exact ⟨st,readDigits_stops hrest cur,hz,rfl,rfl,fun _ _ => rfl⟩
  | cons c str ih =>
    cases ds with
    | nil => cases hstr
    | cons d ds =>
      obtain ⟨hfirst,hothers⟩ := List.cons.inj hstr
      have hd := hds d mem_cons_self
      have hle := le_readValue (zero_lt_of_lt hd) ds (mag w (st z)*base+d)
      change readValue base (mag w (st z)*base+d) ds<w.base^(st z).alloc at hroom
      obtain ⟨len,g,hrun,hlen,hg,hvalue⟩ := mpnMulDigAddDig_yields hz hd hbase (by omega)
      have hself : setLen (setDig st z g) z len z={st z with
          len := len
          dig := g} := by
        rw [setLen,update_self,setDig_self]
      have hnormal : Normal w (setLen (setDig st z g) z len z) := by
        rw [hself]
        exact ⟨hlen,hg.lt,hg.top⟩
      have hmag : mag w (setLen (setDig st z g) z len z)=mag w (st z)*base+d := by
        rw [hself]
        exact hvalue
      have halloc : (setLen (setDig st z g) z len z).alloc=(st z).alloc := by rw [hself]
      obtain ⟨st',hread,hnormal',hmag',hneg,hframe⟩ := @ih (setLen (setDig st z g) z len) ds hothers
        (fun x hx => hds x (mem_cons_of_mem _ hx)) (cur+1) hnormal (by
          rw [hmag,halloc]
          exact hroom)
      refine ⟨st',?_,hnormal',?_,?_,fun a ha => ?_⟩
      · rw [cons_append,readDigits,hfirst]
        dsimp only
        rw [if_neg (not_le.mpr hd),bind_ok _ hrun,length_cons,
          show cur+(str.length+1)=cur+1+str.length by omega]
        exact hread
      · rw [hmag',hmag]
        rfl
      · rw [hneg,hself]
      · rw [hframe a ha,setLen,update_of_ne ha,setDig_of_ne _ _ ha]

/-- The digits that a text starts with are read, up to where it does not go on with one. -/
theorem mpzSetFromStr_append {str rest : List UInt8} {ds : List ℕ}
    (hstr : str.map digitOf=ds.map some) (hds : ∀ d∈ds,d<base) (hrest : Stops base rest)
    (hbase : base ≤ 36) (hsize : base ≤ w.base) (hfixed : (st z).fixedDig=false) (neg : Bool) :
    ∃ st',mpzSetFromStr w st z (str++rest) neg base=.ok (str.length,st')∧
      Result w st z (if neg then -(readValue base 0 ds : ℤ) else readValue base 0 ds) st' := by
  obtain ⟨need,hneed⟩ : ∃ need,(str++rest).length*8/w.size+1=need := ⟨_,rfl⟩
  have hself : setLen (setNeg (grow st z need) z neg) z 0 z={st z with
      neg := neg
      alloc := grown (st z).alloc need
      len := 0 } := by
    rw [setLen,update_self,setNeg,update_self,grow_self]
  have hlength : ds.length ≤ (str++rest).length := by
    rw [←length_map (f := some),←hstr,length_map,length_append]
    exact le_add_right _ _
  have hnormal : Normal w (setLen (setNeg (grow st z need) z neg) z 0 z) := by
    rw [hself]
    exact ⟨zero_le _,fun t ht => absurd ht (not_lt_zero t),fun n hn =>
      absurd hn.symm (succ_ne_zero n)⟩
  have hmag : mag w (setLen (setNeg (grow st z need) z neg) z 0 z)=0 := by
    rw [hself]
    rfl
  have hroom : readValue base 0 ds<w.base^(grown (st z).alloc need) := by
    have hlt := readValue_lt hds 0
    have hpow : base^ds.length ≤ 2^((str++rest).length*8) :=
      calc base^ds.length ≤ (2^8)^ds.length := Nat.pow_le_pow_left (by omega) _
        _ = 2^(8*ds.length) := (pow_mul ..).symm
        _ ≤ 2^((str++rest).length*8) := Nat.pow_le_pow_right (by decide) (by omega)
    have hdigits : 2^((str++rest).length*8) ≤ w.base^need := by
      have hdiv := div_add_mod ((str++rest).length*8) w.size
      have hmod := mod_lt ((str++rest).length*8) w.pos
      rw [DigSize.base,←pow_mul,←hneed,mul_add,mul_one]
      exact Nat.pow_le_pow_right (by decide) (by omega)
    have hgrown := Nat.pow_le_pow_right w.base_pos (need_le_grown (st z).alloc need)
    omega
  obtain ⟨st',hread,hnormal',hmag',hneg,hframe⟩ := @readDigits_eq w
    (setLen (setNeg (grow st z need) z neg) z 0) z base str rest ds hstr hds hrest hsize
    0 hnormal (by
      rw [hmag,hself]
      exact hroom)
  rw [zero_add] at hread
  rw [hmag] at hmag'
  rw [hself] at hneg
  refine ⟨st',?_,hnormal',?_,fun a ha => ?_⟩
  · rw [mpzSetFromStr,if_neg (not_lt.mpr hbase),hneed,bind_ok _ (mpzNeedDig_eq hfixed)]
    exact hread
  · rw [toInt,hneg,hmag']
  · rw [hframe a ha,setLen,update_of_ne ha,setNeg,update_of_ne ha,grow_of_ne _ _ ha]

/-- A text that consists of digits is read to its end. -/
theorem mpzSetFromStr_eq {str : List UInt8} {ds : List ℕ} (hstr : str.map digitOf=ds.map some)
    (hds : ∀ d∈ds,d<base) (hbase : base ≤ 36) (hsize : base ≤ w.base)
    (hfixed : (st z).fixedDig=false) (neg : Bool) :
    ∃ st',mpzSetFromStr w st z str neg base=.ok (str.length,st')∧
      Result w st z (if neg then -(readValue base 0 ds : ℤ) else readValue base 0 ds) st' := by
  have h := @mpzSetFromStr_append w st z base str [] ds hstr hds
    (fun c hc => absurd hc.symm (Option.some_ne_none c)) hbase hsize hfixed neg
  rw [append_nil] at h
  exact h

end Text

end MicroPython.MpzFromStr
