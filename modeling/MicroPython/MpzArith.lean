import MicroPython.MpzDigits

/-!
# Sums, differences and products

The loops on digits carry or borrow from place to place. Whatever the lengths and
whichever of the objects are the same, the digits that are left stand for the sum, the
difference or the product of the magnitudes, and the signs are chosen accordingly.
-/

namespace MicroPython.MpzArith

open Nat Function Positional MpzDigits

theorem bind_ok {ε α β : Type} {x : Except ε α} {a : α} (f : α→Except ε β) (h : x=.ok a) :
    (x >>= f)=f a := by
  rw [h]
  rfl

section Sum

variable {w : DigSize} {st : Store} {i : ℕ} {jdig kdig : Source}

/-- What `mpn_add` adds at a place. -/
def sumAt (st : Store) (jdig kdig : Source) (t : ℕ) : ℕ :=
  (jdig.mpz st).dig t+padded (kdig.mpz st).dig (kdig.mpz st).len t

/-- The carries of `mpn_add` are at most one. -/
theorem carry_sumAt_lt (hj : Normal w (jdig.mpz st)) (hk : Normal w (kdig.mpz st)) :
    ∀ t ≤ (jdig.mpz st).len,carry w.base (sumAt st jdig kdig) 0 t<2 := by
  refine carry_lt (by omega) (fun t ht x hx => ?_)
  have hjlt := hj.lt t ht
  have hklt : padded (kdig.mpz st).dig (kdig.mpz st).len t<w.base := by
    rw [padded]
    split
    case isTrue hlt => exact hk.lt t hlt
    · exact w.base_pos
  rw [sumAt]
  omega

/-- The two loops of `mpn_add`. -/
theorem addLoops_eq (hj : Normal w (jdig.mpz st)) (hk : Normal w (kdig.mpz st))
    (hlen : (kdig.mpz st).len ≤ (jdig.mpz st).len) (halloc : (jdig.mpz st).len ≤ (st i).alloc) :
    ∃ both,digitLoop i (addBoth w jdig kdig) (kdig.mpz st).len 0 0 st=.ok both∧
      digitLoop i (addRest w jdig) ((jdig.mpz st).len-(kdig.mpz st).len) (kdig.mpz st).len
        both.1 both.2=
        .ok (carry w.base (sumAt st jdig kdig) 0 (jdig.mpz st).len,
          written st i (jdig.mpz st).len (carryDigit w.base (sumAt st jdig kdig) 0)) := by
  have hcarry := carry_sumAt_lt hj hk
  have hroom := w.two_mul_base_le
  have hboth := @digitLoop_written _ st i (addBoth w jdig kdig)
    (carryDigit w.base (sumAt st jdig kdig) 0) (carry w.base (sumAt st jdig kdig) 0)
    (kdig.mpz st).len 0 (fun t _ ht => ?_) (by omega)
  · have hrest := @digitLoop_written _ st i (addRest w jdig)
      (carryDigit w.base (sumAt st jdig kdig) 0) (carry w.base (sumAt st jdig kdig) 0)
      ((jdig.mpz st).len-(kdig.mpz st).len) (kdig.mpz st).len (fun t hkt ht => ?_) (by omega)
    · rw [written_zero,Nat.zero_add] at hboth
      rw [Nat.add_sub_cancel' hlen] at hrest
      exact ⟨_,hboth,hrest⟩
    · have hjalloc := hj.alloc
      have hjlt := hj.lt t (by omega)
      have hc := hcarry t (by omega)
      have hsum : sumAt st jdig kdig t=(jdig.mpz st).dig t := by
        rw [sumAt,padded,if_neg (not_lt.mpr hkt),Nat.add_zero]
      rw [addRest,bind_ok _ (readDig_written (le_refl t) (by omega)),
        w.dbl_of_lt (by omega),w.split_eq,carryDigit,carry,hsum]
  · have hjalloc := hj.alloc
    have hkalloc := hk.alloc
    have hjlt := hj.lt t (by omega)
    have hklt := hk.lt t (by omega)
    have hc := hcarry t (by omega)
    have hsum : sumAt st jdig kdig t=(jdig.mpz st).dig t+(kdig.mpz st).dig t := by
      rw [sumAt,padded,if_pos (by omega)]
    rw [addBoth,bind_ok _ (readDig_written (le_refl t) (by omega)),
      bind_ok _ (readDig_written (le_refl t) (by omega)),
      w.dbl_of_lt (x := (jdig.mpz st).dig t+(kdig.mpz st).dig t) (by omega),
      w.dbl_of_lt (by omega),w.split_eq,carryDigit,carry,hsum]

/-- The numbers that `mpn_add` adds at the places. -/
theorem value_sumAt (hlen : (kdig.mpz st).len ≤ (jdig.mpz st).len) :
    value w.base (sumAt st jdig kdig) (jdig.mpz st).len=
      mag w (jdig.mpz st)+mag w (kdig.mpz st) := by
  unfold sumAt
  rw [value_add,value_padded _ _ hlen,mag,mag]

/-- `mpn_add` leaves the sum of the magnitudes. -/
theorem mpnAdd_yields (hj : Normal w (jdig.mpz st)) (hk : Normal w (kdig.mpz st))
    (hlen : (kdig.mpz st).len ≤ (jdig.mpz st).len)
    (halloc : (jdig.mpz st).len+1 ≤ (st i).alloc) :
    Yields w st i (mpnAdd w st i jdig (jdig.mpz st).len kdig (kdig.mpz st).len)
      (mag w (jdig.mpz st)+mag w (kdig.mpz st)) := by
  obtain ⟨both,hboth,hrest⟩ := addLoops_eq (i := i) hj hk hlen (by omega)
  have hB := w.base_pos
  have hvalue := value_carryDigit w.base (sumAt st jdig kdig) 0 (jdig.mpz st).len
  rw [value_sumAt hlen,Nat.add_zero] at hvalue
  have hcarry := carry_sumAt_lt hj hk (jdig.mpz st).len (le_refl _)
  have hbase := w.one_lt_base
  rw [mpnAdd,bind_ok _ hboth,bind_ok _ hrest,Nat.add_sub_cancel' hlen,hvalue]
  refine storeCarry_written halloc (fun t _ => carryDigit_lt w.base _ 0 hB t) (by omega)
    (fun hzero m hm => ?_)
  -- Without a carry the sum reaches the place of the top digit of the first number.
  dsimp only at hzero
  rw [hzero,Nat.zero_mul,Nat.add_zero,hm] at hvalue
  have htop : w.base^m ≤ mag w (jdig.mpz st) := by
    rw [mag,hm]
    exact le_value (hj.top m hm)
  exact top_ne_zero (fun t _ => carryDigit_lt w.base _ 0 hB t) (by omega)

/-- Where the sum keeps the length of the longer number, `mpn_add` needs no digit more. -/
theorem mpnAdd_yields_within (hj : Normal w (jdig.mpz st)) (hk : Normal w (kdig.mpz st))
    (hlen : (kdig.mpz st).len ≤ (jdig.mpz st).len)
    (halloc : (jdig.mpz st).len ≤ (st i).alloc)
    (hsum : mag w (jdig.mpz st)+mag w (kdig.mpz st)<w.base^(jdig.mpz st).len) :
    Yields w st i (mpnAdd w st i jdig (jdig.mpz st).len kdig (kdig.mpz st).len)
      (mag w (jdig.mpz st)+mag w (kdig.mpz st)) := by
  obtain ⟨both,hboth,hrest⟩ := addLoops_eq (i := i) hj hk hlen halloc
  have hB := w.base_pos
  have hvalue := value_carryDigit w.base (sumAt st jdig kdig) 0 (jdig.mpz st).len
  rw [value_sumAt hlen,Nat.add_zero] at hvalue
  have hnone : carry w.base (sumAt st jdig kdig) 0 (jdig.mpz st).len=0 := by
    by_contra hne
    have hle := Nat.le_mul_of_pos_left (w.base^(jdig.mpz st).len) (Nat.pos_of_ne_zero hne)
    omega
  rw [hnone,Nat.zero_mul,Nat.add_zero] at hvalue
  rw [hnone] at hrest
  rw [mpnAdd,bind_ok _ hboth,bind_ok _ hrest,Nat.add_sub_cancel' hlen,hvalue]
  refine yields_written rfl (le_refl _) halloc
    ⟨fun t _ => carryDigit_lt w.base _ 0 hB t,fun m hm => ?_⟩
  have htop : w.base^m ≤ mag w (jdig.mpz st) := by
    rw [mag,hm]
    exact le_value (hj.top m hm)
  rw [hm] at hvalue
  exact top_ne_zero (fun t _ => carryDigit_lt w.base _ 0 hB t) (by omega)

end Sum

section Difference

variable {w : DigSize} {st : Store} {i : ℕ} {jdig kdig : Source}

/-- What `mpn_sub` subtracts at a place. -/
def differenceAt (st : Store) (jdig kdig : Source) (t : ℕ) : ℤ :=
  ((jdig.mpz st).dig t : ℤ)-(padded (kdig.mpz st).dig (kdig.mpz st).len t : ℕ)

/-- The difference at a place is between the base and its negative. -/
theorem differenceAt_bounds (hj : Normal w (jdig.mpz st)) (hk : Normal w (kdig.mpz st)) :
    ∀ t<(jdig.mpz st).len,-(w.base : ℤ)<differenceAt st jdig kdig t∧
      differenceAt st jdig kdig t<w.base := by
  intro t ht
  have hjlt := hj.lt t ht
  have hklt : padded (kdig.mpz st).dig (kdig.mpz st).len t<w.base := by
    rw [padded]
    split
    case isTrue hlt => exact hk.lt t hlt
    · exact w.base_pos
  rw [differenceAt]
  omega

/-- The two loops of `mpn_sub`. -/
theorem subLoops_eq (hj : Normal w (jdig.mpz st)) (hk : Normal w (kdig.mpz st))
    (hlen : (kdig.mpz st).len ≤ (jdig.mpz st).len) (halloc : (jdig.mpz st).len ≤ (st i).alloc) :
    ∃ both,digitLoop i (subBoth w jdig kdig) (kdig.mpz st).len 0 0 st=.ok both∧
      digitLoop i (subRest w jdig) ((jdig.mpz st).len-(kdig.mpz st).len) (kdig.mpz st).len
        both.1 both.2=
        .ok (borrow w.base (differenceAt st jdig kdig) (jdig.mpz st).len,
          written st i (jdig.mpz st).len (borrowDigit w.base (differenceAt st jdig kdig))) := by
  have hB := w.base_pos
  have hplace := differenceAt_bounds hj hk
  have hborrow := borrow_bounds hB hplace
  have hboth := @digitLoop_written _ st i (subBoth w jdig kdig)
    (borrowDigit w.base (differenceAt st jdig kdig)) (borrow w.base (differenceAt st jdig kdig))
    (kdig.mpz st).len 0 (fun t _ ht => ?_) (by omega)
  · have hrest := @digitLoop_written _ st i (subRest w jdig)
      (borrowDigit w.base (differenceAt st jdig kdig))
      (borrow w.base (differenceAt st jdig kdig))
      ((jdig.mpz st).len-(kdig.mpz st).len) (kdig.mpz st).len (fun t hkt ht => ?_) (by omega)
    · rw [written_zero,Nat.zero_add] at hboth
      rw [Nat.add_sub_cancel' hlen] at hrest
      exact ⟨_,hboth,hrest⟩
    · have hjalloc := hj.alloc
      have hbounds := hborrow t (by omega)
      have hdiff := hplace t (by omega)
      have hsum : differenceAt st jdig kdig t=(jdig.mpz st).dig t := by
        rw [differenceAt,padded,if_neg (not_lt.mpr hkt)]
        exact Int.sub_zero _
      rw [subRest,bind_ok _ (readDig_written (le_refl t) (by omega)),←hsum,
        w.sdbl_of_lt (by omega) (by omega),w.splitSigned_eq,borrowDigit,borrow]
  · have hjalloc := hj.alloc
    have hkalloc := hk.alloc
    have hbounds := hborrow t (by omega)
    have hdiff := hplace t (by omega)
    have hsum : differenceAt st jdig kdig t=(jdig.mpz st).dig t-(kdig.mpz st).dig t := by
      rw [differenceAt,padded,if_pos (by omega)]
    rw [subBoth,bind_ok _ (readDig_written (le_refl t) (by omega)),
      bind_ok _ (readDig_written (le_refl t) (by omega)),←hsum,
      w.sdbl_of_lt (by omega) (by omega),w.splitSigned_eq,borrowDigit,borrow]

/-- The integers that `mpn_sub` subtracts at the places. -/
theorem value_differenceAt (hlen : (kdig.mpz st).len ≤ (jdig.mpz st).len) :
    value (w.base : ℤ) (differenceAt st jdig kdig) (jdig.mpz st).len=
      (mag w (jdig.mpz st) : ℤ)-mag w (kdig.mpz st) := by
  have hsum : value (w.base : ℤ) (fun t => differenceAt st jdig kdig t+
      ((padded (kdig.mpz st).dig (kdig.mpz st).len t : ℕ) : ℤ)) (jdig.mpz st).len=
      (mag w (jdig.mpz st) : ℤ) := by
    rw [mag,value_cast]
    exact value_congr (fun t _ => by rw [differenceAt,Int.sub_add_cancel])
  rw [value_add,←value_cast w.base (padded _ _),value_padded _ _ hlen] at hsum
  rw [mag,mag] at *
  omega

/-- `mpn_sub` leaves the difference of the magnitudes. -/
theorem mpnSub_yields (hj : Normal w (jdig.mpz st)) (hk : Normal w (kdig.mpz st))
    (hle : mag w (kdig.mpz st) ≤ mag w (jdig.mpz st))
    (halloc : (jdig.mpz st).len ≤ (st i).alloc) :
    Yields w st i (mpnSub w st i jdig (jdig.mpz st).len kdig (kdig.mpz st).len)
      (mag w (jdig.mpz st)-mag w (kdig.mpz st)) := by
  have hlen := hk.digits.len_le_of_value_le hj.digits hle
  obtain ⟨both,hboth,hrest⟩ := subLoops_eq (i := i) hj hk hlen halloc
  have hB := w.base_pos
  have hlt : ∀ t<(jdig.mpz st).len,borrowDigit w.base (differenceAt st jdig kdig) t<w.base :=
    fun t _ => borrowDigit_lt hB t
  have hvalue := @value_borrowDigit w.base (differenceAt st jdig kdig) hB (jdig.mpz st).len
  rw [value_differenceAt hlen] at hvalue
  have hborrow := borrow_bounds hB (differenceAt_bounds hj hk) (jdig.mpz st).len (le_refl _)
  have hbelow := Positional.value_lt hlt
  -- A difference that is not negative leaves no borrow.
  have hnone : borrow w.base (differenceAt st jdig kdig) (jdig.mpz st).len=0 := by
    by_contra hne
    have hone : borrow w.base (differenceAt st jdig kdig) (jdig.mpz st).len=-1 := by omega
    rw [hone] at hvalue
    have hcast : ((w.base^(jdig.mpz st).len : ℕ) : ℤ)=(w.base : ℤ)^(jdig.mpz st).len := by
      push_cast
      rfl
    omega
  rw [hnone,Int.mul_zero,Int.add_zero] at hvalue
  have hexact : mag w (jdig.mpz st)-mag w (kdig.mpz st)=
      value w.base (borrowDigit w.base (differenceAt st jdig kdig)) (jdig.mpz st).len := by
    omega
  rw [mpnSub,bind_ok _ hboth,bind_ok _ hrest,Nat.add_sub_cancel' hlen,hexact]
  exact yields_trim halloc hlt

end Difference

section Product

variable {w : DigSize} {st : Store} {i : ℕ} {jdig kdig : Source}

theorem mpz_setDig_of_ne {s : Source} (h : s≠.object i) (g : ℕ→ℕ) :
    s.mpz (setDig st i g)=s.mpz st := by
  cases s with
  | separate z => rfl
  | object a => exact setDig_of_ne st g (fun ha => h (by rw [ha]))

/-- The digits of the product after some rows. -/
structure Rows (w : DigSize) (st : Store) (i : ℕ) (jdig kdig : Source) (g : ℕ→ℕ)
    (row : ℕ) : Prop where
  /-- The digits fit the base. -/
  lt : ∀ t < row+(jdig.mpz st).len,g t<w.base
  zeros : ∀ t,row+(jdig.mpz st).len ≤ t → t<(st i).alloc → g t=0
  /-- The rows stand for the product with the digits of the second factor so far. -/
  product : value w.base g (row+(jdig.mpz st).len)=
    mag w (jdig.mpz st)*value w.base (kdig.mpz st).dig row

/-- The length that a row leaves. -/
def LenAfter (st : Store) (jdig : Source) (g : ℕ→ℕ) (row len : ℕ) : Prop :=
  (∃ m,len=m+1∧len=row+(jdig.mpz st).len∧g m≠0)∨(len+1=row+(jdig.mpz st).len∧g len=0)

/-- What a row adds at a place. -/
def rowAt (st : Store) (jdig kdig : Source) (g : ℕ→ℕ) (row t : ℕ) : ℕ :=
  g (row+t)+(jdig.mpz st).dig t*(kdig.mpz st).dig row

variable {g : ℕ→ℕ} {row : ℕ}

/-- A row never needs more than two digits at a place. -/
theorem add_rowAt_lt (hj : Normal w (jdig.mpz st)) (hk : Normal w (kdig.mpz st))
    (hg : ∀ t < row+(jdig.mpz st).len,g t<w.base) (hrow : row<(kdig.mpz st).len) :
    ∀ t<(jdig.mpz st).len,∀ x<w.base,x+rowAt st jdig kdig g row t<w.base*w.base := by
  intro t ht x hx
  have hid := hg (row+t) (by omega)
  have hjlt := le_sub_one_of_lt (hj.lt t ht)
  have hklt := le_sub_one_of_lt (hk.lt row hrow)
  have hmul := Nat.mul_le_mul hjlt hklt
  obtain ⟨b,hb⟩ : ∃ b,w.base=b+1 := ⟨w.base-1,by omega⟩
  rw [hb,Nat.add_sub_cancel] at hmul
  have hsquare : (b+1)*(b+1)=b*b+2*b+1 := by ring
  rw [rowAt,hb,hsquare]
  omega

/-- The digits while a row is written. -/
def rowDigit (B : ℕ) (g s : ℕ→ℕ) (row t : ℕ) : ℕ :=
  if t < row then g t else carryDigit B s 0 (t-row)

/-- The loop of a row. -/
theorem rowLoop_eq (hj : Normal w (jdig.mpz st)) (hk : Normal w (kdig.mpz st))
    (hjne : jdig≠.object i) (hkne : kdig≠.object i)
    (hg : ∀ t < row+(jdig.mpz st).len,g t<w.base) (hrow : row<(kdig.mpz st).len)
    (halloc : row+(jdig.mpz st).len ≤ (st i).alloc) :
    digitLoop i (mulDigit w i jdig kdig row) (jdig.mpz st).len row 0 (setDig st i g)=
      .ok (carry w.base (rowAt st jdig kdig g row) 0 (jdig.mpz st).len,
        written (setDig st i g) i (row+(jdig.mpz st).len)
          (rowDigit w.base g (rowAt st jdig kdig g row) row)) := by
  have hsum := add_rowAt_lt hj hk hg hrow
  have hB := w.base_pos
  have hcarry := carry_lt (c := 0) hB hsum
  have hallocset : (setDig st i g i).alloc=(st i).alloc := by rw [setDig_self]
  have hstart : written (setDig st i g) i row
      (rowDigit w.base g (rowAt st jdig kdig g row) row)=setDig st i g := by
    refine written_same (fun t ht => ?_)
    rw [setDig_self]
    exact if_pos ht
  have hloop := @digitLoop_written _ (setDig st i g) i (mulDigit w i jdig kdig row)
    (rowDigit w.base g (rowAt st jdig kdig g row) row)
    (fun t => carry w.base (rowAt st jdig kdig g row) 0 (t-row))
    (jdig.mpz st).len row (fun t hrt ht => ?_) (by rw [hallocset]; exact halloc)
  · rw [hstart,Nat.sub_self,Nat.add_sub_cancel_left] at hloop
    exact hloop
  · have hjalloc := hj.alloc
    have hkalloc := hk.alloc
    have hid : readDig (written (setDig st i g) i t
        (rowDigit w.base g (rowAt st jdig kdig g row) row)) (.object i) t=.ok (g t) := by
      have hread := @readDig_written (setDig st i g) i t t
        (rowDigit w.base g (rowAt st jdig kdig g row) row) (.object i) (le_refl t)
        (by rw [Source.mpz,hallocset]; omega)
      rwa [Source.mpz,setDig_self] at hread
    have happart : ∀ s : Source,s≠.object i → s.mpz (written (setDig st i g) i t
        (rowDigit w.base g (rowAt st jdig kdig g row) row))=s.mpz st := by
      intro s hs
      rw [written,mpz_setDig_of_ne hs,mpz_setDig_of_ne hs]
    have hjread := @readDig_of_lt (written (setDig st i g) i t
      (rowDigit w.base g (rowAt st jdig kdig g row) row)) jdig (t-row)
      (by rw [happart jdig hjne]; omega)
    have hkread := @readDig_of_lt (written (setDig st i g) i t
      (rowDigit w.base g (rowAt st jdig kdig g row) row)) kdig row
      (by rw [happart kdig hkne]; omega)
    rw [happart jdig hjne] at hjread
    rw [happart kdig hkne] at hkread
    have hc := hcarry (t-row) (by omega)
    have hroom := hsum (t-row) (by omega) _ hc
    have hplace : rowAt st jdig kdig g row (t-row)=
        g t+(jdig.mpz st).dig (t-row)*(kdig.mpz st).dig row := by
      rw [rowAt,Nat.add_sub_cancel' hrt]
    rw [hplace] at hroom
    rw [mulDigit,bind_ok _ hid,bind_ok _ hjread,bind_ok _ hkread,
      w.dbl_of_lt (x := (jdig.mpz st).dig (t-row)*(kdig.mpz st).dig row) (by omega),
      w.dbl_of_lt (x := g t+(jdig.mpz st).dig (t-row)*(kdig.mpz st).dig row) (by omega),
      w.dbl_of_lt hroom,w.split_eq,rowDigit,if_neg (not_lt.mpr hrt),carryDigit,
      succ_sub hrt,carry,hplace]

/-- A digit replaced by itself. -/
theorem written_succ_same {n : ℕ} (h : g n=(st i).dig n) :
    written st i (n+1) g=written st i n g := by
  rw [written,written]
  congr 1
  funext t
  rcases lt_trichotomy t n with ht | ht | ht
  · rw [if_pos (lt_succ_of_lt ht),if_pos ht]
  · rw [if_pos (by omega),if_neg (by omega),ht,h]
  · rw [if_neg (by omega),if_neg (by omega)]

/-- The carry of a row is stored over a zero. -/
theorem storeCarry_zero {n carry : ℕ} {g : ℕ→ℕ} (halloc : n<(st i).alloc)
    (hzero : (st i).dig n=0) : storeCarry (written st i n g) i n carry=
      .ok (if carry=0 then n else n+1,written st i (n+1) (withTop g n carry)) := by
  have hwritten : written st i n g=written st i n (withTop g n carry) :=
    written_congr st i (fun t ht => (if_pos ht).symm)
  have htop : withTop g n carry n=carry := if_neg (lt_irrefl n)
  rw [hwritten]
  by_cases hcarry : carry=0
  · have hsame : withTop g n carry n=(st i).dig n := by rw [htop,hzero,hcarry]
    rw [storeCarry,if_neg (fun h => h hcarry),if_pos hcarry,written_succ_same hsame]
  · have hwrite := @writeDig_written st i n (withTop g n carry) halloc
    rw [htop] at hwrite
    rw [storeCarry,if_pos hcarry,if_neg hcarry,bind_ok _ hwrite]

/-- The digits after a row. -/
def rowDone (w : DigSize) (st : Store) (jdig kdig : Source) (g : ℕ→ℕ) (row t : ℕ) : ℕ :=
  if t < row+(jdig.mpz st).len+1 then
    withTop (rowDigit w.base g (rowAt st jdig kdig g row) row) (row+(jdig.mpz st).len)
      (carry w.base (rowAt st jdig kdig g row) 0 (jdig.mpz st).len) t
  else g t

/-- A row adds the product with its digit. -/
theorem value_rowDone (g : ℕ→ℕ) (row : ℕ) :
    value w.base (rowDone w st jdig kdig g row) (row+(jdig.mpz st).len+1)=
      value w.base g (row+(jdig.mpz st).len)+
        mag w (jdig.mpz st)*((kdig.mpz st).dig row*w.base^row) := by
  have hsums := value_carryDigit w.base (rowAt st jdig kdig g row) 0 (jdig.mpz st).len
  have hadd : value w.base (rowAt st jdig kdig g row) (jdig.mpz st).len=
      value w.base (fun t => g (row+t)) (jdig.mpz st).len+
        (kdig.mpz st).dig row*mag w (jdig.mpz st) := by
    rw [mag,←value_const_mul,←value_add]
    exact value_congr (fun t _ => by rw [rowAt,mul_comm])
  have hlow : value w.base (rowDigit w.base g (rowAt st jdig kdig g row) row)
      (row+(jdig.mpz st).len)=value w.base g row+w.base^row*
        value w.base (carryDigit w.base (rowAt st jdig kdig g row) 0) (jdig.mpz st).len := by
    have hkeep : value w.base (rowDigit w.base g (rowAt st jdig kdig g row) row) row=
        value w.base g row := value_congr (fun t ht => if_pos ht)
    have hnew : ∀ t<(jdig.mpz st).len,rowDigit w.base g (rowAt st jdig kdig g row) row (row+t)=
          carryDigit w.base (rowAt st jdig kdig g row) 0 t := by
      intro t _
      rw [rowDigit,if_neg (by omega),Nat.add_sub_cancel_left]
    rw [value_append,hkeep,value_congr hnew]
  have hdone : value w.base (rowDone w st jdig kdig g row) (row+(jdig.mpz st).len+1)=
      value w.base (rowDigit w.base g (rowAt st jdig kdig g row) row) (row+(jdig.mpz st).len)+
        carry w.base (rowAt st jdig kdig g row) 0 (jdig.mpz st).len*
          w.base^(row+(jdig.mpz st).len) := by
    rw [←value_withTop]
    exact value_congr (fun t ht => if_pos ht)
  rw [hadd,Nat.add_zero] at hsums
  rw [hdone,hlow,value_append,Nat.pow_add]
  calc value w.base g row+w.base^row*value w.base
        (carryDigit w.base (rowAt st jdig kdig g row) 0) (jdig.mpz st).len+
        carry w.base (rowAt st jdig kdig g row) 0 (jdig.mpz st).len*
          (w.base^row*w.base^(jdig.mpz st).len)
      =value w.base g row+w.base^row*(value w.base
        (carryDigit w.base (rowAt st jdig kdig g row) 0) (jdig.mpz st).len+
        carry w.base (rowAt st jdig kdig g row) 0 (jdig.mpz st).len*
          w.base^(jdig.mpz st).len) := by ring
    _=value w.base g row+w.base^row*(value w.base (fun t => g (row+t)) (jdig.mpz st).len+
        (kdig.mpz st).dig row*mag w (jdig.mpz st)) := by rw [hsums]
    _=value w.base g row+w.base^row*value w.base (fun t => g (row+t)) (jdig.mpz st).len+
        mag w (jdig.mpz st)*((kdig.mpz st).dig row*w.base^row) := by ring

/-- A row goes from one stage of the product to the next. -/
theorem Rows.done (h : Rows w st i jdig kdig g row)
    (hcarry : carry w.base (rowAt st jdig kdig g row) 0 (jdig.mpz st).len<w.base) :
    Rows w st i jdig kdig (rowDone w st jdig kdig g row) (row+1) := by
  have hB := w.base_pos
  refine ⟨fun t ht => ?_,fun t ht halloc => ?_,?_⟩
  · rw [rowDone,if_pos (by omega),withTop]
    split
    · rw [rowDigit]
      split
      · exact h.lt t (by omega)
      · exact carryDigit_lt _ _ _ hB _
    · exact hcarry
  · rw [rowDone,if_neg (by omega)]
    exact h.zeros t (by omega) halloc
  · have hplace : row+1+(jdig.mpz st).len=row+(jdig.mpz st).len+1 := by omega
    rw [hplace,value_rowDone,h.product,value_succ,mul_add]

section

variable (hj : Normal w (jdig.mpz st)) (hk : Normal w (kdig.mpz st)) (hjne : jdig≠.object i)
  (hkne : kdig≠.object i)
include hj hk hjne hkne

/-- The loop of a row and the carry that is stored over it. -/
theorem row_eq {g : ℕ→ℕ} {row : ℕ}
    (h : Rows w st i jdig kdig g row) (hrow : row<(kdig.mpz st).len)
    (halloc : row+(jdig.mpz st).len<(st i).alloc) :
    ∃ r len,digitLoop i (mulDigit w i jdig kdig row) (jdig.mpz st).len row 0 (setDig st i g)=.ok r∧
      storeCarry r.2 i (row+(jdig.mpz st).len) r.1=
        .ok (len,setDig st i (rowDone w st jdig kdig g row))∧
      Rows w st i jdig kdig (rowDone w st jdig kdig g row) (row+1)∧
      LenAfter st jdig (rowDone w st jdig kdig g row) (row+1) len := by
  have hloop := rowLoop_eq hj hk hjne hkne h.lt hrow (le_of_lt halloc)
  have hcarry := carry_lt (c := 0) w.base_pos (add_rowAt_lt hj hk h.lt hrow) _ (le_refl _)
  have hzero : (setDig st i g i).dig (row+(jdig.mpz st).len)=0 := by
    rw [setDig_self]
    exact h.zeros _ (le_refl _) halloc
  have hstore := @storeCarry_zero (setDig st i g) i (row+(jdig.mpz st).len)
    (carry w.base (rowAt st jdig kdig g row) 0 (jdig.mpz st).len)
    (rowDigit w.base g (rowAt st jdig kdig g row) row) (by rw [setDig_self]; exact halloc) hzero
  have hdone : written (setDig st i g) i (row+(jdig.mpz st).len+1)
      (withTop (rowDigit w.base g (rowAt st jdig kdig g row) row) (row+(jdig.mpz st).len)
        (carry w.base (rowAt st jdig kdig g row) 0 (jdig.mpz st).len))=
      setDig st i (rowDone w st jdig kdig g row) := by
    rw [written,setDig_setDig,setDig_self]
    rfl
  rw [hdone] at hstore
  have htop : rowDone w st jdig kdig g row (row+(jdig.mpz st).len)=
      carry w.base (rowAt st jdig kdig g row) 0 (jdig.mpz st).len := by
    rw [rowDone,if_pos (by omega),withTop,if_neg (lt_irrefl _)]
  refine ⟨_,_,hloop,hstore,h.done hcarry,?_⟩
  split
  case isTrue hnone =>
    rw [←htop] at hnone
    exact .inr ⟨by omega,hnone⟩
  case isFalse hsome =>
    rw [←htop] at hsome
    exact .inl ⟨_,rfl,by omega,hsome⟩

/-- All the rows of `mpn_mul`. -/
theorem mulRows_eq
    (halloc : (jdig.mpz st).len+(kdig.mpz st).len ≤ (st i).alloc) {n row ilen : ℕ}
    {g : ℕ→ℕ} (h : Rows w st i jdig kdig g row) (hn : row+n=(kdig.mpz st).len)
    (hlen : n=0→LenAfter st jdig g row ilen) :
    ∃ len g',mulRows w i jdig (jdig.mpz st).len kdig n row ilen (setDig st i g)=
        .ok (len,setDig st i g')∧Rows w st i jdig kdig g' (kdig.mpz st).len∧
      LenAfter st jdig g' (kdig.mpz st).len len := by
  induction n generalizing row ilen g with
  | zero =>
    rw [Nat.add_zero] at hn
    rw [hn] at h hlen
    exact ⟨ilen,g,rfl,h,hlen rfl⟩
  | succ n ih =>
    obtain ⟨r,len,hloop,hstore,hrows,hafter⟩ := row_eq hj hk hjne hkne h (by omega) (by omega)
    obtain ⟨len',g',hrun,hrest⟩ := @ih (row+1) len _ hrows (by omega) (fun _ => hafter)
    refine ⟨len',g',?_,hrest⟩
    rw [mulRows,bind_ok _ hloop,bind_ok _ hstore]
    exact hrun

/-- `mpn_mul` leaves the product of the magnitudes when the digits of the destination are
zero and neither factor is the destination. -/
theorem mpnMul_yields
    (halloc : (jdig.mpz st).len+(kdig.mpz st).len ≤ (st i).alloc)
    (hzeros : ∀ t<(st i).alloc,(st i).dig t=0) (hjpos : (jdig.mpz st).len≠0)
    (hkpos : (kdig.mpz st).len≠0) :
    Yields w st i (mpnMul w st i jdig (jdig.mpz st).len kdig (kdig.mpz st).len)
      (mag w (jdig.mpz st)*mag w (kdig.mpz st)) := by
  have hB := w.base_pos
  have hstart : Rows w st i jdig kdig (st i).dig 0 := by
    refine ⟨fun t ht => ?_,fun t _ ht => hzeros t ht,?_⟩
    · rw [hzeros t (by omega)]
      exact hB
    · rw [value_of_zeros (Nat.zero_le _) (fun t _ ht => hzeros t (by omega)),value_zero,
        value_zero,Nat.mul_zero]
  obtain ⟨len,g,hrun,hrows,hafter⟩ := @mulRows_eq w st i jdig kdig hj hk hjne hkne halloc
    (kdig.mpz st).len 0 0 _ hstart (Nat.zero_add _) (fun h => absurd h hkpos)
  rw [setDig_dig] at hrun
  have hproduct := hrows.product
  obtain ⟨m,hm⟩ : ∃ m,(jdig.mpz st).len=m+1 := ⟨(jdig.mpz st).len-1,by omega⟩
  obtain ⟨n,hn⟩ : ∃ n,(kdig.mpz st).len=n+1 := ⟨(kdig.mpz st).len-1,by omega⟩
  rcases hafter with ⟨k,hk1,hk2,htop⟩ | ⟨hshort,hzero⟩
  · rw [←hk2] at hproduct
    refine ⟨len,g,hrun,by omega,⟨fun t ht => hrows.lt t (by omega),fun q hq => ?_⟩,hproduct⟩
    rw [show q=k by omega]
    exact htop
  · rw [←hshort,value_succ,hzero,Nat.zero_mul,Nat.add_zero] at hproduct
    refine ⟨len,g,hrun,by omega,⟨fun t ht => hrows.lt t (by omega),fun q hq => ?_⟩,hproduct⟩
    -- The product of the top digits reaches the place below the missing carry.
    have hjtop : w.base^m ≤ mag w (jdig.mpz st) := by
      rw [mag,hm]
      exact le_value (hj.top m hm)
    have hktop : w.base^n ≤ mag w (kdig.mpz st) := by
      rw [mag,hn]
      exact le_value (hk.top n hn)
    have hmul := Nat.mul_le_mul hjtop hktop
    rw [←Nat.pow_add,show m+n=q by omega] at hmul
    rw [hq] at hproduct
    refine top_ne_zero (fun t ht => hrows.lt t (by omega)) ?_
    rw [hproduct]
    exact hmul

end

end Product

section Results

variable {w : DigSize} {st : Store} {dest lhs rhs : ℕ}

/-- The signs stay until the destination gets its own. -/
theorem neg_setLen (need len : ℕ) (g : ℕ→ℕ) (a : ℕ) :
    (setLen (setDig (grow st dest need) dest g) dest len a).neg=(st a).neg := by
  rw [setLen]
  by_cases h : a=dest
  · rw [h,update_self,setDig_self]
    exact grow_neg ..
  · rw [update_of_ne h,setDig_of_ne _ _ h,grow_neg]

/-- What a function on digits leaves becomes the outcome with its length and a sign. -/
theorem result_of_yields {need v : ℕ} {r : Except Fault (ℕ×Store)}
    (h : Yields w (grow st dest need) dest r v) (sign : Store→Bool) {neg : Bool}
    (hsign : ∀ g len,sign (setLen (setDig (grow st dest need) dest g) dest len)=neg) :
    ∃ st',(do
      let r ← r
      Except.ok (setNeg (setLen r.2 dest r.1) dest (sign (setLen r.2 dest r.1))))=.ok st'∧
      Result w st dest (if neg then -(v : ℕ) else (v : ℕ)) st' := by
  obtain ⟨len,g,hr,hlen,hg,hv⟩ := h
  have hresult := result_of_digits hlen hg neg
  rw [hv] at hresult
  rw [bind_ok _ hr]
  rw [hsign]
  exact ⟨_,rfl,hresult⟩

theorem toInt_add_of_eq {a b : Mpz} (h : a.neg=b.neg) : toInt w a+toInt w b=
    if a.neg then -((mag w a+mag w b : ℕ) : ℤ) else ((mag w a+mag w b : ℕ) : ℤ) := by
  rw [toInt,toInt,←h]
  split <;> omega

/-- The sum of two integers with opposite signs. -/
theorem toInt_add_of_ne {a b : Mpz} (h : a.neg≠b.neg) (hle : mag w b ≤ mag w a) :
    toInt w a+toInt w b=
      if a.neg then -((mag w a-mag w b : ℕ) : ℤ) else ((mag w a-mag w b : ℕ) : ℤ) := by
  rw [toInt,toInt]
  cases ha : a.neg <;> cases hb : b.neg
  · exact absurd (ha.trans hb.symm) h
  · simp only [Bool.false_eq_true,if_false,if_true]
    omega
  · simp only [Bool.false_eq_true,if_false,if_true]
    omega
  · exact absurd (ha.trans hb.symm) h

/-- The operand with the larger magnitude first, a sum is exact. -/
theorem addInplOrdered_result (hl : Normal w (st lhs)) (hr : Normal w (st rhs))
    (hfixed : (st dest).fixedDig=false) (hle : mag w (st rhs) ≤ mag w (st lhs)) :
    ∃ st',addInplOrdered w st dest lhs rhs=.ok st'∧
      Result w st dest (toInt w (st lhs)+toInt w (st rhs)) st' := by
  have hlen := hr.digits.len_le_of_value_le hl.digits hle
  unfold addInplOrdered
  by_cases hneg : (st lhs).neg=(st rhs).neg
  · have hyields := @mpnAdd_yields w (grow st dest ((st lhs).len+1)) dest (.object lhs)
      (.object rhs) (hl.grow dest _) (hr.grow dest _) (by simpa only [Source.mpz,grow_len])
      (by rw [Source.mpz,grow_len,grow_self]; exact need_le_grown _ _)
    rw [toInt_add_of_eq hneg]
    simp only [Source.mpz,mag_grow] at hyields
    rw [if_pos hneg,bind_ok _ (mpzNeedDig_eq hfixed)]
    exact result_of_yields hyields (fun s => (s lhs).neg) (fun g len => neg_setLen _ len g lhs)
  · have hyields := @mpnSub_yields w (grow st dest (st lhs).len) dest (.object lhs)
      (.object rhs) (hl.grow dest _) (hr.grow dest _) (by simpa only [Source.mpz,mag_grow])
      (by rw [Source.mpz,grow_len,grow_self]; exact need_le_grown _ _)
    rw [toInt_add_of_ne hneg hle]
    simp only [Source.mpz,mag_grow] at hyields
    dsimp only
    rw [if_neg hneg,bind_ok _ (mpzNeedDig_eq hfixed)]
    exact result_of_yields hyields (fun s => (s lhs).neg) (fun g len => neg_setLen _ len g lhs)

/-- The integer with the sign turned. -/
def turned (z : Mpz) : Mpz := {z with neg := !z.neg}

theorem toInt_turned (z : Mpz) : toInt w (turned z)=-toInt w z := by
  rw [toInt,toInt,turned]
  cases z.neg
  · rfl
  · exact (Int.neg_neg _).symm

/-- The operand with the larger magnitude first, a difference is exact, and turned when
the operands were exchanged. -/
theorem subInplOrdered_result (hl : Normal w (st lhs)) (hr : Normal w (st rhs))
    (hfixed : (st dest).fixedDig=false) (hle : mag w (st rhs) ≤ mag w (st lhs)) (neg : Bool) :
    ∃ st',subInplOrdered w st dest lhs rhs neg=.ok st'∧
      Result w st dest (if neg then toInt w (st rhs)-toInt w (st lhs)
        else toInt w (st lhs)-toInt w (st rhs)) st' := by
  have hlen := hr.digits.len_le_of_value_le hl.digits hle
  have hsign : ∀ v : ℕ,(if (if neg then !(st lhs).neg else (st lhs).neg) then -(v : ℤ)
      else (v : ℤ))=if neg then -(if (st lhs).neg then -(v : ℤ) else v)
        else if (st lhs).neg then -(v : ℤ) else v := by
    intro v
    cases neg <;> cases (st lhs).neg <;> simp
  have hdiff : (if neg then toInt w (st rhs)-toInt w (st lhs)
      else toInt w (st lhs)-toInt w (st rhs))=
      if neg then -(toInt w (st lhs)+toInt w (turned (st rhs)))
        else toInt w (st lhs)+toInt w (turned (st rhs)) := by
    rw [toInt_turned]
    split <;> omega
  rw [hdiff]
  unfold subInplOrdered
  by_cases hneg : (st lhs).neg≠(st rhs).neg
  · have hyields := @mpnAdd_yields w (grow st dest ((st lhs).len+1)) dest (.object lhs)
      (.object rhs) (hl.grow dest _) (hr.grow dest _) (by simpa only [Source.mpz,grow_len])
      (by rw [Source.mpz,grow_len,grow_self]; exact need_le_grown _ _)
    have hsame : (st lhs).neg=(turned (st rhs)).neg := Bool.eq_not_of_ne hneg
    have hresult := result_of_yields hyields
      (fun s => if neg then !(s lhs).neg else (s lhs).neg) (fun g len => by rw [neg_setLen])
    simp only [Source.mpz,mag_grow] at hresult
    rw [hsign] at hresult
    rw [toInt_add_of_eq hsame]
    rw [if_pos hneg,bind_ok _ (mpzNeedDig_eq hfixed)]
    exact hresult
  · have hyields := @mpnSub_yields w (grow st dest (st lhs).len) dest (.object lhs)
      (.object rhs) (hl.grow dest _) (hr.grow dest _) (by simpa only [Source.mpz,mag_grow])
      (by rw [Source.mpz,grow_len,grow_self]; exact need_le_grown _ _)
    have hopposite : (st lhs).neg≠(turned (st rhs)).neg := by
      rw [Decidable.not_not.mp hneg]
      exact (Bool.not_ne_self _).symm
    have hresult := result_of_yields hyields
      (fun s => if neg then !(s lhs).neg else (s lhs).neg) (fun g len => by rw [neg_setLen])
    simp only [Source.mpz,mag_grow] at hresult
    rw [hsign] at hresult
    rw [toInt_add_of_ne hopposite hle]
    dsimp only
    rw [if_neg hneg,bind_ok _ (mpzNeedDig_eq hfixed)]
    exact hresult

end Results

section Exact

variable {w : DigSize} {st : Store} {dest lhs rhs : ℕ}

/-- `mpz_add_inpl` leaves the sum. -/
theorem mpzAddInpl_result (hl : Normal w (st lhs)) (hr : Normal w (st rhs))
    (hfixed : (st dest).fixedDig=false) :
    ∃ st',mpzAddInpl w st dest lhs rhs=.ok st'∧
      Result w st dest (toInt w (st lhs)+toInt w (st rhs)) st' := by
  obtain ⟨c,hcmp,hc,-⟩ := @mpnCmp_spec w st (.object lhs) (.object rhs) hl hr
  rw [mpzAddInpl]
  simp only [Source.mpz] at hcmp hc
  rw [bind_ok _ hcmp]
  split
  case isTrue hlt =>
    rw [Int.add_comm]
    exact addInplOrdered_result hr hl hfixed (le_of_lt (hc.mp hlt))
  case isFalse hge =>
    exact addInplOrdered_result hl hr hfixed (not_lt.mp (fun h => hge (hc.mpr h)))

/-- `mpz_sub_inpl` leaves the difference. -/
theorem mpzSubInpl_result (hl : Normal w (st lhs)) (hr : Normal w (st rhs))
    (hfixed : (st dest).fixedDig=false) :
    ∃ st',mpzSubInpl w st dest lhs rhs=.ok st'∧
      Result w st dest (toInt w (st lhs)-toInt w (st rhs)) st' := by
  obtain ⟨c,hcmp,hc,-⟩ := @mpnCmp_spec w st (.object lhs) (.object rhs) hl hr
  rw [mpzSubInpl]
  simp only [Source.mpz] at hcmp hc
  rw [bind_ok _ hcmp]
  split
  case isTrue hlt =>
    exact subInplOrdered_result hr hl hfixed (le_of_lt (hc.mp hlt)) true
  case isFalse hge =>
    exact subInplOrdered_result hl hr hfixed (not_lt.mp (fun h => hge (hc.mpr h))) false

theorem mpz_of_frame {st' : Store} {s : Source} {i : ℕ} (h : s≠.object i)
    (hframe : ∀ a≠i,st' a=st a) : s.mpz st'=s.mpz st := by
  cases s with
  | separate z => rfl
  | object a => exact hframe a (fun ha => h (by rw [ha]))

/-- A source holds what an object does. -/
def Holds (w : DigSize) (z z' : Mpz) : Prop :=
  Normal w z'∧z'.neg=z.neg∧z'.len=z.len∧mag w z'=mag w z

variable {z : Mpz}

theorem holds_self (h : Normal w z) : Holds w z z := ⟨h,rfl,rfl,rfl⟩

/-- A clone holds what its object does. -/
theorem holds_clone (h : Normal w z) : Holds w z (mpzClone z) :=
  ⟨⟨h.alloc,h.lt,h.top⟩,rfl,rfl,rfl⟩

/-- The factors of a product are not the destination and hold what the operands do. -/
theorem mulFactors_spec (hl : Normal w (st lhs)) (hr : Normal w (st rhs)) :
    ((mulFactors st dest lhs rhs).1≠.object dest∧(mulFactors st dest lhs rhs).2≠.object dest)∧
      Holds w (st lhs) ((mulFactors st dest lhs rhs).1.mpz st)∧
      Holds w (st rhs) ((mulFactors st dest lhs rhs).2.mpz st) := by
  have hobject : ∀ {a : ℕ},a≠dest→Source.object a≠.object dest :=
    fun hne heq => hne (Source.object.inj heq)
  have hseparate : ∀ z : Mpz,Source.separate z≠.object dest := fun z h => nomatch h
  unfold mulFactors
  split
  case isTrue hld =>
    split
    case isTrue hrd =>
      have hrl : rhs=lhs := hrd.trans hld.symm
      rw [hrl]
      exact ⟨⟨hseparate _,hseparate _⟩,holds_clone hl,holds_clone hl⟩
    case isFalse hrd => exact ⟨⟨hseparate _,hobject hrd⟩,holds_clone hl,holds_self hr⟩
  case isFalse hld =>
    split
    case isTrue hrd => exact ⟨⟨hobject hld,hseparate _⟩,holds_self hl,holds_clone hr⟩
    case isFalse hrd => exact ⟨⟨hobject hld,hobject hrd⟩,holds_self hl,holds_self hr⟩

/-- An object without digits is zero. -/
theorem toInt_of_len (h : z.len=0) : toInt w z=0 := by
  rw [toInt,mag,h,value_zero]
  split <;> rfl

/-- The sign of a product. -/
theorem toInt_mul (a b : Mpz) : toInt w a*toInt w b=
    if (if a.neg=b.neg then false else true) then -((mag w a*mag w b : ℕ) : ℤ)
    else ((mag w a*mag w b : ℕ) : ℤ) := by
  rw [toInt,toInt]
  cases a.neg <;> cases b.neg <;> simp

/-- `mpz_mul_inpl` leaves the product. -/
theorem mpzMulInpl_result (hl : Normal w (st lhs)) (hr : Normal w (st rhs))
    (hfixed : (st dest).fixedDig=false) :
    ∃ st',mpzMulInpl w st dest lhs rhs=.ok st'∧
      Result w st dest (toInt w (st lhs)*toInt w (st rhs)) st' := by
  rw [mpzMulInpl]
  split
  case isTrue hzero =>
    have hproduct : toInt w (st lhs)*toInt w (st rhs)=0 := by
      rcases hzero with hz | hz
      · rw [toInt_of_len hz,Int.zero_mul]
      · rw [toInt_of_len hz,Int.mul_zero]
    have hself : setLen st dest 0 dest={st dest with len := 0} := update_self ..
    refine ⟨_,rfl,⟨?_,?_,fun a ha => update_of_ne ha ..⟩⟩
    · rw [hself]
      exact ⟨Nat.zero_le _,fun t ht => absurd ht (not_lt_zero t),
        fun n hn => absurd hn (succ_ne_zero n).symm⟩
    · rw [hself,hproduct,toInt_of_len rfl]
  case isFalse hne =>
    obtain ⟨⟨hfne,hgne⟩,⟨hfn,hfneg,hflen,hfmag⟩,⟨hgn,hgneg,hglen,hgmag⟩⟩ :=
      @mulFactors_spec w st dest lhs rhs hl hr
    generalize hfactors : mulFactors st dest lhs rhs=f at *
    generalize hneed : (f.1.mpz st).len+(f.2.mpz st).len=need
    -- The destination has room for the product and its digits are zero.
    generalize hroom : setDig (grow st dest need) dest (fun t => if t<(grow st dest need
      dest).alloc then 0 else (grow st dest need dest).dig t)=room
    have hframe : ∀ a≠dest,room a=st a := by
      intro a ha
      rw [←hroom,setDig_of_ne _ _ ha,grow_of_ne _ _ ha]
    have hself : room dest={grow st dest need dest with
        dig := fun t => if t<(grow st dest need dest).alloc then 0
          else (grow st dest need dest).dig t} := by
      rw [←hroom,setDig_self]
    have hf := mpz_of_frame hfne hframe
    have hg := mpz_of_frame hgne hframe
    have hyields := @mpnMul_yields w room dest f.1 f.2 (by rwa [hf]) (by rwa [hg]) hfne hgne
      (by rw [hf,hg,hneed,hself,grow_self]; exact need_le_grown _ _)
      (fun t ht => by rw [hself] at ht ⊢; exact if_pos ht)
      (by rw [hf,hflen]; exact fun h => hne (.inl h))
      (by rw [hg,hglen]; exact fun h => hne (.inr h))
    obtain ⟨len,g,hrun,hlen,hdigits,hvalue⟩ := hyields
    have hresult := @result_of_digits w st dest need len g
      (by rw [hself] at hlen; exact hlen) hdigits
      (if (f.1.mpz st).neg=(f.2.mpz st).neg then false else true)
    rw [hvalue,hf,hg,hfmag,hgmag,hfneg,hgneg,←toInt_mul] at hresult
    have hgrown : setDig room dest g=setDig (grow st dest need) dest g := by
      rw [←hroom,setDig_setDig]
    have hlast : ∀ a≠dest,setLen (setDig room dest g) dest len a=st a := by
      intro a ha
      rw [setLen,update_of_ne ha,setDig_of_ne _ _ ha,hframe a ha]
    refine ⟨_,?_,hresult⟩
    dsimp only
    rw [hneed,bind_ok _ (mpzNeedDig_eq hfixed),hroom,bind_ok _ hrun,
      mpz_of_frame hfne hlast,mpz_of_frame hgne hlast,hgrown,hfneg,hgneg]

end Exact

/-- The operations of arithmetic in place. -/
inductive ArithOp
  /-- `mpz_add_inpl`. -/
  | add
  /-- `mpz_sub_inpl`. -/
  | sub
  /-- `mpz_mul_inpl`. -/
  | mul

/-- The function of an operation. -/
def ArithOp.run (w : DigSize) : ArithOp→Store→ℕ→ℕ→ℕ→Except Fault Store
  | .add => mpzAddInpl w
  | .sub => mpzSubInpl w
  | .mul => mpzMulInpl w

/-- What an operation means on the integers. -/
def ArithOp.meaning : ArithOp→ℤ→ℤ→ℤ
  | .add => fun a b => a+b
  | .sub => fun a b => a-b
  | .mul => fun a b => a*b

/-- Sums, differences and products in place are exact and in the canonical form, for all
signs and lengths, for a zero with any sign and whichever operands are the destination.
The other objects stay as they were. -/
theorem arithOp_exact {w : DigSize} (op : ArithOp) (o : Operands w) :
    ∃ st',op.run w o.store o.dest o.lhs o.rhs=.ok st'∧Result w o.store o.dest
        (op.meaning (toInt w (o.store o.lhs)) (toInt w (o.store o.rhs))) st' := by
  cases op with
  | add => exact mpzAddInpl_result o.normalLhs o.normalRhs o.growing
  | sub => exact mpzSubInpl_result o.normalLhs o.normalRhs o.growing
  | mul => exact mpzMulInpl_result o.normalLhs o.normalRhs o.growing

end MicroPython.MpzArith
