import Mathlib.Data.Nat.Bitwise
import Mathlib.Tactic.Ring
import Mathlib.Tactic.LinearCombination

/-!
# Numbers given by their digits

A number is read from its digits with the lowest first. Arithmetic on digits goes
through a carry that each place hands to the next. The bits of a number can be taken
digit by digit when the base is a power of two.
-/

namespace MicroPython.Positional

section Semiring

variable {R : Type} [CommSemiring R]

/-- The number whose digits to a base are given as far as a length. -/
def value (B : R) (f : ℕ→R) : ℕ→R
  | 0 => 0
  | n+1 => value B f n+f n*B^n

variable (B : R) (f : ℕ→R)

/-- No digit at all. -/
@[simp] theorem value_zero : value B f 0=0 := rfl

/-- One digit more on top. -/
theorem value_succ (n : ℕ) : value B f (n+1)=value B f n+f n*B^n := rfl

/-- Only the digits below the length count. -/
theorem value_congr {B : R} {f g : ℕ→R} {n : ℕ} (h : ∀ t<n,f t=g t) : value B f n=value B g n := by
  induction n with
  | zero => rfl
  | succ n ih =>
    have hlow := ih (fun t ht => h t (Nat.lt_succ_of_lt ht))
    rw [value_succ,value_succ,hlow,h n (Nat.lt_succ_self n)]

/-- Digits are added place by place. -/
theorem value_add (f g : ℕ→R) (n : ℕ) :
    value B (fun t => f t+g t) n=value B f n+value B g n := by
  induction n with
  | zero => simp only [value_zero,add_zero]
  | succ n ih =>
    simp only [value_succ,ih]
    ring

/-- Every digit is multiplied by the same factor. -/
theorem value_const_mul (B a : R) (f : ℕ→R) (n : ℕ) : value B (fun t => a*f t) n=a*value B f n := by
  induction n with
  | zero => simp only [value_zero,mul_zero]
  | succ n ih =>
    simp only [value_succ,ih]
    ring

/-- The digits above a place stand for their number at that place. -/
theorem value_append (m n : ℕ) :
    value B f (m+n)=value B f m+B^m*value B (fun t => f (m+t)) n := by
  induction n with
  | zero => simp only [value_zero,mul_zero,add_zero]
  | succ n ih =>
    rw [←Nat.add_assoc,value_succ,ih,value_succ]
    ring

/-- Zeros on top do not count. -/
theorem value_of_zeros {B : R} {f : ℕ→R} {m n : ℕ} (hmn : m ≤ n) (h : ∀ t,m ≤ t → t<n → f t=0) :
    value B f n=value B f m := by
  induction n with
  | zero => rw [Nat.le_zero.mp hmn]
  | succ n ih =>
    rcases Nat.lt_or_ge n m with hlt | hge
    · rw [Nat.le_antisymm hmn hlt]
    · have hlow := ih hge (fun t hmt htn => h t hmt (Nat.lt_succ_of_lt htn))
      rw [value_succ,hlow,h n hge (Nat.lt_succ_self n),zero_mul,add_zero]

/-- The largest digit at every place. -/
theorem value_add_one {B d : R} (h : d+1=B) (n : ℕ) : value B (fun _ => d) n+1=B^n := by
  induction n with
  | zero => rw [value_zero,pow_zero,zero_add]
  | succ n ih =>
    have hplace : B^n+d*B^n=B^(n+1) := by
      rw [pow_succ',←h]
      ring
    rw [value_succ,add_right_comm,ih,hplace]

/-- Digits with zeros past their length. -/
def padded (f : ℕ→R) (len t : ℕ) : R := if t<len then f t else 0

/-- Zeros past the length do not count. -/
theorem value_padded {len n : ℕ} (h : len ≤ n) :
    value B (padded f len) n=value B f len := by
  have hzeros : ∀ t,len ≤ t → t<n → padded f len t=0 := fun t ht _ =>
    if_neg (Nat.not_lt.mpr ht)
  rw [value_of_zeros h hzeros]
  exact value_congr (fun t ht => if_pos ht)

end Semiring

section Carries

variable {R : Type} [CommRing R]

/-- A carry that each place hands to the next comes out above the top. -/
theorem value_carry {B : R} {s g c : ℕ→R} {n : ℕ} (h : ∀ t<n,s t+c t=g t+B*c (t+1)) :
    value B s n+c 0=value B g n+B^n*c n := by
  induction n with
  | zero => simp only [value_zero,pow_zero,one_mul]
  | succ n ih =>
    have hlow := ih (fun t ht => h t (Nat.lt_succ_of_lt ht))
    have htop := h n (Nat.lt_succ_self n)
    simp only [value_succ]
    linear_combination hlow+B^n*htop

end Carries

/-- Digits in the natural numbers read as integers. -/
theorem value_cast (B : ℕ) (f : ℕ→ℕ) (n : ℕ) :
    ((value B f n : ℕ) : ℤ)=value (B : ℤ) (fun t => (f t : ℤ)) n := by
  induction n with
  | zero => rfl
  | succ n ih =>
    rw [value_succ,value_succ,←ih]
    push_cast
    rfl

/-- The digits that complete each place to the largest digit. -/
theorem value_complement {B : ℕ} {f : ℕ→ℕ} {n : ℕ} (h : ∀ t<n,f t<B) :
    value B (fun t => B-1-f t) n+value B f n+1=B^n := by
  induction n with
  | zero => rw [value_zero,value_zero,pow_zero,Nat.zero_add,Nat.zero_add]
  | succ n ih =>
    have hlow := ih (fun t ht => h t (Nat.lt_succ_of_lt ht))
    have htop : (B-1-f n)*B^n+f n*B^n+B^n=B^(n+1) := by
      have hdigit := h n (Nat.lt_succ_self n)
      have hone : B-1-f n+f n+1=B := by omega
      rw [←Nat.add_mul,←Nat.succ_mul,Nat.succ_eq_add_one,hone,pow_succ']
    rw [value_succ,value_succ]
    omega

section Bounds

variable {B : ℕ} {f g : ℕ→ℕ}

/-- Digits below the base give a number below the power of the length. -/
theorem value_lt {n : ℕ} (h : ∀ t<n,f t<B) : value B f n<B^n := by
  induction n with
  | zero => exact Nat.one_pos
  | succ n ih =>
    have hlow := ih (fun t ht => h t (Nat.lt_succ_of_lt ht))
    have htop : (f n+1)*B^n ≤ B*B^n := Nat.mul_le_mul_right _ (h n (Nat.lt_succ_self n))
    have hexpand : (f n+1)*B^n=f n*B^n+B^n := Nat.succ_mul _ _
    rw [value_succ,Nat.pow_succ']
    omega

theorem le_value {n : ℕ} (h : f n≠0) : B^n ≤ value B f (n+1) := by
  have htop : 1*B^n ≤ f n*B^n := Nat.mul_le_mul_right _ (Nat.pos_of_ne_zero h)
  rw [value_succ]
  omega

/-- Some digit is not zero exactly when the number is not. -/
theorem value_ne_zero_iff (hB : 0<B) (f : ℕ→ℕ) (n : ℕ) : value B f n≠0↔∃ u<n,f u≠0 := by
  refine ⟨fun hne => ?_,fun ⟨u,hu,hd⟩ hzero => ?_⟩
  · by_contra hnone
    have hzeros : ∀ t,0 ≤ t → t<n → f t=0 := fun t _ ht =>
      Decidable.not_not.mp fun hd => hnone ⟨t,ht,hd⟩
    exact hne (value_of_zeros (Nat.zero_le n) hzeros)
  · obtain ⟨k,rfl⟩ := Nat.exists_eq_add_of_le (Nat.succ_le_of_lt hu)
    have hplace := @le_value B f u hd
    have hpow := Nat.pow_pos (n := u) hB
    rw [value_append] at hzero
    rw [Nat.succ_eq_add_one] at hzero
    omega

theorem top_ne_zero {n : ℕ} (h : ∀ t<n,f t<B) (hle : B^n ≤ value B f (n+1)) : f n≠0 := by
  intro htop
  have hlow := value_lt h
  rw [value_succ,htop,Nat.zero_mul] at hle
  omega

/-- The number with the larger top digit is larger. -/
theorem value_lt_value {n : ℕ} (h : ∀ t<n,f t<B) (htop : f n<g n) :
    value B f (n+1)<value B g (n+1) := by
  have hlow := value_lt h
  have hmul : (f n+1)*B^n ≤ g n*B^n := Nat.mul_le_mul_right _ htop
  have hexpand : (f n+1)*B^n=f n*B^n+B^n := Nat.succ_mul _ _
  rw [value_succ,value_succ]
  omega

end Bounds

section Trimming

/-- The length without the zeros on top. -/
def trim (f : ℕ→ℕ) : ℕ→ℕ
  | 0 => 0
  | n+1 => if f n=0 then trim f n else n+1

variable (f : ℕ→ℕ)

/-- The length does not grow. -/
theorem trim_le (n : ℕ) : trim f n ≤ n := by
  induction n with
  | zero => exact Nat.le_refl 0
  | succ n ih =>
    rw [trim]
    split
    · exact Nat.le_succ_of_le ih
    · exact Nat.le_refl _

/-- The number stays the same. -/
theorem value_trim (B n : ℕ) : value B f (trim f n)=value B f n := by
  induction n with
  | zero => rfl
  | succ n ih =>
    rw [trim]
    split
    case isTrue h => rw [ih,value_succ,h,Nat.zero_mul,Nat.add_zero]
    · rfl

/-- The top digit is not zero. -/
theorem trim_top {n m : ℕ} (h : trim f n=m+1) : f m≠0 := by
  induction n with
  | zero => exact absurd h (Nat.succ_ne_zero m).symm
  | succ n ih =>
    rw [trim] at h
    split at h
    · exact ih h
    case isFalse hne => rwa [←Nat.succ_injective h]

end Trimming

section Division

/-- The digit of a number at a place. -/
def digitAt (B v t : ℕ) : ℕ := v/B^t%B

/-- A digit fits the base. -/
theorem digitAt_lt {B : ℕ} (hB : 0<B) (v t : ℕ) : digitAt B v t<B := Nat.mod_lt _ hB

theorem value_digitAt (B v n : ℕ) : value B (digitAt B v) n=v%B^n := by
  induction n with
  | zero => rw [value_zero,pow_zero,Nat.mod_one]
  | succ n ih =>
    rw [value_succ,ih,digitAt,pow_succ,Nat.mod_mul,Nat.mul_comm (B^n)]

variable {B : ℕ} {f : ℕ→ℕ} {n : ℕ}

theorem value_mod {m : ℕ} (hm : m ≤ n) (h : ∀ t<n,f t<B) : value B f n%B^m=value B f m := by
  obtain ⟨k,rfl⟩ := Nat.exists_eq_add_of_le hm
  have hlow := value_lt (fun t ht => h t (Nat.lt_of_lt_of_le ht hm))
  rw [value_append,Nat.add_mul_mod_self_left,Nat.mod_eq_of_lt hlow]

/-- The quotient by a power has the digits above it. -/
theorem value_div {m : ℕ} (hm : m ≤ n) (h : ∀ t<n,f t<B) :
    value B f n/B^m=value B (fun t => f (m+t)) (n-m) := by
  obtain ⟨k,rfl⟩ := Nat.exists_eq_add_of_le hm
  have hlow := value_lt (fun t ht => h t (Nat.lt_of_lt_of_le ht hm))
  have hpos : 0<B^m := Nat.zero_lt_of_lt hlow
  rw [value_append,Nat.add_mul_div_left _ _ hpos,Nat.div_eq_of_lt hlow,Nat.zero_add,
    Nat.add_sub_cancel_left]

/-- The digits of a number are those that it is read from. -/
theorem digitAt_value {t : ℕ} (ht : t<n) (h : ∀ t<n,f t<B) : digitAt B (value B f n) t=f t := by
  have hlow := value_mod (Nat.succ_le_of_lt ht) h
  have hbelow := value_lt (fun s hs => h s (Nat.lt_trans hs ht))
  have htop : value B f (t+1)/B^t=f t := by
    rw [value_succ,Nat.add_mul_div_right _ _ (Nat.zero_lt_of_lt hbelow),
      Nat.div_eq_of_lt hbelow,Nat.zero_add]
  rw [digitAt,←htop,←hlow,Nat.succ_eq_add_one,pow_succ,Nat.mod_mul_right_div_self]

/-- Above its length a number has no digit. -/
theorem digitAt_of_lt {v t : ℕ} (h : v<B^t) : digitAt B v t=0 := by
  rw [digitAt,Nat.div_eq_of_lt h,Nat.zero_mod]

end Division

section NaturalCarries

variable (B : ℕ) (s : ℕ→ℕ) (c : ℕ)

/-- The carry into a place when numbers are to be written at the places. -/
def carry : ℕ→ℕ
  | 0 => c
  | t+1 => (carry t+s t)/B

/-- The digit at a place when numbers are to be written at the places. -/
def carryDigit (t : ℕ) : ℕ := (carry B s c t+s t)%B

/-- The digits with the last carry stand for the numbers with the first one. -/
theorem value_carryDigit (n : ℕ) :
    value B s n+c=value B (carryDigit B s c) n+carry B s c n*B^n := by
  induction n with
  | zero => rw [value_zero,value_zero,carry,pow_zero,Nat.mul_one]
  | succ n ih =>
    have hdiv := Nat.mod_add_div (carry B s c n+s n) B
    have hplace : carryDigit B s c n*B^n+carry B s c (n+1)*B^(n+1)=(carry B s c n+s n)*B^n := by
      rw [carryDigit,carry,pow_succ',←Nat.mul_assoc,Nat.mul_comm _ B,←Nat.add_mul,hdiv]
    rw [Nat.add_mul] at hplace
    rw [value_succ,value_succ]
    omega

/-- The digits fit the base. -/
theorem carryDigit_lt (hB : 0<B) (t : ℕ) : carryDigit B s c t<B := Nat.mod_lt _ hB

variable {B s c}

/-- A carry stays below a bound that each place keeps. -/
theorem carry_lt {b n : ℕ} (hc : c<b) (hs : ∀ t<n,∀ x<b,x+s t<b*B) :
    ∀ t ≤ n,carry B s c t<b := by
  intro t
  induction t with
  | zero => exact fun _ => hc
  | succ t ih =>
    intro ht
    exact Nat.div_lt_of_lt_mul (Nat.mul_comm b B ▸ hs t ht _ (ih (Nat.le_of_lt ht)))

end NaturalCarries

section Borrows

variable (B : ℕ) (s : ℕ→ℤ)

/-- The borrow into a place when integers are to be written at the places. -/
def borrow : ℕ→ℤ
  | 0 => 0
  | t+1 => (borrow t+s t)/B

/-- The digit at a place when integers are to be written at the places. -/
def borrowDigit (t : ℕ) : ℕ := ((borrow B s t+s t)%B).toNat

variable {B s}

/-- The digits with the last borrow stand for the integers. -/
theorem value_borrowDigit (hB : 0<B) (n : ℕ) :
    value (B : ℤ) s n=value B (borrowDigit B s) n+(B : ℤ)^n*borrow B s n := by
  have hplace : ∀ t<n,s t+borrow B s t=((borrowDigit B s t : ℕ) : ℤ)+(B : ℤ)*borrow B s (t+1) := by
    intro t _
    have hpos := Int.emod_nonneg (borrow B s t+s t) (by omega : (B : ℤ)≠0)
    have hdiv := Int.emod_add_mul_ediv (borrow B s t+s t) B
    rw [borrowDigit,Int.toNat_of_nonneg hpos,borrow,hdiv,Int.add_comm]
  rw [value_cast,←value_carry hplace,borrow,add_zero]

/-- The digits fit the base. -/
theorem borrowDigit_lt (hB : 0<B) (t : ℕ) : borrowDigit B s t<B := by
  have hlt := Int.emod_lt_of_pos (borrow B s t+s t) (by omega : (0 : ℤ)<B)
  rw [borrowDigit]
  omega

theorem borrow_nonpos (hB : 0<B) {n : ℕ} (hs : ∀ t<n,s t<B) : ∀ t ≤ n,borrow B s t ≤ 0 := by
  intro t
  induction t with
  | zero => exact fun _ => Int.le_refl 0
  | succ t ih =>
    intro ht
    have hplace := hs t ht
    exact Int.lt_add_one_iff.mp (Int.ediv_lt_of_lt_mul (by omega) (by omega))

/-- A place that is less than the base below zero borrows at most one. -/
theorem borrow_bounds (hB : 0<B) {n : ℕ} (hs : ∀ t<n,-(B : ℤ) < s t∧s t<B) :
    ∀ t ≤ n,-1 ≤ borrow B s t∧borrow B s t ≤ 0 := by
  intro t
  induction t with
  | zero =>
    intro _
    rw [borrow]
    omega
  | succ t ih =>
    intro ht
    have hplace := hs t ht
    refine ⟨?_,?_⟩
    · exact Int.le_ediv_of_mul_le (by omega) (by omega)
    · exact Int.lt_add_one_iff.mp (Int.ediv_lt_of_lt_mul (by omega) (by omega))

end Borrows

section Bits

/-- An operation on numbers that works bit by bit. -/
structure Bitwise where
  /-- The operation on numbers. -/
  op : ℕ→ℕ→ℕ
  /-- The operation on a bit of each. -/
  bit : Bool→Bool→Bool
  /-- Each bit of the result comes from the bits at its place. -/
  testBit_op : ∀ x y i,(op x y).testBit i=bit (x.testBit i) (y.testBit i)

/-- The conjunction. -/
def Bitwise.and : Bitwise := ⟨fun x y => x&&&y,Bool.and,fun x y i => Nat.testBit_and x y i⟩

/-- The disjunction. -/
def Bitwise.or : Bitwise := ⟨fun x y => x|||y,Bool.or,fun x y i => Nat.testBit_or x y i⟩

/-- The exclusive disjunction. -/
def Bitwise.xor : Bitwise := ⟨fun x y => x^^^y,Bool.xor,fun x y i => Nat.testBit_xor x y i⟩

variable (b : Bitwise)

/-- Two bits that are off stay off. -/
theorem Bitwise.bit_false : b.bit false false=false := by
  have hlarge : (b.op 0 0).testBit (b.op 0 0)=false :=
    Nat.testBit_lt_two_pow Nat.lt_two_pow_self
  rw [b.testBit_op,Nat.zero_testBit] at hlarge
  exact hlarge

/-- The result fits where both operands fit. -/
theorem Bitwise.op_lt {x y m : ℕ} (hx : x<2^m) (hy : y<2^m) : b.op x y<2^m := by
  refine Nat.lt_pow_two_of_testBit _ (fun i hi => ?_)
  have hxbit := Nat.testBit_lt_two_pow (Nat.lt_of_lt_of_le hx (Nat.pow_le_pow_right (by omega) hi))
  have hybit := Nat.testBit_lt_two_pow (Nat.lt_of_lt_of_le hy (Nat.pow_le_pow_right (by omega) hi))
  rw [b.testBit_op,hxbit,hybit,b.bit_false]

/-- The low bits of the result come from the low bits. -/
theorem Bitwise.op_mod (x y m : ℕ) : b.op x y%2^m=b.op (x%2^m) (y%2^m) := by
  refine Nat.eq_of_testBit_eq (fun i => ?_)
  rw [Nat.testBit_mod_two_pow,b.testBit_op,b.testBit_op,Nat.testBit_mod_two_pow,
    Nat.testBit_mod_two_pow]
  by_cases hi : i < m
  · simp only [hi,decide_true,Bool.true_and]
  · simp only [hi,decide_false,Bool.false_and,b.bit_false]

/-- The operation on the low bits and on the high bits. -/
theorem Bitwise.op_split {x y u v m : ℕ} (hx : x<2^m) (hy : y<2^m) :
    b.op (2^m*u+x) (2^m*v+y)=2^m*b.op u v+b.op x y := by
  refine Nat.eq_of_testBit_eq (fun i => ?_)
  rw [b.testBit_op,Nat.testBit_two_pow_mul_add _ hx,Nat.testBit_two_pow_mul_add _ hy,
    Nat.testBit_two_pow_mul_add _ (b.op_lt hx hy)]
  split
  · rw [b.testBit_op]
  · rw [b.testBit_op]

/-- The operation may be done digit by digit. -/
theorem Bitwise.value_op {w n : ℕ} {f g : ℕ→ℕ} (hf : ∀ t<n,f t<2^w) (hg : ∀ t<n,g t<2^w) :
    value (2^w) (fun t => b.op (f t) (g t)) n=b.op (value (2^w) f n) (value (2^w) g n) := by
  induction n with
  | zero =>
    have hzero : b.op 0 0<2^0 := b.op_lt (m := 0) Nat.one_pos Nat.one_pos
    rw [value_zero,value_zero,value_zero]
    omega
  | succ n ih =>
    have hflow : ∀ t<n,f t<2^w := fun t ht => hf t (Nat.lt_succ_of_lt ht)
    have hglow : ∀ t<n,g t<2^w := fun t ht => hg t (Nat.lt_succ_of_lt ht)
    have hfv := value_lt hflow
    have hgv := value_lt hglow
    rw [←Nat.pow_mul] at hfv hgv
    have hsplit := b.op_split (u := f n) (v := g n) hfv hgv
    simp only [value_succ,ih hflow hglow,←Nat.pow_mul]
    rw [Nat.add_comm _ (f n*_),Nat.add_comm _ (g n*_),Nat.mul_comm (f n),Nat.mul_comm (g n),hsplit]
    ring

end Bits

end MicroPython.Positional
