import Mathlib.Algebra.Group.Nat.Defs
import Mathlib.Tactic.Common

/-!
# Integers as text

A constant integer is saved as its decimal digits and read back by the parser
of numbers, first with machine arithmetic and again with long integers when it
turns out too large. Characters are the naturals that encode them.
-/

namespace MicroPython.NumberText

open List

/-- Decimal digits above the last one. The fuel bounds the number of digits. -/
def decimalLoop : ℕ→ℕ→List ℕ→List ℕ
  | 0,_,str => str
  | fuel+1,num,str => if num=0 then str else decimalLoop fuel (num/10) ((48+num%10)::str)

/-- `mp_obj_int_print`: the decimal digits, after a sign when it is negative. -/
def mpObjIntPrint (n : ℤ) : List ℕ :=
  let digits := decimalLoop n.natAbs (n.natAbs/10) [48+n.natAbs%10]
  if n<0 then 45::digits else digits

/-- `unichar_isspace` -/
def unicharIsspace (c : ℕ) : Bool := c=32 || (9≤c && c≤13)

/-- The value of a character as a digit, or nothing for other characters. -/
def digitValue (c : ℕ) : Option ℕ :=
  if 48≤c∧c≤57 then some (c-48)
  else
    let c := c|||0x20 -- make digit lower-case
    if 97≤c∧c≤122 then some (c-97+10) else none

/-- `MP_SMALL_INT_FITS` of a number that is not negative. -/
def smallIntFits (bits n : ℕ) : Bool := n<2^(bits-1)

/-- The loop over the digits with a small int, which gives up, with nothing, when
the number gets too large: the number and the characters after it. -/
def parseSmallInt (bits base : ℕ) : ℕ→List ℕ→Option (ℕ×List ℕ)
  | intVal,[] => some (intVal,[])
  | intVal,c::str =>
    match digitValue c with
    | none => some (intVal,c::str)
    | some dig =>
      if base≤dig then some (intVal,c::str)
      else if smallIntFits bits (intVal*base) && smallIntFits bits (intVal*base+dig) then
        parseSmallInt bits base (intVal*base+dig) str
      else none

/-- `mpz_set_from_str`: the same loop with a number of any size. -/
def mpzSetFromStr (base : ℕ) : ℕ→List ℕ→ℕ×List ℕ
  | val,[] => (val,[])
  | val,c::str =>
    match digitValue c with
    | none => (val,c::str)
    | some dig => if base≤dig then (val,c::str) else mpzSetFromStr base (val*base+dig) str

/-- `mp_parse_num_integer`, where `base` is not zero and has no prefix to strip. -/
def mpParseNumInteger (bits base : ℕ) (str : List ℕ) : Option ℤ :=
  let str := str.dropWhile unicharIsspace
  let neg := str.head?=some 45
  let start := if str.head?=some 43∨neg then str.tail else str
  let (intVal,rest) := match parseSmallInt bits base 0 start with
    | some parsed => parsed
    | none => mpzSetFromStr base 0 start -- reparse using long int
  -- check we parsed something, and reached the end after trailing space
  if rest.length=start.length then none
  else if rest.dropWhile unicharIsspace≠[] then none
  else some (if neg then -(intVal : ℤ) else intVal)

/-- A character is a decimal digit. -/
def IsDigit (c : ℕ) : Prop := 48≤c∧c≤57

/-- The number that decimal digits stand for, after digits read before. -/
def decimalValue (val : ℕ) (str : List ℕ) : ℕ := str.foldl (fun val c => val*10+(c-48)) val

theorem digitValue_of_isDigit {c : ℕ} (h : IsDigit c) : digitValue c=some (c-48) := by
  have hrange : 48≤c∧c≤57 := h
  rw [digitValue,if_pos hrange]

/-- Digits above the last one are digits and stand for the number. -/
theorem decimalLoop_spec (fuel : ℕ) :
    ∀ n≤fuel,∀ str,∃ front,(∀ c∈front,IsDigit c)∧decimalLoop fuel n str=front++str∧
      decimalValue 0 front=n := by
  induction fuel with
  | zero =>
    intro n hn str
    have hzero : n=0 := by omega
    exact ⟨[],fun c hc => absurd hc not_mem_nil,rfl,hzero.symm⟩
  | succ fuel ih =>
    intro n hn str
    rw [decimalLoop]
    split
    case isTrue hzero => exact ⟨[],fun c hc => absurd hc not_mem_nil,rfl,hzero.symm⟩
    case isFalse hzero =>
      obtain ⟨front,hdigits,hloop,hvalue⟩ := ih (n/10) (by omega) ((48+n%10)::str)
      refine ⟨front++[48+n%10],?_,?_,?_⟩
      · intro c hc
        rcases mem_append.mp hc with hfront | hlast
        · exact hdigits c hfront
        · rw [mem_singleton.mp hlast,IsDigit]
          omega
      · rw [hloop,append_assoc]
        rfl
      · rw [decimalValue,foldl_append] at *
        rw [hvalue]
        simp only [foldl_cons,foldl_nil]
        omega

/-- A number is printed as digits that stand for it. -/
theorem decimalDigits_spec (n : ℕ) :
    ∃ digits,digits≠[]∧(∀ c∈digits,IsDigit c)∧decimalValue 0 digits=n∧
      decimalLoop n (n/10) [48+n%10]=digits := by
  obtain ⟨front,hdigits,hloop,hvalue⟩ := decimalLoop_spec n (n/10) (by omega) [48+n%10]
  refine ⟨front++[48+n%10],append_ne_nil_of_right_ne_nil _ (cons_ne_nil _ _),?_,?_,hloop⟩
  · intro c hc
    rcases mem_append.mp hc with hfront | hlast
    · exact hdigits c hfront
    · rw [mem_singleton.mp hlast,IsDigit]
      omega
  · rw [decimalValue,foldl_append] at *
    rw [hvalue]
    simp only [foldl_cons,foldl_nil]
    omega

/-- The long integer loop reads digits to their end. -/
theorem mpzSetFromStr_digits (str : List ℕ) (hdigits : ∀ c∈str,IsDigit c) :
    ∀ val,mpzSetFromStr 10 val str=(decimalValue val str,[]) := by
  induction str with
  | nil => exact fun val => rfl
  | cons c str ih =>
    intro val
    have hc := hdigits c mem_cons_self
    have hrest := ih (fun d hd => hdigits d (mem_cons_of_mem _ hd)) (val*10+(c-48))
    rw [mpzSetFromStr,digitValue_of_isDigit hc]
    simp only
    rw [if_neg (by unfold IsDigit at hc; omega),hrest]
    rfl

/-- The small int loop reads digits to their end or gives up. -/
theorem parseSmallInt_digits (bits : ℕ) (str : List ℕ) (hdigits : ∀ c∈str,IsDigit c) :
    ∀ val,parseSmallInt bits 10 val str=none∨
      parseSmallInt bits 10 val str=some (decimalValue val str,[]) := by
  induction str with
  | nil => exact fun val => Or.inr rfl
  | cons c str ih =>
    intro val
    have hc := hdigits c mem_cons_self
    have hrest := ih (fun d hd => hdigits d (mem_cons_of_mem _ hd)) (val*10+(c-48))
    rw [parseSmallInt,digitValue_of_isDigit hc]
    simp only
    rw [if_neg (by unfold IsDigit at hc; omega)]
    split
    · exact hrest
    · exact Or.inl rfl

theorem IsDigit.not_space {c : ℕ} (h : IsDigit c) : unicharIsspace c=false∧c≠43∧c≠45 := by
  unfold IsDigit at h
  refine ⟨?_,by omega,by omega⟩
  rw [unicharIsspace,Bool.or_eq_false_iff,Bool.and_eq_false_iff,decide_eq_false_iff_not,
    decide_eq_false_iff_not,decide_eq_false_iff_not]
  omega

/-- Digits after a sign are parsed as the number that they stand for, whatever the bits of
a small int. -/
theorem mpParseNumInteger_digits (bits : ℕ) (neg : Bool) {digits : List ℕ} (hne : digits≠[])
    (hdigits : ∀ c∈digits,IsDigit c) :
    mpParseNumInteger bits 10 (if neg then 45::digits else digits)=
      some (if neg then -(decimalValue 0 digits : ℤ) else decimalValue 0 digits) := by
  obtain ⟨c,rest,rfl⟩ := exists_cons_of_ne_nil hne
  have hc := (hdigits c mem_cons_self).not_space
  have hparsed : (match parseSmallInt bits 10 0 (c::rest) with
      | some parsed => parsed
      | none => mpzSetFromStr 10 0 (c::rest))=(decimalValue 0 (c::rest),[]) := by
    rcases parseSmallInt_digits bits _ hdigits 0 with hsmall | hsmall
    · rw [hsmall]
      exact mpzSetFromStr_digits _ hdigits 0
    · rw [hsmall]
  rw [mpParseNumInteger]
  cases neg with
  | true =>
    have hspace : unicharIsspace 45=false := by decide
    simp only [if_true,dropWhile_cons,hspace,Bool.false_eq_true,if_false,List.head?_cons,
      or_true,tail_cons]
    rw [hparsed]
    simp only [length_nil,length_cons,dropWhile_nil,ne_eq,not_true_eq_false,
      if_false]
    rw [if_neg (by omega)]
  | false =>
    have hsign : (some c=some 45)=False := by
      rw [Option.some.injEq]
      exact eq_false hc.2.2
    have hplus : (some c=some 43)=False := by
      rw [Option.some.injEq]
      exact eq_false hc.2.1
    simp only [Bool.false_eq_true,if_false,dropWhile_cons,hc.1,List.head?_cons,hsign,hplus,or_self]
    rw [hparsed]
    simp only [length_nil,length_cons,dropWhile_nil,ne_eq,not_true_eq_false,
      if_false]
    rw [if_neg (by omega)]

/-- An integer is printed as text that is parsed back to it, whatever the bits of
a small int. -/
theorem mpParseNumInteger_mpObjIntPrint (bits : ℕ) (n : ℤ) :
    mpParseNumInteger bits 10 (mpObjIntPrint n)=some n := by
  obtain ⟨digits,hne,hdigits,hvalue,hloop⟩ := decimalDigits_spec n.natAbs
  have hparse := mpParseNumInteger_digits bits (decide (n<0)) hne hdigits
  rw [mpObjIntPrint,hloop]
  rw [hvalue] at hparse
  by_cases hneg : n<0
  · simp only [hneg,decide_true,if_true] at hparse ⊢
    rw [hparse,Option.some.injEq]
    omega
  · simp only [hneg,decide_false,Bool.false_eq_true,if_false] at hparse ⊢
    rw [hparse,Option.some.injEq]
    omega

end MicroPython.NumberText
