import MicroPython.MpzDivmod
import MicroPython.MpzFromStr
import MicroPython.NumberText
import MicroPython.Slices
import MicroPython.VarInt
import Mathlib.Data.List.TakeWhile

/-!
# Parsing integers

`mp_parse_num_integer` adds up the digits in a machine word and starts again with a long integer
when the number does not stay small.
-/

namespace MicroPython.ParseInteger

open Nat List MpzDigits MpzArith MpzDivmod MpzFromStr
open NumberText (unicharIsspace digitValue)
open Slices (wrap)
open VarInt (IsSmallInt)
open MpzBitwise (size16)

/-- An integer object. -/
inductive IntObj where
  | small (n : ℤ)
  | big (z : Mpz)

/-- The integer that an object holds. -/
def IntObj.value (w : DigSize) : IntObj→ℤ
  | .small n => n
  | .big z => toInt w z

/-- The types of the exceptions. -/
inductive ExcType where
  /-- `mp_type_ValueError`. -/
  | valueError
  /-- `mp_type_SyntaxError`. -/
  | syntaxError

/-- Why there is no integer. -/
inductive Failure where
  | raised (type : ExcType) (msg : String)
  /-- The long integer code breaks down. -/
  | fault (fault : Fault)

/-- The exception of `raise_exc`: the type is converted when the lexer called. -/
def raiseExc (lexer : Bool) (msg : String) : Failure :=
  .raised (if lexer then .syntaxError else .valueError) msg

/-- `unichar_isspace` of a byte. -/
def isSpace (c : UInt8) : Bool := unicharIsspace c.toNat

/-- The optional sign: whether it is a minus, and what comes after. -/
def parseSign (str : List UInt8) : Bool×List UInt8 :=
  if str.head?=some 43 then (false,str.tail)
  else if str.head?=some 45 then (true,str.tail)
  else (false,str)

/-- The base without a prefix. -/
def noPrefix (base : ℤ) : ℤ := if base=0 then 10 else base

/-- `mp_parse_num_base`: the bytes to skip and the base. -/
def mpParseNumBase (base : ℤ) : List UInt8→ℕ×ℤ
  | c::d::_ =>
    if (base=0∨base=16)∧c=48 then
      if d|||32=120 then (2,16)
      else if base=0∧d|||32=111 then (2,8)
      else if base=0∧d|||32=98 then (2,2)
      else (0,noPrefix base)
    else if base=8∧c=48 then (if d|||32=111 then 2 else 0,base)
    else if base=2∧c=48 then (if d|||32=98 then 2 else 0,base)
    else (0,noPrefix base)
  | _ => (0,noPrefix base)

/-- `MP_SMALL_INT_MIN`. -/
def smallIntMin (bits : ℕ) : ℤ := -2^(bits-2)

/-- `MP_SMALL_INT_MAX`. -/
def smallIntMax (bits : ℕ) : ℤ := 2^(bits-2)-1

/-- `mp_small_int_mul_overflow`. -/
def mpSmallIntMulOverflow (bits : ℕ) (x y : ℤ) : Bool :=
  if 0 < x then
    if 0 < y then decide ((smallIntMax bits).tdiv y < x)
    else decide (y < (smallIntMin bits).tdiv x)
  else
    if 0 < y then decide (x < (smallIntMin bits).tdiv y)
    else decide (x≠0∧y < (smallIntMax bits).tdiv x)

/-- `MP_SMALL_INT_FITS` can be decided. -/
instance (bits : ℕ) (n : ℤ) : Decidable (IsSmallInt bits n) :=
  inferInstanceAs (Decidable (_∧_))

/-- The loop over the digits with a machine word: the number and the rest of the text, or nothing
on overflow. -/
def smallLoop (bits base : ℕ) : ℤ→List UInt8→Option (ℤ×List UInt8)
  | intVal,[] => some (intVal,[])
  | intVal,c::str =>
    match digitValue c.toNat with
    | none => some (intVal,c::str)
    | some dig =>
      if base ≤ dig then some (intVal,c::str)
      else if mpSmallIntMulOverflow bits intVal base then none
      else if IsSmallInt bits (wrap bits (intVal*base+dig)) then
        smallLoop bits base (wrap bits (intVal*base+dig)) str
      else none

/-- `mp_obj_new_int_from_str_len`: the long integer and the rest of the text. -/
def mpObjNewIntFromStrLen (w : DigSize) (str : List UInt8) (neg : Bool) (base : ℕ) :
    Except Fault (IntObj×List UInt8) := do
  let r ← mpzSetFromStr w (fun _ => mpzInitZero) 0 str neg base
  .ok (.big (r.2 0),str.drop r.1)

/-- The number at the start of a text, small or reparsed as a long integer, and the rest of the
text. -/
def parseDigits (w : DigSize) (bits : ℕ) (str : List UInt8) (neg : Bool) (base : ℕ) :
    Except Fault (IntObj×List UInt8) :=
  match smallLoop bits base 0 str with
  | some (intVal,rest) => .ok (.small (if neg then -intVal else intVal),rest)
  | none => mpObjNewIntFromStrLen w str neg base

/-- The end of `mp_parse_num_integer`, with the number in hand. -/
def haveRetVal (lexer : Bool) (base : ℤ) (start : List UInt8) (r : IntObj×List UInt8) :
    Except Failure IntObj :=
  if r.2.length=start.length then
    .error (raiseExc lexer ("invalid syntax for integer with base "++toString base))
  else if r.2.dropWhile isSpace≠[] then
    .error (raiseExc lexer ("invalid syntax for integer with base "++toString base))
  else .ok r.1

/-- `mp_parse_num_integer`. -/
def mpParseNumInteger (w : DigSize) (bits : ℕ) (lexer : Bool) (str : List UInt8) (base : ℤ) :
    Except Failure IntObj :=
  if base≠0∧base < 2∨36 < base then
    .error (.raised .valueError "int() arg 2 must be >= 2 and <= 36")
  else
    let (neg,str) := parseSign (str.dropWhile isSpace)
    let (skip,base) := mpParseNumBase base str
    let str := str.drop skip
    match parseDigits w bits str neg base.toNat with
    | .error fault => .error (.fault fault)
    | .ok r => haveRetVal lexer base str r

/-- The base prefixes, each with the base it stands for. -/
inductive BasePrefix : ℤ→List UInt8→ℕ→Prop where
  /-- Without a prefix zero stands for base 10. -/
  | decimal : BasePrefix 0 [] 10
  /-- Without a prefix another base is the one asked for. -/
  | plain (base : ℕ) (h : base≠0) : BasePrefix base [] base
  /-- `0x` or `0X` where base 16 or any base is asked for. -/
  | hex (base : ℤ) (h : base=0∨base=16) (x : UInt8) (hx : x=120∨x=88) :
    BasePrefix base [48,x] 16
  /-- `0o` or `0O` where base 8 or any base is asked for. -/
  | octal (base : ℤ) (h : base=0∨base=8) (x : UInt8) (hx : x=111∨x=79) :
    BasePrefix base [48,x] 8
  /-- `0b` or `0B` where base 2 or any base is asked for. -/
  | binary (base : ℤ) (h : base=0∨base=2) (x : UInt8) (hx : x=98∨x=66) :
    BasePrefix base [48,x] 2

/-- The number with its sign. -/
def signed (neg : Bool) (n : ℕ) : ℤ := if neg then -(n : ℤ) else n

/-- The parts of a text that denotes an integer in a base. -/
structure IntText (base : ℤ) where
  /-- The space in front. -/
  before : List UInt8
  /-- The sign, none or a minus or a plus. -/
  sign : List UInt8
  /-- The prefix of the base. -/
  mark : List UInt8
  /-- The base that the digits are written in. -/
  radix : ℕ
  digits : List UInt8
  values : List ℕ
  /-- The space behind. -/
  after : List UInt8
  /-- What stands in front is space. -/
  before_space : ∀ c∈before,isSpace c
  /-- The sign is one character at most. -/
  sign_mem : sign∈[[],[43],[45]]
  /-- The prefix may stand where the base is asked for. -/
  mark_prefix : BasePrefix base mark radix
  digits_ne_nil : digits≠[]
  digits_values : digits.map digitOf=values.map some
  /-- All digits are below the base. -/
  values_lt : ∀ d∈values,d < radix
  /-- What stands behind is space. -/
  after_space : ∀ c∈after,isSpace c

namespace IntText

variable {base : ℤ} (t : IntText base)

/-- The text. -/
def text : List UInt8 := t.before++t.sign++t.mark++t.digits++t.after

/-- The integer that the text denotes. -/
def value : ℤ := signed (decide (t.sign=[45])) (readValue t.radix 0 t.values)

end IntText

/-- The second characters of the prefixes: the lower case, the upper case and the digit. -/
def markers : List (UInt8×UInt8×ℕ) := [(120,88,33),(111,79,24),(98,66,11)]

/-- What a character is taken for as a digit. -/
theorem digit_byte : ∀ n<256,digitValue n=digitOf (UInt8.ofNat n)∧
    (digitOf (UInt8.ofNat n)≠none→isSpace (UInt8.ofNat n)=false∧UInt8.ofNat n≠43∧
      UInt8.ofNat n≠45) := by
  decide +kernel

/-- What a character is taken for in a prefix. -/
theorem marker_byte : ∀ n<256,∀ k∈markers,UInt8.ofNat n|||32=k.1→
    (UInt8.ofNat n=k.1∨UInt8.ofNat n=k.2.1)∧digitOf (UInt8.ofNat n)=some k.2.2 := by
  decide +kernel

section Characters

variable {c : UInt8}

theorem digitValue_eq (c : UInt8) : digitValue c.toNat=digitOf c := by
  have h := (digit_byte c.toNat c.toNat_lt).1
  rwa [UInt8.ofNat_toNat] at h

theorem plain_of_digit {v : ℕ} (hv : digitOf c=some v) : isSpace c=false∧c≠43∧c≠45 := by
  have h := (digit_byte c.toNat c.toNat_lt).2
  rw [UInt8.ofNat_toNat] at h
  exact h (by simp [hv])

/-- The second character of a prefix. -/
theorem marker_of_lower {k : UInt8×UInt8×ℕ} (hk : k∈markers) (h : c|||32=k.1) :
    (c=k.1∨c=k.2.1)∧digitOf c=some k.2.2 := by
  have hbyte := marker_byte c.toNat c.toNat_lt k hk
  rw [UInt8.ofNat_toNat] at hbyte
  exact hbyte h

end Characters

/-- The characters of a text that are digits are below a base. -/
def Below (base : ℕ) (str : List UInt8) : Prop := ∀ c∈str,∀ v,digitOf c=some v→v<base

/-- A text splits into its digits and what does not go on with a digit. -/
theorem exists_digits (base : ℕ) (str : List UInt8) : ∃ (digits : List UInt8) (values : List ℕ)
    (rest : List UInt8),str=digits++rest∧digits.map digitOf=values.map some∧(∀ d∈values,d<base)∧
      Stops base rest := by
  induction str with
  | nil => exact ⟨[],[],[],rfl,rfl,by simp,fun c hc => by cases hc⟩
  | cons c str ih =>
    by_cases hc : ∃ v<base,digitOf c=some v
    · obtain ⟨v,hv,hdigit⟩ := hc
      obtain ⟨digits,values,rest,hstr,hvalues,hlt,hrest⟩ := ih
      refine ⟨c::digits,v::values,rest,by simp [hstr],by simp [hdigit,hvalues],?_,hrest⟩
      simp only [mem_cons,forall_eq_or_imp]
      exact ⟨hv,hlt⟩
    · refine ⟨[],[],c::str,rfl,rfl,by simp,fun d hd v hv => ?_⟩
      obtain rfl : c=d := by simpa using hd
      by_contra hlt
      exact hc ⟨v,Nat.lt_of_not_le hlt,hv⟩

section Digits

variable {bits base m : ℕ} {str rest digits : List UInt8} {values : List ℕ}

/-- A product of natural numbers that is taken for one without overflow is small. -/
theorem mul_le_of_not_overflow (hbase : 0 < base)
    (h : mpSmallIntMulOverflow bits m base=false) : (m*base : ℤ) ≤ max 0 (smallIntMax bits) := by
  have hpos : (0 : ℤ) < base := by exact_mod_cast hbase
  by_cases hm : (0 : ℤ) < m
  · rw [mpSmallIntMulOverflow,if_pos hm,if_pos hpos,decide_eq_false_iff_not,not_lt] at h
    have hmax : 0 ≤ smallIntMax bits := by
      have hpow : (0 : ℤ) < 2^(bits-2) := by positivity
      rw [smallIntMax]
      omega
    rw [Int.tdiv_eq_ediv_of_nonneg hmax] at h
    have hle := (Int.le_ediv_iff_mul_le hpos).mp h
    exact hle.trans (le_max_right _ _)
  · have hzero : (m : ℤ)=0 := by omega
    rw [hzero,Int.zero_mul]
    exact le_max_left _ _

/-- The sum of a small product and a digit does not wrap. -/
theorem wrap_step (hbits : 8 ≤ bits) (hbase : base ≤ 36) {d : ℕ} (hd : d < base)
    (h : mpSmallIntMulOverflow bits m base=false) : wrap bits (m*base+d)=m*base+d := by
  have hle := mul_le_of_not_overflow (zero_lt_of_lt hd) h
  have hsplit : (2 : ℤ)^(bits-1)=2*2^(bits-2) := by
    rw [show bits-1=bits-2+1 by omega,pow_succ,Int.mul_comm]
  have hlarge : (2 : ℤ)^6 ≤ 2^(bits-2) := pow_le_pow_right₀ (by decide) (by omega)
  rw [smallIntMax] at hle
  have hnonneg : (0 : ℤ) ≤ m*base := by positivity
  refine Slices.wrap_of_isInt (by omega) ⟨?_,?_⟩
  · rw [Slices.intMax]
    omega
  · rw [Slices.intMax]
    omega

/-- The loop with a machine word gives the number of the digits, a small int, or gives up. -/
theorem smallLoop_eq (hbits : 8 ≤ bits) (hbase : base ≤ 36)
    (hvalues : digits.map digitOf=values.map some) (hlt : ∀ d∈values,d<base)
    (hrest : Stops base rest) (hm : IsSmallInt bits m) :
    smallLoop bits base m (digits++rest)=none∨
      smallLoop bits base m (digits++rest)=some (((readValue base m values : ℕ) : ℤ),rest)∧
        IsSmallInt bits (readValue base m values : ℕ) := by
  induction digits generalizing values m with
  | nil =>
    obtain rfl : values=[] := map_eq_nil_iff.mp hvalues.symm
    refine Or.inr ⟨?_,hm⟩
    cases rest with
    | nil => rfl
    | cons c rest =>
      rw [nil_append,smallLoop,digitValue_eq]
      split
      case h_1 => rfl
      case h_2 v hv => rw [if_pos (hrest c rfl v hv)]; rfl
  | cons c digits ih =>
    cases values with
    | nil => cases hvalues
    | cons d values =>
      obtain ⟨hfirst,hothers⟩ := List.cons.inj hvalues
      have hd := hlt d mem_cons_self
      rw [cons_append,smallLoop,digitValue_eq,hfirst]
      dsimp only
      rw [if_neg (not_le.mpr hd)]
      by_cases hover : mpSmallIntMulOverflow bits m base=true
      · exact Or.inl (if_pos hover)
      · rw [if_neg hover,wrap_step hbits hbase hd (Bool.eq_false_of_not_eq_true hover)]
        by_cases hsmall : IsSmallInt bits (m*base+d)
        · rw [if_pos hsmall]
          have hcast : ((m*base+d : ℕ) : ℤ)=m*base+d := by push_cast; rfl
          rw [←hcast] at hsmall ⊢
          exact ih hothers (fun x hx => hlt x (mem_cons_of_mem _ hx)) hsmall
        · exact Or.inl (if_neg hsmall)

end Digits

section Number

variable {w : DigSize} {bits base : ℕ} {digits rest : List UInt8} {values : List ℕ}

/-- An object that is a small int only for small numbers and has proper digits otherwise. -/
def IntObj.Valid (w : DigSize) (bits : ℕ) : IntObj→Prop
  | .small n => IsSmallInt bits n
  | .big z => Normal w z

/-- Both parsers give the number of the digits and stop behind them. -/
theorem parseDigits_eq (hsize : 6 ≤ w.size) (hbits : 8 ≤ bits) (hbase : base ≤ 36)
    (hvalues : digits.map digitOf=values.map some) (hlt : ∀ d∈values,d<base)
    (hrest : Stops base rest) (neg : Bool) :
    ∃ obj,parseDigits w bits (digits++rest) neg base=.ok (obj,rest)∧
      obj.value w=signed neg (readValue base 0 values)∧obj.Valid w bits := by
  have hpow : (0 : ℤ) < 2^(bits-2) := by positivity
  have hzero : IsSmallInt bits ((0 : ℕ) : ℤ) := by
    rw [IsSmallInt]
    omega
  rcases smallLoop_eq hbits hbase hvalues hlt hrest hzero with hloop | ⟨hloop,hsmall⟩
  · have hwide : base ≤ w.base :=
      calc base ≤ 2^6 := hbase.trans (by decide)
        _ ≤ w.base := Nat.pow_le_pow_right (by decide) hsize
    obtain ⟨st',hrun,hresult⟩ := @mpzSetFromStr_append w (fun _ => mpzInitZero) 0 base digits rest
      values hvalues hlt hrest hbase hwide rfl neg
    refine ⟨.big (st' 0),?_,hresult.exact,hresult.normal⟩
    rw [cast_zero] at hloop
    rw [parseDigits,hloop,mpObjNewIntFromStrLen,bind_ok _ hrun,drop_left]
  · refine ⟨.small (signed neg (readValue base 0 values)),?_,rfl,?_⟩
    · rw [cast_zero] at hloop
      rw [parseDigits,hloop]
      rfl
    · rw [IsSmallInt] at hsmall
      rw [IntObj.Valid,signed,IsSmallInt]
      split <;> omega

end Number

section Head

variable {base : ℤ} {str rest : List UInt8}

/-- The sign at the start of a text that goes on with a digit. -/
theorem parseSign_of_mem {sign : List UInt8} (hsign : sign∈[[],[43],[45]])
    (hrest : ∀ c,rest.head?=some c→c≠43∧c≠45) :
    parseSign (sign++rest)=(decide (sign=[45]),rest) := by
  simp only [mem_cons,not_mem_nil,or_false] at hsign
  rcases hsign with rfl | rfl | rfl
  · have hplus : rest.head?≠some 43 := fun h => (hrest _ h).1 rfl
    have hminus : rest.head?≠some 45 := fun h => (hrest _ h).2 rfl
    rw [nil_append,parseSign,if_neg hplus,if_neg hminus]
    rfl
  · rfl
  · rfl

/-- Every text has a sign, perhaps an empty one. -/
theorem exists_sign (str : List UInt8) : ∃ sign rest,str=sign++rest∧sign∈[[],[43],[45]]∧
    parseSign str=(decide (sign=[45]),rest) := by
  rw [parseSign]
  split_ifs with hplus hminus
  · obtain ⟨tail,rfl⟩ := List.head?_eq_some_iff.mp hplus
    exact ⟨[43],tail,rfl,by simp,rfl⟩
  · obtain ⟨tail,rfl⟩ := List.head?_eq_some_iff.mp hminus
    exact ⟨[45],tail,rfl,by simp,rfl⟩
  · exact ⟨[],str,rfl,by simp,rfl⟩

/-- The characters of the prefixes. -/
theorem marker_mem : ((120,88,33) : UInt8×UInt8×ℕ)∈markers∧
    ((111,79,24) : UInt8×UInt8×ℕ)∈markers∧((98,66,11) : UInt8×UInt8×ℕ)∈markers := by
  decide

/-- Without a prefix there is nothing to skip. -/
theorem noPrefix_eq {radix : ℕ} (h : BasePrefix base [] radix) : noPrefix base=radix := by
  cases h with
  | decimal => rfl
  | plain base hbase => exact if_neg (Int.natCast_ne_zero.mpr hbase)

/-- A text that has no digit above the base in it has no prefix to be skipped. -/
theorem mpParseNumBase_plain {radix : ℕ} (h : BasePrefix base [] radix) (hbelow : Below radix str) :
    mpParseNumBase base str=(0,(radix : ℤ)) := by
  obtain ⟨hx,ho,hb⟩ := marker_mem
  have hradix := noPrefix_eq h
  have hcases : base=0∧radix=10∨base=radix∧radix≠0 := by
    cases h with
    | decimal => exact Or.inl ⟨rfl,rfl⟩
    | plain base hbase => exact Or.inr ⟨rfl,hbase⟩
  match str with
  | [] => rw [mpParseNumBase,hradix]; simp
  | [c] => rw [mpParseNumBase,hradix]; simp
  | c::d::str =>
    have hd := hbelow d (by simp)
    have hnot : ∀ k∈markers,radix ≤ k.2.2→d|||32≠k.1 := fun k hk hle h =>
      absurd (hd _ (marker_of_lower hk h).2) (not_lt.mpr hle)
    rw [mpParseNumBase,hradix]
    split_ifs <;> grind

/-- The digits of a prefix are skipped. -/
theorem mpParseNumBase_mark {mark : List UInt8} {radix : ℕ} (h : BasePrefix base mark radix)
    (hmark : mark≠[]) : mpParseNumBase base (mark++str)=(mark.length,(radix : ℤ)) := by
  cases h with
  | decimal => exact absurd rfl hmark
  | plain => exact absurd rfl hmark
  | hex base hbase x hx =>
    have hlow : x|||32=120 := by rcases hx with rfl | rfl <;> decide
    simp [mpParseNumBase,hbase,hlow]
  | octal base hbase x hx =>
    have hlow : x|||32=111 := by rcases hx with rfl | rfl <;> decide
    rcases hbase with rfl | rfl <;> simp [mpParseNumBase,hlow]
  | binary base hbase x hx =>
    have hlow : x|||32=98 := by rcases hx with rfl | rfl <;> decide
    rcases hbase with rfl | rfl <;> simp [mpParseNumBase,hlow]

/-- Every text has a prefix of the base, perhaps an empty one. -/
theorem exists_mark (hbase : base=0∨2 ≤ base∧base ≤ 36) (str : List UInt8) :
    ∃ mark radix,BasePrefix base mark radix∧radix ≤ 36∧str=mark++str.drop mark.length∧
      mpParseNumBase base str=(mark.length,(radix : ℤ)) := by
  obtain ⟨hx,ho,hb⟩ := marker_mem
  have hnone : ∃ radix,BasePrefix base [] radix∧radix ≤ 36∧noPrefix base=(radix : ℤ) := by
    rcases hbase with rfl | hrange
    · exact ⟨10,.decimal,by decide,rfl⟩
    · obtain ⟨n,rfl⟩ := Int.eq_ofNat_of_zero_le (show 0 ≤ base by omega)
      exact ⟨n,.plain n (by omega),by omega,if_neg (by omega)⟩
  obtain ⟨plain,hplain,hle,hradix⟩ := hnone
  match str with
  | [] => exact ⟨[],plain,hplain,hle,rfl,by simp [mpParseNumBase,hradix]⟩
  | [c] => exact ⟨[],plain,hplain,hle,rfl,by simp [mpParseNumBase,hradix]⟩
  | c::d::str =>
    rw [mpParseNumBase]
    by_cases hc : c=48
    · subst hc
      by_cases hhex : (base=0∨base=16)∧d|||32=120
      · exact ⟨[48,d],16,.hex base hhex.1 d (marker_of_lower hx hhex.2).1,by decide,rfl,
          by simp [hhex]⟩
      · by_cases hoct : (base=0∨base=8)∧d|||32=111
        · refine ⟨[48,d],8,.octal base hoct.1 d (marker_of_lower ho hoct.2).1,by decide,rfl,?_⟩
          rcases hoct.1 with rfl | rfl <;> simp [hoct.2]
        · by_cases hbin : (base=0∨base=2)∧d|||32=98
          · refine ⟨[48,d],2,.binary base hbin.1 d (marker_of_lower hb hbin.2).1,by decide,rfl,?_⟩
            rcases hbin.1 with rfl | rfl <;> simp [hbin.2]
          · refine ⟨[],plain,hplain,hle,rfl,?_⟩
            rw [hradix]
            split_ifs <;> grind [noPrefix]
    · exact ⟨[],plain,hplain,hle,rfl,by simp [hc,hradix]⟩

end Head

theorem not_digit_of_space {after : List UInt8} (hafter : ∀ c∈after,isSpace c) {c : UInt8}
    (hc : c∈after) (v : ℕ) : digitOf c≠some v := fun hv => by
  have hspace := hafter c hc
  rw [(plain_of_digit hv).1] at hspace
  exact Bool.false_ne_true hspace

/-- The digits of a text before space are below the base. -/
theorem below_digits {radix : ℕ} {digits after : List UInt8} {values : List ℕ}
    (hvalues : digits.map digitOf=values.map some) (hlt : ∀ d∈values,d<radix)
    (hafter : ∀ c∈after,isSpace c) : Below radix (digits++after) := by
  intro c hc v hv
  rcases mem_append.mp hc with hdigit | hspace
  · have hmem : digitOf c∈values.map some := hvalues ▸ mem_map_of_mem hdigit
    rw [hv] at hmem
    exact hlt v (by simpa using hmem)
  · exact absurd hv (not_digit_of_space hafter hspace v)

/-- A prefix starts with a zero. -/
theorem BasePrefix.head {base : ℤ} {mark : List UInt8} {radix : ℕ}
    (h : BasePrefix base mark radix) : mark=[]∨∃ x,mark=[48,x] := by
  cases h with
  | decimal => exact Or.inl rfl
  | plain => exact Or.inl rfl
  | hex _ _ x => exact Or.inr ⟨x,rfl⟩
  | octal _ _ x => exact Or.inr ⟨x,rfl⟩
  | binary _ _ x => exact Or.inr ⟨x,rfl⟩

/-- The base of the digits is not too large. -/
theorem BasePrefix.radix_le {base : ℤ} {mark : List UInt8} {radix : ℕ}
    (h : BasePrefix base mark radix) (hbase : base=0∨2 ≤ base∧base ≤ 36) : radix ≤ 36 := by
  cases h with
  | plain => omega
  | _ => decide

namespace IntText

variable {base : ℤ} (t : IntText base)

/-- Behind the sign comes a character that is a digit. -/
theorem head_digit : ∃ c v,(t.mark++(t.digits++t.after)).head?=some c∧digitOf c=some v := by
  obtain ⟨c,digits,hdigits⟩ := exists_cons_of_ne_nil t.digits_ne_nil
  have hvalues := t.digits_values
  rw [hdigits] at hvalues
  obtain ⟨v,values,hv⟩ : ∃ v values,t.values=v::values := by
    cases hvalue : t.values with
    | nil => rw [hvalue] at hvalues; cases hvalues
    | cons v values => exact ⟨v,values,rfl⟩
  rw [hv] at hvalues
  rcases t.mark_prefix.head with hmark | ⟨x,hmark⟩
  · exact ⟨c,v,by rw [hmark,hdigits]; rfl,(List.cons.inj hvalues).1⟩
  · exact ⟨48,0,by rw [hmark]; rfl,by decide⟩

/-- The parser finds the parts of a text that denotes an integer. -/
theorem parse_head : t.text.dropWhile isSpace=t.sign++(t.mark++(t.digits++t.after))∧
    parseSign (t.sign++(t.mark++(t.digits++t.after)))=
      (decide (t.sign=[45]),t.mark++(t.digits++t.after))∧
    mpParseNumBase base (t.mark++(t.digits++t.after))=(t.mark.length,(t.radix : ℤ)) := by
  obtain ⟨c,v,hc,hv⟩ := t.head_digit
  obtain ⟨hspace,hplus,hminus⟩ := plain_of_digit hv
  refine ⟨?_,parseSign_of_mem t.sign_mem fun d hd => ?_,?_⟩
  · rw [text,append_assoc,append_assoc,append_assoc,dropWhile_append_of_pos t.before_space]
    have hhead : ∃ d tail,t.sign++(t.mark++(t.digits++t.after))=d::tail∧isSpace d=false := by
      obtain ⟨tail,htail⟩ := List.head?_eq_some_iff.mp hc
      have hsign := t.sign_mem
      simp only [mem_cons,not_mem_nil,or_false] at hsign
      rcases hsign with hs | hs | hs
      · exact ⟨c,tail,by rw [hs,htail]; rfl,hspace⟩
      · exact ⟨43,_,by rw [hs]; rfl,by decide⟩
      · exact ⟨45,_,by rw [hs]; rfl,by decide⟩
    obtain ⟨d,tail,htail,hd⟩ := hhead
    rw [htail,dropWhile_cons_of_neg (by simp [hd])]
  · obtain rfl : c=d := by rw [hc] at hd; exact Option.some.inj hd
    exact ⟨hplus,hminus⟩
  · have hmark := t.mark_prefix
    by_cases hm : t.mark=[]
    · have hbelow := below_digits t.digits_values t.values_lt t.after_space
      rw [hm] at hmark ⊢
      exact mpParseNumBase_plain hmark hbelow
    · exact mpParseNumBase_mark hmark hm

end IntText

section Main

variable {w : DigSize} {bits : ℕ} {lexer : Bool} {base : ℤ} {str : List UInt8}

/-- The parser in terms of the parts it finds at the start of the text. -/
theorem mpParseNumInteger_of_head (hbase : base=0∨2 ≤ base∧base ≤ 36) {neg : Bool} {skip : ℕ}
    {radix : ℤ} {rest : List UInt8} (hsign : parseSign (str.dropWhile isSpace)=(neg,rest))
    (hmark : mpParseNumBase base rest=(skip,radix)) {r : IntObj×List UInt8}
    (hdigits : parseDigits w bits (rest.drop skip) neg radix.toNat=.ok r) :
    mpParseNumInteger w bits lexer str base=haveRetVal lexer radix (rest.drop skip) r := by
  have hvalid : ¬(base≠0∧base < 2∨36 < base) := by omega
  rw [mpParseNumInteger,if_neg hvalid,hsign]
  dsimp only
  rw [hmark]
  dsimp only
  rw [hdigits]

/-- A text that denotes an integer is read to its end. -/
theorem mpParseNumInteger_text (hsize : 6 ≤ w.size) (hbits : 8 ≤ bits)
    (hbase : base=0∨2 ≤ base∧base ≤ 36) (t : IntText base) :
    ∃ obj,mpParseNumInteger w bits lexer t.text base=.ok obj∧obj.value w=t.value∧
      obj.Valid w bits := by
  obtain ⟨hspace,hsign,hmark⟩ := t.parse_head
  have hstops : Stops t.radix t.after := fun c hc v hv =>
    absurd hv (not_digit_of_space t.after_space (mem_of_mem_head? hc) v)
  obtain ⟨obj,hdigits,hvalue,hvalid⟩ := @parseDigits_eq w bits t.radix t.digits t.after t.values
    hsize hbits (t.mark_prefix.radix_le hbase) t.digits_values t.values_lt hstops
    (decide (t.sign=[45]))
  rw [←hspace] at hsign
  have hdrop : (t.mark++(t.digits++t.after)).drop t.mark.length=t.digits++t.after :=
    drop_left
  have hlength : t.after.length≠(t.digits++t.after).length := by
    have hpos := length_pos_of_ne_nil t.digits_ne_nil
    rw [length_append]
    omega
  refine ⟨obj,?_,hvalue,hvalid⟩
  rw [mpParseNumInteger_of_head hbase hsign hmark (by
    rw [hdrop]
    exact hdigits),hdrop,haveRetVal,if_neg hlength]
  have hend : t.after.dropWhile isSpace=[] := dropWhile_eq_nil_iff.mpr t.after_space
  simp [hend]

/-- The exception names an invalid integer where there is none. -/
theorem mpParseNumInteger_invalid (hsize : 6 ≤ w.size) (hbits : 8 ≤ bits)
    (hbase : base=0∨2 ≤ base∧base ≤ 36) (hnone : ¬∃ t : IntText base,t.text=str) :
    ∃ msg,mpParseNumInteger w bits lexer str base=.error (raiseExc lexer msg) := by
  obtain ⟨sign,rest,hrest,hsign,hparse⟩ := exists_sign (str.dropWhile isSpace)
  obtain ⟨mark,radix,hradix,hle,hmark,hbaseEq⟩ := exists_mark hbase rest
  obtain ⟨digits,values,after,hsplit,hvalues,hlt,hstops⟩ :=
    exists_digits radix (rest.drop mark.length)
  obtain ⟨obj,hdigits,-⟩ := @parseDigits_eq w bits radix digits after values hsize hbits hle
    hvalues hlt hstops (decide (sign=[45]))
  rw [←hsplit] at hdigits
  rw [mpParseNumInteger_of_head hbase hparse hbaseEq hdigits,haveRetVal]
  by_cases hempty : after.length=(rest.drop mark.length).length
  · exact ⟨_,if_pos hempty⟩
  · rw [if_neg hempty]
    by_cases hend : after.dropWhile isSpace=[]
    · refine absurd ⟨{
        before := str.takeWhile isSpace
        sign := sign
        mark := mark
        radix := radix
        digits := digits
        values := values
        after := after
        before_space := fun c hc => mem_takeWhile_imp hc
        sign_mem := hsign
        mark_prefix := hradix
        digits_ne_nil := fun hnil => hempty (by rw [hsplit,hnil]; rfl)
        digits_values := hvalues
        values_lt := hlt
        after_space := dropWhile_eq_nil_iff.mp hend },?_⟩ hnone
      rw [IntText.text]
      dsimp only
      rw [append_assoc,append_assoc,append_assoc,←hsplit,←hmark,←hrest,takeWhile_append_dropWhile]
    · exact ⟨_,if_pos hend⟩

end Main

/-- An integer object with the value of the text is returned for a text that denotes an integer,
and for any other text the exception is raised. -/
theorem mpParseNumInteger_exact (w : DigSize) (bits : ℕ) (hsize : 6 ≤ w.size) (hbits : 8 ≤ bits)
    (lexer : Bool) (base : ℤ) (hbase : base=0∨2 ≤ base∧base ≤ 36) (str : List UInt8) :
    (∀ t : IntText base,t.text=str→∃ obj,mpParseNumInteger w bits lexer str base=.ok obj∧
      obj.value w=t.value∧obj.Valid w bits)∧
    ((¬∃ t : IntText base,t.text=str)→∃ msg,
      mpParseNumInteger w bits lexer str base=.error (raiseExc lexer msg)) :=
  ⟨fun t ht => ht ▸ mpParseNumInteger_text hsize hbits hbase t,
    mpParseNumInteger_invalid hsize hbits hbase⟩

/-- The text ` -0x7FFFFFFF `. -/
def minusWord : IntText 0 where
  before := [32]
  sign := [45]
  mark := [48,120]
  radix := 16
  digits := [55,70,70,70,70,70,70,70]
  values := [7,15,15,15,15,15,15,15]
  after := [32]
  before_space := fun c hc => by rw [List.mem_singleton.mp hc]; rfl
  sign_mem := by decide
  mark_prefix := .hex 0 (Or.inl rfl) 120 (Or.inl rfl)
  digits_ne_nil := by decide
  digits_values := by decide
  values_lt := by decide
  after_space := fun c hc => by rw [List.mem_singleton.mp hc]; rfl

/-- The text is read as its value, which is no small int. -/
theorem mpParseNumInteger_minusWord :
    ∃ obj,mpParseNumInteger size16 32 false minusWord.text 0=.ok obj∧
      obj.value size16=-2147483647∧obj.Valid size16 32 :=
  (mpParseNumInteger_exact size16 32 (by decide) (by decide) false 0 (Or.inl rfl)
    minusWord.text).1 minusWord rfl

end MicroPython.ParseInteger
