import MicroPython.ParseInteger

/-!
# Parsing decimal numbers

One loop of `mp_parse_num_decimal` goes over the integer digits, the fraction digits and the
exponent. Each fraction digit is weighted at once and the exponent is applied as it is written.
-/

namespace MicroPython.ParseDecimal

open List ParseInteger
open Slices (wrap IsInt wrap_of_isInt)

/-- The arithmetic of `mp_float_t`. -/
structure FloatOps (F : Type) where
  /-- The conversion of an unsigned word. -/
  ofNat : ℕ→F
  /-- `INFINITY`. -/
  inf : F
  /-- `nan("")`. -/
  nan : F
  /-- The constant 0.1. -/
  tenth : F
  add : F→F→F
  mul : F→F→F
  /-- The change of sign. -/
  neg : F→F
  /-- `pow` with base 10. -/
  pow10 : ℤ→F

/-- `parse_dec_in_t`. -/
inductive ParseDecIn where
  /-- `PARSE_DEC_IN_INTG`. -/
  | intg
  /-- `PARSE_DEC_IN_FRAC`. -/
  | frac
  /-- `PARSE_DEC_IN_EXP`. -/
  | exp
deriving DecidableEq

/-- The local variables of the loop. -/
structure Scan (F : Type) where
  /-- The part of the number that the loop is in. -/
  part : ParseDecIn
  /-- `exp_neg`. -/
  expNeg : Bool
  /-- `frac_mult`. -/
  fracMult : F
  /-- `dec_val`. -/
  decVal : F
  /-- `exp_val`. -/
  expVal : ℤ
  /-- `imag`. -/
  imag : Bool

/-- The number objects. -/
inductive NumObj (F : Type) where
  | float (val : F)
  | complex (real imag : F)

/-- A decimal digit. -/
def isDigit (c : UInt8) : Bool := decide (48 ≤ c.toNat∧c.toNat ≤ 57)

section Source

variable {F : Type} (o : FloatOps F) (bits : ℕ)

/-- The variables before the loop. -/
def Scan.init : Scan F where
  part := .intg
  expNeg := false
  fracMult := o.tenth
  decVal := o.ofNat 0
  expVal := 0
  imag := false

/-- What the loop does with a digit. -/
def Scan.digit (a : Scan F) (dig : ℕ) : Scan F :=
  match a.part with
  | .exp => {a with expVal := wrap bits (10*a.expVal+dig)}
  | .frac => {a with
      decVal := o.add a.decVal (o.mul (o.ofNat dig) a.fracMult)
      fracMult := o.mul a.fracMult o.tenth}
  | .intg => {a with decVal := o.add (o.mul (o.ofNat 10) a.decVal) (o.ofNat dig)}

/-- The loop over the characters of a decimal number: the variables and the rest of the text, or
nothing where the text ends with the mark of the exponent. -/
def decimalLoop (allowImag : Bool) : Scan F→List UInt8→Option (Scan F×List UInt8)
  | a,[] => some (a,[])
  | a,c::str =>
    if isDigit c then decimalLoop allowImag (a.digit o bits (c.toNat-48)) str
    else if a.part=.intg∧c=46 then decimalLoop allowImag {a with part := .frac} str
    else if a.part≠.exp∧c|||0x20=101 then
      match str with
      | [] => none
      | d::rest =>
        if d=43∨d=45 then
          if rest=[] then none
          else decimalLoop allowImag {a with
            part := .exp
            expNeg := decide (d=45)} rest
        else decimalLoop allowImag {a with part := .exp} (d::rest)
    else if allowImag∧c|||0x20=106 then some ({a with imag := true},str)
    else some (a,c::str)

/-- One turn of the loop. -/
theorem decimalLoop_cons (allowImag : Bool) (a : Scan F) (c : UInt8) (str : List UInt8) :
    decimalLoop o bits allowImag a (c::str)=
      if isDigit c then decimalLoop o bits allowImag (a.digit o bits (c.toNat-48)) str
      else if a.part=.intg∧c=46 then decimalLoop o bits allowImag {a with part := .frac} str
      else if a.part≠.exp∧c|||0x20=101 then
        if str=[] then none
        else if str.head?=some 43∨str.head?=some 45 then
          if str.tail=[] then none
          else decimalLoop o bits allowImag {a with
            part := .exp
            expNeg := decide (str.head?=some 45)} str.tail
        else decimalLoop o bits allowImag {a with part := .exp} str
      else if allowImag∧c|||0x20=106 then some ({a with imag := true},str)
      else some (a,c::str) := by
  cases str with
  | nil => simp [decimalLoop]
  | cons d rest => simp [decimalLoop]

/-- A text starts with letters, in any case. -/
def startsWith (letters str : List UInt8) : Bool :=
  decide ((str.take letters.length).map (·|||0x20)=letters)

/-- A text that starts with an i: the infinity and the rest of the text. -/
def parseInf (str : List UInt8) : F×List UInt8 :=
  if startsWith [105,110,102] str then
    if startsWith [105,110,105,116,121] (str.drop 3) then (o.inf,str.drop 8)
    else (o.inf,str.drop 3)
  else (o.ofNat 0,str)

/-- A text that starts with an n: the number that is none and the rest of the text. -/
def parseNan (str : List UInt8) : F×List UInt8 :=
  if startsWith [110,97,110] str then (o.nan,str.drop 3) else (o.ofNat 0,str)

/-- A decimal number: its value, whether it is imaginary and the rest of the text. -/
def parseDecimal (allowImag : Bool) (str : List UInt8) : Option (F×Bool×List UInt8) :=
  match decimalLoop o bits allowImag (Scan.init o) str with
  | none => none
  | some (a,rest) =>
    let expVal := if a.expNeg then wrap bits (-a.expVal) else a.expVal
    some (o.mul a.decVal (o.pow10 expVal),a.imag,rest)

/-- The number at the start of a text, told by its first letter. -/
def parseNumber (allowImag : Bool) (str : List UInt8) : Option (F×Bool×List UInt8) :=
  if startsWith [105] str then
    let (decVal,rest) := parseInf o str
    some (decVal,false,rest)
  else if startsWith [110] str then
    let (decVal,rest) := parseNan o str
    some (decVal,false,rest)
  else parseDecimal o bits allowImag str

/-- The object that is returned. -/
def numObj (imag forceComplex : Bool) (decVal : F) : NumObj F :=
  if imag then .complex (o.ofNat 0) decVal
  else if forceComplex then .complex decVal (o.ofNat 0)
  else .float decVal

/-- `mp_parse_num_decimal`. -/
def mpParseNumDecimal (allowImag forceComplex lexer : Bool) (str : List UInt8) :
    Except Failure (NumObj F) :=
  let (decNeg,start) := parseSign (str.dropWhile isSpace)
  match parseNumber o bits allowImag start with
  | none => .error (raiseExc lexer "invalid syntax for number")
  | some (decVal,imag,rest) =>
    let decVal := if decNeg then o.neg decVal else decVal
    -- Nothing was parsed, or the text goes on behind the space.
    if rest.length=start.length∨rest.dropWhile isSpace≠[] then
      .error (raiseExc lexer "invalid syntax for number")
    else .ok (numObj o imag forceComplex decVal)

end Source

/-- The exponent of a decimal number. -/
structure ExpText where
  /-- The letter. -/
  mark : UInt8
  sign : List UInt8
  digits : List UInt8
  /-- The letter is an e in any case. -/
  mark_eq : mark|||0x20=101
  /-- The sign is one character at most. -/
  sign_mem : sign∈[[],[43],[45]]
  digits_digit : ∀ c∈digits,isDigit c

/-- The characters of an exponent. -/
def ExpText.text (e : ExpText) : List UInt8 := e.mark::(e.sign++e.digits)

/-- The number that decimal digits stand for. -/
def decimalOf (digits : List UInt8) : ℕ := digits.foldl (fun n c => 10*n+(c.toNat-48)) 0

/-- The parts of a decimal number, of which each may be empty. -/
structure DecimalText (allowImag : Bool) where
  /-- The space in front. -/
  before : List UInt8
  sign : List UInt8
  /-- The integer digits. -/
  intg : List UInt8
  /-- The fraction digits, behind a point. -/
  frac : Option (List UInt8)
  exponent : Option ExpText
  /-- The letter of an imaginary number. -/
  unit : List UInt8
  /-- The space behind. -/
  after : List UInt8
  /-- What stands in front is space. -/
  before_space : ∀ c∈before,isSpace c
  /-- The sign is one character at most. -/
  sign_mem : sign∈[[],[43],[45]]
  intg_digit : ∀ c∈intg,isDigit c
  frac_digit : ∀ ds∈frac,∀ c∈ds,isDigit c
  /-- The letter of an imaginary number is a j in any case, where it is allowed. -/
  unit_eq : unit=[]∨allowImag∧∃ c,unit=[c]∧c|||0x20=106
  /-- What stands behind is space. -/
  after_space : ∀ c∈after,isSpace c

namespace DecimalText

variable {allowImag : Bool} (t : DecimalText allowImag)

/-- The point and the digits behind it. -/
def fracText : List UInt8 := (t.frac.map (46::·)).getD []

/-- The characters of the exponent, when there is one. -/
def expText : List UInt8 := (t.exponent.map ExpText.text).getD []

/-- The text without the space in front and the sign. -/
def body : List UInt8 := t.intg++(t.fracText++(t.expText++(t.unit++t.after)))

/-- The text. -/
def text : List UInt8 := t.before++(t.sign++t.body)

/-- The mantissa has a digit, and so has the exponent. -/
def Complete : Prop := (t.intg≠[]∨∃ ds∈t.frac,ds≠[])∧∀ e∈t.exponent,e.digits≠[]

/-- The exponent as it is written. -/
def written : ℤ :=
  match t.exponent with
  | none => 0
  | some e => signed (decide (e.sign=[45])) (decimalOf e.digits)

variable {F : Type} (o : FloatOps F)

/-- The integer digits of the mantissa, each behind ten times those before. -/
def intgVal : F :=
  t.intg.foldl (fun v c => o.add (o.mul (o.ofNat 10) v) (o.ofNat (c.toNat-48))) (o.ofNat 0)

/-- The mantissa: each fraction digit has a tenth of the weight of the one before. -/
def mantissa : F :=
  ((t.frac.getD []).foldl (fun (p : F×F) c =>
    (o.add p.1 (o.mul (o.ofNat (c.toNat-48)) p.2),o.mul p.2 o.tenth)) (t.intgVal o,o.tenth)).1

/-- The object for the number when a decimal exponent is applied to the mantissa. -/
def object (forceComplex : Bool) (e : ℤ) : NumObj F :=
  numObj o (decide (t.unit≠[])) forceComplex
    (if t.sign=[45] then o.neg (o.mul (t.mantissa o) (o.pow10 e))
    else o.mul (t.mantissa o) (o.pow10 e))

end DecimalText

/-- The parts of a text for an infinity or for the number that is none. -/
structure SpecialText where
  /-- The space in front. -/
  before : List UInt8
  sign : List UInt8
  letters : List UInt8
  /-- The space behind. -/
  after : List UInt8
  /-- What stands in front is space. -/
  before_space : ∀ c∈before,isSpace c
  /-- The sign is one character at most. -/
  sign_mem : sign∈[[],[43],[45]]
  /-- The letters are `inf`, `infinity` or `nan` in any case. -/
  letters_mem : letters.map (·|||0x20)∈
    [[105,110,102],[105,110,102,105,110,105,116,121],[110,97,110]]
  /-- What stands behind is space. -/
  after_space : ∀ c∈after,isSpace c

namespace SpecialText

variable (t : SpecialText) {F : Type} (o : FloatOps F)

/-- The text. -/
def text : List UInt8 := t.before++(t.sign++(t.letters++t.after))

/-- The value that the letters stand for. -/
def value : F := if t.letters.map (·|||0x20)=[110,97,110] then o.nan else o.inf

/-- The object for the number. -/
def object (forceComplex : Bool) : NumObj F :=
  numObj o false forceComplex (if t.sign=[45] then o.neg (t.value o) else t.value o)

end SpecialText

/-- A text is a number of the grammar. -/
def InGrammar (allowImag : Bool) (str : List UInt8) : Prop :=
  (∃ t : DecimalText allowImag,t.text=str∧t.Complete)∨∃ t : SpecialText,t.text=str

/-- A text is a number of the grammar but for missing digits of the mantissa or the exponent. -/
def LacksDigits (allowImag : Bool) (str : List UInt8) : Prop :=
  ∃ t : DecimalText allowImag,t.text=str∧¬t.Complete

/-- The characters that stop the loop at once. -/
theorem stop_byte : ∀ n<256,isSpace (UInt8.ofNat n)=true→isDigit (UInt8.ofNat n)=false∧
    UInt8.ofNat n≠46∧UInt8.ofNat n|||0x20≠101∧UInt8.ofNat n|||0x20≠106 := by
  decide +kernel

theorem letter_byte : ∀ n<256,∀ l∈([101,105,106,110] : List UInt8),UInt8.ofNat n|||0x20=l→
    isDigit (UInt8.ofNat n)=false∧isSpace (UInt8.ofNat n)=false∧
      UInt8.ofNat n∉([43,45,46] : List UInt8) := by
  decide +kernel

theorem digit_byte : ∀ n<256,isDigit (UInt8.ofNat n)=true→isSpace (UInt8.ofNat n)=false∧
    UInt8.ofNat n≠43∧UInt8.ofNat n≠45 := by
  decide +kernel

section Characters

variable {c : UInt8}

theorem stop_of_space (h : isSpace c=true) : isDigit c=false∧c≠46∧c|||0x20≠101∧c|||0x20≠106 := by
  have hbyte := stop_byte c.toNat c.toNat_lt
  rw [UInt8.ofNat_toNat] at hbyte
  exact hbyte h

theorem plain_of_letter {l : UInt8} (hl : l∈([101,105,106,110] : List UInt8)) (h : c|||0x20=l) :
    isDigit c=false∧c≠46∧isSpace c=false∧c≠43∧c≠45 := by
  have hbyte := letter_byte c.toNat c.toNat_lt l hl
  rw [UInt8.ofNat_toNat] at hbyte
  obtain ⟨hdigit,hspace,hsign⟩ := hbyte h
  simp only [mem_cons,not_mem_nil,or_false,not_or] at hsign
  exact ⟨hdigit,hsign.2.2,hspace,hsign.1,hsign.2.1⟩

theorem plain_of_isDigit (h : isDigit c=true) : isSpace c=false∧c≠43∧c≠45 := by
  have hbyte := digit_byte c.toNat c.toNat_lt
  rw [UInt8.ofNat_toNat] at hbyte
  exact hbyte h

end Characters

section Loop

variable {F : Type} {o : FloatOps F} {bits : ℕ} {allowImag : Bool} {a : Scan F}

/-- The variables behind digits. -/
def Scan.digits (o : FloatOps F) (bits : ℕ) (a : Scan F) (ds : List UInt8) : Scan F :=
  ds.foldl (fun a c => a.digit o bits (c.toNat-48)) a

theorem Scan.digit_part (dig : ℕ) : (a.digit o bits dig).part=a.part∧
    (a.digit o bits dig).expNeg=a.expNeg∧(a.digit o bits dig).imag=a.imag := by
  rw [Scan.digit]
  split <;> exact ⟨rfl,rfl,rfl⟩

/-- Digits do not lead to another part of the number. -/
theorem Scan.digits_part (ds : List UInt8) : (a.digits o bits ds).part=a.part∧
    (a.digits o bits ds).expNeg=a.expNeg∧(a.digits o bits ds).imag=a.imag := by
  induction ds generalizing a with
  | nil => exact ⟨rfl,rfl,rfl⟩
  | cons c ds ih =>
    obtain ⟨hpart,hneg,himag⟩ := @ih (a.digit o bits (c.toNat-48))
    obtain ⟨hpart',hneg',himag'⟩ := @Scan.digit_part F o bits a (c.toNat-48)
    exact ⟨hpart.trans hpart',hneg.trans hneg',himag.trans himag'⟩

theorem decimalLoop_digits {ds : List UInt8} (h : ∀ c∈ds,isDigit c) (rest : List UInt8) :
    decimalLoop o bits allowImag a (ds++rest)=
      decimalLoop o bits allowImag (a.digits o bits ds) rest := by
  induction ds generalizing a with
  | nil => rfl
  | cons c ds ih =>
    rw [cons_append,decimalLoop_cons,if_pos (h c mem_cons_self),
      ih fun d hd => h d (mem_cons_of_mem c hd)]
    rfl

theorem decimalLoop_point (ha : a.part=.intg) (rest : List UInt8) :
    decimalLoop o bits allowImag a (46::rest)=
      decimalLoop o bits allowImag {a with part := .frac} rest := by
  rw [decimalLoop_cons,if_neg (by decide),if_pos ⟨ha,rfl⟩]

/-- The loop takes the letter and the sign of an exponent in, when the text goes on. -/
theorem decimalLoop_mark (ha : a.part≠.exp) (hneg : a.expNeg=false) (e : ExpText)
    {rest : List UInt8} (hrest : ∀ c,rest.head?=some c→c≠43∧c≠45) (hne : rest≠[]) :
    decimalLoop o bits allowImag a (e.mark::(e.sign++rest))=
      decimalLoop o bits allowImag {a with
        part := .exp
        expNeg := decide (e.sign=[45])} rest := by
  obtain ⟨hdigit,hpoint,-⟩ := plain_of_letter (by decide) e.mark_eq
  rw [decimalLoop_cons,if_neg (by simp [hdigit]),if_neg (fun h => hpoint h.2),if_pos ⟨ha,e.mark_eq⟩]
  have hsign := e.sign_mem
  simp only [mem_cons,not_mem_nil,or_false] at hsign
  rcases hsign with hs | hs | hs
  · obtain ⟨c,tail,rfl⟩ := exists_cons_of_ne_nil hne
    have hc := hrest c rfl
    simp [hs,hc,hneg]
  · simp [hs,hne]
  · simp [hs,hne]

/-- The loop stops at the end of the number. -/
theorem decimalLoop_end {unit after : List UInt8}
    (hunit : unit=[]∨allowImag∧∃ c,unit=[c]∧c|||0x20=106) (hafter : ∀ c∈after,isSpace c) :
    decimalLoop o bits allowImag a (unit++after)=
      some ({a with imag := decide (unit≠[])||a.imag},after) := by
  rcases hunit with rfl | ⟨hallow,c,rfl,hc⟩
  · cases after with
    | nil => rfl
    | cons c after =>
      obtain ⟨hdigit,hpoint,hmark,hunit⟩ := stop_of_space (hafter c mem_cons_self)
      rw [nil_append,decimalLoop_cons,if_neg (by simp [hdigit]),if_neg (fun h => hpoint h.2),
        if_neg (fun h => hmark h.2),if_neg (fun h => hunit h.2)]
      rfl
  · obtain ⟨hdigit,hpoint,-⟩ := plain_of_letter (by decide) hc
    have hmark : c|||0x20≠101 := by
      rw [hc]
      decide
    rw [singleton_append,decimalLoop_cons,if_neg (by simp [hdigit]),
      if_neg (fun h => hpoint h.2),if_neg (fun h => hmark h.2),if_pos ⟨hallow,hc⟩]
    rfl

end Loop

section Digits

variable {F : Type} {o : FloatOps F} {bits : ℕ} {a : Scan F}

theorem wrap_next (bits : ℕ) (x : ℤ) (d : ℕ) : wrap bits (10*wrap bits x+d)=wrap bits (10*x+d) := by
  rw [wrap,wrap,wrap,←Int.bmod_add_bmod,Int.mul_bmod_bmod,Int.bmod_add_bmod]

/-- The integer digits go into the number. -/
theorem digits_intg (ha : a.part=.intg) (ds : List UInt8) : a.digits o bits ds={a with
    decVal := ds.foldl (fun v c => o.add (o.mul (o.ofNat 10) v) (o.ofNat (c.toNat-48)))
      a.decVal} := by
  induction ds generalizing a with
  | nil => rfl
  | cons c ds ih =>
    have hdigit : a.digit o bits (c.toNat-48)={a with
        decVal := o.add (o.mul (o.ofNat 10) a.decVal) (o.ofNat (c.toNat-48))} := by
      rw [Scan.digit,ha]
    change (a.digit o bits (c.toNat-48)).digits o bits ds=_
    rw [hdigit]
    exact @ih {a with
      decVal := o.add (o.mul (o.ofNat 10) a.decVal) (o.ofNat (c.toNat-48))} ha

/-- The fraction digits go into the number with their weights. -/
theorem digits_frac (ha : a.part=.frac) (ds : List UInt8) :
    (a.digits o bits ds).decVal=(ds.foldl (fun (p : F×F) c =>
      (o.add p.1 (o.mul (o.ofNat (c.toNat-48)) p.2),o.mul p.2 o.tenth))
        (a.decVal,a.fracMult)).1∧(a.digits o bits ds).expVal=a.expVal := by
  induction ds generalizing a with
  | nil => exact ⟨rfl,rfl⟩
  | cons c ds ih =>
    have hdigit : a.digit o bits (c.toNat-48)={a with
        decVal := o.add a.decVal (o.mul (o.ofNat (c.toNat-48)) a.fracMult)
        fracMult := o.mul a.fracMult o.tenth} := by
      rw [Scan.digit,ha]
    change ((a.digit o bits (c.toNat-48)).digits o bits ds).decVal=_∧
      ((a.digit o bits (c.toNat-48)).digits o bits ds).expVal=_
    rw [hdigit]
    exact @ih {a with
      decVal := o.add a.decVal (o.mul (o.ofNat (c.toNat-48)) a.fracMult)
      fracMult := o.mul a.fracMult o.tenth} ha

/-- The exponent digits go into the machine word of the exponent. -/
theorem digits_exp (ha : a.part=.exp) {x : ℕ} (hx : a.expVal=wrap bits x) (ds : List UInt8) :
    (a.digits o bits ds).decVal=a.decVal∧(a.digits o bits ds).expVal=
      wrap bits (ds.foldl (fun n c => 10*n+(c.toNat-48)) x : ℕ) := by
  induction ds generalizing a x with
  | nil => exact ⟨rfl,hx⟩
  | cons c ds ih =>
    have hdigit : a.digit o bits (c.toNat-48)={a with
        expVal := wrap bits ((10*x+(c.toNat-48) : ℕ) : ℤ)} := by
      rw [Scan.digit,ha,hx]
      rw [wrap_next]
      push_cast
      rfl
    change ((a.digit o bits (c.toNat-48)).digits o bits ds).decVal=_∧
      ((a.digit o bits (c.toNat-48)).digits o bits ds).expVal=_
    rw [hdigit]
    exact @ih {a with expVal := wrap bits ((10*x+(c.toNat-48) : ℕ) : ℤ)} ha _ rfl

end Digits

section Forward

variable {F : Type} {o : FloatOps F} {bits : ℕ} {allowImag : Bool}

/-- The loop reads an exponent and stops at the end of the number. -/
theorem decimalLoop_exponent {a : Scan F} (ha : a.part≠.exp) (hneg : a.expNeg=false)
    (himag : a.imag=false) (hval : a.expVal=wrap bits (0 : ℕ)) {e : ExpText} (he : e.digits≠[])
    {unit after : List UInt8} (hunit : unit=[]∨allowImag∧∃ c,unit=[c]∧c|||0x20=106)
    (hafter : ∀ c∈after,isSpace c) :
    ∃ b,decimalLoop o bits allowImag a (e.text++(unit++after))=some (b,after)∧
      b.decVal=a.decVal∧b.imag=decide (unit≠[])∧b.expNeg=decide (e.sign=[45])∧
      b.expVal=wrap bits (decimalOf e.digits) := by
  obtain ⟨c,ds,hds⟩ := exists_cons_of_ne_nil he
  have hc : isDigit c=true := e.digits_digit c (by simp [hds])
  have hmark := @decimalLoop_mark F o bits allowImag a ha hneg e (e.digits++(unit++after))
    (fun d hd => by
      obtain rfl : c=d := by simpa [hds] using hd
      exact (plain_of_isDigit hc).2) (by simp [he])
  obtain ⟨b,hb⟩ : ∃ b : Scan F,b={a with
      part := .exp
      expNeg := decide (e.sign=[45])} := ⟨_,rfl⟩
  have hpart : b.part=.exp := by rw [hb]
  have hword : b.expVal=wrap bits (0 : ℕ) := by rw [hb]; exact hval
  obtain ⟨hdec,hexp⟩ := @digits_exp F o bits b hpart 0 hword e.digits
  obtain ⟨-,hneg',himag'⟩ := @Scan.digits_part F o bits b e.digits
  refine ⟨{b.digits o bits e.digits with
    imag := decide (unit≠[])||(b.digits o bits e.digits).imag},?_,?_,?_,?_,?_⟩
  · rw [ExpText.text,cons_append,append_assoc,hmark,←hb,
      decimalLoop_digits e.digits_digit,decimalLoop_end hunit hafter]
  · rw [hdec,hb]
  · rw [himag',hb]
    simp [himag]
  · rw [hneg',hb]
  · exact hexp

end Forward

section Body

variable {F : Type} {o : FloatOps F} {bits : ℕ} {allowImag : Bool} (t : DecimalText allowImag)

/-- The loop reads the mantissa. -/
theorem decimalLoop_mantissa (rest : List UInt8) :
    ∃ b,decimalLoop o bits allowImag (Scan.init o) (t.intg++(t.fracText++rest))=
      decimalLoop o bits allowImag b rest∧b.part≠.exp∧b.expNeg=false∧b.imag=false∧b.expVal=0∧
      b.decVal=t.mantissa o := by
  have hintg := @digits_intg F o bits (Scan.init o) rfl t.intg
  rw [decimalLoop_digits t.intg_digit,hintg]
  cases hf : t.frac with
  | none =>
    refine ⟨_,by rw [DecimalText.fracText,hf]; rfl,by simp [Scan.init],rfl,rfl,rfl,?_⟩
    rw [DecimalText.mantissa,hf]
    rfl
  | some ds =>
    obtain ⟨b,hb⟩ : ∃ b : Scan F,b={Scan.init o with
        part := .frac
        decVal := t.intgVal o} := ⟨_,rfl⟩
    have hpart : b.part=.frac := by rw [hb]
    obtain ⟨hdec,hexp⟩ := @digits_frac F o bits b hpart ds
    obtain ⟨hpart',hneg,himag⟩ := @Scan.digits_part F o bits b ds
    refine ⟨b.digits o bits ds,?_,?_,?_,?_,?_,?_⟩
    · rw [DecimalText.fracText,hf]
      change decimalLoop o bits allowImag _ (46::(ds++rest))=_
      rw [decimalLoop_point rfl,decimalLoop_digits (t.frac_digit ds hf),hb]
      rfl
    · rw [hpart',hpart]
      decide
    · rw [hneg,hb]
      rfl
    · rw [himag,hb]
      rfl
    · rw [hexp,hb]
      rfl
    · rw [hdec,DecimalText.mantissa,hf,hb]
      rfl

/-- Zero in a machine word. -/
theorem wrap_zero (bits : ℕ) : wrap bits 0=0 := Int.zero_bmod ..

/-- A decimal number is read with its value, and the exponent that is applied is the written one
in a machine word. -/
theorem parseDecimal_body (h : t.Complete) : parseDecimal o bits allowImag t.body=
    some (o.mul (t.mantissa o) (o.pow10 (wrap bits t.written)),decide (t.unit≠[]),t.after) := by
  obtain ⟨b,hloop,hpart,hneg,himag,hexp,hdec⟩ :=
    @decimalLoop_mantissa F o bits allowImag t (t.expText++(t.unit++t.after))
  rw [parseDecimal,DecimalText.body,hloop]
  cases he : t.exponent with
  | none =>
    rw [DecimalText.expText,he]
    change (match decimalLoop o bits allowImag b (t.unit++t.after) with
      | none => none
      | some (a,rest) => _)=_
    rw [decimalLoop_end t.unit_eq t.after_space,DecimalText.written,he]
    simp [hneg,himag,hexp,hdec,wrap_zero]
  | some e =>
    have hword : b.expVal=wrap bits (0 : ℕ) := by
      rw [hexp,Nat.cast_zero,wrap_zero]
    obtain ⟨a,hrun,hdec',himag',hneg',hexp'⟩ := @decimalLoop_exponent F o bits allowImag b
      hpart hneg himag hword e (h.2 e he) t.unit t.after t.unit_eq t.after_space
    rw [DecimalText.expText,he]
    change (match decimalLoop o bits allowImag b (e.text++(t.unit++t.after)) with
      | none => none
      | some (a,rest) => _)=_
    rw [hrun,DecimalText.written,he]
    dsimp only
    rw [hdec',hdec,himag',hneg',hexp']
    by_cases hs : e.sign=[45]
    · simp only [hs,decide_true,if_true,signed]
      rw [wrap,wrap,wrap,Int.bmod_neg_bmod]
    · simp only [hs,decide_false,Bool.false_eq_true,if_false,signed]

end Body

section Head

variable {F : Type} {o : FloatOps F} {bits : ℕ} {allowImag forceComplex lexer : Bool}

/-- The parser in terms of the parts it finds behind space and a sign. -/
theorem mpParseNumDecimal_of_head {before sign start : List UInt8}
    (hbefore : ∀ c∈before,isSpace c) (hsign : sign∈[[],[43],[45]])
    (hstart : ∃ c,start.head?=some c∧isSpace c=false∧c≠43∧c≠45) {decVal : F} {imag : Bool}
    {rest : List UInt8} (hnumber : parseNumber o bits allowImag start=some (decVal,imag,rest))
    (hlength : rest.length≠start.length) (hrest : ∀ c∈rest,isSpace c) :
    mpParseNumDecimal o bits allowImag forceComplex lexer (before++(sign++start))=
      .ok (numObj o imag forceComplex (if sign=[45] then o.neg decVal else decVal)) := by
  obtain ⟨c,hc,hspace,hplus,hminus⟩ := hstart
  have hdrop : (before++(sign++start)).dropWhile isSpace=sign++start := by
    rw [dropWhile_append_of_pos hbefore]
    obtain ⟨tail,rfl⟩ := List.head?_eq_some_iff.mp hc
    simp only [mem_cons,not_mem_nil,or_false] at hsign
    rcases hsign with rfl | rfl | rfl
    · rw [nil_append,dropWhile_cons_of_neg (by simp [hspace])]
    · rw [singleton_append,dropWhile_cons_of_neg (by decide)]
    · rw [singleton_append,dropWhile_cons_of_neg (by decide)]
  have hparse : parseSign (sign++start)=(decide (sign=[45]),start) :=
    parseSign_of_mem hsign fun d hd => by
      obtain rfl : c=d := by rw [hc] at hd; exact Option.some.inj hd
      exact ⟨hplus,hminus⟩
  have hend : rest.dropWhile isSpace=[] := dropWhile_eq_nil_iff.mpr hrest
  rw [mpParseNumDecimal,hdrop,hparse]
  dsimp only
  rw [hnumber]
  dsimp only
  rw [if_neg (by simp [hlength,hend])]
  by_cases hs : sign=[45]
  · simp [hs]
  · simp [hs]

theorem startsWith_iff (letters str : List UInt8) :
    startsWith letters str=true↔letters<+:str.map (·|||0x20) := by
  rw [startsWith,decide_eq_true_iff,map_take,prefix_iff_eq_take]
  exact eq_comm

theorem not_startsWith {l : UInt8} {letters str : List UInt8}
    (h : ∀ c,str.head?=some c→c|||0x20≠l) : startsWith (l::letters) str=false := by
  rw [startsWith,decide_eq_false_iff_not]
  cases str with
  | nil => simp
  | cons c str =>
    have hc := h c rfl
    simp [hc]

/-- A decimal number starts with a digit or a point. -/
theorem DecimalText.head_body {t : DecimalText allowImag} (h : t.Complete) :
    ∃ c,t.body.head?=some c∧(isDigit c=true∨c=46) := by
  have hdigit := t.intg_digit
  rw [DecimalText.body]
  cases hi : t.intg with
  | cons c ds => exact ⟨c,rfl,Or.inl (hdigit c (by simp [hi]))⟩
  | nil =>
    rcases h.1 with hne | ⟨ds,hds,-⟩
    · exact absurd hi hne
    · refine ⟨46,?_,Or.inr rfl⟩
      rw [DecimalText.fracText,Option.mem_def.mp hds]
      rfl

/-- A decimal number of the grammar is read as its value. -/
theorem mpParseNumDecimal_decimal {t : DecimalText allowImag} (h : t.Complete) :
    mpParseNumDecimal o bits allowImag forceComplex lexer t.text=
      .ok (t.object o forceComplex (wrap bits t.written)) := by
  obtain ⟨c,hc,hkind⟩ := DecimalText.head_body h
  have hplain : isSpace c=false∧c≠43∧c≠45 := by
    rcases hkind with hdigit | rfl
    · exact plain_of_isDigit hdigit
    · decide
  have hletter : ∀ l∈([101,105,106,110] : List UInt8),∀ d,t.body.head?=some d→d|||0x20≠l :=
    fun l hl d hd heq => by
      obtain rfl : c=d := by rw [hc] at hd; exact Option.some.inj hd
      obtain ⟨hdigit,hpoint,-⟩ := plain_of_letter hl heq
      rcases hkind with htrue | hp
      · exact Bool.false_ne_true (hdigit.symm.trans htrue)
      · exact hpoint hp
  have hnumber : parseNumber o bits allowImag t.body=some
      (o.mul (t.mantissa o) (o.pow10 (wrap bits t.written)),decide (t.unit≠[]),t.after) := by
    rw [parseNumber,if_neg (by simp [not_startsWith (hletter 105 (by decide))]),
      if_neg (by simp [not_startsWith (hletter 110 (by decide))]),parseDecimal_body t h]
  have hlength : t.after.length≠t.body.length := by
    have hpos : 0 < t.intg.length+t.fracText.length := by
      rcases h.1 with hne | ⟨ds,hds,-⟩
      · have hintg := length_pos_of_ne_nil hne
        omega
      · rw [DecimalText.fracText,Option.mem_def.mp hds]
        simp
    simp only [DecimalText.body,length_append]
    omega
  exact mpParseNumDecimal_of_head t.before_space t.sign_mem ⟨c,hc,hplain⟩ hnumber hlength
    t.after_space

/-- An infinity, or the number that is none, is read as its value. -/
theorem mpParseNumDecimal_special (t : SpecialText) :
    mpParseNumDecimal o bits allowImag forceComplex lexer t.text=
      .ok (t.object o forceComplex) := by
  have hafter : ∀ l∈([101,105,106,110] : List UInt8),∀ d,t.after.head?=some d→d|||0x20≠l :=
    fun l hl d hd heq => by
      have hspace := t.after_space d (mem_of_mem_head? hd)
      rw [(plain_of_letter hl heq).2.2.1] at hspace
      exact Bool.false_ne_true hspace
  have hmem := t.letters_mem
  simp only [mem_cons,not_mem_nil,or_false] at hmem
  have hnone : startsWith [105,110,105,116,121] t.after=false :=
    not_startsWith (hafter 105 (by decide))
  have hnumber : parseNumber o bits allowImag (t.letters++t.after)=
      some (t.value o,false,t.after) := by
    have hlength : t.letters.length=(t.letters.map (·|||0x20)).length := (length_map _).symm
    rcases hmem with hl | hl | hl
    · have hfirst : startsWith [105] (t.letters++t.after)=true := by
        simp [startsWith_iff,hl]
      have hall : startsWith [105,110,102] (t.letters++t.after)=true := by
        simp [startsWith_iff,hl]
      have hdrop : (t.letters++t.after).drop 3=t.after := by
        rw [hl] at hlength
        exact drop_left' hlength
      simp [parseNumber,parseInf,SpecialText.value,hfirst,hall,hdrop,hnone,hl]
    · have hfirst : startsWith [105] (t.letters++t.after)=true := by
        simp [startsWith_iff,hl]
      have hall : startsWith [105,110,102] (t.letters++t.after)=true := by
        simp [startsWith_iff,hl]
      have hmore : startsWith [105,110,105,116,121] ((t.letters++t.after).drop 3)=true := by
        simp [startsWith_iff,map_drop,hl]
      have hdrop : (t.letters++t.after).drop 8=t.after := by
        rw [hl] at hlength
        exact drop_left' hlength
      simp [parseNumber,parseInf,SpecialText.value,hfirst,hall,hdrop,hmore,hl]
    · have hfirst : startsWith [105] (t.letters++t.after)=false := by
        simp [←Bool.not_eq_true,startsWith_iff,hl]
      have hsecond : startsWith [110] (t.letters++t.after)=true := by
        simp [startsWith_iff,hl]
      have hall : startsWith [110,97,110] (t.letters++t.after)=true := by
        simp [startsWith_iff,hl]
      have hdrop : (t.letters++t.after).drop 3=t.after := by
        rw [hl] at hlength
        exact drop_left' hlength
      simp [parseNumber,parseNan,SpecialText.value,hfirst,hsecond,hall,hdrop,hl]
  have hletters : ∃ c l tail,t.letters=c::tail∧c|||0x20=l∧l∈([101,105,106,110] : List UInt8) := by
    cases hl : t.letters with
    | nil => simp [hl] at hmem
    | cons c tail =>
      rw [hl] at hmem
      rcases hmem with h | h | h
      · exact ⟨c,105,tail,rfl,(List.cons.inj h).1,by decide⟩
      · exact ⟨c,105,tail,rfl,(List.cons.inj h).1,by decide⟩
      · exact ⟨c,110,tail,rfl,(List.cons.inj h).1,by decide⟩
  obtain ⟨c,l,tail,htail,hc,hl⟩ := hletters
  have hhead : ∃ c,(t.letters++t.after).head?=some c∧isSpace c=false∧c≠43∧c≠45 :=
    ⟨c,by rw [htail]; rfl,(plain_of_letter hl hc).2.2⟩
  have hlength : t.after.length≠(t.letters++t.after).length := by
    simp only [htail,length_append,length_cons]
    omega
  exact mpParseNumDecimal_of_head t.before_space t.sign_mem hhead hnumber hlength t.after_space

end Head

section Backward

variable {F : Type} {o : FloatOps F} {bits : ℕ} {allowImag : Bool} {a b : Scan F}
variable {str rest : List UInt8}

/-- The letter of an imaginary number, or nothing. -/
def IsUnit (allowImag : Bool) (unit : List UInt8) : Prop :=
  unit=[]∨allowImag∧∃ c,unit=[c]∧c|||0x20=106

/-- The digits that a text starts with. -/
theorem exists_isDigit (str : List UInt8) : ∃ ds more,str=ds++more∧(∀ c∈ds,isDigit c)∧
    ∀ c,more.head?=some c→isDigit c=false := by
  refine ⟨str.takeWhile isDigit,str.dropWhile isDigit,takeWhile_append_dropWhile.symm,
    fun c hc => mem_takeWhile_imp hc,fun c hc => ?_⟩
  have h := List.head?_dropWhile_not isDigit str
  rw [hc] at h
  exact h

/-- At a character that goes on with no part of the number the loop stops. -/
theorem decimalLoop_stop (hdigit : ∀ c,str.head?=some c→isDigit c=false)
    (hpoint : a.part=.intg→str.head?≠some 46)
    (hmark : a.part≠.exp→∀ c,str.head?=some c→c|||0x20≠101)
    (h : decimalLoop o bits allowImag a str=some (b,rest)) :
    ∃ unit,str=unit++rest∧IsUnit allowImag unit := by
  cases str with
  | nil =>
    rw [decimalLoop] at h
    cases h
    exact ⟨[],rfl,Or.inl rfl⟩
  | cons c str =>
    rw [decimalLoop_cons,if_neg (by simp [hdigit c rfl]),
      if_neg (fun hp => hpoint hp.1 (congrArg some hp.2)),
      if_neg (fun hm => hmark hm.1 c rfl hm.2)] at h
    by_cases hunit : allowImag=true∧c|||0x20=106
    · rw [if_pos hunit] at h
      cases h
      exact ⟨[c],rfl,Or.inr ⟨hunit.1,c,rfl,hunit.2⟩⟩
    · rw [if_neg hunit] at h
      cases h
      exact ⟨[],rfl,Or.inl rfl⟩

theorem decimalLoop_exp (ha : a.part=.exp) (h : decimalLoop o bits allowImag a str=some (b,rest)) :
    ∃ ds unit,str=ds++(unit++rest)∧(∀ c∈ds,isDigit c)∧IsUnit allowImag unit := by
  obtain ⟨ds,more,rfl,hds,hmore⟩ := exists_isDigit str
  have hpart := (@Scan.digits_part F o bits a ds).1
  rw [decimalLoop_digits hds] at h
  obtain ⟨unit,rfl,hunit⟩ := decimalLoop_stop hmore
    (fun hp => absurd (hp.symm.trans (hpart.trans ha)) (by decide))
    (fun hp => absurd (hpart.trans ha) hp) h
  exact ⟨ds,unit,rfl,hds,hunit⟩

/-- Behind the mantissa the loop reads an exponent, when there is one. -/
theorem decimalLoop_tail (ha : a.part≠.exp) (hdigit : ∀ c,str.head?=some c→isDigit c=false)
    (hpoint : a.part=.intg→str.head?≠some 46)
    (h : decimalLoop o bits allowImag a str=some (b,rest)) :
    ∃ (e : Option ExpText) (unit : List UInt8),
      str=(e.map ExpText.text).getD []++(unit++rest)∧IsUnit allowImag unit := by
  by_cases hmark : ∃ c tail,str=c::tail∧c|||0x20=101
  · obtain ⟨c,tail,rfl,hc⟩ := hmark
    rw [decimalLoop_cons,if_neg (by simp [hdigit c rfl]),
      if_neg (fun hp => hpoint hp.1 (congrArg some hp.2)),if_pos ⟨ha,hc⟩] at h
    obtain ⟨sign,more,htail,hsign,a',ha',hrun⟩ : ∃ sign more,tail=sign++more∧
        sign∈([[],[43],[45]] : List (List UInt8))∧∃ a' : Scan F,a'.part=.exp∧
          decimalLoop o bits allowImag a' more=some (b,rest) := by
      split_ifs at h with hnil hsign hshort
      · rcases hsign with hs | hs
        · obtain ⟨more,rfl⟩ := List.head?_eq_some_iff.mp hs
          exact ⟨[43],more,rfl,by decide,_,rfl,h⟩
        · obtain ⟨more,rfl⟩ := List.head?_eq_some_iff.mp hs
          exact ⟨[45],more,rfl,by decide,_,rfl,h⟩
      · exact ⟨[],tail,rfl,by decide,_,rfl,h⟩
    obtain ⟨ds,unit,hmore,hds,hunit⟩ := decimalLoop_exp ha' hrun
    refine ⟨some ⟨c,sign,ds,hc,hsign,hds⟩,unit,?_,hunit⟩
    rw [htail,hmore]
    simp [ExpText.text]
  · obtain ⟨unit,hstr,hunit⟩ := decimalLoop_stop hdigit hpoint (fun _ c hc heq => by
        obtain ⟨tail,htail⟩ := List.head?_eq_some_iff.mp hc
        exact hmark ⟨c,tail,htail,heq⟩) h
    exact ⟨none,unit,hstr,hunit⟩

/-- The loop reads the parts of a decimal number. -/
theorem decimalLoop_parts (ha : a.part=.intg)
    (h : decimalLoop o bits allowImag a str=some (b,rest)) :
    ∃ (intg : List UInt8) (frac : Option (List UInt8)) (e : Option ExpText) (unit : List UInt8),
      str=intg++((frac.map (46::·)).getD []++((e.map ExpText.text).getD []++(unit++rest)))∧
      (∀ c∈intg,isDigit c)∧(∀ ds∈frac,∀ c∈ds,isDigit c)∧IsUnit allowImag unit := by
  obtain ⟨intg,more,rfl,hintg,hmore⟩ := exists_isDigit str
  have hpart := (@Scan.digits_part F o bits a intg).1.trans ha
  rw [decimalLoop_digits hintg] at h
  by_cases hpoint : more.head?=some 46
  · obtain ⟨tail,rfl⟩ := List.head?_eq_some_iff.mp hpoint
    rw [decimalLoop_point hpart] at h
    obtain ⟨ds,behind,rfl,hds,hbehind⟩ := exists_isDigit tail
    rw [decimalLoop_digits hds] at h
    obtain ⟨e,unit,hstr,hunit⟩ := decimalLoop_tail
      (fun hp => by rw [(Scan.digits_part ds).1] at hp; cases hp) hbehind
      (fun hp => by rw [(Scan.digits_part ds).1] at hp; cases hp) h
    refine ⟨intg,some ds,e,unit,?_,hintg,?_,hunit⟩
    · rw [hstr]
      simp
    · rintro _ ⟨⟩
      exact hds
  · obtain ⟨e,unit,hstr,hunit⟩ := decimalLoop_tail (by rw [hpart]; decide) hmore (fun _ => hpoint) h
    refine ⟨intg,none,e,unit,?_,hintg,?_,hunit⟩
    · rw [hstr]
      rfl
    · rintro _ ⟨⟩

theorem take_of_startsWith {letters : List UInt8} (h : startsWith letters str=true) :
    (str.take letters.length).map (·|||0x20)=letters := of_decide_eq_true h

/-- The characters that are read are a number, but for missing digits, and space goes on. -/
theorem parts_of_parseNumber {start : List UInt8} {decVal : F} {imag : Bool}
    (h : parseNumber o bits allowImag start=some (decVal,imag,rest))
    (hlength : rest.length≠start.length) :
    (∃ letters,start=letters++rest∧letters.map (·|||0x20)∈
      ([[105,110,102],[105,110,102,105,110,105,116,121],[110,97,110]] : List (List UInt8)))∨
    ∃ (intg : List UInt8) (frac : Option (List UInt8)) (e : Option ExpText) (unit : List UInt8),
      start=intg++((frac.map (46::·)).getD []++((e.map ExpText.text).getD []++(unit++rest)))∧
      (∀ c∈intg,isDigit c)∧(∀ ds∈frac,∀ c∈ds,isDigit c)∧IsUnit allowImag unit := by
  rw [parseNumber] at h
  by_cases hinf : startsWith [105] start=true
  · rw [if_pos hinf,parseInf] at h
    by_cases hfirst : startsWith [105,110,102] start=true
    · rw [if_pos hfirst] at h
      have hshort : (start.take 3).map (·|||0x20)=[105,110,102] := take_of_startsWith hfirst
      by_cases hmore : startsWith [105,110,105,116,121] (start.drop 3)=true
      · rw [if_pos hmore] at h
        cases h
        refine Or.inl ⟨start.take 8,(take_append_drop 8 start).symm,?_⟩
        have hlong : ((start.drop 3).take 5).map (·|||0x20)=[105,110,105,116,121] :=
          take_of_startsWith hmore
        have htake : start.take 8=start.take 3++(start.drop 3).take 5 :=
          @take_add UInt8 start 3 5
        rw [htake,map_append,hshort,hlong]
        decide
      · rw [if_neg hmore] at h
        cases h
        refine Or.inl ⟨start.take 3,(take_append_drop 3 start).symm,?_⟩
        rw [hshort]
        decide
    · rw [if_neg hfirst] at h
      cases h
      exact absurd rfl hlength
  · rw [if_neg hinf] at h
    by_cases hnan : startsWith [110] start=true
    · rw [if_pos hnan,parseNan] at h
      by_cases hall : startsWith [110,97,110] start=true
      · rw [if_pos hall] at h
        cases h
        refine Or.inl ⟨start.take 3,(take_append_drop 3 start).symm,?_⟩
        have hshort : (start.take 3).map (·|||0x20)=[110,97,110] := take_of_startsWith hall
        rw [hshort]
        decide
      · rw [if_neg hall] at h
        cases h
        exact absurd rfl hlength
    · rw [if_neg hnan,parseDecimal] at h
      cases hloop : decimalLoop o bits allowImag (Scan.init o) start with
      | none =>
        rw [hloop] at h
        cases h
      | some r =>
        rw [hloop] at h
        cases h
        exact Or.inr (decimalLoop_parts rfl hloop)

/-- What is returned is read from a number of the grammar, but for missing digits. -/
theorem grammar_of_ok {forceComplex lexer : Bool} {v : NumObj F}
    (h : mpParseNumDecimal o bits allowImag forceComplex lexer str=.ok v) :
    InGrammar allowImag str∨LacksDigits allowImag str := by
  obtain ⟨sign,start,hstart,hsign,hparse⟩ := exists_sign (str.dropWhile isSpace)
  have hbefore : ∀ c∈str.takeWhile isSpace,isSpace c=true := fun c hc => mem_takeWhile_imp hc
  have hstr : str.takeWhile isSpace++(sign++start)=str := by
    rw [←hstart,takeWhile_append_dropWhile]
  rw [mpParseNumDecimal,hparse] at h
  dsimp only at h
  cases hnumber : parseNumber o bits allowImag start with
  | none =>
    rw [hnumber] at h
    cases h
  | some r =>
    obtain ⟨decVal,imag,rest⟩ := r
    rw [hnumber] at h
    dsimp only at h
    by_cases hbad : rest.length=start.length∨rest.dropWhile isSpace≠[]
    · rw [if_pos hbad] at h
      cases h
    · obtain ⟨hlength,hend⟩ := not_or.mp hbad
      have hrest : ∀ c∈rest,isSpace c=true :=
        dropWhile_eq_nil_iff.mp (Decidable.not_not.mp hend)
      rcases parts_of_parseNumber hnumber hlength with ⟨letters,hletters,hmem⟩ |
        ⟨intg,frac,e,unit,hparts,hintg,hfrac,hunit⟩
      · refine Or.inl (Or.inr ⟨⟨_,sign,letters,rest,hbefore,hsign,hmem,hrest⟩,?_⟩)
        rw [SpecialText.text]
        rw [←hletters,hstr]
      · obtain ⟨t,ht⟩ : ∃ t : DecimalText allowImag,t=⟨_,sign,intg,frac,e,unit,rest,hbefore,hsign,
          hintg,hfrac,hunit,hrest⟩ := ⟨_,rfl⟩
        have htext : t.text=str := by
          rw [ht,DecimalText.text,DecimalText.body,DecimalText.fracText,DecimalText.expText]
          rw [←hparts,hstr]
        by_cases hcomplete : t.Complete
        · exact Or.inl (Or.inl ⟨t,htext,hcomplete⟩)
        · exact Or.inr ⟨t,htext,hcomplete⟩

/-- What is not returned is an exception. -/
theorem error_of_not_ok {forceComplex lexer : Bool}
    (h : ∀ v,mpParseNumDecimal o bits allowImag forceComplex lexer str≠.ok v) :
    mpParseNumDecimal o bits allowImag forceComplex lexer str=
      .error (raiseExc lexer "invalid syntax for number") := by
  obtain ⟨decNeg,start,hsign⟩ : ∃ n s,parseSign (str.dropWhile isSpace)=(n,s) := ⟨_,_,rfl⟩
  rw [mpParseNumDecimal,hsign] at h ⊢
  dsimp only at h ⊢
  cases hnumber : parseNumber o bits allowImag start with
  | none => rfl
  | some r =>
    rw [hnumber] at h
    dsimp only at h ⊢
    split
    case isTrue => rfl
    case isFalse hbad =>
      rw [if_neg hbad] at h
      exact absurd rfl (h _)

end Backward

/-- The numbers of the grammar are read as their values, with the exponent that is written when it
fits its machine word, and a text that is no such number and does not only lack digits is
invalid. -/
theorem mpParseNumDecimal_reads {F : Type} (o : FloatOps F) (bits : ℕ) (hbits : 0 < bits)
    (allowImag forceComplex lexer : Bool) :
    (∀ t : DecimalText allowImag,t.Complete→
      ∃ e,mpParseNumDecimal o bits allowImag forceComplex lexer t.text=
          .ok (t.object o forceComplex e)∧
        (IsInt bits t.written→e=t.written))∧
    (∀ t : SpecialText,mpParseNumDecimal o bits allowImag forceComplex lexer t.text=
      .ok (t.object o forceComplex))∧
    ∀ str,¬InGrammar allowImag str→¬LacksDigits allowImag str→
      mpParseNumDecimal o bits allowImag forceComplex lexer str=
        .error (raiseExc lexer "invalid syntax for number") :=
  ⟨fun _ h => ⟨_,mpParseNumDecimal_decimal h,fun hint => wrap_of_isInt hbits hint⟩,
    fun t => mpParseNumDecimal_special t,
    fun _ hgrammar hlacks => error_of_not_ok fun _ hok =>
      (grammar_of_ok hok).elim hgrammar hlacks⟩

/-- The operations on floats as they are applied. -/
inductive FloatTerm where
  | ofNat (n : ℕ)
  | inf
  | nan
  | tenth
  | add (x y : FloatTerm)
  | mul (x y : FloatTerm)
  | neg (x : FloatTerm)
  | pow10 (e : ℤ)

/-- The arithmetic that writes down what is applied. -/
def termOps : FloatOps FloatTerm where
  ofNat := .ofNat
  inf := .inf
  nan := .nan
  tenth := .tenth
  add := .add
  mul := .mul
  neg := .neg
  pow10 := .pow10

/-- The text `1.5`. -/
def onePointFive : DecimalText false where
  before := []
  sign := []
  intg := [49]
  frac := some [53]
  exponent := none
  unit := []
  after := []
  before_space := by simp
  sign_mem := by simp
  intg_digit := fun c hc => by rw [List.mem_singleton.mp hc]; rfl
  frac_digit := fun ds hds c hc => by
    cases hds
    rw [List.mem_singleton.mp hc]
    rfl
  unit_eq := Or.inl rfl
  after_space := by simp

/-- The text is read as its value, with the exponent that is not written. -/
theorem mpParseNumDecimal_onePointFive :
    ∃ e,mpParseNumDecimal termOps 32 false false false onePointFive.text=
      .ok (onePointFive.object termOps false e)∧
        (IsInt 32 onePointFive.written→e=onePointFive.written) :=
  (mpParseNumDecimal_reads termOps 32 (by decide) false false false).1 onePointFive
    ⟨Or.inl (List.cons_ne_nil _ _),fun _ he => nomatch he⟩

/-- A number of the grammar that consists of one character is a digit. -/
theorem isDigit_of_inGrammar {allowImag : Bool} {c : UInt8} (h : InGrammar allowImag [c]) :
    isDigit c=true := by
  rcases h with ⟨t,ht,hcomplete,-⟩ | ⟨t,ht⟩
  · obtain ⟨d,hd,hdigit⟩ : ∃ d∈t.text,isDigit d=true := by
      rw [DecimalText.text,DecimalText.body,DecimalText.fracText]
      rcases hcomplete with hne | ⟨ds,hds,hne⟩
      · obtain ⟨d,hd⟩ := exists_mem_of_ne_nil _ hne
        exact ⟨d,by simp [hd],t.intg_digit d hd⟩
      · obtain ⟨d,hd⟩ := exists_mem_of_ne_nil _ hne
        exact ⟨d,by simp [Option.mem_def.mp hds,hd],t.frac_digit ds hds d hd⟩
    rw [ht] at hd
    rwa [←mem_singleton.mp hd]
  · have hlength := congrArg List.length ht
    have hletters : 3 ≤ t.letters.length := by
      have hmem := t.letters_mem
      simp only [mem_cons,not_mem_nil,or_false] at hmem
      rw [←length_map (f := (·|||0x20))]
      rcases hmem with hl | hl | hl <;> rw [hl] <;> decide
    simp only [SpecialText.text,length_append,length_singleton] at hlength
    omega

/-- The exponent that is applied to `1.5` is not the written one less the number of fraction
digits, and a point alone is accepted. -/
theorem onePointFive_exponent :
    ¬((∀ t : DecimalText false,t.Complete→∃ m,mpParseNumDecimal termOps 32 false false false t.text=
          .ok (.float (.mul m (.pow10 (t.written-(t.frac.getD []).length)))))∨
      ∀ str,(∃ v,mpParseNumDecimal termOps 32 false false false str=.ok v)→
        InGrammar false str) := by
  rintro (h | h)
  · obtain ⟨m,hm⟩ := h onePointFive ⟨Or.inl (List.cons_ne_nil _ _),fun _ he => nomatch he⟩
    have hrun : mpParseNumDecimal termOps 32 false false false onePointFive.text=
        .ok (.float (.mul (.add (.add (.mul (.ofNat 10) (.ofNat 0)) (.ofNat 1))
          (.mul (.ofNat 5) .tenth)) (.pow10 0))) := rfl
    rw [hrun] at hm
    injection hm with hobj
    injection hobj with hterm
    injection hterm with _ hpow
    injection hpow with he
    exact absurd he (by decide)
  · have hpoint := isDigit_of_inGrammar (h [46] ⟨_,rfl⟩)
    exact absurd hpoint (by decide)

end MicroPython.ParseDecimal
