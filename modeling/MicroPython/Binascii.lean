import MicroPython.Unicode

/-!
# Hexadecimal and base64 text

`ubinascii` allocates the output of each conversion before it writes it. The sizes are right for
hexadecimal text and for the base64 encoder. The base64 decoder allocates three bytes for every
four characters of its input and one more, which is one byte too few just when the input has
three characters more than a multiple of four and all of them belong to the alphabet.
-/

namespace MicroPython.Binascii

open Nat List

open Unicode (unicharIsxdigit unicharXdigitValue forall_byte)

/-! ## Output -/

/-- How the functions fail. -/
inductive Failure where
  /-- "odd-length string" -/
  | oddLength
  /-- "non-hex digit found" -/
  | nonHexDigit
  /-- "incorrect padding" -/
  | incorrectPadding
  /-- A byte is written behind the buffer. -/
  | overrun
  deriving DecidableEq

/-- A byte is written at the end of what is in a buffer. -/
def emit (alloc : ℕ) (out : List UInt8) (b : UInt8) : Except Failure (List UInt8) :=
  if out.length < alloc then .ok (out++[b]) else .error .overrun

/-- Bytes are written one after another. -/
def emitAll (alloc : ℕ) : List UInt8→List UInt8→Except Failure (List UInt8)
  | out,[] => .ok out
  | out,b::bs => (emit alloc out b).bind fun out => emitAll alloc out bs

/-! ## Hexadecimal text -/

/-- A digit of `mod_binascii_hexlify`. -/
def hexDigit (d : UInt8) : UInt8 := (if d > 9 then d+(97-57-1) else d)+48

/-- The digits of a byte. -/
def hexDigits (b : UInt8) : List UInt8 := [hexDigit (b>>>4),hexDigit (b&&&0xf)]

/-- The loop of `mod_binascii_hexlify`. -/
def hexlifyLoop (alloc : ℕ) (sep : Option UInt8) : List UInt8→List UInt8→Except Failure (List UInt8)
  | [],out => .ok out
  | b::bs,out => (emitAll alloc out (hexDigits b)).bind fun out =>
    match sep with
    | none => hexlifyLoop alloc sep bs out
    | some c =>
      if bs=[] then hexlifyLoop alloc sep bs out
      else (emit alloc out c).bind fun out => hexlifyLoop alloc sep bs out

/-- `mod_binascii_hexlify`. The size of its output is a machine word. -/
def hexlify (wordBits : ℕ) (sep : Option UInt8) (bytes : List UInt8) :
    Except Failure (List UInt8) :=
  if bytes=[] then .ok []
  else
    let outLen := bytes.length*2+if sep=none then 0 else bytes.length-1
    hexlifyLoop (outLen%2^wordBits) sep bytes []

/-- The loop of `mod_binascii_unhexlify`. -/
def unhexlifyLoop (alloc : ℕ) : List UInt8→UInt8→List UInt8→Except Failure (List UInt8)
  | [],_,out => .ok out
  | c::cs,hexByte,out =>
    if unicharIsxdigit c.toNat=true then
      let hexByte := hexByte+UInt8.ofNat (unicharXdigitValue c.toNat)
      -- the number of characters to come is odd after the first of two
      if cs.length%2=1 then unhexlifyLoop alloc cs (hexByte<<<4) out
      else (emit alloc out hexByte).bind fun out => unhexlifyLoop alloc cs 0 out
    else .error .nonHexDigit

/-- `mod_binascii_unhexlify` -/
def unhexlify (data : List UInt8) : Except Failure (List UInt8) :=
  if data.length%2≠0 then .error .oddLength
  else unhexlifyLoop (data.length/2) data 0 []

/-! ## Base64 -/

/-- `mod_binascii_sextet` -/
def sextet (ch : UInt8) : Option ℕ :=
  if 65≤ch.toNat∧ch.toNat≤90 then some (ch.toNat-65)
  else if 97≤ch.toNat∧ch.toNat≤122 then some (ch.toNat-97+26)
  else if 48≤ch.toNat∧ch.toNat≤57 then some (ch.toNat-48+52)
  else if ch=43 then some 62
  else if ch=47 then some 63
  else none

/-- The variables of `mod_binascii_a2b_base64`. -/
structure Decoder where
  /-- `shift` -/
  shift : ℕ
  /-- `nbits` -/
  nbits : ℕ
  /-- `hadpad` -/
  hadpad : Bool
  /-- What is in the buffer. -/
  out : List UInt8

/-- A character that belongs to the alphabet. -/
def takeSextet (alloc : ℕ) (d : Decoder) (value : ℕ) : Except Failure Decoder :=
  let shift := (d.shift<<<6|||value)%2^32
  if d.nbits+6≥8 then
    (emit alloc d.out (UInt8.ofNat (shift>>>(d.nbits+6-8)&&&0xFF))).map fun out =>
      ⟨shift,d.nbits+6-8,false,out⟩
  else .ok ⟨shift,d.nbits+6,false,d.out⟩

/-- The loop of `mod_binascii_a2b_base64`. -/
def a2bLoop (alloc : ℕ) : List UInt8→Decoder→Except Failure Decoder
  | [],d => .ok d
  | ch::cs,d =>
    if ch=61∧(d.nbits=2∨d.nbits=4∧d.hadpad=true) then .ok {d with nbits := 0}
    else
      match sextet ch with
      | none => a2bLoop alloc cs {d with hadpad := d.hadpad||ch=61}
      | some value => (takeSextet alloc d value).bind fun d => a2bLoop alloc cs d

/-- `mod_binascii_a2b_base64` -/
def a2bBase64 (wordBits : ℕ) (data : List UInt8) : Except Failure (List UInt8) :=
  let alloc := (data.length/4*3+1)%2^wordBits
  (a2bLoop alloc data ⟨0,0,false,[]⟩).bind fun d =>
    if d.nbits≠0 then .error .incorrectPadding else .ok d.out

/-- The numeric values that the first pass of `mod_binascii_b2a_base64` writes. -/
def b2aValues (alloc : ℕ) : List UInt8→List UInt8→Except Failure (List UInt8)
  | a::b::c::rest,out =>
    (emitAll alloc out [(a&&&0xFC)>>>2,(a&&&0x03)<<<4|||(b&&&0xF0)>>>4,
      (b&&&0x0F)<<<2|||(c&&&0xC0)>>>6,c&&&0x3F]).bind fun out => b2aValues alloc rest out
  | [a,b],out => emitAll alloc out [(a&&&0xFC)>>>2,(a&&&0x03)<<<4|||(b&&&0xF0)>>>4,
      (b&&&0x0F)<<<2,64]
  | [a],out => emitAll alloc out [(a&&&0xFC)>>>2,(a&&&0x03)<<<4,64,64]
  | [],out => .ok out

/-- A character of the second pass. -/
def base64Char (value : UInt8) : UInt8 :=
  if value < 26 then value+65
  else if value < 52 then value+(97-26)
  else if value < 62 then value+(48-52)
  else if value=62 then 43
  else if value=63 then 47
  else 61

/-- `mod_binascii_b2a_base64` -/
def b2aBase64 (wordBits : ℕ) (data : List UInt8) : Except Failure (List UInt8) :=
  let alloc := ((if data.length≠0 then ((data.length-1)/3+1)*4 else 0)+1)%2^wordBits
  (b2aValues alloc data []).bind fun out => emit alloc (out.map base64Char) 10

variable {alloc : ℕ} {out bs : List UInt8}

/-! ## Room -/

/-- Bytes fit when there is room for all of them. -/
theorem emitAll_ok (h : out.length+bs.length ≤ alloc) : emitAll alloc out bs=.ok (out++bs) := by
  induction bs generalizing out with
  | nil => simp [emitAll]
  | cons b bs ih =>
    rw [length_cons] at h
    have hroom : out.length < alloc := by omega
    have hrest : (out++[b]).length+bs.length ≤ alloc := by
      simp
      omega
    rw [emitAll,emit,if_pos hroom]
    simpa [Except.bind] using ih hrest

/-- They do not fit otherwise. -/
theorem emitAll_overrun (hout : out.length ≤ alloc) (h : alloc < out.length+bs.length) :
    emitAll alloc out bs=.error .overrun := by
  induction bs generalizing out with
  | nil =>
    rw [length_nil] at h
    omega
  | cons b bs ih =>
    rw [length_cons] at h
    by_cases hroom : out.length < alloc
    · have hlength : (out++[b]).length=out.length+1 := by simp
      rw [emitAll,emit,if_pos hroom]
      exact ih (by omega) (by omega)
    · rw [emitAll,emit,if_neg hroom]
      rfl

/-- Bytes after others. -/
theorem emitAll_append (alloc : ℕ) (out bs cs : List UInt8) :
    emitAll alloc out (bs++cs)=(emitAll alloc out bs).bind fun out => emitAll alloc out cs := by
  induction bs generalizing out with
  | nil => rfl
  | cons b bs ih =>
    rw [cons_append,emitAll,emitAll]
    cases emit alloc out b with
    | error e => rfl
    | ok out => exact ih out

/-! ## Hexadecimal text -/

/-- The digits are those of the byte. -/
theorem hexDigits_spec (b : UInt8) :
    unicharIsxdigit (hexDigit (b>>>4)).toNat=true∧unicharIsxdigit (hexDigit (b&&&0xf)).toNat=true∧
      ((0 : UInt8)+UInt8.ofNat (unicharXdigitValue (hexDigit (b>>>4)).toNat))<<<4+
        UInt8.ofNat (unicharXdigitValue (hexDigit (b&&&0xf)).toNat)=b := by
  refine forall_byte (p := fun b => unicharIsxdigit (hexDigit (b>>>4)).toNat=true∧
    unicharIsxdigit (hexDigit (b&&&0xf)).toNat=true∧
      ((0 : UInt8)+UInt8.ofNat (unicharXdigitValue (hexDigit (b>>>4)).toNat))<<<4+
        UInt8.ofNat (unicharXdigitValue (hexDigit (b&&&0xf)).toNat)=b) ?_ b
  decide +kernel

theorem hexlifyLoop_eq (alloc : ℕ) (bs out : List UInt8) :
    hexlifyLoop alloc none bs out=emitAll alloc out (bs.flatMap hexDigits) := by
  induction bs generalizing out with
  | nil => rfl
  | cons b bs ih =>
    rw [hexlifyLoop,flatMap_cons,emitAll_append]
    simp only [ih]

/-- Two digits for each byte. -/
theorem length_digits (bs : List UInt8) : (bs.flatMap hexDigits).length=2*bs.length := by
  induction bs with
  | nil => rfl
  | cons b bs ih =>
    rw [flatMap_cons,length_append,ih,length_cons,hexDigits]
    simp
    omega

/-- The decoder reads the digits of bytes. -/
theorem unhexlifyLoop_digits (h : out.length+bs.length ≤ alloc) :
    unhexlifyLoop alloc (bs.flatMap hexDigits) 0 out=.ok (out++bs) := by
  induction bs generalizing out with
  | nil => simp [unhexlifyLoop]
  | cons b bs ih =>
    rw [length_cons] at h
    obtain ⟨hhigh,hlow,hvalue⟩ := hexDigits_spec b
    have hroom : out.length < alloc := by omega
    have hlength := length_digits bs
    have hodd : (hexDigit (b&&&0xf)::bs.flatMap hexDigits).length%2=1 := by
      rw [length_cons]
      omega
    have heven : ¬(bs.flatMap hexDigits).length%2=1 := by omega
    have hrest : (out++[b]).length+bs.length ≤ alloc := by
      simp
      omega
    have hdigits : (b::bs).flatMap hexDigits=
        hexDigit (b>>>4)::hexDigit (b&&&0xf)::bs.flatMap hexDigits := rfl
    rw [hdigits,unhexlifyLoop,if_pos hhigh]
    simp only [if_pos hodd]
    rw [unhexlifyLoop,if_pos hlow]
    simp only [if_neg heven]
    rw [hvalue,emit,if_pos hroom]
    simpa [Except.bind] using ih hrest

/-- Hexadecimal text of bytes is read back just when its size is a machine word. -/
theorem hexlify_roundTrip (wordBits : ℕ) (bs : List UInt8) :
    (hexlify wordBits none bs).bind unhexlify=.ok bs↔2*bs.length < 2^wordBits := by
  rw [hexlify]
  split
  case isTrue hnil =>
    subst hnil
    exact ⟨fun _ => Nat.two_pow_pos wordBits,fun _ => rfl⟩
  case isFalse hne =>
    have hlength := length_digits bs
    simp only [add_zero,hexlifyLoop_eq,↓reduceIte]
    constructor
    · intro hround
      by_contra hwide
      have hsmall : bs.length*2%2^wordBits < 2*bs.length :=
        Nat.lt_of_lt_of_le (Nat.mod_lt _ (Nat.two_pow_pos wordBits)) (Nat.le_of_not_lt hwide)
      rw [emitAll_overrun (zero_le _) (by rw [hlength]; simpa using hsmall)] at hround
      cases hround
    · intro hword
      have hmod : bs.length*2%2^wordBits=bs.length*2 :=
        mod_eq_of_lt (by rwa [mul_comm])
      rw [hmod,emitAll_ok (by rw [hlength]; simp; omega)]
      have heven : ¬(bs.flatMap hexDigits).length%2≠0 := by omega
      have hhalf : (bs.flatMap hexDigits).length/2=bs.length := by omega
      simp only [Except.bind,nil_append,unhexlify,if_neg heven,hhalf]
      exact unhexlifyLoop_digits (by simp)

variable (cs : List UInt8)

/-- The decoder stays in its buffer. -/
theorem unhexlifyLoop_inside (hexByte : UInt8) (h : out.length+(cs.length+1)/2 ≤ alloc) :
    unhexlifyLoop alloc cs hexByte out≠.error .overrun := by
  induction cs generalizing hexByte out with
  | nil => nofun
  | cons c cs ih =>
    rw [length_cons] at h
    rw [unhexlifyLoop]
    split
    case isFalse => nofun
    case isTrue =>
      dsimp only
      split
      case isTrue hodd => exact ih _ (by omega)
      case isFalse heven =>
        have hroom : out.length < alloc := by omega
        rw [emit,if_pos hroom]
        refine ih _ ?_
        simp
        omega

variable (data : List UInt8) (shift : ℕ)

/-- So does the whole function. -/
theorem unhexlify_inside : unhexlify data≠.error .overrun := by
  rw [unhexlify]
  split
  case isTrue => nofun
  case isFalse heven =>
    refine unhexlifyLoop_inside data 0 ?_
    simp
    omega

/-! ## Base64 -/

/-- The numeric values of an input, with 64 for padding. -/
def values : List UInt8→List UInt8
  | a::b::c::rest => (a&&&0xFC)>>>2::((a&&&0x03)<<<4|||(b&&&0xF0)>>>4)::
      ((b&&&0x0F)<<<2|||(c&&&0xC0)>>>6)::(c&&&0x3F)::values rest
  | [a,b] => [(a&&&0xFC)>>>2,(a&&&0x03)<<<4|||(b&&&0xF0)>>>4,(b&&&0x0F)<<<2,64]
  | [a] => [(a&&&0xFC)>>>2,(a&&&0x03)<<<4,64,64]
  | [] => []

/-- The first pass writes the values. -/
theorem b2aValues_eq (alloc : ℕ) (data out : List UInt8) :
    b2aValues alloc data out=emitAll alloc out (values data) := by
  induction data using values.induct generalizing out with
  | case1 a b c rest ih =>
    have hsplit : values (a::b::c::rest)=[(a&&&0xFC)>>>2,(a&&&0x03)<<<4|||(b&&&0xF0)>>>4,
        (b&&&0x0F)<<<2|||(c&&&0xC0)>>>6,c&&&0x3F]++values rest := rfl
    rw [hsplit,emitAll_append,b2aValues]
    simp only [ih]
  | case2 a b => rfl
  | case3 a => rfl
  | case4 => rfl

/-- Four values for every three bytes that are begun. -/
theorem length_values : (values data).length=(data.length+2)/3*4 := by
  induction data using values.induct with
  | case1 a b c rest ih =>
    rw [values]
    simp only [length_cons,ih]
    omega
  | case2 a b => simp [values]
  | case3 a => simp [values]
  | case4 => rfl

/-- The value of a character of the alphabet. -/
theorem sextet_base64Char (v : UInt8) (h : v.toNat < 64) : sextet (base64Char v)=some v.toNat := by
  refine forall_byte (p := fun v => v.toNat < 64 → sextet (base64Char v)=some v.toNat) ?_ v h
  decide +kernel

/-- The values of single bytes. -/
theorem value_table (a : UInt8) : ((a&&&0xFC)>>>2).toNat=a.toNat/4∧
    ((a&&&0x03)<<<4).toNat=a.toNat%4*16∧((a&&&0xF0)>>>4).toNat=a.toNat/16∧
    ((a&&&0x0F)<<<2).toNat=a.toNat%16*4∧((a&&&0xC0)>>>6).toNat=a.toNat/64∧
    (a&&&0x3F).toNat=a.toNat%64 := by
  refine forall_byte (p := fun a => ((a&&&0xFC)>>>2).toNat=a.toNat/4∧
    ((a&&&0x03)<<<4).toNat=a.toNat%4*16∧((a&&&0xF0)>>>4).toNat=a.toNat/16∧
    ((a&&&0x0F)<<<2).toNat=a.toNat%16*4∧((a&&&0xC0)>>>6).toNat=a.toNat/64∧
    (a&&&0x3F).toNat=a.toNat%64) ?_ a
  decide +kernel

/-- Bits below others are added. -/
theorem mul_or {x y i : ℕ} (h : y < 2^i) : x*2^i|||y=x*2^i+y := by
  have hshift := shiftLeft_add_eq_or_of_lt h x
  rw [shiftLeft_eq] at hshift
  exact hshift.symm

/-- A value of two bytes. -/
theorem value_high (a b : UInt8) :
    ((a&&&0x03)<<<4|||(b&&&0xF0)>>>4).toNat=a.toNat%4*16+b.toNat/16 := by
  have hb := b.toNat_lt
  have hlow : b.toNat/16 < 2^4 := by omega
  rw [UInt8.toNat_or,(value_table a).2.1,(value_table b).2.2.1]
  exact mul_or hlow

/-- The other value of two bytes. -/
theorem value_low (b c : UInt8) :
    ((b&&&0x0F)<<<2|||(c&&&0xC0)>>>6).toNat=b.toNat%16*4+c.toNat/64 := by
  have hc := c.toNat_lt
  have hlow : c.toNat/64 < 2^2 := by omega
  rw [UInt8.toNat_or,(value_table b).2.2.2.1,(value_table c).2.2.2.2.1]
  exact mul_or hlow

/-- A value that is taken while the bits before it and its own are fewer than eight. -/
theorem takeSextet_keep (alloc : ℕ) (shift : ℕ) (hadpad : Bool) (out : List UInt8) {v : ℕ}
    (hv : v < 64) : ∃ shift',takeSextet alloc ⟨shift,0,hadpad,out⟩ v=
      .ok ⟨shift',6,false,out⟩∧shift'%64=v := by
  refine ⟨_,rfl,?_⟩
  have hor : shift<<<6|||v=shift*64+v := by
    rw [shiftLeft_eq]
    exact mul_or hv
  rw [hor]
  omega

/-- A value that is taken otherwise: a byte of the bits before it and its first ones is
written. -/
theorem takeSextet_emit {nbits : ℕ} (hnbits : nbits=2∨nbits=4∨nbits=6) (shift : ℕ)
    (hadpad : Bool) (hroom : out.length < alloc) {v : ℕ} (hv : v < 64) :
    ∃ shift',takeSextet alloc ⟨shift,nbits,hadpad,out⟩ v= .ok ⟨shift',nbits-2,false,
        out++[UInt8.ofNat ((shift%2^nbits*64+v)/2^(nbits-2))]⟩∧
      shift'%2^(nbits-2)=v%2^(nbits-2) := by
  have hor : shift<<<6|||v=shift*64+v := by
    rw [shiftLeft_eq]
    exact mul_or hv
  have hmask : ∀ n,n&&&0xFF=n%256 := fun n => and_two_pow_sub_one_eq_mod n 8
  have hthere : nbits+6≥8 := by omega
  refine ⟨(shift*64+v)%2^32,?_,?_⟩
  · rw [takeSextet]
    simp only [if_pos hthere,hor,hmask,emit,if_pos hroom,shiftRight_eq_div_pow]
    have hbyte : (shift*64+v)%2^32/2^(nbits+6-8)%256=(shift%2^nbits*64+v)/2^(nbits-2) := by
      rcases hnbits with rfl | rfl | rfl <;> simp only [Nat.reducePow,Nat.reduceAdd,Nat.reduceSub]
        <;> omega
    rw [hbyte]
    have hbits : nbits+6-8=nbits-2 := by omega
    rw [hbits]
    rfl
  · rcases hnbits with rfl | rfl | rfl <;> simp only [Nat.reducePow,Nat.reduceSub] <;> omega

/-- A character of the alphabet is no padding. -/
theorem base64Char_ne (v : UInt8) (h : v.toNat < 64) : base64Char v≠61 := by
  refine forall_byte (p := fun v => v.toNat < 64 → base64Char v≠61) ?_ v h
  decide +kernel

theorem a2bLoop_char (alloc : ℕ) {v : UInt8} (h : v.toNat < 64) (cs : List UInt8) (d : Decoder) :
    a2bLoop alloc (base64Char v::cs) d=
      (takeSextet alloc d v.toNat).bind fun d => a2bLoop alloc cs d := by
  rw [a2bLoop,if_neg fun hpad => base64Char_ne v h hpad.1,sextet_base64Char v h]

/-- The first two characters of a group give its first byte. -/
theorem a2bLoop_first (hadpad : Bool) (a : UInt8) {v : UInt8}
    (hv : v.toNat < 64) (ha : v.toNat/16=a.toNat%4) (hroom : out.length < alloc) :
    ∃ shift',a2bLoop alloc (base64Char ((a&&&0xFC)>>>2)::base64Char v::cs)
      ⟨shift,0,hadpad,out⟩=a2bLoop alloc cs ⟨shift',4,false,out++[a]⟩∧shift'%16=v.toNat%16 := by
  have hlt := a.toNat_lt
  have hvalue := (value_table a).1
  obtain ⟨shift₁,htake₁,hshift₁⟩ := takeSextet_keep alloc shift hadpad out
    (by omega : ((a&&&0xFC)>>>2).toNat < 64)
  obtain ⟨shift₂,htake₂,hshift₂⟩ := takeSextet_emit (.inr (.inr rfl)) shift₁ false hroom hv
  refine ⟨shift₂,?_,by simpa using hshift₂⟩
  rw [a2bLoop_char _ (by omega),htake₁]
  simp only [Except.bind]
  rw [a2bLoop_char _ hv,htake₂]
  have hbyte : (shift₁%2^6*64+v.toNat)/2^(6-2)=a.toNat := by
    omega
  simp only [Except.bind,hbyte,UInt8.ofNat_toNat]

/-- The third character gives the second byte. -/
theorem a2bLoop_second {shift : ℕ} (b : UInt8) {v : UInt8}
    (hv : v.toNat < 64) (hshift : shift%16=b.toNat/16) (hb : v.toNat/4=b.toNat%16)
    (hroom : out.length < alloc) :
    ∃ shift',a2bLoop alloc (base64Char v::cs) ⟨shift,4,false,out⟩=
      a2bLoop alloc cs ⟨shift',2,false,out++[b]⟩∧shift'%4=v.toNat%4 := by
  obtain ⟨shift',htake,hshift'⟩ := takeSextet_emit (.inr (.inl rfl)) shift false hroom hv
  refine ⟨shift',?_,by simpa using hshift'⟩
  rw [a2bLoop_char _ hv,htake]
  have hbyte : (shift%2^4*64+v.toNat)/2^(4-2)=b.toNat := by
    omega
  simp only [Except.bind,hbyte,UInt8.ofNat_toNat]

/-- The last one gives the third byte. -/
theorem a2bLoop_third {shift : ℕ} (c : UInt8) (hshift : shift%4=c.toNat/64)
    (hroom : out.length < alloc) :
    ∃ shift',a2bLoop alloc (base64Char (c&&&0x3F)::cs) ⟨shift,2,false,out⟩=
      a2bLoop alloc cs ⟨shift',0,false,out++[c]⟩ := by
  have hvalue := (value_table c).2.2.2.2.2
  have hv : (c&&&0x3F).toNat < 64 := by omega
  obtain ⟨shift',htake,_⟩ := takeSextet_emit (.inl rfl) shift false hroom hv
  refine ⟨shift',?_⟩
  rw [a2bLoop_char _ hv,htake]
  have hbyte : (shift%2^2*64+(c&&&0x3F).toNat)/2^(2-2)=c.toNat := by
    omega
  simp only [Except.bind,hbyte,UInt8.ofNat_toNat]

/-- The decoder reads what the encoder writes. -/
theorem a2bLoop_values (h : out.length+data.length ≤ alloc) :
    ∃ d,a2bLoop alloc ((values data).map base64Char++[10]) ⟨shift,0,false,out⟩=.ok d∧
      d.nbits=0∧d.out=out++data := by
  induction data using values.induct generalizing out shift with
  | case1 a b c rest ih =>
    simp only [length_cons] at h
    have hb := b.toNat_lt
    have hc := c.toNat_lt
    have hhigh := value_high a b
    have hlow := value_low b c
    rw [values]
    simp only [map_cons,cons_append]
    obtain ⟨shift₁,hfirst,hshift₁⟩ := @a2bLoop_first alloc out
      (base64Char ((b&&&0x0F)<<<2|||(c&&&0xC0)>>>6)::base64Char (c&&&0x3F)::
        ((values rest).map base64Char++[10])) shift false a
      ((a&&&0x03)<<<4|||(b&&&0xF0)>>>4) (by omega) (by omega) (by omega : out.length < alloc)
    obtain ⟨shift₂,hsecond,hshift₂⟩ := @a2bLoop_second alloc (out++[a])
      (base64Char (c&&&0x3F)::((values rest).map base64Char++[10])) shift₁ b
      ((b&&&0x0F)<<<2|||(c&&&0xC0)>>>6) (by omega) (by omega) (by omega)
      (by simp; omega)
    obtain ⟨shift₃,hthird⟩ := @a2bLoop_third alloc (out++[a]++[b])
      ((values rest).map base64Char++[10]) shift₂ c (by omega) (by simp; omega)
    obtain ⟨d,hrest,hnbits,hout⟩ := @ih (out++[a]++[b]++[c]) shift₃ (by simp; omega)
    refine ⟨d,?_,hnbits,by simpa using hout⟩
    rw [hfirst,hsecond,hthird,hrest]
  | case2 a b =>
    simp only [length_cons,length_nil] at h
    have hb := b.toNat_lt
    have hhigh := value_high a b
    have hlow := (value_table b).2.2.2.1
    rw [values]
    simp only [map_cons,map_nil,cons_append,nil_append]
    obtain ⟨shift₁,hfirst,hshift₁⟩ := @a2bLoop_first alloc out
      [base64Char ((b&&&0x0F)<<<2),base64Char 64,10] shift false a
      ((a&&&0x03)<<<4|||(b&&&0xF0)>>>4) (by omega) (by omega) (by omega : out.length < alloc)
    obtain ⟨shift₂,hsecond,_⟩ := @a2bLoop_second alloc (out++[a]) [base64Char 64,10] shift₁ b
      ((b&&&0x0F)<<<2) (by omega) (by omega) (by omega) (by simp; omega)
    refine ⟨⟨shift₂,0,false,out++[a]++[b]⟩,?_,rfl,by simp⟩
    rw [hfirst,hsecond]
    rfl
  | case3 a =>
    simp only [length_cons,length_nil] at h
    have ha := (value_table a).2.1
    rw [values]
    simp only [map_cons,map_nil,cons_append,nil_append]
    obtain ⟨shift₁,hfirst,_⟩ := @a2bLoop_first alloc out [base64Char 64,base64Char 64,10]
      shift false a ((a&&&0x03)<<<4) (by omega) (by omega) (by omega : out.length < alloc)
    refine ⟨⟨shift₁,0,true,out++[a]⟩,?_,rfl,rfl⟩
    rw [hfirst]
    rfl
  | case4 => exact ⟨⟨shift,0,false,out⟩,rfl,rfl,by simp⟩

/-- Base64 text of bytes is read back just when its size is a machine word. -/
theorem base64_roundTrip (wordBits : ℕ) (bs : List UInt8) :
    (b2aBase64 wordBits bs).bind (a2bBase64 wordBits)=.ok bs↔(bs.length+2)/3*4+1 < 2^wordBits := by
  have hsize : (if bs.length≠0 then ((bs.length-1)/3+1)*4 else 0)=(bs.length+2)/3*4 := by
    split
    · omega
    · omega
  have hlength := length_values bs
  rw [b2aBase64]
  simp only [hsize,b2aValues_eq]
  constructor
  · intro hround
    by_contra hwide
    by_cases hfits : (bs.length+2)/3*4 ≤ ((bs.length+2)/3*4+1)%2^wordBits
    · have hfull : ¬((values bs).map base64Char).length < ((bs.length+2)/3*4+1)%2^wordBits := by
        rw [length_map]
        omega
      rw [emitAll_ok (by simpa [hlength] using hfits)] at hround
      simp only [Except.bind,nil_append,emit,if_neg hfull] at hround
      cases hround
    · rw [emitAll_overrun (zero_le _) (by rw [hlength]; simp; omega)] at hround
      cases hround
  · intro hword
    rw [mod_eq_of_lt hword,emitAll_ok (by simp [hlength])]
    have hroom : ((values bs).map base64Char).length < (bs.length+2)/3*4+1 := by
      rw [length_map]
      omega
    simp only [Except.bind,nil_append,emit,if_pos hroom]
    have htext : ((values bs).map base64Char++[10]).length=(bs.length+2)/3*4+1 := by
      simp [hlength]
    have halloc : (((values bs).map base64Char++[10]).length/4*3+1)%2^wordBits=
        (bs.length+2)/3*3+1 := by
      rw [htext,mod_eq_of_lt (by omega)]
      omega
    obtain ⟨d,hloop,hnbits,hout⟩ := @a2bLoop_values ((bs.length+2)/3*3+1) [] bs 0 (by simp; omega)
    rw [a2bBase64]
    simp only [halloc,hloop,Except.bind,hnbits]
    simpa using hout

/-! ## The room of the base64 decoder -/

/-- What a value that is taken does: a byte is written when there are two bits before it. -/
theorem takeSextet_cases {d d' : Decoder} {value : ℕ} (htake : takeSextet alloc d value=.ok d') :
    d.nbits < 2∧d'.nbits=d.nbits+6∧d'.out.length=d.out.length∨
      2 ≤ d.nbits∧d.out.length < alloc∧d'.nbits+2=d.nbits∧d'.out.length=d.out.length+1 := by
  rw [takeSextet] at htake
  by_cases hfull : d.nbits+6≥8
  · simp only [if_pos hfull] at htake
    rw [emit] at htake
    split at htake
    case isTrue hroom =>
      cases htake
      exact .inr ⟨by omega,hroom,by simp; omega,by simp⟩
    case isFalse => cases htake
  · simp only [if_neg hfull] at htake
    cases htake
    exact .inl ⟨by omega,rfl,rfl⟩

/-- A value is taken when its bits fit. -/
theorem takeSextet_room {d : Decoder} (h : 8*d.out.length+d.nbits+6 < 8*(alloc+1))
    (value : ℕ) : ∃ d',takeSextet alloc d value=.ok d' := by
  rw [takeSextet]
  by_cases hfull : d.nbits+6≥8
  · have hroom : d.out.length < alloc := by omega
    simp only [if_pos hfull,emit,if_pos hroom]
    exact ⟨_,rfl⟩
  · simp only [if_neg hfull]
    exact ⟨_,rfl⟩

/-- A value that is not taken does not fit. -/
theorem takeSextet_fails {d : Decoder} {value : ℕ} {e : Failure}
    (htake : takeSextet alloc d value=.error e) : e=.overrun := by
  rw [takeSextet] at htake
  by_cases hfull : d.nbits+6≥8
  · simp only [if_pos hfull] at htake
    rw [emit] at htake
    split at htake
    · cases htake
    · cases htake
      rfl
  · simp only [if_neg hfull] at htake
    cases htake

/-- The number of characters of the alphabet. -/
def sextets (cs : List UInt8) : ℕ := (cs.filter fun c => (sextet c).isSome).length

/-- The decoder stays in its buffer while the bits of all characters fit. -/
theorem a2bLoop_inside (d : Decoder) (h : 8*d.out.length+d.nbits+6*sextets cs < 8*(alloc+1)) :
    a2bLoop alloc cs d≠.error .overrun := by
  induction cs generalizing d with
  | nil => nofun
  | cons ch cs ih =>
    rw [a2bLoop]
    split
    · nofun
    · cases hsextet : sextet ch with
      | none =>
        have hcount : sextets (ch::cs)=sextets cs := by simp [sextets,hsextet]
        rw [hcount] at h
        exact ih _ h
      | some value =>
        have hcount : sextets (ch::cs)=sextets cs+1 := by simp [sextets,hsextet]
        rw [hcount] at h
        obtain ⟨d',htake⟩ := @takeSextet_room alloc d (by omega) value
        have hbits := takeSextet_cases htake
        simp only [htake,Except.bind]
        exact ih d' (by omega)

/-- It leaves its buffer when all characters belong to the alphabet and their bits do not fit. -/
theorem a2bLoop_outside (d : Decoder) (hnbits : d.nbits < 8)
    (hout : d.out.length ≤ alloc) (hall : ∀ c∈cs,sextet c≠none)
    (h : 8*(alloc+1) ≤ 8*d.out.length+d.nbits+6*cs.length) :
    a2bLoop alloc cs d=.error .overrun := by
  induction cs generalizing d with
  | nil =>
    rw [length_nil] at h
    omega
  | cons ch cs ih =>
    obtain ⟨value,hvalue⟩ := Option.ne_none_iff_exists'.mp (hall ch mem_cons_self)
    have hpad : ch≠61 := by
      rintro rfl
      cases hvalue
    rw [a2bLoop,if_neg fun hend => hpad hend.1,hvalue]
    cases htake : takeSextet alloc d value with
    | error e =>
      simp only [htake,takeSextet_fails htake,Except.bind]
    | ok d' =>
      have hbits := takeSextet_cases htake
      rw [length_cons] at h
      simp only [htake,Except.bind]
      exact ih d' (by omega) (by omega) (fun c hc => hall c (mem_cons_of_mem ch hc)) (by omega)

/-- The decoder leaves its buffer just when the length of its input is three more than a multiple
of four and all characters belong to the alphabet. -/
theorem a2bBase64_overrun {wordBits : ℕ} (hword : data.length < 2^wordBits) :
    a2bBase64 wordBits data=.error .overrun↔data.length%4=3∧∀ c∈data,sextet c≠none := by
  have hfilter : sextets data ≤ data.length := length_filter_le ..
  have hloop : a2bBase64 wordBits data=.error .overrun↔
      a2bLoop ((data.length/4*3+1)%2^wordBits) data ⟨0,0,false,[]⟩=.error .overrun := by
    rw [a2bBase64]
    cases a2bLoop ((data.length/4*3+1)%2^wordBits) data ⟨0,0,false,[]⟩ with
    | error e => simp [Except.bind]
    | ok d =>
      simp only [Except.bind]
      split <;> exact ⟨nofun,nofun⟩
  rw [hloop]
  by_cases hempty : data=[]
  · subst hempty
    exact ⟨nofun,fun h => absurd h.1 (by decide)⟩
  have hpositive : 0 < data.length := length_pos_iff.mpr hempty
  have halloc : (data.length/4*3+1)%2^wordBits=data.length/4*3+1 := mod_eq_of_lt (by omega)
  rw [halloc]
  constructor
  · intro hover
    by_contra hfits
    refine a2bLoop_inside data ⟨0,0,false,[]⟩ ?_ hover
    simp only [length_nil]
    by_cases hthree : data.length%4=3
    · have hsome : ¬∀ c∈data,sextet c≠none := fun hall => hfits ⟨hthree,hall⟩
      have hfewer : sextets data≠data.length := by
        intro hall
        refine hsome fun c hc hnone => ?_
        have := length_filter_eq_length_iff.mp hall c hc
        rw [hnone] at this
        cases this
      omega
    · omega
  · rintro ⟨hthree,hall⟩
    refine a2bLoop_outside data ⟨0,0,false,[]⟩ (by simp) (by simp) hall ?_
    simp only [length_nil]
    omega

/-! ## Round trips and room -/

/-- Hexadecimal and base64 text of bytes is read back and the decoders stay in their buffers just
when the sizes are machine words and the base64 text is none of `4*k+3` characters of the
alphabet only. -/
theorem binascii_iff {wordBits : ℕ} (b input : List UInt8) (hinput : input.length < 2^wordBits) :
    ((hexlify wordBits none b).bind unhexlify=.ok b∧
      (b2aBase64 wordBits b).bind (a2bBase64 wordBits)=.ok b∧
      unhexlify input≠.error .overrun∧a2bBase64 wordBits input≠.error .overrun)↔
    2*b.length < 2^wordBits∧(b.length+2)/3*4+1 < 2^wordBits∧
      ¬(input.length%4=3∧∀ c∈input,sextet c≠none) := by
  have hhex := hexlify_roundTrip wordBits b
  have hbase := base64_roundTrip wordBits b
  have hroom := a2bBase64_overrun input hinput
  constructor
  · rintro ⟨hread,hread',_,hinside⟩
    exact ⟨hhex.mp hread,hbase.mp hread',fun hkind => hinside (hroom.mpr hkind)⟩
  · rintro ⟨hsize,hsize',hkind⟩
    exact ⟨hhex.mpr hsize,hbase.mpr hsize',unhexlify_inside input,
      fun hover => hkind (hroom.mp hover)⟩

/-- Two bytes and base64 text with noise in it. -/
theorem binascii_noise : (hexlify 32 none [77,255]).bind unhexlify=.ok [77,255]∧
    a2bBase64 32 [65,10,65]≠.error .overrun := by
  have h := (@binascii_iff 32 [77,255] [65,10,65] (by decide)).mpr
    ⟨by decide,by decide,fun hkind => hkind.2 10 (by decide) (by decide)⟩
  exact ⟨h.1,h.2.2.2⟩

/-- Three characters of the alphabet need two bytes where one is allocated. -/
theorem base64_overrun : a2bBase64 32 [65,65,65]=.error .overrun := by
  decide +kernel

end MicroPython.Binascii
