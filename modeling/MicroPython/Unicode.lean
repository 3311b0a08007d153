import MicroPython.Utf8

/-!
# Strings of bytes

`py/unicode.c` reads the characters of a string of bytes that ends with a zero byte. A
pointer is the number of bytes in front of it. The byte at the end is the zero byte, and
there is nothing to read after that.
-/

namespace MicroPython.Unicode

open Nat UInt8 List Utf8

/-- `UTF8_IS_NONASCII`. -/
def utf8IsNonascii (ch : UInt8) : Bool := decide (ch&&&0x80≠0)

/-- `UTF8_IS_CONT`. -/
def utf8IsCont (ch : UInt8) : Bool := decide (ch&&&0xC0=0x80)

/-- The loop that goes over the bytes that continue a character. -/
def skipCont : List UInt8→ℕ→ℕ
  | [],s => s
  | c::rest,s => if utf8IsCont c then skipCont rest (s+1) else s

/-- `utf8_next_char`, unless it reads after the end. -/
def utf8NextChar (data : List UInt8) (s : ℕ) : Option ℕ :=
  if s<data.length then some (skipCont (data.drop (s+1)) (s+1)) else none

/-- The loop that clears the bits of a first byte that are not of the code point, from the
bit below the given one on. -/
def clearOnes : ℕ→ℕ→ℕ
  | 0,ord => ord
  | bit+1,ord =>
    if ord&&&2^bit≠0 then clearOnes bit (ord&&&(0xFFFFFFFF^^^2^bit)) else ord

/-- The loop that appends the bits of the bytes that continue a character. -/
def appendCont : List UInt8→ℕ→ℕ
  | [],ord => ord
  | c::s,ord =>
    if utf8IsCont c then appendCont s (ord<<<6%2^32|||(c&&&0x3F).toNat) else ord

/-- `utf8_get_char`, unless it reads after the end. -/
def utf8GetChar (data : List UInt8) (s : ℕ) : Option ℕ :=
  match data.drop s with
  | [] => if s=data.length then some 0 else none
  | c::rest =>
    if utf8IsNonascii c then some (appendCont rest (clearOnes 7 (c&&&0x7F).toNat))
    else some c.toNat

/-- The loop of `utf8_ptr_to_index` over the bytes before the pointer, the last one
first. -/
def ptrToIndexLoop : List UInt8→ℕ→ℕ
  | [],i => i
  | c::before,i => ptrToIndexLoop before (if utf8IsCont c then i else i+1)

/-- `utf8_ptr_to_index`. -/
def utf8PtrToIndex (data : List UInt8) (ptr : ℕ) : ℕ := ptrToIndexLoop (data.take ptr).reverse 0

/-- The loop of `unichar_charlen`. -/
def charlenLoop : List UInt8→ℕ→ℕ
  | [],charlen => charlen
  | c::str,charlen => charlenLoop str (if utf8IsCont c then charlen else charlen+1)

/-- `unichar_charlen`. -/
def unicharCharlen (str : List UInt8) : ℕ := charlenLoop str 0

/-- The loop of `utf8_check`. -/
def checkLoop : List UInt8→ℕ→Bool
  | [],need => decide (need=0)
  | c::p,need =>
    if need≠0 then
      if 0x80≤c then checkLoop p (need-1) else false
    else if 0xC0≤c then
      if 0xF8≤c then false
      else checkLoop p (0xE5>>>(c.toNat>>>3&&&0x6)&&&3)
    else if 0x80≤c then false
    else checkLoop p need

/-- `utf8_check`. -/
def utf8Check (p : List UInt8) : Bool := checkLoop p 0

/-! ## Attributes -/

/-- `FL_PRINT`. -/
def flPrint : ℕ := 0x01

/-- `FL_SPACE`. -/
def flSpace : ℕ := 0x02

/-- `FL_DIGIT`. -/
def flDigit : ℕ := 0x04

/-- `FL_ALPHA`. -/
def flAlpha : ℕ := 0x08

/-- `FL_UPPER`. -/
def flUpper : ℕ := 0x10

/-- `FL_LOWER`. -/
def flLower : ℕ := 0x20

/-- `FL_XDIGIT`. -/
def flXdigit : ℕ := 0x40

/-- `AT_PR`. -/
def atPr : ℕ := flPrint

/-- `AT_SP`. -/
def atSp : ℕ := flSpace|||flPrint

/-- `AT_DI`. -/
def atDi : ℕ := flDigit|||flPrint|||flXdigit

/-- `AT_UP`. -/
def atUp : ℕ := flUpper|||flAlpha|||flPrint

/-- `AT_LO`. -/
def atLo : ℕ := flLower|||flAlpha|||flPrint

/-- `AT_UX`. -/
def atUx : ℕ := flUpper|||flAlpha|||flPrint|||flXdigit

/-- `AT_LX`. -/
def atLx : ℕ := flLower|||flAlpha|||flPrint|||flXdigit

/-- `attr`. -/
def attr : List ℕ := [0,0,0,0,0,0,0,0,0,atSp,atSp,atSp,atSp,atSp,0,0,0,0,0,0,0,0,0,0,
  0,0,0,0,0,0,0,0,
  atSp,atPr,atPr,atPr,atPr,atPr,atPr,atPr,
  atPr,atPr,atPr,atPr,atPr,atPr,atPr,atPr,
  atDi,atDi,atDi,atDi,atDi,atDi,atDi,atDi,
  atDi,atDi,atPr,atPr,atPr,atPr,atPr,atPr,
  atPr,atUx,atUx,atUx,atUx,atUx,atUx,atUp,
  atUp,atUp,atUp,atUp,atUp,atUp,atUp,atUp,
  atUp,atUp,atUp,atUp,atUp,atUp,atUp,atUp,
  atUp,atUp,atUp,atPr,atPr,atPr,atPr,atPr,
  atPr,atLx,atLx,atLx,atLx,atLx,atLx,atLo,
  atLo,atLo,atLo,atLo,atLo,atLo,atLo,atLo,
  atLo,atLo,atLo,atLo,atLo,atLo,atLo,atLo,
  atLo,atLo,atLo,atPr,atPr,atPr,atPr,0]

/-- Whether an ASCII character has one of the attributes. -/
def hasAttr (c flags : ℕ) : Bool := decide (c<128∧attr.getD c 0&&&flags≠0)

/-- `unichar_isspace`. -/
def unicharIsspace (c : ℕ) : Bool := hasAttr c flSpace

/-- `unichar_isalpha`. -/
def unicharIsalpha (c : ℕ) : Bool := hasAttr c flAlpha

/-- `unichar_isdigit`. -/
def unicharIsdigit (c : ℕ) : Bool := hasAttr c flDigit

/-- `unichar_isxdigit`. -/
def unicharIsxdigit (c : ℕ) : Bool := hasAttr c flXdigit

/-- `unichar_xdigit_value` of a hexadecimal digit. -/
def unicharXdigitValue (c : ℕ) : ℕ :=
  if c-48≤9 then c-48 else ((c-48)&&&(0xFFFFFFFF^^^32))-7

/-! ## Bytes -/

theorem forall_byte {p : UInt8→Prop} (h : ∀ n : Fin 256,p (UInt8.ofNat n)) (c : UInt8) : p c := by
  have hc := h ⟨c.toNat,c.toNat_lt⟩
  rwa [UInt8.ofNat_toNat] at hc

/-- What the code computes of a byte, for each of them. -/
theorem byte_table (c : UInt8) : utf8IsCont c=isCont c∧utf8IsNonascii c=decide (0x80≤c.toNat)∧
      (0xC0≤c.toNat → c.toNat<0xF8→clearOnes 7 (c&&&0x7F).toNat=leadBits c∧
        announced c=some (0xE5>>>(c.toNat>>>3&&&0x6)&&&3)) := by
  refine forall_byte (p := fun c => utf8IsCont c=isCont c∧utf8IsNonascii c=decide (0x80≤c.toNat)∧
      (0xC0≤c.toNat → c.toNat<0xF8→clearOnes 7 (c&&&0x7F).toNat=leadBits c∧
        announced c=some (0xE5>>>(c.toNat>>>3&&&0x6)&&&3))) ?_ c
  decide +kernel

theorem utf8IsCont_eq (c : UInt8) : utf8IsCont c=isCont c := (byte_table c).1

/-- A byte is not ASCII from the middle on. -/
theorem utf8IsNonascii_eq (c : UInt8) : utf8IsNonascii c=decide (0x80≤c.toNat) :=
  (byte_table c).2.1

theorem clearOnes_eq {c : UInt8} (hlow : 0xC0≤c.toNat) (hhigh : c.toNat<0xF8) :
    clearOnes 7 (c&&&0x7F).toNat=leadBits c := ((byte_table c).2.2 hlow hhigh).1

theorem need_eq {c : UInt8} (hlow : 0xC0≤c.toNat) (hhigh : c.toNat<0xF8) :
    announced c=some (0xE5>>>(c.toNat>>>3&&&0x6)&&&3) := ((byte_table c).2.2 hlow hhigh).2

/-! ## Reading texts -/

variable {x : Character} {before after : List Character}

/-- The loop over continuing bytes goes as far as they do. -/
theorem skipCont_eq (l : List UInt8) : ∀ s,skipCont l s=s+(l.takeWhile isCont).length := by
  induction l with
  | nil => exact fun s => rfl
  | cons c l ih =>
    intro s
    rw [skipCont,utf8IsCont_eq]
    by_cases hc : isCont c=true
    · rw [if_pos hc,ih,takeWhile_cons_of_pos hc,length_cons]
      omega
    · rw [if_neg hc,takeWhile_cons_of_neg hc]
      rfl

theorem drop_text :
    (text (before++x::after)).drop (text before).length=x.lead::(x.followers++text after) := by
  rw [text_append,drop_left,text_cons]

theorem drop_succ_text :
    (text (before++x::after)).drop ((text before).length+1)=x.followers++text after := by
  rw [←drop_drop,drop_text]
  rfl

theorem length_lt_text : (text before).length<(text (before++x::after)).length := by
  rw [text_append,length_append,text_cons,length_cons]
  omega

theorem length_text_snoc :
    (text (before++[x])).length=(text before).length+1+x.followers.length := by
  rw [text_append,length_append,text_cons,text_nil,append_nil,length_cons]
  omega

theorem utf8NextChar_text : utf8NextChar (text (before++x::after)) (text before).length=
      some (text (before++[x])).length := by
  rw [utf8NextChar,if_pos length_lt_text,skipCont_eq,drop_succ_text,takeWhile_followers,
    length_text_snoc]

/-- The bits of continuing bytes are appended one byte after the other. -/
theorem appendCont_followers (after : List Character) (followers : List UInt8) :
    ∀ ord,(∀ c∈followers,isCont c=true) → (ord+1)*64^followers.length≤2^32 →
      appendCont (followers++text after) ord=
        followers.foldl (fun ord c => ord*64+c.toNat%64) ord := by
  induction followers with
  | nil =>
    intro ord _ _
    cases after with
    | nil => rfl
    | cons y ys =>
      rw [nil_append,text_cons,appendCont,utf8IsCont_eq,y.isCont_lead]
      rfl
  | cons c followers ih =>
    intro ord hkind hroom
    have hone : 1≤64^followers.length := one_le_pow _ _ (by decide)
    rw [length_cons,pow_succ] at hroom
    have hord : (ord+1)*64≤2^32 := by
      calc (ord+1)*64=(ord+1)*(1*64) := by rw [Nat.one_mul]
        _ ≤ (ord+1)*(64^followers.length*64) :=
          mul_le_mul_left _ (mul_le_mul_right _ hone)
        _ ≤ 2^32 := hroom
    have hsix : c.toNat%64<64 := mod_lt _ (by decide)
    have hbits : (c&&&0x3F).toNat=c.toNat%64 := by
      rw [UInt8.toNat_and]
      exact and_two_pow_sub_one_eq_mod c.toNat 6
    have hshift : ord<<<6%2^32|||(c&&&0x3F).toNat=ord*64+c.toNat%64 := by
      rw [hbits,mod_eq_of_lt (by rw [shiftLeft_eq]; omega),
        ←shiftLeft_add_eq_or_of_lt (i := 6) hsix,shiftLeft_eq]
    have hnext : (ord*64+c.toNat%64+1)*64^followers.length≤2^32 := by
      calc (ord*64+c.toNat%64+1)*64^followers.length
          ≤ ((ord+1)*64)*64^followers.length := mul_le_mul_right _ (by omega)
        _ = (ord+1)*(64^followers.length*64) := by rw [mul_assoc,mul_comm 64]
        _ ≤ 2^32 := hroom
    rw [cons_append,appendCont,utf8IsCont_eq,hkind c mem_cons_self,if_pos rfl,hshift,foldl_cons]
    exact ih _ (fun d hd => hkind d (mem_cons_of_mem _ hd)) hnext

/-- A first byte that announces something is not ASCII, and the bits that are left of it
are those of the code point. -/
theorem lead_cases (x : Character) :
    (x.lead.toNat<0x80∧x.followers=[])∨(0xC0≤x.lead.toNat∧x.lead.toNat<0xF8) := by
  have hcomplete := x.complete
  rw [announced] at hcomplete
  split_ifs at hcomplete with h80 hC0 hE0 hF0 hF8
  · exact .inl ⟨h80,length_eq_zero_iff.mp (Option.some.inj hcomplete).symm⟩
  · exact .inr ⟨by omega,by omega⟩
  · exact .inr ⟨by omega,by omega⟩
  · exact .inr ⟨by omega,by omega⟩

/-- The code point of a character. -/
theorem utf8GetChar_text :
    utf8GetChar (text (before++x::after)) (text before).length=some (code x) := by
  rw [utf8GetChar,drop_text]
  dsimp only
  rw [utf8IsNonascii_eq]
  rcases lead_cases x with ⟨hascii,hnone⟩ | ⟨hlow,hhigh⟩
  · rw [if_neg (fun h => not_le.mpr hascii (of_decide_eq_true h)),code,hnone,leadBits,
      if_pos hascii]
    rfl
  · have hroom : (leadBits x.lead+1)*64^x.followers.length≤2^32 :=
      le_trans (leadBits_mul_le x.complete) (by decide)
    rw [if_pos (decide_eq_true (by omega)),clearOnes_eq hlow hhigh,
      appendCont_followers after x.followers _ x.kind hroom,code]

theorem charlenLoop_eq (str : List UInt8) : ∀ charlen,
    charlenLoop str charlen=charlen+str.countP (fun c => !isCont c) := by
  induction str with
  | nil => exact fun _ => rfl
  | cons c str ih =>
    intro charlen
    rw [charlenLoop,ih,utf8IsCont_eq,countP_cons]
    cases isCont c
    · exact add_assoc ..|>.trans (congrArg (charlen+·) (add_comm ..))
    · rfl

theorem unicharCharlen_text (xs : List Character) : unicharCharlen (text xs)=xs.length := by
  rw [unicharCharlen,charlenLoop_eq,countP_text,zero_add]

/-- The loop that counts characters backwards counts first bytes. -/
theorem ptrToIndexLoop_eq (before : List UInt8) : ∀ i,
    ptrToIndexLoop before i=i+before.countP (fun c => !isCont c) := by
  induction before with
  | nil => exact fun _ => rfl
  | cons c before ih =>
    intro i
    rw [ptrToIndexLoop,ih,utf8IsCont_eq,countP_cons]
    cases isCont c
    · exact add_assoc ..|>.trans (congrArg (i+·) (add_comm ..))
    · rfl

theorem utf8PtrToIndex_text :
    utf8PtrToIndex (text (before++after)) (text before).length=before.length := by
  rw [utf8PtrToIndex,ptrToIndexLoop_eq,text_append,take_left,countP_reverse,countP_text,zero_add]

/-! ## The check -/

/-- A first byte and as many bytes that are not ASCII as it announces. -/
abbrev Group : Type := Sequence (fun c => decide (0x80≤c))

/-- A byte below a bound. -/
theorem toNat_lt_of_not_le {b c : UInt8} (h : ¬b≤c) : c.toNat<b.toNat :=
  not_le.mp (mt le_iff_toNat_le.mpr h)

theorem owed_nothing {q : List UInt8} :
    (∃ (owed : List UInt8) (groups : List Group),q=owed++text groups∧owed.length=0∧
      ∀ c∈owed,decide (0x80≤c)=true)↔∃ groups : List Group,q=text groups := by
  constructor
  · rintro ⟨owed,groups,hq,hnone,_⟩
    rw [length_eq_zero_iff.mp hnone] at hq
    exact ⟨groups,hq⟩
  · rintro ⟨groups,hq⟩
    exact ⟨[],groups,hq,rfl,fun c hc => by cases hc⟩

/-- What the loop of the check accepts: the bytes that are still needed and groups. -/
theorem checkLoop_iff (q : List UInt8) : ∀ need,checkLoop q need=true↔
    ∃ (owed : List UInt8) (groups : List Group),q=owed++text groups∧owed.length=need∧
      ∀ c∈owed,decide (0x80≤c)=true := by
  induction q with
  | nil =>
    intro need
    rw [checkLoop]
    constructor
    · intro h
      exact ⟨[],[],rfl,(of_decide_eq_true h).symm,fun c hc => by cases hc⟩
    · rintro ⟨owed,groups,hq,hneed,_⟩
      rw [(append_eq_nil_iff.mp hq.symm).1] at hneed
      exact decide_eq_true hneed.symm
  | cons c q ih =>
    intro need
    rw [checkLoop]
    by_cases hneed : need=0
    · rw [if_neg (not_not.mpr hneed),hneed,owed_nothing,exists_text_cons]
      split_ifs with hC0 hF8 h80
      · have hnone : announced c=none := by
          have hhigh : 0xF8≤c.toNat := le_iff_toNat_le.mp hF8
          rw [announced,if_neg (by omega),if_neg (by omega),if_neg (by omega),if_neg (by omega),
            if_neg (by omega)]
        rw [hnone]
        exact iff_of_false (by rintro ⟨⟩) (by rintro ⟨_,⟨⟩,_⟩)
      · have hlow : 0xC0≤c.toNat := le_iff_toNat_le.mp hC0
        have hhigh : c.toNat<0xF8 := toNat_lt_of_not_le hF8
        rw [need_eq hlow hhigh,ih]
        constructor
        · intro h
          exact ⟨_,rfl,h⟩
        · rintro ⟨n,hn,h⟩
          cases hn
          exact h
      · have hlow : 0x80≤c.toNat := le_iff_toNat_le.mp h80
        have hhigh : c.toNat<0xC0 := toNat_lt_of_not_le hC0
        have hnone : announced c=none := by
          rw [announced,if_neg (by omega),if_pos hhigh]
        rw [hnone]
        exact iff_of_false (by rintro ⟨⟩) (by rintro ⟨_,⟨⟩,_⟩)
      · have hascii : c.toNat<0x80 := toNat_lt_of_not_le h80
        rw [announced,if_pos hascii,ih]
        constructor
        · intro h
          exact ⟨0,rfl,h⟩
        · rintro ⟨n,hn,h⟩
          cases hn
          exact h
    · rw [if_pos hneed]
      split_ifs with h80
      · rw [ih]
        constructor
        · rintro ⟨owed,groups,hq,hlength,hkind⟩
          refine ⟨c::owed,groups,congrArg (c::·) hq,?_,?_⟩
          · rw [length_cons,hlength]
            omega
          · exact forall_mem_cons.mpr ⟨decide_eq_true h80,hkind⟩
        · rintro ⟨owed,groups,hq,hlength,hkind⟩
          cases owed with
          | nil => exact absurd hlength.symm hneed
          | cons d owed =>
            obtain ⟨_,hrest⟩ := List.cons.inj hq
            exact ⟨owed,groups,hrest,(congrArg Nat.pred hlength),(forall_mem_cons.mp hkind).2⟩
      · refine ⟨by rintro ⟨⟩,?_⟩
        rintro ⟨owed,groups,hq,hlength,hkind⟩
        cases owed with
        | nil => exact absurd hlength.symm hneed
        | cons d owed =>
          obtain ⟨hhead,_⟩ := List.cons.inj hq
          exact absurd (hhead ▸ of_decide_eq_true (hkind d mem_cons_self)) h80

/-- The check accepts what consists of groups. -/
theorem utf8Check_iff (q : List UInt8) : utf8Check q=true↔∃ groups : List Group,q=text groups :=
  (checkLoop_iff q 0).trans owed_nothing

/-! ## Where the check is too generous -/

/-- A first byte stands where a byte that continues a character has been announced: the
bytes are groups, and one of them has a byte from 0xC0 on after its first. -/
def LeadAmongFollowers (q : List UInt8) : Prop :=
  ∃ groups : List Group,q=text groups∧∃ g∈groups,∃ c∈g.followers,0xC0≤c

theorem isCont_iff {c : UInt8} : isCont c=true↔0x80≤c∧¬0xC0≤c := by
  rw [isCont,decide_eq_true_iff,le_iff_toNat_le,le_iff_toNat_le]
  exact and_congr_right' not_le.symm

/-- A character is a group. -/
def group (x : Character) : Group where
  lead := x.lead
  followers := x.followers
  complete := x.complete
  kind := fun c hc => decide_eq_true (isCont_iff.mp (x.kind c hc)).1

theorem text_group (xs : List Character) : text (xs.map group)=text xs := by
  induction xs with
  | nil => rfl
  | cons x xs ih =>
    rw [map_cons,text_cons,text_cons,ih]
    rfl

/-- Groups with nothing but continuing bytes after the first are characters. -/
theorem exists_characters : ∀ {groups : List Group},
    (∀ g∈groups,∀ c∈g.followers,¬0xC0≤c) → ∃ xs : List Character,text groups=text xs
  | [],_ => ⟨[],rfl⟩
  | g::groups,h => by
    obtain ⟨hg,hgroups⟩ := forall_mem_cons.mp h
    obtain ⟨xs,hxs⟩ := exists_characters hgroups
    have hkind : ∀ c∈g.followers,isCont c=true := fun c hc =>
      isCont_iff.mpr ⟨of_decide_eq_true (g.kind c hc),hg c hc⟩
    refine ⟨⟨g.lead,g.followers,g.complete,hkind⟩::xs,?_⟩
    rw [text_cons,text_cons,hxs]

/-- What the check accepts are characters one after the other unless a first byte stands
where a continuing byte is announced. -/
theorem characters_iff {q : List UInt8} (haccepted : utf8Check q=true) :
    (∃ xs : List Character,q=text xs)↔¬LeadAmongFollowers q := by
  constructor
  · rintro ⟨xs,hxs⟩ ⟨groups,hgroups,g,hg,c,hc,hlead⟩
    have hsame : groups=xs.map group := by
      refine text_inj ?_
      rw [←hgroups,hxs,text_group]
    rw [hsame] at hg
    obtain ⟨x,_,hx⟩ := mem_map.mp hg
    rw [←hx] at hc
    exact (isCont_iff.mp (x.kind c hc)).2 hlead
  · intro hlead
    obtain ⟨groups,hgroups⟩ := (utf8Check_iff q).mp haccepted
    have hbelow : ∀ g∈groups,∀ c∈g.followers,¬0xC0≤c := fun g hg c hc hle =>
      hlead ⟨groups,hgroups,g,hg,c,hc,hle⟩
    obtain ⟨xs,hxs⟩ := exists_characters hbelow
    exact ⟨xs,hgroups.trans hxs⟩

theorem LeadAmongFollowers.accepted {q : List UInt8} (h : LeadAmongFollowers q) :
    utf8Check q=true := by
  obtain ⟨groups,hgroups,_⟩ := h
  exact (utf8Check_iff q).mpr ⟨groups,hgroups⟩

end MicroPython.Unicode
