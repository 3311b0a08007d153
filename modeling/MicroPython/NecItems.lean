import Mathlib.Algebra.Group.Nat.Defs
import Mathlib.Data.List.Forall2

/-!
# Items of the NEC code

An address and a command are sent as pulses of an infrared light: a header, the bits from the
lowest on, and an end. The receiver sees the levels inverted and the durations not quite as
they were sent.
-/

namespace MicroPython.NecItems

open Nat

/-- `rmt_item32_t`, two pulses. -/
structure RmtItem32 where
  /-- The duration of the first pulse, in ticks. -/
  duration0 : BitVec 15
  /-- The level of the first pulse. -/
  level0 : Bool
  /-- The duration of the second pulse. -/
  duration1 : BitVec 15
  /-- The level of the second pulse. -/
  level1 : Bool
  deriving DecidableEq

/-- `RMT_CLK_DIV` -/
def rmtClkDiv : ℕ := 100

/-- `RMT_TICK_10_US`, the ticks in ten microseconds. -/
def rmtTick10Us : ℕ := 80000000/rmtClkDiv/100000

/-- `RMT_RX_ACTIVE_LEVEL` -/
def rmtRxActiveLevel : Bool := false

/-- `NEC_HEADER_HIGH_US` -/
def necHeaderHighUs : ℕ := 9000

/-- `NEC_HEADER_LOW_US` -/
def necHeaderLowUs : ℕ := 4500

/-- `NEC_REPETITION_HIGH_US` -/
def necRepetitionHighUs : ℕ := 9000

/-- `NEC_REPETITION_LOW_US` -/
def necRepetitionLowUs : ℕ := 2250

/-- `NEC_BIT_ONE_HIGH_US` -/
def necBitOneHighUs : ℕ := 560

/-- `NEC_BIT_ONE_LOW_US` -/
def necBitOneLowUs : ℕ := 2250-necBitOneHighUs

/-- `NEC_BIT_ZERO_HIGH_US` -/
def necBitZeroHighUs : ℕ := 560

/-- `NEC_BIT_ZERO_LOW_US` -/
def necBitZeroLowUs : ℕ := 1120-necBitZeroHighUs

/-- `NEC_BIT_END` -/
def necBitEnd : ℕ := 560

/-- `NEC_BIT_MARGIN` -/
def necBitMargin : ℕ := 150

/-- `NEC_DATA_ITEM_NUM` -/
def necDataItemNum : ℕ := 34

/-- `NEC_ITEM_DURATION`, in microseconds. -/
def necItemDuration (d : ℕ) : ℕ := (d&&&0x7fff)*10/rmtTick10Us

/-- `nec_fill_item_level` -/
def necFillItemLevel (highUs lowUs : ℕ) : RmtItem32 where
  level0 := true
  duration0 := .ofNat 15 (highUs/10*rmtTick10Us)
  level1 := false
  duration1 := .ofNat 15 (lowUs/10*rmtTick10Us)

/-- `nec_fill_item_header` -/
def necFillItemHeader : RmtItem32 := necFillItemLevel necHeaderHighUs necHeaderLowUs

/-- `nec_fill_item_bit_one` -/
def necFillItemBitOne : RmtItem32 := necFillItemLevel necBitOneHighUs necBitOneLowUs

/-- `nec_fill_item_bit_zero` -/
def necFillItemBitZero : RmtItem32 := necFillItemLevel necBitZeroHighUs necBitZeroLowUs

/-- `nec_fill_item_end` -/
def necFillItemEnd : RmtItem32 := necFillItemLevel necBitEnd 0x7fff

/-- `nec_check_in_range` -/
def necCheckInRange (durationTicks targetUs marginUs : ℕ) : Bool :=
  (necItemDuration durationTicks : ℤ) < targetUs+marginUs&&
    (necItemDuration durationTicks : ℤ) > targetUs-marginUs

/-- An item with the levels that are received and two durations within the margin. -/
def necItemIf (highUs lowUs : ℕ) (item : RmtItem32) : Bool :=
  (item.level0==rmtRxActiveLevel&&item.level1 != rmtRxActiveLevel)&&
    necCheckInRange item.duration0.toNat highUs necBitMargin&&
    necCheckInRange item.duration1.toNat lowUs necBitMargin

/-- `nec_header_if` -/
def necHeaderIf : RmtItem32→Bool := necItemIf necHeaderHighUs necHeaderLowUs

/-- `nec_repetition_if` -/
def necRepetitionIf : RmtItem32→Bool := necItemIf necRepetitionHighUs necRepetitionLowUs

/-- `nec_bit_one_if` -/
def necBitOneIf : RmtItem32→Bool := necItemIf necBitOneHighUs necBitOneLowUs

/-- `nec_bit_zero_if` -/
def necBitZeroIf : RmtItem32→Bool := necItemIf necBitZeroHighUs necBitZeroLowUs

/-- A loop over `n` bits of `nec_parse_items` from bit `j` on, with the items left. There are
as many as bits. -/
def necParseBits : ℕ→ℕ→UInt16→List RmtItem32→Option (UInt16×List RmtItem32)
  | 0,_,bits,items => some (bits,items)
  | _+1,_,_,[] => none
  | n+1,j,bits,item::items =>
    if necBitOneIf item then necParseBits n (j+1) (bits|||.ofNat (1<<<j)) items
    else if necBitZeroIf item then necParseBits n (j+1) (bits|||.ofNat (0<<<j)) items
    else none

/-- What `nec_parse_items` leaves behind. -/
structure Parsed where
  /-- The value returned, the number of the bits or -1. -/
  ret : ℤ
  /-- `s_ir_button_hold_flag` -/
  irButtonHoldFlag : Bool
  /-- What is stored at `addr` and `data`. -/
  stored : Option (UInt16×UInt16)
  deriving DecidableEq

/-- `nec_parse_items`, with at least one item. -/
def necParseItems (item : RmtItem32) (items : List RmtItem32) : Parsed :=
  if necRepetitionIf item then ⟨-1,true,none⟩
  else if items.length+1 < necDataItemNum then ⟨-1,false,none⟩
  else if !necHeaderIf item then ⟨-1,false,none⟩
  else
    match necParseBits 16 0 0 items with
    | none => ⟨-1,false,none⟩
    | some (addr,items) =>
      match necParseBits 16 0 0 items with
      | none => ⟨-1,false,none⟩
      | some (data,_) => ⟨16+16,false,some (addr,data)⟩

/-- A loop of `nec_build_items` over bits. -/
def necBuildBits : ℕ→UInt16→List RmtItem32
  | 0,_ => []
  | n+1,data =>
    (if data&&&0x1≠0 then necFillItemBitOne else necFillItemBitZero)::necBuildBits n (data>>>1)

/-- `nec_build_items`: the value returned and the items, in memory for a number of them. -/
def necBuildItems (itemNum : ℤ) (addr cmdData : UInt16) : ℤ×List RmtItem32 :=
  if itemNum < necDataItemNum then (-1,[])
  else
    let items := necFillItemHeader::necBuildBits 16 addr++necBuildBits 16 cmdData++[necFillItemEnd]
    (items.length,items)

/-- A pulse is received with an error of less than the margin. A tick has ten microseconds,
divided by `RMT_TICK_10_US`. -/
def InTolerance (sent received : BitVec 15) : Prop :=
  received.toNat*10 < sent.toNat*10+necBitMargin*rmtTick10Us∧
    sent.toNat*10 < received.toNat*10+necBitMargin*rmtTick10Us

instance (sent received : BitVec 15) : Decidable (InTolerance sent received) :=
  inferInstanceAs (Decidable (_∧_))

/-- An item as the receiver may see it. -/
structure Received (sent received : RmtItem32) : Prop where
  /-- The first level is inverted. -/
  level0 : received.level0 = !sent.level0
  /-- The second level is inverted. -/
  level1 : received.level1 = !sent.level1
  /-- The first pulse has an error within the tolerance. -/
  duration0 : InTolerance sent.duration0 received.duration0
  /-- The second pulse too. -/
  duration1 : InTolerance sent.duration1 received.duration1

variable {sent received : BitVec 15} {item : RmtItem32} {highUs lowUs : ℕ}

theorem fill_ticks (h : lowUs < 40000) :
    (BitVec.ofNat 15 (lowUs/10*rmtTick10Us)).toNat=lowUs/10*8 := by
  change lowUs/10*8%2^15=_
  omega

/-- The duration of a pulse in microseconds. -/
theorem necItemDuration_toNat (d : BitVec 15) : necItemDuration d.toNat=d.toNat*10/8 := by
  have hmask : d.toNat&&&0x7fff=d.toNat := by
    have hmod := and_two_pow_sub_one_eq_mod d.toNat 15
    rw [mod_eq_of_lt d.isLt] at hmod
    exact hmod
  rw [necItemDuration,hmask]
  rfl

/-- The parser takes the pulses within the tolerance, for a target of whole ticks. -/
theorem necCheckInRange_iff {targetUs : ℕ} (htarget : targetUs%10=0) (h : targetUs < 40000) :
    necCheckInRange received.toNat targetUs necBitMargin=true↔
      InTolerance (.ofNat 15 (targetUs/10*rmtTick10Us)) received := by
  rw [necCheckInRange,InTolerance,fill_ticks h,necItemDuration_toNat,Bool.and_eq_true,
    decide_eq_true_iff,decide_eq_true_iff]
  change _↔received.toNat*10 < targetUs/10*8*10+150*8∧targetUs/10*8*10 < received.toNat*10+150*8
  change ((received.toNat*10/8 : ℕ) : ℤ) < targetUs+150∧
    ((received.toNat*10/8 : ℕ) : ℤ) > targetUs-150↔_
  omega

/-- An item that was filled in is taken for what it is, in spite of its errors. -/
theorem necItemIf_of_received (hhigh : highUs%10=0) (hhigh' : highUs < 40000)
    (hlow : lowUs%10=0) (hlow' : lowUs < 40000)
    (h : Received (necFillItemLevel highUs lowUs) item) : necItemIf highUs lowUs item=true := by
  have hduration0 := (necCheckInRange_iff hhigh hhigh').mpr h.duration0
  have hduration1 := (necCheckInRange_iff hlow hlow').mpr h.duration1
  rw [necItemIf,h.level0,h.level1,hduration0,hduration1]
  rfl

/-- It is not taken for an item with a second pulse that is too far away. -/
theorem necItemIf_eq_false {highUs' lowUs' : ℕ} (hlow : lowUs%10=0) (hlow' : lowUs < 40000)
    (hother : lowUs'%10=0) (hother' : lowUs' < 40000)
    (hfar : lowUs+2*necBitMargin≤lowUs'∨lowUs'+2*necBitMargin≤lowUs)
    (h : Received (necFillItemLevel highUs lowUs) item) :
    necItemIf highUs' lowUs' item=false := by
  refine Bool.eq_false_iff.mpr fun htrue => ?_
  rw [necItemIf,Bool.and_eq_true] at htrue
  have hnear := (necCheckInRange_iff hother hother').mp htrue.2
  have hreceived := h.duration1
  change InTolerance (.ofNat 15 (lowUs/10*rmtTick10Us)) _ at hreceived
  rw [InTolerance,fill_ticks hother'] at hnear
  rw [InTolerance,fill_ticks hlow'] at hreceived
  have hmargin : necBitMargin=150 := rfl
  have hticks : rmtTick10Us=8 := rfl
  rw [hmargin] at hfar hnear hreceived
  rw [hticks] at hnear hreceived
  omega

/-- The next bit joins those below it. -/
theorem bits_or {bits : UInt16} {j : ℕ} (hj : j < 16) (h : bits.toNat < 2^j) :
    (bits|||.ofNat (1<<<j)).toNat=bits.toNat+2^j := by
  have hpow : 2^j < 2^16 := Nat.pow_lt_pow_right (by decide) hj
  have hvalue : (UInt16.ofNat (1<<<j)).toNat=2^j := by
    rw [one_shiftLeft]
    exact mod_eq_of_lt hpow
  have hor := two_pow_add_eq_or_of_lt h 1
  rw [Nat.mul_one] at hor
  rw [UInt16.toNat_or,hvalue,Nat.or_comm,←hor,Nat.add_comm]

/-- The lowest bit is sent first, and the others after it. -/
theorem bits_next (data : UInt16) (n j : ℕ) :
    2^j*(data.toNat%2^(n+1))=2^j*(data.toNat%2)+2^(j+1)*((data>>>1).toNat%2^n) := by
  have hshift : (data>>>1).toNat=data.toNat/2 := by
    rw [UInt16.toNat_shiftRight]
    exact shiftRight_eq_div_pow data.toNat 1
  rw [hshift,pow_succ',mod_mul,Nat.mul_add,Nat.pow_succ,Nat.mul_assoc]

/-- The bits that were built are parsed, and come above those parsed before. -/
theorem necParseBits_build (n : ℕ) : ∀ (j : ℕ) (bits data : UInt16) (items rest : List RmtItem32),
    j+n≤16 → bits.toNat < 2^j → List.Forall₂ Received (necBuildBits n data) items →
    ∃ bits',necParseBits n j bits (items++rest)=some (bits',rest)∧
      bits'.toNat=bits.toNat+2^j*(data.toNat%2^n) := by
  induction n with
  | zero =>
    intro j bits data items rest _ _ h
    cases h
    refine ⟨bits,rfl,?_⟩
    rw [Nat.pow_zero,mod_one,Nat.mul_zero,Nat.add_zero]
  | succ n ih =>
    intro j bits data items rest hj hbits h
    rw [necBuildBits] at h
    obtain ⟨item,items,hitem,hitems,rfl⟩ := List.forall₂_cons_left_iff.mp h
    have hlow : (data&&&0x1).toNat=data.toNat%2 := by
      rw [UInt16.toNat_and]
      exact and_one_is_mod _
    rw [bits_next,List.cons_append,necParseBits]
    cases Decidable.em (data&&&0x1≠0) with
    | inl hone =>
      rw [if_pos hone] at hitem
      have hbit : data.toNat%2=1 := by
        have hne : data.toNat%2≠0 := fun hzero =>
          hone (UInt16.toNat_inj.mp (hlow.trans hzero))
        omega
      have hor := @bits_or bits j (by omega) hbits
      obtain ⟨bits',hparse,hvalue⟩ := ih (j+1) (bits|||.ofNat (1<<<j)) (data>>>1) items rest
        (by omega) (by omega) hitems
      have hitemOne : necBitOneIf item=true :=
        necItemIf_of_received rfl (by decide) rfl (by decide) hitem
      rw [if_pos hitemOne]
      refine ⟨bits',hparse,?_⟩
      rw [hvalue,hor,hbit]
      omega
    | inr hzero =>
      rw [if_neg hzero] at hitem
      have hbit : data.toNat%2=0 := by
        rw [←hlow,Decidable.not_not.mp hzero]
        rfl
      have hor : bits|||.ofNat (0<<<j)=bits := by
        rw [zero_shiftLeft]
        exact UInt16.or_zero
      obtain ⟨bits',hparse,hvalue⟩ := ih (j+1) bits (data>>>1) items rest (by omega) (by omega)
        hitems
      have hone : necBitOneIf item=false :=
        necItemIf_eq_false rfl (by decide) rfl (by decide) (by decide) hitem
      have hitemZero : necBitZeroIf item=true :=
        necItemIf_of_received rfl (by decide) rfl (by decide) hitem
      rw [hone,if_neg Bool.false_ne_true,hor,if_pos hitemZero]
      refine ⟨bits',hparse,?_⟩
      rw [hvalue,hbit]
      omega

/-- Sixteen bits are all bits of a word. -/
theorem necParseBits_word {data : UInt16} {items : List RmtItem32} (rest : List RmtItem32)
    (h : List.Forall₂ Received (necBuildBits 16 data) items) :
    necParseBits 16 0 0 (items++rest)=some (data,rest) := by
  obtain ⟨bits,hparse,hvalue⟩ := necParseBits_build 16 0 0 data items rest (by decide) (by decide) h
  have hdata : bits=data := by
    refine UInt16.toNat_inj.mp (hvalue.trans ?_)
    change 0+1*(data.toNat%2^16)=_
    rw [Nat.zero_add,Nat.one_mul,mod_eq_of_lt data.toNat_lt]
  rw [hparse,hdata]

/-- What belongs to two lists in a row is in a row too. -/
theorem forall₂_append {first second received : List RmtItem32}
    (h : List.Forall₂ Received (first++second) received) :
    ∃ firstItems secondItems,List.Forall₂ Received first firstItems∧
      List.Forall₂ Received second secondItems∧received=firstItems++secondItems := by
  have htake := List.forall₂_take first.length h
  have hdrop := List.forall₂_drop first.length h
  rw [List.take_left] at htake
  rw [List.drop_left] at hdrop
  exact ⟨_,_,htake,hdrop,(List.take_append_drop _ _).symm⟩

theorem necBuildItems_eq {itemNum : ℤ} (h : necDataItemNum ≤ itemNum) (addr cmd : UInt16) :
    necBuildItems itemNum addr cmd=((necDataItemNum : ℤ),necFillItemHeader::
      (necBuildBits 16 addr++necBuildBits 16 cmd)++[necFillItemEnd]) := by
  rw [necBuildItems,if_neg (Int.not_lt.mpr h)]
  rfl

/-- What is built for an address and a command is parsed to both of them, whatever the errors
within the tolerance. What is received for the end may be anything. -/
theorem necParseItems_build (itemNum : ℤ) (hnum : necDataItemNum ≤ itemNum) (addr cmd : UInt16)
    (item : RmtItem32) (received ends : List RmtItem32)
    (hreceived : List.Forall₂ Received (necBuildItems itemNum addr cmd).2.dropLast
      (item::received)) (hends : ends≠[]) :
    necParseItems item (received++ends)=⟨32,false,some (addr,cmd)⟩ := by
  rw [necBuildItems_eq hnum,List.dropLast_concat] at hreceived
  obtain ⟨hitem,hbits⟩ := List.forall₂_cons.mp hreceived
  obtain ⟨addrItems,cmdItems,haddr,hcmd,rfl⟩ := forall₂_append hbits
  have hlen : ¬(addrItems++cmdItems++ends).length+1 < necDataItemNum := by
    have hone := haddr.length_eq
    have htwo := hcmd.length_eq
    have hthree := List.length_pos_iff.mpr hends
    change 16=_ at hone
    change 16=_ at htwo
    change ¬_ < 34
    rw [List.length_append,List.length_append]
    omega
  have hrepetition : necRepetitionIf item=false :=
    necItemIf_eq_false rfl (by decide) rfl (by decide) (by decide) hitem
  have hheader : necHeaderIf item=true :=
    necItemIf_of_received rfl (by decide) rfl (by decide) hitem
  rw [necParseItems,hrepetition,if_neg Bool.false_ne_true,if_neg hlen,hheader,Bool.not_true,
    if_neg Bool.false_ne_true,List.append_assoc,necParseBits_word _ haddr]
  dsimp only
  rw [necParseBits_word _ hcmd]
  rfl

instance (sent received : RmtItem32) : Decidable (Received sent received) :=
  decidable_of_iff (received.level0=(!sent.level0)∧received.level1=(!sent.level1)∧
      InTolerance sent.duration0 received.duration0∧InTolerance sent.duration1 received.duration1)
    ⟨fun ⟨h0,h1,h2,h3⟩ => ⟨h0,h1,h2,h3⟩,fun ⟨h0,h1,h2,h3⟩ => ⟨h0,h1,h2,h3⟩⟩

/-- An item received with levels inverted, 119 ticks too long and 119 ticks too short. -/
def skewed (item : RmtItem32) : RmtItem32 where
  duration0 := item.duration0+119
  level0 := !item.level0
  duration1 := item.duration1-119
  level1 := !item.level1

/-- The address 1 and the command 2 with large errors. -/
theorem necParseItems_build_skewed : necParseItems (skewed necFillItemHeader)
      ((necBuildBits 16 1++necBuildBits 16 2).map skewed++[necFillItemEnd])=⟨32,false,some (1,2)⟩ :=
  necParseItems_build 34 (by decide) 1 2 _ _ _ (by decide +kernel) (by decide)

end MicroPython.NecItems
