import Mathlib.Data.Nat.Bitwise
import MicroPython.NeuronsProtocol

/-!
# Groups of seven bits

The groups of a value are its digits in base 128, and the decoders give the number
with these digits, as far as their type goes. A value comes back when its groups
hold all of its bits.
-/

namespace MicroPython.NeuronsGroups

open Nat NeuronsProtocol

/-! ## Bytes as numbers -/

/-- The lower seven bits. -/
theorem toNat_mask (a : UInt8) : (a&&&0x7f).toNat=a.toNat%128 := by
  rw [UInt8.toNat_and]
  exact and_two_pow_sub_one_eq_mod a.toNat 7

/-- A shift to the left loses the upper bits. -/
theorem toNat_shl (a k : UInt8) (hk : k.toNat < 8) : (a<<<k).toNat=a.toNat*2^k.toNat%256 := by
  rw [UInt8.toNat_shiftLeft,mod_eq_of_lt hk,shiftLeft_eq]

/-- A shift to the right loses the lower bits. -/
theorem toNat_shr (a k : UInt8) (hk : k.toNat < 8) : (a>>>k).toNat=a.toNat/2^k.toNat := by
  rw [UInt8.toNat_shiftRight,mod_eq_of_lt hk,shiftRight_eq_div_pow]

/-- Lower bits and upper bits side by side. -/
theorem toNat_or_shl (a b k : UInt8) (hk : k.toNat < 8) (ha : a.toNat < 2^k.toNat) :
    (a|||(b<<<k)).toNat=a.toNat+b.toNat*2^k.toNat%256 := by
  have hmultiple : b.toNat*2^k.toNat%256=2^k.toNat*(b.toNat%2^(8-k.toNat)) := by
    have h256 : 256=2^k.toNat*2^(8-k.toNat) := by
      rw [←Nat.pow_add,Nat.add_sub_cancel' hk.le]
    rw [mul_comm,h256,mul_mod_mul_left]
  rw [UInt8.toNat_or,toNat_shl b k hk,hmultiple,Nat.or_comm,
    ←two_pow_add_eq_or_of_lt ha,Nat.add_comm]

/-- A group of the lower bits of one byte above the upper bits of another. -/
theorem toNat_group (a b k l : UInt8) (hk : k.toNat < 8) (hl : l.toNat < 8)
    (hkl : k.toNat+l.toNat=8) :
    (((a<<<k)|||(b>>>l))&&&0x7f).toNat=(a.toNat*2^k.toNat+b.toNat/2^l.toNat)%128 := by
  have hlow : (b>>>l).toNat < 2^k.toNat := by
    rw [toNat_shr b l hl]
    refine Nat.div_lt_of_lt_mul ?_
    rw [←Nat.pow_add,Nat.add_comm,hkl]
    exact b.toNat_lt
  rw [toNat_mask,UInt8.or_comm,toNat_or_shl _ a k hk hlow,toNat_shr b l hl]
  omega

/-- The number of two bytes. -/
theorem shortVal_toNat (v : Val2Byte) : v.shortVal.toNat=v.byteVal0.toNat+256*v.byteVal1.toNat := by
  have h0 := v.byteVal0.toNat_lt
  have h1 := v.byteVal1.toNat_lt
  rw [Val2Byte.shortVal,UInt16.toNat_add,UInt16.toNat_mul,UInt8.toNat_toUInt16,UInt8.toNat_toUInt16]
  show (_+_*256%_)%_=_
  omega

/-- The number of four bytes. -/
theorem longVal_toNat (v : Val4Byte) :
    v.longVal.toNat=v.byteVal0.toNat+0x100*v.byteVal1.toNat+0x10000*v.byteVal2.toNat+
      0x1000000*v.byteVal3.toNat := by
  have h0 := v.byteVal0.toNat_lt
  have h1 := v.byteVal1.toNat_lt
  have h2 := v.byteVal2.toNat_lt
  have h3 := v.byteVal3.toNat_lt
  simp only [Val4Byte.longVal,UInt32.toNat_add,UInt32.toNat_mul,UInt8.toNat_toUInt32]
  show (((_+_*0x100%_)%_+_*0x10000%_)%_+_*0x1000000%_)%_=_
  omega

/-- The bytes of a 16-bit number. -/
theorem ofShort_toNat (v : UInt16) : (Val2Byte.ofShort v).byteVal0.toNat=v.toNat%256∧
      (Val2Byte.ofShort v).byteVal1.toNat=v.toNat/256 := by
  have hlt := v.toNat_lt
  constructor
  · exact UInt16.toNat_toUInt8 v
  · show (v>>>8).toUInt8.toNat=_
    rw [UInt16.toNat_toUInt8,UInt16.toNat_shiftRight,shiftRight_eq_div_pow]
    show v.toNat/256%256=_
    omega

/-- The bytes of a 32-bit number. -/
theorem ofLong_toNat (v : UInt32) : (Val4Byte.ofLong v).byteVal0.toNat=v.toNat%0x100∧
      (Val4Byte.ofLong v).byteVal1.toNat=v.toNat/0x100%0x100∧
      (Val4Byte.ofLong v).byteVal2.toNat=v.toNat/0x10000%0x100∧
      (Val4Byte.ofLong v).byteVal3.toNat=v.toNat/0x1000000 := by
  have hlt := v.toNat_lt
  have hbyte : ∀ k : UInt32,(v>>>k).toUInt8.toNat=v.toNat/2^(k.toNat%32)%0x100 := by
    intro k
    rw [UInt32.toNat_toUInt8,UInt32.toNat_shiftRight,shiftRight_eq_div_pow]
  refine ⟨UInt32.toNat_toUInt8 v,hbyte 8,hbyte 16,(hbyte 24).trans ?_⟩
  show v.toNat/0x1000000%0x100=_
  omega

/-! ## Encoders -/

/-- The groups of two bytes. -/
theorem groups16_toNat (v : UInt16) : ((Val2Byte.ofShort v).byteVal0&&&0x7f).toNat=v.toNat%128∧
      ((((Val2Byte.ofShort v).byteVal1<<<1)|||((Val2Byte.ofShort v).byteVal0>>>7))&&&
        0x7f).toNat=v.toNat/128%128∧
      (((Val2Byte.ofShort v).byteVal1>>>6)&&&0x7f).toNat=v.toNat/128^2%128 := by
  obtain ⟨h0,h1⟩ := ofShort_toNat v
  rw [toNat_mask,toNat_group _ _ 1 7 (by decide) (by decide) (by decide),toNat_mask,
    toNat_shr _ 6 (by decide),h0,h1]
  refine ⟨?_,?_,?_⟩
  · omega
  · show (_*2+_/128)%128=_
    omega
  · show _/64%128=_
    omega

/-- The groups of four bytes. -/
theorem groups40_toNat (v : UInt32) : (groups40 (.ofLong v)).map UInt8.toNat=
      [v.toNat%128,v.toNat/128%128,v.toNat/128^2%128,v.toNat/128^3%128,v.toNat/128^4%128] := by
  obtain ⟨h0,h1,h2,h3⟩ := ofLong_toNat v
  simp only [groups40,List.map_cons,List.map_nil]
  rw [toNat_mask,toNat_group _ _ 1 7 (by decide) (by decide) (by decide),
    toNat_group _ _ 2 6 (by decide) (by decide) (by decide),
    toNat_group _ _ 3 5 (by decide) (by decide) (by decide),toNat_mask,
    toNat_shr _ 4 (by decide),h0,h1,h2,h3]
  have hg0 : v.toNat%256%128=v.toNat%128 := by omega
  have hg1 : (v.toNat/256%256*2+v.toNat%256/128)%128=v.toNat/128%128 := by omega
  have hg2 : (v.toNat/65536%256*4+v.toNat/256%256/64)%128=v.toNat/128^2%128 := by omega
  have hg3 : (v.toNat/16777216*8+v.toNat/65536%256/32)%128=v.toNat/128^3%128 := by omega
  have hg4 : v.toNat/16777216/16%128=v.toNat/128^4%128 := by omega
  rw [←hg0,←hg1,←hg2,←hg3,←hg4]
  rfl

/-! ## Decoders -/

/-- The lower byte of two groups. -/
theorem toNat_low (g0 g1 : UInt8) :
    ((g0&&&(0x7f : UInt8))|||(g1<<<7)).toNat=g0.toNat%128+g1.toNat*128%256 := by
  rw [toNat_or_shl _ _ 7 (by decide),toNat_mask]
  · rfl
  · rw [toNat_mask]
    exact mod_lt _ (by decide)

/-- The upper bits of a group. -/
theorem toNat_high (g k : UInt8) (hk : k.toNat < 8) (hg : g.toNat < 128) :
    ((g>>>k)&&&(0x7f : UInt8)).toNat=g.toNat/2^k.toNat := by
  rw [toNat_mask,toNat_shr g k hk]
  exact mod_eq_of_lt ((div_le_self _ _).trans_lt hg)

/-- A sum of lower bits and upper bits. -/
theorem toNat_add_shl (a b k : UInt8) (hk : k.toNat < 8) (ha : a.toNat < 2^k.toNat) :
    (a+(b<<<k)).toNat=a.toNat+b.toNat*2^k.toNat%256 := by
  have hor := toNat_or_shl a b k hk ha
  have hlt := (a|||(b<<<k)).toNat_lt
  rw [UInt8.toNat_add,toNat_shl b k hk]
  omega

/-- The number of two groups. -/
theorem short16ToValue_toNat (g0 g1 : UInt8) (h0 : g0.toNat < 128) (h1 : g1.toNat < 128) :
    (short16ToValue g0 g1).toNat=g0.toNat+128*g1.toNat := by
  rw [short16ToValue,shortVal_toNat]
  rw [toNat_low,toNat_high g1 1 (by decide) h1]
  show _+256*(_/2)=_
  omega

/-- The number of three groups, as far as it has sixteen bits. -/
theorem short24_toNat (g0 g1 g2 : UInt8) (h0 : g0.toNat < 128) (h1 : g1.toNat < 128) :
    (Val2Byte.mk ((g0&&&(0x7f : UInt8))|||(g1<<<7))
      (((g1>>>1)&&&(0x7f : UInt8))|||(g2<<<6))).shortVal.toNat=
        g0.toNat+128*g1.toNat+128^2*(g2.toNat%4) := by
  have hhigh := toNat_high g1 1 (by decide) h1
  rw [shortVal_toNat]
  rw [toNat_low,toNat_or_shl _ g2 6 (by decide),hhigh]
  · show _+256*(_/2+_*64%256)=_
    omega
  · rw [hhigh]
    show _/2 < 64
    omega

/-- The number of five groups, as far as it has 32 bits. -/
theorem ungroup40_toNat (g0 g1 g2 g3 g4 : UInt8) (h0 : g0.toNat < 128) (h1 : g1.toNat < 128)
    (h2 : g2.toNat < 128) (h3 : g3.toNat < 128) :
    (ungroup40 g0 g1 g2 g3 g4).longVal.toNat=
      g0.toNat+128*g1.toNat+128^2*g2.toNat+128^3*g3.toNat+128^4*(g4.toNat%16) := by
  have hb1 := toNat_high g1 1 (by decide) h1
  have hb2 := toNat_high g2 2 (by decide) h2
  have hb3 := toNat_high g3 3 (by decide) h3
  rw [longVal_toNat]
  simp only [ungroup40]
  rw [toNat_low,toNat_add_shl _ g2 6 (by decide),toNat_add_shl _ g3 5 (by decide),
    toNat_add_shl _ g4 4 (by decide),hb1,hb2,hb3]
  · show _+0x100*(_/2+_*64%256)+0x10000*(_/4+_*32%256)+0x1000000*(_/8+_*16%256)=_
    omega
  · rw [hb3]
    show _/8 < 16
    omega
  · rw [hb2]
    show _/4 < 32
    omega
  · rw [hb1]
    show _/2 < 64
    omega

/-! ## Round trips -/

theorem byte8_roundTrip (val : UInt8) : byte8ToValue val=val↔val < 0x80 := by
  rw [byte8ToValue,←UInt8.toNat_inj,toNat_mask,UInt8.lt_iff_toNat_lt]
  show _↔val.toNat < 128
  omega

/-- A signed byte comes back from its two groups. -/
theorem byte16_roundTrip (val : Int8) :
    byte16ToValue (val.toUInt8&&&0x7f) ((val.toUInt8>>>7)&&&0x7f)=val := by
  have hbyte : (((val.toUInt8&&&(0x7f : UInt8))&&&(0x7f : UInt8))|||
      (((val.toUInt8>>>7)&&&(0x7f : UInt8))<<<7))=val.toUInt8 := by
    have hlt := val.toUInt8.toNat_lt
    apply UInt8.toNat_inj.mp
    rw [toNat_low,toNat_mask,toNat_mask,toNat_shr _ 7 (by decide)]
    show _+_/128%128*128%256=_
    omega
  rw [byte16ToValue,hbyte,Int8.toInt8_toUInt8]

/-- A 16-bit number comes back from two groups when it has fourteen bits. -/
theorem short16_roundTrip (val : UInt16) (g0 g1 : UInt8) (h0 : g0.toNat=val.toNat%128)
    (h1 : g1.toNat=val.toNat/128%128) : short16ToValue g0 g1=val↔val < 0x4000 := by
  have hvalue := short16ToValue_toNat g0 g1 (by omega) (by omega)
  rw [←UInt16.toNat_inj,hvalue,UInt16.lt_iff_toNat_lt,h0,h1]
  show _↔val.toNat < 16384
  omega

/-- A signed 16-bit number comes back from three groups. -/
theorem short24_roundTrip (val : Int16) (g0 g1 g2 : UInt8)
    (h0 : g0.toNat=val.toUInt16.toNat%128) (h1 : g1.toNat=val.toUInt16.toNat/128%128)
    (h2 : g2.toNat=val.toUInt16.toNat/128^2%128) : short24ToValue g0 g1 g2=val := by
  have hlt := val.toUInt16.toNat_lt
  have hvalue := short24_toNat g0 g1 g2 (by omega) (by omega)
  have hall : (Val2Byte.mk ((g0&&&(0x7f : UInt8))|||(g1<<<7))
      (((g1>>>1)&&&(0x7f : UInt8))|||(g2<<<6))).shortVal=val.toUInt16 := by
    apply UInt16.toNat_inj.mp
    rw [hvalue,h0,h1,h2]
    omega
  rw [short24ToValue,hall,Int16.toInt16_toUInt16]

/-- A 32-bit number comes back from five groups. -/
theorem ungroup40_roundTrip (v : UInt32) (g0 g1 g2 g3 g4 : UInt8)
    (h : [g0,g1,g2,g3,g4].map UInt8.toNat=
      [v.toNat%128,v.toNat/128%128,v.toNat/128^2%128,v.toNat/128^3%128,v.toNat/128^4%128]) :
    (ungroup40 g0 g1 g2 g3 g4).longVal=v := by
  have hlt := v.toNat_lt
  simp only [List.map_cons,List.map_nil,List.cons.injEq,and_true] at h
  obtain ⟨h0,h1,h2,h3,h4⟩ := h
  apply UInt32.toNat_inj.mp
  rw [ungroup40_toNat g0 g1 g2 g3 g4 (by omega) (by omega) (by omega) (by omega),h0,h1,h2,h3,h4]
  omega

end MicroPython.NeuronsGroups
