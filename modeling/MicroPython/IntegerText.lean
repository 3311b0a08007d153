import MicroPython.IntFormat
import MicroPython.ParseInteger

/-!
# Integers written and read

The text of an integer behind the prefix of its base, as either path writes it without commas, is
read by `mp_parse_num_integer` as an object with the value of the integer.
-/

namespace MicroPython.IntegerText

open List MpzDigits IntFormat ParseInteger
open MpzBitwise (size16)
open MpzFromStr (readValue)

variable {w : DigSize} {f : Format} {base : ℤ}

/-- Without commas the text consists of the sign, what stands in front and the digits. -/
theorem formatText_digits (hcomma : f.comma=0) (last neg : Bool) (n : ℕ) :
    formatText f last neg n=signText neg++f.lead++(digitsDown f.base n).map (digitChar f) := by
  rw [formatText,bodyText,digitsDown]
  split
  case isTrue => rfl
  case isFalse => rw [withCommas_plain hcomma,map_reverse]

theorem nil_space : ∀ c∈([] : List UInt8),isSpace c := by simp

/-- The parts of the text of an integer. -/
def intText (hlow : 2 ≤ f.base) (hhigh : f.base ≤ 16)
    (hletter : 10 < f.base → f.baseChar=97∨f.baseChar=65) (hlead : BasePrefix base f.lead f.base)
    (neg : Bool) (n : ℕ) : IntText base where
  before := []
  sign := signText neg
  mark := f.lead
  radix := f.base
  digits := (digitsDown f.base n).map (digitChar f)
  values := digitsDown f.base n
  after := []
  before_space := nil_space
  sign_mem := by cases neg <;> simp [signText]
  mark_prefix := hlead
  digits_ne_nil := by
    rw [digitsDown]
    split
    · simp
    · simpa [Nat.digits_ne_nil_iff_ne_zero]
  digits_values := by
    rw [map_map]
    exact map_congr_left fun d hd => digitOf_digitChar hhigh hletter (digitsDown_lt hlow n d hd)
  values_lt := digitsDown_lt hlow n
  after_space := nil_space

/-- `mp_obj_int_formatted`: the text of an integer object. -/
def objText (w : DigSize) (f : Format) (bufSize : ℕ) (buf : ℕ→UInt8) : IntObj→Option (List UInt8)
  | .small n => smallText w f n bufSize buf
  | .big z => mpzText w z f bufSize buf

/-- An integer that is written without commas, behind a prefix that may stand where a base is asked
for, is read there as an object with its value. -/
theorem mpParseNumInteger_objText {bits : ℕ} (hsize : 6 ≤ w.size) (hbits : 8 ≤ bits)
    (hword : bits ≤ w.sizeBits) (hlow : 2 ≤ f.base) (hhigh : f.base ≤ 16)
    (hletter : 10 < f.base → f.baseChar=97∨f.baseChar=65) (hcomma : f.comma=0)
    (hbase : base=0∨2 ≤ base∧base ≤ 36) (hlead : BasePrefix base f.lead f.base) {obj : IntObj}
    (hobj : obj.Valid w bits) (bufSize : ℕ) (buf : ℕ→UInt8) (lexer : Bool) :
    ∃ text read,objText w f bufSize buf obj=some text∧
      mpParseNumInteger w bits lexer text base=.ok read∧read.value w=obj.value w∧
      read.Valid w bits := by
  obtain ⟨v,hv⟩ : ∃ v,v=obj.value w := ⟨_,rfl⟩
  let t := intText hlow hhigh hletter hlead (decide (v < 0)) v.natAbs
  have htext (last : Bool) : formatText f last (decide (v < 0)) v.natAbs=t.text := by
    rw [formatText_digits hcomma]
    simp [t,intText,IntText.text]
  have hvalue : t.value=v := by
    rw [IntText.value,show readValue t.radix 0 t.values=v.natAbs from readValue_digitsDown ..]
    by_cases hneg : v < 0
    · rw [show t.sign=[45] by simp [t,intText,signText,hneg],decide_eq_true rfl,signed,if_pos rfl]
      omega
    · rw [show t.sign=[] by simp [t,intText,signText,hneg],signed,if_neg (by decide)]
      omega
  obtain ⟨read,hrun,hread,hvalid⟩ := @mpParseNumInteger_text w bits lexer base hsize hbits hbase t
  refine ⟨t.text,read,?_,hrun,by rw [hread,hvalue,hv],hvalid⟩
  cases obj with
  | small n =>
    have hn : n.natAbs < 2^w.sizeBits := by
      have hpow := Nat.pow_le_pow_right (show 0 < 2 by simp) hword
      have hlt := Nat.pow_lt_pow_right (show 1 < 2 by simp) (show bits-2 < bits by omega)
      have hobj : -(2^(bits-2) : ℕ) ≤ n∧n < (2^(bits-2) : ℕ) := by exact_mod_cast hobj
      omega
    rw [objText,smallText_eq hlow hhigh hn,←htext false,hv]
    rfl
  | big z => rw [objText,mpzText_eq hlow hhigh (by omega) hobj,←natAbs_toInt,←htext true,hv,
    IntObj.value]

/-- The hexadecimal text of -255 is read in any base. -/
theorem mpParseNumInteger_objText_hex : ∃ text read,objText size16 ⟨16,[48,120],97,0⟩ 0 (fun _ => 0)
      (.small (-255))=some text∧mpParseNumInteger size16 32 true text 0=.ok read∧
      read.value size16=-255∧read.Valid size16 32 :=
  mpParseNumInteger_objText (by decide) (by decide) (by decide) (by decide) (by decide)
    (fun _ => .inl rfl) rfl (.inl rfl) (.hex 0 (.inl rfl) 120 (.inl rfl))
    (by simp [IntObj.Valid,VarInt.IsSmallInt]) 0 (fun _ => 0) true

end MicroPython.IntegerText
