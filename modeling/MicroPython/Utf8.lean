import Mathlib.Data.List.Basic
import Mathlib.Data.List.TakeWhile
import Mathlib.Tactic.IntervalCases

/-!
# UTF-8

A character is a first byte, which announces how many bytes follow, and these bytes, which
continue it. A text is its characters one after the other. Because no first byte continues
a character, the places where characters begin can be found from both ends, and a text has
one cutting into characters only.
-/

namespace MicroPython.Utf8

open UInt8 List

/-- Whether a byte continues a character. -/
def isCont (c : UInt8) : Bool := decide (0x80≤c.toNat∧c.toNat<0xC0)

/-- How many bytes a first byte announces. -/
def announced (c : UInt8) : Option ℕ :=
  if c.toNat<0x80 then some 0
  else if c.toNat<0xC0 then none
  else if c.toNat<0xE0 then some 1
  else if c.toNat<0xF0 then some 2
  else if c.toNat<0xF8 then some 3
  else none

/-- A first byte with as many bytes of a kind after it as it announces. -/
structure Sequence (p : UInt8→Bool) where
  /-- The first byte. -/
  lead : UInt8
  /-- The bytes after it. -/
  followers : List UInt8
  complete : announced lead=some followers.length
  kind : ∀ c∈followers,p c=true

/-- A character. -/
abbrev Character : Type := Sequence isCont

variable {p : UInt8→Bool}

/-- The bytes of a sequence. -/
def Sequence.bytes (x : Sequence p) : List UInt8 := x.lead::x.followers

/-- Sequences one after the other. -/
def text (xs : List (Sequence p)) : List UInt8 := xs.flatMap Sequence.bytes

@[simp]
theorem text_nil : text ([] : List (Sequence p))=[] := rfl

/-- A sequence in front of others. -/
@[simp]
theorem text_cons (x : Sequence p) (xs : List (Sequence p)) :
    text (x::xs)=x.lead::(x.followers++text xs) := rfl

/-- Sequences after others. -/
@[simp]
theorem text_append (xs ys : List (Sequence p)) : text (xs++ys)=text xs++text ys :=
  flatMap_append

/-- A first byte continues nothing. -/
theorem isCont_of_announced {c : UInt8} {n : ℕ} (h : announced c=some n) : isCont c=false := by
  refine decide_eq_false ?_
  rintro ⟨hlow,hhigh⟩
  rw [announced,if_neg (Nat.not_lt.mpr hlow),if_pos hhigh] at h
  cases h

theorem Sequence.isCont_lead (x : Sequence p) : isCont x.lead=false :=
  isCont_of_announced x.complete

/-! ## One cutting -/

/-- Two texts of sequences are cut at the same places. -/
theorem text_inj : ∀ {xs ys : List (Sequence p)},text xs=text ys → xs=ys
  | [],[] => fun _ => rfl
  | [],_::_ => fun h => nomatch h
  | _::_,[] => fun h => nomatch h
  | x::xs,y::ys => by
    intro h
    rw [text_cons,text_cons] at h
    obtain ⟨hlead,hrest⟩ := List.cons.inj h
    have hlength : x.followers.length=y.followers.length := by
      have hx := x.complete
      rw [hlead,y.complete] at hx
      exact (Option.some.inj hx).symm
    obtain ⟨hfollowers,htail⟩ := append_inj hrest hlength
    have hxy : x=y := by
      cases x
      cases y
      cases hlead
      cases hfollowers
      rfl
    rw [hxy,text_inj htail]

/-- What begins with a byte is a text when the byte is a first byte with its bytes after it
and a text after these. -/
theorem exists_text_cons {c : UInt8} {l : List UInt8} :
    (∃ xs : List (Sequence p),c::l=text xs)↔∃ n,announced c=some n∧
      ∃ (followers : List UInt8) (xs : List (Sequence p)),l=followers++text xs∧
        followers.length=n∧∀ d∈followers,p d=true := by
  constructor
  · rintro ⟨xs,hxs⟩
    cases xs with
    | nil => cases hxs
    | cons x xs =>
      obtain ⟨hlead,hrest⟩ := List.cons.inj hxs
      exact ⟨_,hlead ▸ x.complete,x.followers,xs,hrest,rfl,x.kind⟩
  · rintro ⟨n,hn,followers,xs,hl,hlength,hkind⟩
    exact ⟨⟨c,followers,hlength ▸ hn,hkind⟩::xs,congrArg (c::·) hl⟩

/-! ## Where characters begin -/

/-- A text does not begin in the middle of a character. -/
theorem takeWhile_text (xs : List (Sequence p)) : (text xs).takeWhile isCont=[] := by
  cases xs with
  | nil => rfl
  | cons x xs =>
    rw [text_cons,takeWhile_cons_of_neg]
    rw [x.isCont_lead]
    exact Bool.false_ne_true

theorem takeWhile_followers (x : Character) (xs : List Character) :
    (x.followers++text xs).takeWhile isCont=x.followers := by
  rw [takeWhile_append_of_pos x.kind,takeWhile_text,append_nil]

/-- A text has as many first bytes as characters. -/
theorem countP_text (xs : List Character) : (text xs).countP (fun c => !isCont c)=xs.length := by
  induction xs with
  | nil => rfl
  | cons x xs ih =>
    have hfollowers : x.followers.countP (fun c => !isCont c)=0 := by
      refine countP_eq_zero.mpr fun c hc => ?_
      rw [x.kind c hc]
      exact Bool.false_ne_true
    have hlead : (!isCont x.lead)=true := by
      rw [x.isCont_lead]
      rfl
    rw [text_cons,@countP_cons_of_pos _ (fun c => !isCont c) _ _ hlead,countP_append,
      hfollowers,ih,Nat.zero_add,length_cons]

/-! ## Code points -/

/-- The bits of a first byte that belong to the code point. -/
def leadBits (c : UInt8) : ℕ :=
  if c.toNat<0x80 then c.toNat
  else if c.toNat<0xE0 then c.toNat%0x20
  else if c.toNat<0xF0 then c.toNat%0x10
  else c.toNat%0x08

theorem leadBits_mul_le {c : UInt8} {n : ℕ} (h : announced c=some n) :
    (leadBits c+1)*64^n≤2^21 := by
  rw [announced] at h
  rw [leadBits]
  split_ifs at * with h80 hC0 hE0 hF0 hF8
  all_goals cases h
  all_goals omega

/-- The code point of a character: six bits of each byte go behind those before. -/
def code (x : Character) : ℕ :=
  x.followers.foldl (fun ord c => ord*64+c.toNat%64) (leadBits x.lead)

/-- A byte of six bits of a code point. -/
def contByte (v : ℕ) : UInt8 := UInt8.ofNat (v%0x40+0x80)

/-- A byte of six bits continues a character. -/
theorem isCont_contByte (v : ℕ) : isCont (contByte v)=true := by
  rw [isCont,contByte,toNat_ofNat']
  exact decide_eq_true ⟨by omega,by omega⟩

/-- The six bits. -/
theorem toNat_contByte (v : ℕ) : (contByte v).toNat%64=v%64 := by
  rw [contByte,toNat_ofNat']
  omega

/-- A code point of up to seven bits. -/
def ofSeven (v : ℕ) (h : v<0x80) : Character where
  lead := UInt8.ofNat v
  followers := []
  complete := by
    rw [announced,if_pos (by rw [UInt8.toNat_ofNat']; omega)]
    rfl
  kind := fun c hc => by cases hc

/-- A first byte with one byte after it. -/
theorem announced_one (v : ℕ) : announced (UInt8.ofNat (v%0x20+0xC0))=some 1 := by
  have hvalue : (UInt8.ofNat (v%0x20+0xC0)).toNat=v%0x20+0xC0 := by
    rw [toNat_ofNat']
    omega
  rw [announced,hvalue,if_neg (by omega),if_neg (by omega),if_pos (by omega)]

/-- A first byte with two bytes after it. -/
theorem announced_two (v : ℕ) : announced (UInt8.ofNat (v%0x10+0xE0))=some 2 := by
  have hvalue : (UInt8.ofNat (v%0x10+0xE0)).toNat=v%0x10+0xE0 := by
    rw [toNat_ofNat']
    omega
  rw [announced,hvalue,if_neg (by omega),if_neg (by omega),if_neg (by omega),if_pos (by omega)]

/-- A first byte with three bytes after it. -/
theorem announced_three (v : ℕ) : announced (UInt8.ofNat (v%0x08+0xF0))=some 3 := by
  have hvalue : (UInt8.ofNat (v%0x08+0xF0)).toNat=v%0x08+0xF0 := by
    rw [toNat_ofNat']
    omega
  rw [announced,hvalue,if_neg (by omega),if_neg (by omega),if_neg (by omega),if_neg (by omega),
    if_pos (by omega)]

/-- A code point of up to eleven bits. -/
def ofEleven (v : ℕ) : Character where
  lead := UInt8.ofNat (v/64%0x20+0xC0)
  followers := [contByte v]
  complete := announced_one _
  kind := List.forall_mem_singleton.mpr (isCont_contByte v)

/-- A code point of up to sixteen bits. -/
def ofSixteen (v : ℕ) : Character where
  lead := UInt8.ofNat (v/4096%0x10+0xE0)
  followers := [contByte (v/64),contByte v]
  complete := announced_two _
  kind := List.forall_mem_cons.mpr ⟨isCont_contByte _,
    List.forall_mem_singleton.mpr (isCont_contByte v)⟩

/-- A code point of up to twenty-one bits. -/
def ofTwentyOne (v : ℕ) : Character where
  lead := UInt8.ofNat (v/262144%0x08+0xF0)
  followers := [contByte (v/4096),contByte (v/64),contByte v]
  complete := announced_three _
  kind := List.forall_mem_cons.mpr ⟨isCont_contByte _,List.forall_mem_cons.mpr
    ⟨isCont_contByte _,List.forall_mem_singleton.mpr (isCont_contByte v)⟩⟩

/-- The character of a code point. -/
def ofCode (v : ℕ) : Character :=
  if h : v≤0x7F then ofSeven v (by omega)
  else if v≤0x7FF then ofEleven v
  else if v≤0xFFFF then ofSixteen v
  else ofTwentyOne v

/-- The code point of the character of a code point. -/
theorem code_ofCode {v : ℕ} (h : v<0x110000) : code (ofCode v)=v := by
  rw [ofCode]
  split_ifs with h7 h11 h16
  · rw [code,ofSeven,foldl_nil,leadBits,toNat_ofNat',if_pos (by omega)]
    omega
  · have hlead : leadBits (ofEleven v).lead=v/64 := by
      rw [ofEleven,leadBits,toNat_ofNat',if_neg (by omega),if_pos (by omega)]
      omega
    rw [code,hlead]
    simp only [ofEleven,foldl_cons,foldl_nil,toNat_contByte]
    omega
  · have hlead : leadBits (ofSixteen v).lead=v/4096 := by
      rw [ofSixteen,leadBits,toNat_ofNat',if_neg (by omega),if_neg (by omega),
        if_pos (by omega)]
      omega
    rw [code,hlead]
    simp only [ofSixteen,foldl_cons,foldl_nil,toNat_contByte]
    omega
  · have hlead : leadBits (ofTwentyOne v).lead=v/262144 := by
      rw [ofTwentyOne,leadBits,toNat_ofNat',if_neg (by omega),if_neg (by omega),
        if_neg (by omega)]
      omega
    rw [code,hlead]
    simp only [ofTwentyOne,foldl_cons,foldl_nil,toNat_contByte]
    omega

/-- The encoding of a scalar value. -/
def ofChar (c : Char) : Character := ofCode c.toNat

theorem toNat_lt (c : Char) : c.toNat<0x110000 := by
  rcases c.valid with h | ⟨_,h⟩
  · exact Nat.lt_trans h (by decide)
  · exact h

/-- The code point of an encoding. -/
theorem code_ofChar (c : Char) : code (ofChar c)=c.toNat := code_ofCode (toNat_lt c)

/-- A string is encoded character by character. -/
def encode (cs : List Char) : List UInt8 := text (cs.map ofChar)

end MicroPython.Utf8
