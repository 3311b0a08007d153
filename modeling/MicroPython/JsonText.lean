import MicroPython.Utf8

/-!
# JSON texts

The syntax trees of JSON, with all whitespace, escapes and signs that the grammar allows,
the bytes of a tree and the data that it stands for. How the pieces of a string, the
numbers with a fraction or an exponent and the members of an object are read is given from
outside, so that two readings of one text can be compared.
-/

namespace MicroPython.JsonText

open List Utf8

/-- Data of the kinds that JSON has. The names of a dictionary may be anything. -/
inductive Data (φ : Type) : Type
  | none
  | bool (b : Bool)
  | int (i : ℤ)
  /-- A number with a fraction or an exponent. -/
  | float (x : φ)
  | str (s : List UInt8)
  | list (items : List (Data φ))
  | dict (pairs : List (Data φ×Data φ))

/-! ## Strings -/

/-- A byte is whitespace. -/
def isWs (c : UInt8) : Bool := c=32||c=9||c=10||c=13

/-- Whitespace. -/
structure Ws where
  /-- The bytes. -/
  text : List UInt8
  /-- All of them are whitespace. -/
  ws : ∀ c∈text,isWs c=true

/-- No whitespace. -/
def Ws.nil : Ws := ⟨[],fun _ h => by cases h⟩

/-- An escape of two characters. -/
inductive Escape
  | quote
  | backslash
  | slash
  /-- A backspace. -/
  | b
  /-- A form feed. -/
  | f
  /-- A line feed. -/
  | n
  /-- A carriage return. -/
  | r
  /-- A tab. -/
  | t

/-- The character after the backslash. -/
def Escape.letter : Escape→UInt8
  | .quote => 34
  | .backslash => 92
  | .slash => 47
  | .b => 98
  | .f => 102
  | .n => 110
  | .r => 114
  | .t => 116

/-- The character that an escape stands for. -/
def Escape.value : Escape→UInt8
  | .quote => 34
  | .backslash => 92
  | .slash => 47
  | .b => 8
  | .f => 12
  | .n => 10
  | .r => 13
  | .t => 9

/-- A hexadecimal digit in one of its two cases. -/
structure HexDigit where
  value : Fin 16
  /-- The letters are upper case. -/
  upper : Bool

/-- The character of a hexadecimal digit. -/
def HexDigit.text (d : HexDigit) : UInt8 :=
  if d.value.val<10 then UInt8.ofNat (48+d.value.val)
  else UInt8.ofNat ((if d.upper then 55 else 87)+d.value.val)

/-- A piece of a string. -/
inductive Piece
  /-- A byte of a character that needs no escape. -/
  | plain (b : UInt8) (h : 32≤b∧b≠34∧b≠92)
  | escape (e : Escape)
  /-- An escape with the number of a code unit. -/
  | unicode (d₁ d₂ d₃ d₄ : HexDigit)

/-- The bytes of a piece. -/
def Piece.text : Piece→List UInt8
  | .plain b _ => [b]
  | .escape e => [92,e.letter]
  | .unicode d₁ d₂ d₃ d₄ => [92,117,d₁.text,d₂.text,d₃.text,d₄.text]

/-- The number of a code unit. -/
def codeUnit (d₁ d₂ d₃ d₄ : HexDigit) : ℕ :=
  ((d₁.value.val*16+d₂.value.val)*16+d₃.value.val)*16+d₄.value.val

/-- A string between its quotation marks. -/
def stringText (s : List Piece) : List UInt8 := 34::(s.flatMap Piece.text++[34])

/-! ## Numbers -/

/-- A byte is a digit. -/
def isDigit (c : UInt8) : Bool := 48≤c&&c≤57

/-- At least one digit. -/
structure Digits where
  text : List UInt8
  ne : text≠[]
  digits : ∀ c∈text,isDigit c=true

/-- The sign of an exponent. -/
inductive Sign
  | none
  | plus
  | minus
deriving DecidableEq

/-- The bytes of a sign. -/
def Sign.text : Sign→List UInt8
  | .none => []
  | .plus => [43]
  | .minus => [45]

/-- An exponent. -/
structure Exponent where
  /-- The letter is upper case. -/
  upper : Bool
  sign : Sign
  digits : Digits

/-- The letter of an exponent. -/
def Exponent.letter (e : Exponent) : UInt8 := if e.upper then 69 else 101

/-- The bytes of an exponent. -/
def Exponent.text (e : Exponent) : List UInt8 := e.letter::(e.sign.text++e.digits.text)

/-- A number. -/
structure Number where
  /-- It is negative. -/
  minus : Bool
  /-- The digits before the fraction. -/
  int : Digits
  /-- They begin with a zero only when there is no other. -/
  lead : int.text.head?=some 48 → int.text.length=1
  frac : Option Digits
  exp : Option Exponent

/-- The sign and the digits before the fraction. -/
def Number.intText (n : Number) : List UInt8 := (if n.minus then [45] else [])++n.int.text

/-- The bytes of a fraction. -/
def fracText : Option Digits→List UInt8
  | .none => []
  | .some ds => 46::ds.text

/-- The bytes of an exponent that may be missing. -/
def expText : Option Exponent→List UInt8
  | .none => []
  | .some e => e.text

/-- The bytes of a number. -/
def Number.text (n : Number) : List UInt8 := n.intText++(fracText n.frac++expText n.exp)

/-- A number is an integer when it has neither a fraction nor an exponent. -/
def Number.isInt (n : Number) : Bool := n.frac.isNone&&n.exp.isNone

/-- The value of digits. -/
def digitsValue (ds : List UInt8) : ℕ := ds.foldl (fun val c => val*10+(c.toNat-48)) 0

/-- The value of an integer. -/
def Number.intValue (n : Number) : ℤ :=
  if n.minus then -(digitsValue n.int.text : ℤ) else digitsValue n.int.text

/-- The number has a plus sign in its exponent. -/
def Number.hasPlus (n : Number) : Bool :=
  match n.exp with
  | .none => false
  | .some e => e.sign=.plus

/-! ## Values -/

mutual

/-- A value. -/
inductive Value
  /-- `null`. -/
  | null
  /-- `false` or `true`. -/
  | bool (b : Bool)
  | number (n : Number)
  | string (s : List Piece)
  | emptyArray (w : Ws)
  | array (w : Ws) (es : Elements)
  | emptyObject (w : Ws)
  | object (w : Ws) (ms : Members)

/-- The elements of an array. -/
inductive Elements
  | last (v : Value) (w : Ws)
  | more (v : Value) (w w' : Ws) (es : Elements)

/-- The members of an object. -/
inductive Members
  | last (k : List Piece) (w₁ w₂ : Ws) (v : Value) (w₃ : Ws)
  | more (k : List Piece) (w₁ w₂ : Ws) (v : Value) (w₃ w₄ : Ws) (ms : Members)

end

mutual

/-- The bytes of a value. -/
def Value.text : Value→List UInt8
  | .null => [110,117,108,108]
  | .bool b => if b then [116,114,117,101] else [102,97,108,115,101]
  | .number n => n.text
  | .string s => stringText s
  | .emptyArray w => 91::(w.text++[93])
  | .array w es => 91::(w.text++(es.text++[93]))
  | .emptyObject w => 123::(w.text++[125])
  | .object w ms => 123::(w.text++(ms.text++[125]))

/-- The bytes of elements. -/
def Elements.text : Elements→List UInt8
  | .last v w => v.text++w.text
  | .more v w w' es => v.text++(w.text++(44::(w'.text++es.text)))

/-- The bytes of members. -/
def Members.text : Members→List UInt8
  | .last k w₁ w₂ v w₃ => stringText k++(w₁.text++(58::(w₂.text++(v.text++w₃.text))))
  | .more k w₁ w₂ v w₃ w₄ ms => stringText k++(w₁.text++(58::(w₂.text++(v.text++
      (w₃.text++(44::(w₄.text++ms.text)))))))

end

/-! ## What a text stands for -/

/-- How the parts of a text are read. -/
structure Reading (φ : Type) where
  string : List Piece→List UInt8
  /-- The value of a number with a fraction or an exponent. -/
  float : Number→φ
  /-- A member is put into a dictionary. -/
  put : List (Data φ×Data φ)→Data φ→Data φ→List (Data φ×Data φ)

variable {φ : Type} (R : Reading φ)

mutual

/-- What a value stands for. -/
def Value.data : Value→Data φ
  | .null => .none
  | .bool b => .bool b
  | .number n => if n.isInt then .int n.intValue else .float (R.float n)
  | .string s => .str (R.string s)
  | .emptyArray _ => .list []
  | .array _ es => .list es.data
  | .emptyObject _ => .dict []
  | .object _ ms => .dict (ms.data [])

/-- What elements stand for. -/
def Elements.data : Elements→List (Data φ)
  | .last v _ => [v.data]
  | .more v _ _ es => v.data::es.data

/-- What members add to a dictionary. -/
def Members.data : Members→List (Data φ×Data φ)→List (Data φ×Data φ)
  | .last k _ _ v _,pairs => R.put pairs (.str (R.string k)) v.data
  | .more k _ _ v _ _ ms,pairs => ms.data (R.put pairs (.str (R.string k)) v.data)

end

/-- A pair of surrogates stands next to each other. -/
def isPair (h l : ℕ) : Bool := 0xD800≤h&&h<0xDC00&&(0xDC00≤l&&l<0xE000)

/-- The character of a pair of surrogates. -/
def pairValue (h l : ℕ) : ℕ := 0x10000+(h-0xD800)*1024+(l-0xDC00)

/-- What a piece stands for by itself. -/
def Piece.bytes : Piece→List UInt8
  | .plain b _ => [b]
  | .escape e => [e.value]
  | .unicode d₁ d₂ d₃ d₄ => (ofCode (codeUnit d₁ d₂ d₃ d₄)).bytes

/-- The bytes of a string in which every piece stands for itself. -/
def decodeUnits (s : List Piece) : List UInt8 := s.flatMap Piece.bytes

/-- The bytes of a string, where a pair of surrogates is one character. -/
def decode : List Piece→List UInt8
  | .unicode d₁ d₂ d₃ d₄::.unicode e₁ e₂ e₃ e₄::s =>
    if isPair (codeUnit d₁ d₂ d₃ d₄) (codeUnit e₁ e₂ e₃ e₄) then
      (ofCode (pairValue (codeUnit d₁ d₂ d₃ d₄) (codeUnit e₁ e₂ e₃ e₄))).bytes++decode s
    else (ofCode (codeUnit d₁ d₂ d₃ d₄)).bytes++decode (.unicode e₁ e₂ e₃ e₄::s)
  | p::s => p.bytes++decode s
  | [] => []

/-- A string holds an escaped pair of surrogates. -/
def hasPair : List Piece→Bool
  | .unicode d₁ d₂ d₃ d₄::.unicode e₁ e₂ e₃ e₄::s =>
    isPair (codeUnit d₁ d₂ d₃ d₄) (codeUnit e₁ e₂ e₃ e₄)||hasPair (.unicode e₁ e₂ e₃ e₄::s)
  | _::s => hasPair s
  | [] => false

mutual

/-- No number has a plus sign in its exponent. -/
def Value.noPlus : Value→Prop
  | .number n => n.hasPlus=false
  | .array _ es => es.noPlus
  | .object _ ms => ms.noPlus
  | _ => True

/-- No number has a plus sign in its exponent. -/
def Elements.noPlus : Elements→Prop
  | .last v _ => v.noPlus
  | .more v _ _ es => v.noPlus∧es.noPlus

/-- No number has a plus sign in its exponent. -/
def Members.noPlus : Members→Prop
  | .last _ _ _ v _ => v.noPlus
  | .more _ _ _ v _ _ ms => v.noPlus∧ms.noPlus

end

mutual

/-- No string holds an escaped pair of surrogates. -/
def Value.noPair : Value→Prop
  | .string s => hasPair s=false
  | .array _ es => es.noPair
  | .object _ ms => ms.noPair
  | _ => True

/-- No string holds an escaped pair of surrogates. -/
def Elements.noPair : Elements→Prop
  | .last v _ => v.noPair
  | .more v _ _ es => v.noPair∧es.noPair

/-- No string holds an escaped pair of surrogates. -/
def Members.noPair : Members→Prop
  | .last k _ _ v _ => hasPair k=false∧v.noPair
  | .more k _ _ v _ _ ms => (hasPair k=false∧v.noPair)∧ms.noPair

end

/-- The names of members, as a reading has them. -/
def Members.names : Members→List (List UInt8)
  | .last k _ _ _ _ => [R.string k]
  | .more k _ _ _ _ _ ms => R.string k::ms.names

mutual

/-- No object has two members of one name. -/
def Value.Unique : Value→Prop
  | .array _ es => es.Unique
  | .object _ ms => (ms.names R).Nodup∧ms.Unique
  | _ => True

/-- No object has two members of one name. -/
def Elements.Unique : Elements→Prop
  | .last v _ => v.Unique
  | .more v _ _ es => v.Unique∧es.Unique

/-- No object has two members of one name. -/
def Members.Unique : Members→Prop
  | .last _ _ _ v _ => v.Unique
  | .more _ _ _ v _ _ ms => v.Unique∧ms.Unique

end

/-- A text: an array or an object with whitespace around it. -/
structure Text where
  before : Ws
  /-- The array or object. -/
  value : Value
  /-- It is an array or an object. -/
  compound : value.text.head?=some 91∨value.text.head?=some 123
  after : Ws

/-- The bytes of a text. -/
def Text.text (t : Text) : List UInt8 := t.before.text++(t.value.text++t.after.text)

/-! ## Pairs of surrogates -/

theorem length_surrogate {n : ℕ} (hlow : 0xD800≤n) (hhigh : n<0xE000) :
    (ofCode n).bytes.length=3 := by
  rw [ofCode,dif_neg (by omega),if_neg (by omega),if_pos (by omega)]
  rfl

theorem length_large {v : ℕ} (h : 0x10000≤v) : (ofCode v).bytes.length=4 := by
  rw [ofCode,dif_neg (by omega),if_neg (by omega),if_neg (by omega)]
  rfl

theorem length_pairValue (h l : ℕ) : (ofCode (pairValue h l)).bytes.length=4 := by
  refine length_large ?_
  unfold pairValue
  omega

theorem isPair_iff {h l : ℕ} : isPair h l=true↔(0xD800≤h∧h<0xDC00)∧0xDC00≤l∧l<0xE000 := by
  rw [isPair,Bool.and_eq_true,Bool.and_eq_true,Bool.and_eq_true,decide_eq_true_iff,
    decide_eq_true_iff,decide_eq_true_iff,decide_eq_true_iff]

/-- A string in front of which a piece stands. -/
theorem decodeUnits_cons (p : Piece) (s : List Piece) :
    decodeUnits (p::s)=p.bytes++decodeUnits s := flatMap_cons

/-- Pairs that are one character make a string shorter. -/
theorem decode_length (s : List Piece) : (decode s).length≤(decodeUnits s).length∧
    (hasPair s=true → (decode s).length<(decodeUnits s).length) := by
  fun_induction decode s with
  | case1 d₁ d₂ d₃ d₄ e₁ e₂ e₃ e₄ s hpair ih =>
    have hcases := isPair_iff.mp hpair
    have hlt : (decode s).length+4<3+(3+(decodeUnits s).length) := by omega
    rw [decodeUnits_cons,decodeUnits_cons,length_append,length_append,
      length_append,length_pairValue,Piece.bytes,Piece.bytes,
      length_surrogate hcases.1.1 (by omega),length_surrogate (by omega) hcases.2.2]
    exact ⟨Nat.le_of_lt (Nat.lt_of_le_of_lt (Nat.add_comm _ _).le hlt),
      fun _ => Nat.lt_of_le_of_lt (Nat.add_comm _ _).le hlt⟩
  | case2 d₁ d₂ d₃ d₄ e₁ e₂ e₃ e₄ s hpair ih =>
    rw [decodeUnits_cons,length_append,length_append,Piece.bytes,hasPair,
      Bool.of_not_eq_true hpair,Bool.false_or]
    exact ⟨by omega,fun h => by have hlt := ih.2 h; omega⟩
  | case3 p s hp ih =>
    rw [decodeUnits_cons,length_append,length_append]
    refine ⟨by omega,fun h => ?_⟩
    have hlt := ih.2 (by rwa [hasPair] at h; exact hp)
    omega
  | case4 => exact ⟨Nat.le_refl _,fun h => nomatch h⟩

/-- Strings without pairs are read the same in both ways. -/
theorem decode_of_hasPair {s : List Piece} (h : hasPair s=false) : decode s=decodeUnits s := by
  fun_induction decode s with
  | case1 d₁ d₂ d₃ d₄ e₁ e₂ e₃ e₄ s hpair ih =>
    rw [hasPair,hpair] at h
    cases h
  | case2 d₁ d₂ d₃ d₄ e₁ e₂ e₃ e₄ s hpair ih =>
    rw [hasPair,Bool.or_eq_false_iff] at h
    rw [ih h.2,decodeUnits_cons (.unicode d₁ d₂ d₃ d₄),Piece.bytes]
  | case3 p s hp ih =>
    rw [decodeUnits_cons,ih (by rwa [hasPair] at h; exact hp)]
  | case4 => rfl

theorem decode_eq_iff (s : List Piece) : decode s=decodeUnits s↔hasPair s=false := by
  refine ⟨fun h => Bool.of_not_eq_true fun hpair => ?_,decode_of_hasPair⟩
  have hlt := (decode_length s).2 hpair
  rw [h] at hlt
  exact Nat.lt_irrefl _ hlt

section readings

variable (float : Number→φ) (put : List (Data φ×Data φ)→Data φ→Data φ→List (Data φ×Data φ))

/-- The reading in which a pair of surrogates is one character. -/
def paired : Reading φ := ⟨decode,float,put⟩

/-- The reading in which every piece of a string stands for itself. -/
def single : Reading φ := ⟨decodeUnits,float,put⟩

mutual

/-- Without pairs both readings give the same. -/
theorem value_data_eq (v : Value) (h : v.noPair) :
    v.data (paired float put)=v.data (single float put) := by
  cases v with
  | null => rfl
  | bool b => rfl
  | number n => rfl
  | string s => exact congrArg Data.str (decode_of_hasPair h)
  | emptyArray w => rfl
  | array w es => exact congrArg Data.list (elements_data_eq es h)
  | emptyObject w => rfl
  | object w ms => exact congrArg Data.dict (members_data_eq ms h [])

/-- Without pairs both readings give the same elements. -/
theorem elements_data_eq (es : Elements) (h : es.noPair) :
    es.data (paired float put)=es.data (single float put) := by
  cases es with
  | last v w => exact congrArg (fun d => [d]) (value_data_eq v h)
  | more v w w' es =>
    rw [Elements.data,value_data_eq v h.1,elements_data_eq es h.2]
    rfl

/-- Without pairs both readings give the same members. -/
theorem members_data_eq (ms : Members) (h : ms.noPair) (pairs : List (Data φ×Data φ)) :
    ms.data (paired float put) pairs=ms.data (single float put) pairs := by
  cases ms with
  | last k w₁ w₂ v w₃ =>
    have hk : (paired float put).string k=(single float put).string k := decode_of_hasPair h.1
    rw [Members.data,value_data_eq v h.2,hk]
    rfl
  | more k w₁ w₂ v w₃ w₄ ms =>
    have hk : (paired float put).string k=(single float put).string k :=
      decode_of_hasPair h.1.1
    rw [Members.data,value_data_eq v h.1.2,hk,members_data_eq ms h.2]
    rfl

end

/-- How members come to a dictionary: a new name goes to its end, another one replaces what
is there. -/
structure Puts (put : List (Data φ×Data φ)→Data φ→Data φ→List (Data φ×Data φ)) : Prop where
  /-- The dictionary grows at its end or keeps its length. -/
  cases : ∀ pairs k d,put pairs k d=pairs++[(k,d)]∨(put pairs k d).length=pairs.length
  /-- It grows with a new name. -/
  new : ∀ pairs s d,(∀ p∈pairs,∃ s',p.1=Data.str s'∧s'≠s) → put pairs (.str s) d=pairs++[(.str s,d)]

/-- The members themselves. -/
def Members.pairs (R : Reading φ) : Members→List (Data φ×Data φ)
  | .last k _ _ v _ => [(.str (R.string k),v.data R)]
  | .more k _ _ v _ _ ms => (.str (R.string k),v.data R)::ms.pairs R

variable {R : Reading φ}

/-- A dictionary grows by at most the members that are put into it. -/
theorem length_members_le (hput : Puts R.put) (ms : Members) (pairs : List (Data φ×Data φ)) :
    (ms.data R pairs).length≤pairs.length+(ms.pairs R).length := by
  cases ms with
  | last k w₁ w₂ v w₃ =>
    rw [Members.data,Members.pairs,length_singleton]
    rcases hput.cases pairs (.str (R.string k)) (v.data R) with h | h
    · rw [h,length_append,length_singleton]
    · omega
  | more k w₁ w₂ v w₃ w₄ ms =>
    have hrest := length_members_le hput ms (R.put pairs (.str (R.string k)) (v.data R))
    rw [Members.data,Members.pairs,length_cons]
    rcases hput.cases pairs (.str (R.string k)) (v.data R) with h | h
    · rw [h,length_append,length_singleton] at hrest
      rw [h]
      omega
    · omega

/-- A dictionary that grows by all members has them at its end. -/
theorem members_of_length (hput : Puts R.put) (ms : Members) (pairs : List (Data φ×Data φ))
    (h : (ms.data R pairs).length=pairs.length+(ms.pairs R).length) :
    ms.data R pairs=pairs++ms.pairs R := by
  cases ms with
  | last k w₁ w₂ v w₃ =>
    rw [Members.data,Members.pairs,length_singleton] at h
    rcases hput.cases pairs (.str (R.string k)) (v.data R) with hcase | hcase
    · exact hcase
    · omega
  | more k w₁ w₂ v w₃ w₄ ms =>
    have hle := length_members_le hput ms (R.put pairs (.str (R.string k)) (v.data R))
    rw [Members.data,Members.pairs,length_cons] at h
    rcases hput.cases pairs (.str (R.string k)) (v.data R) with hcase | hcase
    · rw [hcase] at h
      have hrest := members_of_length hput ms _ (by
        rw [h,length_append,length_singleton]
        omega)
      rw [Members.data,Members.pairs,hcase,hrest,append_assoc]
      rfl
    · omega

/-- Members with names of their own come to the end of a dictionary. -/
theorem members_of_nodup (hput : Puts R.put) (ms : Members) (pairs : List (Data φ×Data φ))
    (hpairs : ∀ p∈pairs,∃ s,p.1=Data.str s∧s∉ms.names R) (h : (ms.names R).Nodup) :
    ms.data R pairs=pairs++ms.pairs R := by
  cases ms with
  | last k w₁ w₂ v w₃ =>
    refine hput.new _ _ _ fun p hp => ?_
    obtain ⟨s,hs,hmem⟩ := hpairs p hp
    exact ⟨s,hs,fun heq => hmem (heq ▸ mem_singleton_self _)⟩
  | more k w₁ w₂ v w₃ w₄ ms =>
    obtain ⟨hk,hms⟩ := nodup_cons.mp h
    have hnew : R.put pairs (.str (R.string k)) (v.data R)=
        pairs++[(.str (R.string k),v.data R)] := by
      refine hput.new _ _ _ fun p hp => ?_
      obtain ⟨s,hs,hmem⟩ := hpairs p hp
      exact ⟨s,hs,fun heq => hmem (heq ▸ mem_cons_self)⟩
    rw [Members.data,hnew,members_of_nodup hput ms _ (fun p hp => ?_) hms,Members.pairs,
      append_assoc]
    · rfl
    · cases mem_append.mp hp with
      | inl hp =>
        obtain ⟨s,hs,hmem⟩ := hpairs p hp
        exact ⟨s,hs,fun hs' => hmem (mem_cons_of_mem _ hs')⟩
      | inr hp =>
        rw [mem_singleton.mp hp]
        exact ⟨_,rfl,hk⟩

/-- Both readings find as many members. -/
theorem length_pairs_eq (ms : Members) :
    (ms.pairs (paired float put)).length=(ms.pairs (single float put)).length := by
  cases ms with
  | last k w₁ w₂ v w₃ => rfl
  | more k w₁ w₂ v w₃ w₄ ms => exact congrArg (·+1) (length_pairs_eq ms)

mutual

/-- Where both readings give the same, there are no pairs. -/
theorem value_noPair (hput : Puts put) (v : Value) (hunique : v.Unique (paired float put))
    (h : v.data (paired float put)=v.data (single float put)) : v.noPair := by
  cases v with
  | null => trivial
  | bool b => trivial
  | number n => trivial
  | string s => exact (decode_eq_iff s).mp (Data.str.inj h)
  | emptyArray w => trivial
  | array w es => exact elements_noPair hput es hunique (Data.list.inj h)
  | emptyObject w => trivial
  | object w ms =>
    have hpaired := members_of_nodup (R:=paired float put) hput ms []
      (fun _ hp => nomatch hp) hunique.1
    have hlength : (ms.pairs (paired float put)).length=(ms.pairs (single float put)).length :=
      length_pairs_eq float put ms
    have heq := Data.dict.inj h
    rw [hpaired,nil_append] at heq
    have hsingle := members_of_length (R:=single float put) hput ms [] (by
      rw [←heq,hlength,length_nil,Nat.zero_add])
    rw [hsingle] at heq
    exact members_noPair hput ms hunique.2 heq

/-- Where both readings give the same elements, there are no pairs. -/
theorem elements_noPair (hput : Puts put) (es : Elements) (hunique : es.Unique (paired float put))
    (h : es.data (paired float put)=es.data (single float put)) : es.noPair := by
  cases es with
  | last v w => exact value_noPair hput v hunique (List.cons.inj h).1
  | more v w w' es =>
    obtain ⟨hv,hes⟩ := List.cons.inj h
    exact ⟨value_noPair hput v hunique.1 hv,elements_noPair hput es hunique.2 hes⟩

/-- Where both readings give the same members, there are no pairs. -/
theorem members_noPair (hput : Puts put) (ms : Members) (hunique : ms.Unique (paired float put))
    (h : ms.pairs (paired float put)=ms.pairs (single float put)) : ms.noPair := by
  cases ms with
  | last k w₁ w₂ v w₃ =>
    obtain ⟨hk,hv⟩ := Prod.mk.inj (List.cons.inj h).1
    exact ⟨(decode_eq_iff k).mp (Data.str.inj hk),value_noPair hput v hunique hv⟩
  | more k w₁ w₂ v w₃ w₄ ms =>
    obtain ⟨hkv,hms⟩ := List.cons.inj h
    obtain ⟨hk,hv⟩ := Prod.mk.inj hkv
    exact ⟨⟨(decode_eq_iff k).mp (Data.str.inj hk),value_noPair hput v hunique.1 hv⟩,
      members_noPair hput ms hunique.2 hms⟩

end

end readings

end MicroPython.JsonText
