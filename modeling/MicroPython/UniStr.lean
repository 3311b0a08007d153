import MicroPython.Unicode
import Mathlib.Data.List.Induction

/-!
# Strings of characters

`py/objstrunicode.c` finds characters in the bytes of a str by walking from the beginning or
from the end. The bytes of a str end with a zero byte that is not counted.
-/

namespace MicroPython.UniStr

open Nat List Utf8 Unicode

/-- The types of the exceptions that are raised here. -/
inductive ExcType
  /-- `mp_type_IndexError`. -/
  | indexError
  /-- `mp_type_OverflowError`. -/
  | overflowError
  /-- `mp_type_TypeError`. -/
  | typeError
  /-- `mp_type_NotImplementedError`. -/
  | notImplementedError
  /-- `mp_type_UnicodeError`. -/
  | unicodeError
deriving DecidableEq

/-- What happens instead of a result. -/
inductive Error
  | raised (type : ExcType) (msg : String)
  /-- A read after the zero byte at the end. -/
  | outside
deriving DecidableEq

/-- A pointer that is read, or the fault. -/
def readable {α : Type} : Option α→Except Error α
  | some a => .ok a
  | none => .error .outside

/-- An object where an index is expected. -/
inductive Obj
  /-- `mp_const_none`. -/
  | none
  /-- `mp_const_false` and `mp_const_true`. -/
  | bool (b : Bool)
  | smallInt (value : ℤ)
  /-- An object of `mp_type_int`. -/
  | bigInt (value : ℤ)
  | other (type : String)
deriving DecidableEq

/-- `mp_obj_get_type_str`. -/
def mpObjGetTypeStr : Obj→String
  | .none => "NoneType"
  | .bool _ => "bool"
  | .smallInt _ => "int"
  | .bigInt _ => "int"
  | .other type => type

/-- The error of `mp_obj_int_get_checked`. -/
def overflow : Error := .raised .overflowError "overflow converting long int to machine word"

/-- `mp_obj_int_get_checked` of an object of `mp_type_int`, where `mpz_as_int_checked` takes
a magnitude of one bit less than a machine word has. -/
def mpObjIntGetChecked (wordBits : ℕ) (value : ℤ) : Except Error ℤ :=
  if value.natAbs<2^(wordBits-1) then .ok value else .error overflow

/-- `mp_obj_get_int_maybe`. -/
def mpObjGetIntMaybe (wordBits : ℕ) : Obj→Except Error (Option ℤ)
  | .none => .ok none
  | .bool b => .ok (some (if b then 1 else 0))
  | .smallInt value => .ok (some value)
  | .bigInt value => (mpObjIntGetChecked wordBits value).map some
  | .other _ => .ok none

/-- The error of an index that is out of range. -/
def indexOutOfRange : Error := .raised .indexError "string index out of range"

/-- The walk of `str_index_to_ptr` from the beginning. -/
def walkForward (data : List UInt8) (isSlice : Bool) : ℕ→ℕ→Except Error ℕ
  | i,s =>
    if data.length ≤ s then
      if isSlice then .ok data.length else .error indexOutOfRange
    else
      match i with
      | 0 => .ok s
      | i+1 => do
        let s ← readable (utf8NextChar data s)
        walkForward data isSlice i s

/-- The walk of `str_index_to_ptr` from the end, over the bytes up to the pointer, the last
one first, with the number of characters to go. -/
def walkBackward (isSlice : Bool) : List UInt8→ℕ→Except Error ℕ
  | s,0 => .ok s.length
  | [],_+1 => if isSlice then .ok 0 else .error indexOutOfRange
  | c::s,i+1 => walkBackward isSlice s (if utf8IsCont c then i+1 else i)

/-- `str_index_to_ptr` for a str. -/
def strIndexToPtr (wordBits : ℕ) (data : List UInt8) (index : Obj) (isSlice : Bool) :
    Except Error ℕ := do
  match (← mpObjGetIntMaybe wordBits index) with
  | some i =>
    if i<0 then walkBackward isSlice data.reverse i.natAbs
    else walkForward data isSlice i.toNat 0
  | none => .error (.raised .typeError
      ("string indices must be integers, not "++mpObjGetTypeStr index))

/-- What stands in the brackets. -/
inductive Index
  | single (index : Obj)
  | slice (start stop step : Obj)

/-- The loop that counts the ones of a first byte after its first one, from the bit below
the given one on. -/
def countOnes : ℕ→UInt8→ℕ
  | 0,_ => 0
  | bit+1,c => if c.toNat&&&2^bit≠0 then countOnes bit c+1 else 0

/-- A new str of the bytes from a pointer on. -/
def newStr (data : List UInt8) (s len : ℕ) : Except Error (List UInt8) :=
  if s+len≤data.length+1 then .ok (((data++[0]).drop s).take len) else .error .outside

/-- A bound of a slice, with the pointer for None. -/
def slicePtr (wordBits : ℕ) (data : List UInt8) (bound : Obj) (default : ℕ) : Except Error ℕ :=
  if bound=.none then .ok default else strIndexToPtr wordBits data bound true

/-- `str_subscr` for a load. -/
def strSubscr (wordBits : ℕ) (data : List UInt8) : Index→Except Error (List UInt8)
  | .slice ostart ostop ostep =>
    if ostep≠.none∧ostep≠.smallInt 1 then
      .error (.raised .notImplementedError "only slices with step=1 (aka None) are supported")
    else do
      let pstart ← slicePtr wordBits data ostart 0
      let pstop ← slicePtr wordBits data ostop data.length
      if pstop<pstart then .ok [] else newStr data pstart (pstop-pstart)
  | .single index => do
    let s ← strIndexToPtr wordBits data index false
    match (data++[0])[s]? with
    | some c => newStr data s (if utf8IsNonascii c then 1+countOnes 7 c else 1)
    | none => .error .outside

/-- The operations of `uni_unary_op`. -/
inductive UnaryOp
  /-- `MP_UNARY_OP_BOOL`. -/
  | bool
  /-- `MP_UNARY_OP_LEN`. -/
  | len

/-- `uni_unary_op`. -/
def uniUnaryOp (data : List UInt8) : UnaryOp→Obj
  | .bool => .bool (decide (data.length≠0))
  | .len => .smallInt (unicharCharlen data)

/-- `str_it_iternext`: the next str and where the iterator goes on, or the end. -/
def strItIternext (data : List UInt8) (cur : ℕ) : Except Error (Option (List UInt8×ℕ)) :=
  if cur<data.length then do
    let stop ← readable (utf8NextChar data cur)
    let oOut ← newStr data cur (stop-cur)
    pure (some (oOut,stop))
  else .ok none

/-- `mp_obj_str_make_new` of bytes with an encoding. -/
def mpObjStrMakeNew (strData : List UInt8) : Except Error (List UInt8) :=
  if utf8Check strData then .ok strData else .error (.raised .unicodeError "")

/-- What a loop over an iterator gets, from where it stands. -/
inductive Iterates (data : List UInt8) : ℕ→List (List UInt8)→Prop
  | stop {cur : ℕ} (h : strItIternext data cur=.ok none) : Iterates data cur []
  | next {cur stop : ℕ} {oOut : List UInt8} {rest : List (List UInt8)}
      (h : strItIternext data cur=.ok (some (oOut,stop))) (hrest : Iterates data stop rest) :
      Iterates data cur (oOut::rest)

/-! ## Lists -/

variable {α β : Type}

/-- The element of a list at an index, counted from the end when it is negative. -/
def listIndex (xs : List α) (i : ℤ) : Option α :=
  if 0 ≤ i then xs[i.toNat]?
  else if i.natAbs≤xs.length then xs[xs.length-i.natAbs]?
  else none

/-- A bound of a slice in a list, kept between its ends. -/
def sliceBound (xs : List α) (i : ℤ) : ℕ :=
  if 0 ≤ i then min i.toNat xs.length else xs.length-i.natAbs

/-- The slice of a list between two bounds, or its ends. -/
def listSlice (xs : List α) (start stop : Option ℤ) : List α :=
  (xs.take (stop.elim xs.length (sliceBound xs))).drop (start.elim 0 (sliceBound xs))

/-! ## Walks -/

variable {wordBits : ℕ} {isSlice : Bool} {xs before after : List Character} {x : Character}

/-- What a walk gives that comes past the last character at an end. -/
def pastEnd (isSlice : Bool) (s : ℕ) : Except Error ℕ :=
  if isSlice then .ok s else .error indexOutOfRange

theorem walkForward_end {data : List UInt8} {s : ℕ} (h : data.length ≤ s) (i : ℕ) :
    walkForward data isSlice i s=pastEnd isSlice data.length := by
  cases i with
  | zero => rw [walkForward,if_pos h,pastEnd]
  | succ i => rw [walkForward,if_pos h,pastEnd]

/-- The walk from a character on. -/
theorem walkForward_text (after : List Character) : ∀ (before : List Character) (i : ℕ),
    walkForward (text (before++after)) isSlice i (text before).length=
      if i<after.length then .ok (text (before++after.take i)).length
      else pastEnd isSlice (text (before++after)).length := by
  induction after with
  | nil =>
    intro before i
    rw [append_nil,walkForward_end (le_refl _),length_nil,
      if_neg (not_lt_zero i)]
  | cons x after ih =>
    intro before i
    have hinside := not_le.mpr (@length_lt_text x before after)
    cases i with
    | zero =>
      rw [walkForward,if_neg hinside,length_cons,if_pos (succ_pos _),take_zero,append_nil]
    | succ i =>
      have hrest := ih (before++[x]) i
      rw [append_assoc,append_assoc,singleton_append,singleton_append] at hrest
      rw [walkForward,if_neg hinside,utf8NextChar_text]
      refine hrest.trans ?_
      rw [take_succ_cons,length_cons]
      by_cases hi : i<after.length
      · rw [if_pos hi,if_pos (succ_lt_succ hi)]
      · rw [if_neg hi,if_neg (fun h => hi (lt_of_succ_lt_succ h))]

theorem walkBackward_followers {l : List UInt8} (h : ∀ c∈l,isCont c=true) (s : List UInt8)
    (i : ℕ) : walkBackward isSlice (l++s) (i+1)=walkBackward isSlice s (i+1) := by
  induction l with
  | nil => rfl
  | cons c l ih =>
    obtain ⟨hc,hl⟩ := forall_mem_cons.mp h
    rw [cons_append,walkBackward,utf8IsCont_eq,hc,if_pos rfl]
    exact ih hl

theorem walkBackward_zero (s : List UInt8) : walkBackward isSlice s 0=.ok s.length := by
  cases s with
  | nil => rfl
  | cons c s => rfl

/-- The bytes of a text from behind. -/
theorem reverse_text_snoc (xs : List Character) (x : Character) :
    (text (xs++[x])).reverse=x.followers.reverse++x.lead::(text xs).reverse := by
  rw [text_append,text_cons,text_nil,append_nil,reverse_append,reverse_cons,
    append_assoc,singleton_append]

/-- The walk from the end. -/
theorem walkBackward_text (xs : List Character) : ∀ i,walkBackward isSlice (text xs).reverse i=
      if i≤xs.length then .ok (text (xs.take (xs.length-i))).length else pastEnd isSlice 0 := by
  induction xs using List.reverseRecOn with
  | nil =>
    intro i
    cases i with
    | zero => rfl
    | succ i =>
      rw [length_nil,if_neg (not_succ_le_zero i)]
      rfl
  | append_singleton xs x ih =>
    intro i
    cases i with
    | zero =>
      rw [walkBackward_zero,length_reverse,if_pos (Nat.zero_le _),Nat.sub_zero,take_length]
    | succ i =>
      have hfollowers : ∀ c∈x.followers.reverse,isCont c=true := fun c hc =>
        x.kind c (mem_reverse.mp hc)
      rw [reverse_text_snoc,walkBackward_followers hfollowers,walkBackward,utf8IsCont_eq,
        x.isCont_lead,if_neg Bool.false_ne_true,ih,length_append,length_singleton]
      by_cases hi : i≤xs.length
      · rw [if_pos hi,if_pos (Nat.succ_le_succ hi),Nat.add_sub_add_right,
          take_append_of_le_length (sub_le _ _)]
      · rw [if_neg hi,if_neg (fun h => hi (le_of_succ_le_succ h))]

/-! ## Subscripts -/

/-- The value of an object that is an integer. -/
def Obj.int : Obj→Option ℤ
  | .none => .none
  | .bool b => some (if b then 1 else 0)
  | .smallInt value => some value
  | .bigInt value => some value
  | .other _ => .none

/-- An integer that a machine word does not hold. -/
def Obj.Overflows (wordBits : ℕ) : Obj→Prop
  | .bigInt value => 2^(wordBits-1)≤value.natAbs
  | _ => False

variable {obj : Obj}

/-- An integer is read as it is unless it does not fit. -/
theorem mpObjGetIntMaybe_fits {v : ℤ} (hint : obj.int=some v)
    (hfits : ¬obj.Overflows wordBits) : mpObjGetIntMaybe wordBits obj=.ok (some v) := by
  cases obj with
  | none => cases hint
  | bool b => exact congrArg Except.ok hint
  | smallInt value => exact congrArg Except.ok hint
  | bigInt value =>
    cases hint
    rw [mpObjGetIntMaybe,mpObjIntGetChecked,if_pos (not_le.mp hfits)]
    rfl
  | other type => cases hint

theorem mpObjGetIntMaybe_overflows (hover : obj.Overflows wordBits) :
    mpObjGetIntMaybe wordBits obj=.error overflow := by
  cases obj with
  | bigInt value =>
    rw [mpObjGetIntMaybe,mpObjIntGetChecked,if_neg (Nat.not_lt.mpr hover)]
    rfl
  | _ => cases hover

/-- The pointer to an index in a slice. -/
theorem strIndexToPtr_slice {v : ℤ} (hint : obj.int=some v) (hfits : ¬obj.Overflows wordBits) :
    strIndexToPtr wordBits (text xs) obj true= .ok (text (xs.take (sliceBound xs v))).length := by
  rw [strIndexToPtr,mpObjGetIntMaybe_fits hint hfits]
  show (if v<0 then walkBackward true (text xs).reverse v.natAbs
    else walkForward (text xs) true v.toNat 0)=_
  rw [sliceBound]
  by_cases hneg : v<0
  · rw [if_pos hneg,if_neg (Int.not_le.mpr hneg),walkBackward_text]
    by_cases hle : v.natAbs≤xs.length
    · rw [if_pos hle]
    · rw [if_neg hle,Nat.sub_eq_zero_of_le (Nat.le_of_not_le hle)]
      rfl
  · have hwalk := @walkForward_text true xs [] v.toNat
    rw [nil_append,nil_append] at hwalk
    rw [if_neg hneg,if_pos (Int.not_lt.mp hneg)]
    refine hwalk.trans ?_
    by_cases hlt : v.toNat<xs.length
    · rw [if_pos hlt,Nat.min_eq_left (le_of_lt hlt)]
    · rw [if_neg hlt,min_eq_right (Nat.not_lt.mp hlt),take_length]
      rfl

/-- The pointer to an index that is in range. -/
theorem strIndexToPtr_single {v : ℤ} (hint : obj.int=some v)
    (hfits : ¬obj.Overflows wordBits) (hx : listIndex xs v=some x) :
    ∃ before after,xs=before++x::after∧
      strIndexToPtr wordBits (text xs) obj false=.ok (text before).length := by
  have hcut : ∀ {k},xs[k]?=some x → xs=xs.take k++x::xs.drop (k+1) := by
    intro k hk
    obtain ⟨hlt,hget⟩ := List.getElem?_eq_some_iff.mp hk
    rw [←hget,←drop_eq_getElem_cons hlt,take_append_drop]
  rw [strIndexToPtr,mpObjGetIntMaybe_fits hint hfits]
  show ∃ before after,xs=before++x::after∧(if v<0 then walkBackward false (text xs).reverse v.natAbs
      else walkForward (text xs) false v.toNat 0)=_
  rw [listIndex] at hx
  by_cases hneg : v<0
  · rw [if_neg (Int.not_le.mpr hneg)] at hx
    by_cases hle : v.natAbs≤xs.length
    · rw [if_pos hle] at hx
      refine ⟨_,_,hcut hx,?_⟩
      rw [if_pos hneg,walkBackward_text,if_pos hle]
    · rw [if_neg hle] at hx
      cases hx
  · rw [if_pos (Int.not_lt.mp hneg)] at hx
    refine ⟨_,_,hcut hx,?_⟩
    have hwalk := @walkForward_text false xs [] v.toNat
    have hlt := (List.getElem?_eq_some_iff.mp hx).1
    rw [nil_append,nil_append,if_pos hlt] at hwalk
    rw [if_neg hneg]
    exact hwalk

/-- An index that is out of range is an error. -/
theorem strIndexToPtr_outOfRange {v : ℤ} (hint : obj.int=some v)
    (hfits : ¬obj.Overflows wordBits) (hx : listIndex xs v=none) :
    strIndexToPtr wordBits (text xs) obj false=.error indexOutOfRange := by
  rw [strIndexToPtr,mpObjGetIntMaybe_fits hint hfits]
  show (if v<0 then walkBackward false (text xs).reverse v.natAbs
    else walkForward (text xs) false v.toNat 0)=_
  rw [listIndex] at hx
  by_cases hneg : v<0
  · rw [if_neg (Int.not_le.mpr hneg)] at hx
    by_cases hle : v.natAbs≤xs.length
    · rw [if_pos hle,List.getElem?_eq_none_iff] at hx
      omega
    · rw [if_pos hneg,walkBackward_text,if_neg hle]
      rfl
  · rw [if_pos (Int.not_lt.mp hneg)] at hx
    have hwalk := @walkForward_text false xs [] v.toNat
    rw [nil_append,nil_append,
      if_neg (Nat.not_lt.mpr (List.getElem?_eq_none_iff.mp hx))] at hwalk
    rw [if_neg hneg]
    exact hwalk

/-- The bytes in the middle of a text. -/
theorem newStr_text (before between after : List Character) :
    newStr (text (before++(between++after))) (text before).length (text between).length=
      .ok (text between) := by
  rw [newStr,text_append,text_append,if_pos]
  · rw [append_assoc,drop_left,append_assoc,take_left]
  · rw [length_append,length_append]
    omega

/-- The ones after the first in a first byte. -/
theorem countOnes_eq {c : UInt8} (hlow : 0xC0≤c.toNat) (hhigh : c.toNat<0xF8) :
    announced c=some (countOnes 7 c) := by
  revert hlow hhigh
  refine forall_byte (p := fun c => 0xC0≤c.toNat → c.toNat<0xF8→
    announced c=some (countOnes 7 c)) ?_ c
  decide +kernel

/-- How many bytes a str of one character has. -/
theorem charBytes_eq (x : Character) :
    (if utf8IsNonascii x.lead then 1+countOnes 7 x.lead else 1)=x.bytes.length := by
  rw [utf8IsNonascii_eq,Sequence.bytes,length_cons]
  rcases lead_cases x with ⟨hascii,hnone⟩ | ⟨hlow,hhigh⟩
  · rw [if_neg (fun h => not_le.mpr hascii (of_decide_eq_true h)),hnone]
    rfl
  · have hlength := x.complete.symm.trans (countOnes_eq hlow hhigh)
    rw [if_pos (decide_eq_true (by omega)),Option.some.inj hlength,add_comm]

/-- The character at an index. -/
theorem strSubscr_single {v : ℤ} (hint : obj.int=some v) (hfits : ¬obj.Overflows wordBits) :
    strSubscr wordBits (text xs) (.single obj)=
      match listIndex xs v with
      | some x => .ok x.bytes
      | none => .error indexOutOfRange := by
  rw [strSubscr]
  cases hx : listIndex xs v with
  | none =>
    rw [strIndexToPtr_outOfRange hint hfits hx]
    rfl
  | some x =>
    obtain ⟨before,after,hxs,hptr⟩ := strIndexToPtr_single hint hfits hx
    have hlead : (text xs++[0])[(text before).length]?=some x.lead := by
      rw [hxs,text_append,append_assoc,List.getElem?_append_right (le_refl _),
        Nat.sub_self,text_cons]
      rfl
    rw [hptr]
    show (match (text xs++[0])[(text before).length]? with
      | some c => newStr (text xs) (text before).length
          (if utf8IsNonascii c then 1+countOnes 7 c else 1)
      | none => .error .outside)=_
    rw [hlead]
    dsimp only
    have hbytes : x.bytes=text [x] := by rw [text_cons,text_nil,append_nil]; rfl
    rw [charBytes_eq,hbytes,hxs]
    exact newStr_text before [x] after

/-- None or an integer. -/
def Obj.IsBound (obj : Obj) : Prop := obj=.none∨obj.int≠.none

theorem slicePtr_text (hbound : obj.IsBound) (hfits : ¬obj.Overflows wordBits) (default : ℕ) :
    slicePtr wordBits (text xs) obj (text (xs.take default)).length=
      .ok (text (xs.take (obj.int.elim default (sliceBound xs)))).length := by
  rw [slicePtr]
  by_cases hnone : obj=.none
  · rw [if_pos hnone,hnone]
    rfl
  · obtain ⟨v,hint⟩ := Option.ne_none_iff_exists'.mp (hbound.resolve_left hnone)
    rw [if_neg hnone,strIndexToPtr_slice hint hfits,hint]
    rfl

theorem length_text_take_le (xs : List Character) (n : ℕ) :
    (text (xs.take n)).length≤(text xs).length := by
  conv_rhs => rw [←take_append_drop n xs,text_append,length_append]
  exact Nat.le_add_right _ _

/-- The bytes between two characters of a text. -/
theorem newStr_slice (xs : List Character) (start stop : ℕ) :
    (if (text (xs.take stop)).length<(text (xs.take start)).length then .ok []
      else newStr (text xs) (text (xs.take start)).length
        ((text (xs.take stop)).length-(text (xs.take start)).length))=
      .ok (text ((xs.take stop).drop start)) := by
  by_cases hle : start ≤ stop
  · have hcut : xs.take stop=xs.take start++(xs.take stop).drop start := by
      have htake : (xs.take stop).take start=xs.take start := by
        rw [take_take,Nat.min_eq_left hle]
      rw [←htake,take_append_drop]
    have hlength : (text (xs.take stop)).length=
        (text (xs.take start)).length+(text ((xs.take stop).drop start)).length := by
      conv_lhs => rw [hcut]
      rw [text_append,length_append]
    have hxs : xs=xs.take start++((xs.take stop).drop start++xs.drop stop) := by
      rw [←append_assoc,←hcut,take_append_drop]
    rw [hlength,if_neg (Nat.not_lt.mpr (Nat.le_add_right _ _)),Nat.add_sub_cancel_left]
    have hstr := newStr_text (xs.take start) ((xs.take stop).drop start) (xs.drop stop)
    rw [←hxs] at hstr
    exact hstr
  · have hempty : (xs.take stop).drop start=[] :=
      drop_eq_nil_of_le (Nat.le_trans (length_take_le _ _) (Nat.le_of_not_le hle))
    have hshort : (text (xs.take stop)).length≤(text (xs.take start)).length := by
      have htake := length_text_take_le (xs.take start) stop
      rwa [take_take,Nat.min_eq_left (Nat.le_of_not_le hle)] at htake
    rw [hempty]
    split
    · rfl
    · have hinside : (text (xs.take start)).length+0≤(text xs).length+1 :=
        le_succ_of_le (length_text_take_le xs start)
      rw [newStr,Nat.sub_eq_zero_of_le hshort,if_pos hinside,take_zero]
      rfl

/-- The characters between two bounds. -/
theorem strSubscr_slice {start stop step : Obj} (hstart : start.IsBound) (hstop : stop.IsBound)
    (hstartFits : ¬start.Overflows wordBits) (hstopFits : ¬stop.Overflows wordBits)
    (hstep : step=.none∨step=.smallInt 1) :
    strSubscr wordBits (text xs) (.slice start stop step)=
      .ok (text (listSlice xs start.int stop.int)) := by
  have hfirst := @slicePtr_text wordBits xs start hstart hstartFits 0
  have hlast := @slicePtr_text wordBits xs stop hstop hstopFits xs.length
  rw [take_zero,text_nil,length_nil] at hfirst
  rw [take_length] at hlast
  rw [strSubscr,if_neg (fun h => hstep.elim h.1 h.2),hfirst,hlast]
  exact newStr_slice xs _ _

/-! ## Iteration -/

/-- The next character of an iteration. -/
theorem strItIternext_text : strItIternext (text (before++x::after)) (text before).length=
      .ok (some (x.bytes,(text (before++[x])).length)) := by
  have hlength : (text (before++[x])).length-(text before).length=(text [x]).length := by
    rw [text_append,length_append,Nat.add_sub_cancel_left]
  have hbytes : text [x]=x.bytes := by
    rw [text_cons,text_nil,append_nil]
    rfl
  have hstr := newStr_text before [x] after
  rw [hbytes] at hstr hlength
  rw [strItIternext,if_pos length_lt_text,utf8NextChar_text]
  show (do
    let oOut ← newStr (text (before++x::after)) (text before).length
      ((text (before++[x])).length-(text before).length)
    pure (some (oOut,(text (before++[x])).length)))=_
  rw [hlength]
  exact congrArg (·>>=_) hstr

theorem iterates_text (after : List Character) : ∀ before : List Character,
    Iterates (text (before++after)) (text before).length (after.map Sequence.bytes) := by
  induction after with
  | nil =>
    intro before
    rw [append_nil]
    exact .stop (if_neg (lt_irrefl _))
  | cons x after ih =>
    intro before
    have hrest := ih (before++[x])
    rw [append_assoc,singleton_append] at hrest
    exact .next strItIternext_text hrest

/-! ## Strings as lists -/

/-- A str is used like the list of its characters. -/
structure LikeList (wordBits : ℕ) (data : List UInt8) (xs : List Character) : Prop where
  len : uniUnaryOp data .len=.smallInt xs.length
  /-- A loop gets each character once, in order. -/
  iterates : Iterates data 0 (xs.map Sequence.bytes)
  index {obj : Obj} {v : ℤ} : obj.int=some v → ¬obj.Overflows wordBits →
    strSubscr wordBits data (.single obj)=
      match listIndex xs v with
      | some x => .ok x.bytes
      | none => .error indexOutOfRange
  /-- A slice gets the characters between the bounds. -/
  slice {start stop step : Obj} : start.IsBound → stop.IsBound → ¬start.Overflows wordBits →
    ¬stop.Overflows wordBits → step=.none∨step=.smallInt 1 →
    strSubscr wordBits data (.slice start stop step)= .ok (text (listSlice xs start.int stop.int))

theorem likeList_text (wordBits : ℕ) (xs : List Character) : LikeList wordBits (text xs) xs where
  len := congrArg (fun n : ℕ => Obj.smallInt n) (unicharCharlen_text xs)
  iterates := iterates_text xs []
  index := strSubscr_single
  slice := strSubscr_slice

/-- A str of scalar values is used like the list of them. -/
structure LikeChars (wordBits : ℕ) (cs : List Char) : Prop where
  /-- As long as the list. -/
  len : uniUnaryOp (encode cs) .len=.smallInt cs.length
  /-- A loop gets the str of each once, in order. -/
  iterates : Iterates (encode cs) 0 (cs.map fun c => encode [c])
  /-- An index gets the str of the element at the index. -/
  index {obj : Obj} {v : ℤ} : obj.int=some v → ¬obj.Overflows wordBits →
    strSubscr wordBits (encode cs) (.single obj)=
      match listIndex cs v with
      | some c => .ok (encode [c])
      | none => .error indexOutOfRange
  /-- An index that a machine word does not hold is reported as such. -/
  indexOverflows {obj : Obj} : obj.Overflows wordBits →
    strSubscr wordBits (encode cs) (.single obj)=.error overflow
  /-- A slice gets the str of the elements between the bounds. -/
  slice {start stop step : Obj} : start.IsBound → stop.IsBound → ¬start.Overflows wordBits →
    ¬stop.Overflows wordBits → step=.none∨step=.smallInt 1 →
    strSubscr wordBits (encode cs) (.slice start stop step)=
      .ok (encode (listSlice cs start.int stop.int))
  /-- A bound that a machine word does not hold is reported as such. -/
  sliceOverflows {start stop step : Obj} : start.IsBound → stop.IsBound →
    start.Overflows wordBits∨stop.Overflows wordBits → step=.none∨step=.smallInt 1 →
    strSubscr wordBits (encode cs) (.slice start stop step)=.error overflow

theorem listIndex_map (f : α→β) (xs : List α) (v : ℤ) :
    listIndex (xs.map f) v=(listIndex xs v).map f := by
  rw [listIndex,listIndex,length_map,List.getElem?_map,List.getElem?_map]
  split_ifs
  · rfl
  · rfl
  · rfl

theorem listSlice_map (f : α→β) (xs : List α) (start stop : Option ℤ) :
    listSlice (xs.map f) start stop=(listSlice xs start stop).map f := by
  have hbound : sliceBound (xs.map f)=sliceBound xs := by
    funext v
    rw [sliceBound,sliceBound,length_map]
  rw [listSlice,listSlice,hbound,length_map,map_drop,map_take]

/-- The bytes of one scalar value. -/
theorem bytes_eq_encode (c : Char) : (ofChar c).bytes=encode [c] :=
  (append_nil _).symm

/-- A bound that does not fit is an integer. -/
theorem ne_none_of_overflows (h : obj.Overflows wordBits) : obj≠.none := by
  rintro rfl
  exact h

/-- A bound that does not fit. -/
theorem slicePtr_overflows (h : obj.Overflows wordBits) (data : List UInt8)
    (default : ℕ) : slicePtr wordBits data obj default=.error overflow := by
  rw [slicePtr,if_neg (ne_none_of_overflows h),strIndexToPtr,mpObjGetIntMaybe_overflows h]
  rfl

/-- A str that is made from bytes consists of characters, and is used like the list of
them. -/
theorem made_likeList_iff (wordBits : ℕ) (strData : List UInt8) :
    (∀ data,mpObjStrMakeNew strData=.ok data → ∃ xs : List Character,data=text xs∧
      LikeList wordBits data xs∧∀ before x after,xs=before++x::after →
        utf8GetChar data (text before).length=some (code x)∧
        utf8NextChar data (text before).length=some (text (before++[x])).length∧
        utf8PtrToIndex data (text before).length=before.length)↔
      ¬LeadAmongFollowers strData := by
  constructor
  · intro h hlead
    have hmade : mpObjStrMakeNew strData=.ok strData := by
      rw [mpObjStrMakeNew,if_pos hlead.accepted]
    obtain ⟨xs,hxs,_⟩ := h strData hmade
    exact (characters_iff hlead.accepted).mp ⟨xs,hxs⟩ hlead
  · intro hlead data hmade
    rw [mpObjStrMakeNew] at hmade
    split at hmade
    case isTrue haccepted =>
      cases hmade
      obtain ⟨xs,hxs⟩ := (characters_iff haccepted).mpr hlead
      refine ⟨xs,hxs,hxs ▸ likeList_text wordBits xs,fun before x after hcut => ?_⟩
      rw [hxs,hcut]
      exact ⟨utf8GetChar_text,utf8NextChar_text,utf8PtrToIndex_text⟩
    case isFalse => cases hmade

/-- Four first bytes of four bytes each are accepted, and the character at the last index is
read past the end. -/
theorem not_made_likeList : mpObjStrMakeNew [0xF0,0xF0,0xF0,0xF0]=.ok [0xF0,0xF0,0xF0,0xF0]∧
      strSubscr 32 [0xF0,0xF0,0xF0,0xF0] (.single (.smallInt 3))=.error .outside∧
      ¬∀ strData data,mpObjStrMakeNew strData=.ok data → ∃ xs : List Character,data=text xs := by
  refine ⟨by decide,by decide,fun h => ?_⟩
  obtain ⟨xs,hxs⟩ := h [0xF0,0xF0,0xF0,0xF0] [0xF0,0xF0,0xF0,0xF0] (by decide)
  obtain ⟨n,hn,followers,ys,hl,hlength,hkind⟩ := exists_text_cons.mp ⟨xs,hxs⟩
  cases hn
  cases followers with
  | nil => cases hlength
  | cons d followers =>
    have hd := hkind d List.mem_cons_self
    rw [←(List.cons.inj hl).1] at hd
    cases hd

end MicroPython.UniStr
