import Mathlib.Algebra.Group.Nat.Defs
import Mathlib.Data.List.GetD

/-!
# Paths and names of files

`codey_utils.c` and the file receiver of the neurons each have a function for the path and
one for the name in a full file name. They look for the last separator from the end on, with
an unsigned index that is never below zero.
-/

namespace MicroPython.PathSplit

open Nat List

/-- `SIZE_MAX` -/
def sizeMax : ℕ := 2^32-1

/-- The separator `/`. -/
def separator : UInt8 := 0x2F

/-- A string that ends with a zero, which is not among its bytes. -/
structure CString where
  /-- The bytes before the zero. -/
  bytes : List UInt8
  ne_zero : ∀ c∈bytes,c≠0
  /-- The string and its zero are in memory, which has no more than `SIZE_MAX` other bytes. -/
  lt_sizeMax : bytes.length < sizeMax

/-- An access outside of the memory of a string. -/
inductive Fault where
  | read
  | write
  deriving DecidableEq

/-- A byte of a string or its zero. -/
def CString.read (s : CString) (i : ℕ) : Except Fault UInt8 :=
  if i ≤ s.bytes.length then .ok (s.bytes.getD i 0) else .error .read

/-- A `size_t` decremented. -/
def decrement (i : ℕ) : ℕ := (i+sizeMax)%(sizeMax+1)

/-- The loop over `check_idx`. Its condition `check_idx >= 0` is always true, and below zero
comes `SIZE_MAX`, where no string is. -/
def checkLoop (s : CString) : ℕ→Except Fault ℕ
  | 0 => do
    let c ← s.read 0
    if c=separator then .ok 0 else .error .read
  | i+1 => do
    let c ← s.read (i+1)
    if c=separator then .ok (i+1) else checkLoop s i

/-- Bytes of a string copied to memory of a size, with a zero behind them. -/
def copied (size : ℕ) (s : CString) (start n : ℕ) : Except Fault (List UInt8) :=
  if s.bytes.length+1 < start+n then .error .read
  else if size < n+1 then .error .write
  else .ok ((s.bytes.drop start).take n)

/-- The path, when `malloc` has memory for it. -/
def pathOf (malloc : Bool) (s : CString) : Except Fault (Option (List UInt8)) := do
  let checkIdx ← checkLoop s (decrement s.bytes.length)
  if malloc then do
    let path ← copied (checkIdx+1+1) s 0 checkIdx
    .ok (some path)
  else .ok none

/-- The name, when `malloc` has memory for it. -/
def nameOf (malloc : Bool) (s : CString) : Except Fault (Option (List UInt8)) := do
  let len := s.bytes.length
  let checkIdx ← checkLoop s (decrement len)
  if malloc then do
    let name ← copied (len-checkIdx) s (checkIdx+1) (len-checkIdx-1)
    .ok (some name)
  else .ok none

/-- `get_path_from_full_file_name` of the file receiver. -/
def getPathFromFullFileName := pathOf

/-- `get_name_from_full_file_name` of the file receiver. -/
def getNameFromFullFileName := nameOf

/-- `codey_get_path_from_full_file_name` -/
def codeyGetPathFromFullFileName := pathOf

/-- `codey_get_name_from_full_file_name` -/
def codeyGetNameFromFullFileName := nameOf

variable {s : CString} {front back : List UInt8}

theorem read_of_lt {i : ℕ} (h : i < s.bytes.length) : s.read i=.ok (s.bytes.getD i 0) :=
  if_pos (Nat.le_of_lt h)

/-- The loop ends at a separator that only other bytes follow. -/
theorem checkLoop_found (h : s.bytes=front++separator::back) (hback : separator∉back)
    (n : ℕ) (hn : n≤back.length) : checkLoop s (front.length+n)=.ok front.length := by
  have hlen : s.bytes.length=front.length+back.length+1 := by
    rw [h,length_append,length_cons,Nat.add_assoc]
  have hsep : s.bytes.getD front.length 0=separator := by
    rw [h,getD_append_right _ _ _ _ (Nat.le_refl _),Nat.sub_self]
    rfl
  induction n with
  | zero =>
    have hread := @read_of_lt s front.length (by omega)
    rw [hsep] at hread
    rw [Nat.add_zero]
    cases hfront : front.length with
    | zero =>
      rw [hfront] at hread
      rw [checkLoop,hread]
      rfl
    | succ i =>
      rw [hfront] at hread
      rw [checkLoop,hread]
      rfl
  | succ n ih =>
    have hread := @read_of_lt s (front.length+n+1) (by omega)
    have hbyte : s.bytes.getD (front.length+n+1) 0=back.getD n 0 := by
      rw [h,getD_append_right _ _ _ _ (by omega),show front.length+n+1-front.length=n+1 by omega]
      rfl
    have hne : back.getD n 0≠separator := by
      rw [getD_eq_getElem _ _ (by omega)]
      exact fun heq => hback (heq ▸ getElem_mem _)
    rw [hbyte] at hread
    change checkLoop s (front.length+n+1)=_
    rw [checkLoop,hread]
    change (if back.getD n 0=separator then .ok (front.length+n+1)
      else checkLoop s (front.length+n))=_
    rw [if_neg hne]
    exact ih (by omega)

/-- Without a separator the loop leaves the string. -/
theorem checkLoop_outside (h : separator∉s.bytes) (i : ℕ) : checkLoop s i=.error .read := by
  have hread : ∀ j,s.read j=.error .read∨∃ c,s.read j=.ok c∧c≠separator := by
    intro j
    rw [CString.read]
    split
    case isTrue hle =>
      refine .inr ⟨_,rfl,?_⟩
      rcases Nat.lt_or_ge j s.bytes.length with hlt | hge
      · rw [getD_eq_getElem _ _ hlt]
        exact fun heq => h (heq ▸ getElem_mem _)
      · rw [getD_eq_default _ _ hge]
        decide
    case isFalse => exact .inl rfl
  induction i with
  | zero =>
    rw [checkLoop]
    rcases hread 0 with herror | ⟨c,hok,hne⟩
    · rw [herror]
      rfl
    · rw [hok]
      exact if_neg hne
  | succ i ih =>
    rw [checkLoop]
    rcases hread (i+1) with herror | ⟨c,hok,hne⟩
    · rw [herror]
      rfl
    · rw [hok,←ih]
      exact if_neg hne

/-- A list with an element ends in a last one, which only others follow. -/
theorem exists_last_separator {bytes : List UInt8} (h : separator∈bytes) :
    ∃ front back,bytes=front++separator::back∧separator∉back := by
  obtain ⟨after,before,hsplit,hnone⟩ := eq_append_cons_of_mem (mem_reverse.mpr h)
  refine ⟨before.reverse,after.reverse,?_,fun hback => hnone (mem_reverse.mp hback)⟩
  have hreverse := congrArg List.reverse hsplit
  rw [reverse_reverse,reverse_append,reverse_cons,append_assoc] at hreverse
  exact hreverse

theorem decrement_length (s : CString) (h : 0 < s.bytes.length) :
    decrement s.bytes.length=s.bytes.length-1 := by
  have hlt := s.lt_sizeMax
  rw [decrement,show s.bytes.length+sizeMax=s.bytes.length-1+(sizeMax+1) by omega,
    add_mod_right,mod_eq_of_lt (by omega)]

section

variable (h : s.bytes=front++separator::back) (hback : separator∉back)
include h hback

/-- From the end of the string on, the last separator is found. -/
theorem checkLoop_last :
    checkLoop s (decrement s.bytes.length)=.ok front.length := by
  have hlen : s.bytes.length=front.length+back.length+1 := by
    rw [h,List.length_append,List.length_cons,Nat.add_assoc]
  rw [decrement_length s (by omega),hlen,Nat.add_sub_cancel]
  exact checkLoop_found h hback back.length (Nat.le_refl _)

/-- The path is what comes before the last separator. -/
theorem pathOf_split
    (malloc : Bool) : pathOf malloc s=.ok (if malloc then some front else none) := by
  have hlen : s.bytes.length=front.length+back.length+1 := by
    rw [h,List.length_append,List.length_cons,Nat.add_assoc]
  have hcopied : copied (front.length+1+1) s 0 front.length=.ok front := by
    rw [copied,if_neg (by omega),if_neg (by omega),h,List.drop_zero,List.take_left]
  rw [pathOf,checkLoop_last h hback]
  cases malloc with
  | false => rfl
  | true =>
    change (copied (front.length+1+1) s 0 front.length >>= fun path => _)=_
    rw [hcopied]
    rfl

/-- The name is what comes after the last separator. -/
theorem nameOf_split
    (malloc : Bool) : nameOf malloc s=.ok (if malloc then some back else none) := by
  have hlen : s.bytes.length=front.length+back.length+1 := by
    rw [h,List.length_append,List.length_cons,Nat.add_assoc]
  have hdrop : s.bytes.drop (front.length+1)=back := by
    rw [h,List.drop_append,List.drop_eq_nil_of_le (by omega),List.nil_append,
      Nat.add_sub_cancel_left]
    rfl
  have hcopied : copied (s.bytes.length-front.length) s (front.length+1)
      (s.bytes.length-front.length-1)=.ok back := by
    rw [copied,if_neg (by omega),if_neg (by omega),hdrop,take_of_length_le (by omega)]
  rw [nameOf,checkLoop_last h hback]
  cases malloc with
  | false => rfl
  | true =>
    change (copied (s.bytes.length-front.length) s (front.length+1)
      (s.bytes.length-front.length-1) >>= fun name => _)=_
    rw [hcopied]
    rfl

end

theorem pathOf_outside (h : separator∉s.bytes) (malloc : Bool) : pathOf malloc s=.error .read := by
  rw [pathOf,checkLoop_outside h]
  rfl

/-- Two functions that return and read only inside of a string: they split it at its last
separator as far as there is memory, and return `NULL` when it has none. -/
def Splits (getPath getName : Bool→CString→Except Fault (Option (List UInt8)))
    (s : CString) : Prop :=
  if separator∈s.bytes then ∃ path name,s.bytes=path++separator::name∧separator∉name∧
    ∀ malloc,getPath malloc s=.ok (if malloc then some path else none)∧
      getName malloc s=.ok (if malloc then some name else none)
  else ∀ malloc,getPath malloc s=.ok none∧getName malloc s=.ok none

/-- The functions do so exactly for the strings with a separator. -/
theorem splits_iff (s : CString) : Splits pathOf nameOf s ↔ separator∈s.bytes := by
  constructor
  · intro h
    refine Decidable.byContradiction fun hnone => ?_
    rw [Splits,if_neg hnone] at h
    have hpath := (h true).1
    rw [pathOf_outside hnone] at hpath
    cases hpath
  · intro h
    obtain ⟨front,back,hsplit,hback⟩ := exists_last_separator h
    rw [Splits,if_pos h]
    exact ⟨front,back,hsplit,hback,fun malloc =>
      ⟨pathOf_split hsplit hback malloc,nameOf_split hsplit hback malloc⟩⟩

/-- Both pairs of functions split exactly the strings with a separator. -/
theorem fullFileName_splits (s : CString) :
    Splits getPathFromFullFileName getNameFromFullFileName s∧
      Splits codeyGetPathFromFullFileName codeyGetNameFromFullFileName s ↔ separator∈s.bytes :=
  (and_congr (splits_iff s) (splits_iff s)).trans and_self_iff

/-- A name without a path, `c`. -/
def bareName : CString := ⟨[0x63],by decide +kernel,by decide +kernel⟩

/-- For a name without a path, memory before it is read. -/
theorem bareName_not_splits : getPathFromFullFileName true bareName=.error .read∧
    codeyGetPathFromFullFileName true bareName=.error .read∧
      ¬(∀ s,Splits getPathFromFullFileName getNameFromFullFileName s∧
        Splits codeyGetPathFromFullFileName codeyGetNameFromFullFileName s) := by
  have hnone : separator∉bareName.bytes := by decide
  exact ⟨pathOf_outside hnone true,pathOf_outside hnone true,fun h =>
    hnone ((splits_iff bareName).mp (h bareName).1)⟩

end MicroPython.PathSplit
