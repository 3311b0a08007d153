import MicroPython.Progression

/-!
# Slices of sequences

`mp_seq_get_fast_slice_indexes` turns the bounds of a slice into indexes of a sequence with
machine integers, and `mp_seq_extract_slice` steps through the sequence with them. Python's
meaning of a slice is an arithmetic progression of indexes.
-/

namespace MicroPython.Slices

open Nat List Progression

/-- An integer stored in a machine word. -/
def wrap (bits : ℕ) (x : ℤ) : ℤ := x.bmod (2^bits)

/-- The largest machine integer. -/
def intMax (bits : ℕ) : ℤ := 2^(bits-1)-1

/-- An integer fits a machine word. -/
def IsInt (bits : ℕ) (x : ℤ) : Prop := -intMax bits-1 ≤ x∧x ≤ intMax bits

/-- `mp_obj_slice_t`, with nothing for `None`. -/
structure Slice where
  start : Option ℤ
  /-- The end. -/
  stop : Option ℤ
  step : Option ℤ

/-- `mp_bound_slice_t`. -/
structure BoundSlice where
  /-- The first index. -/
  start : ℤ
  /-- The end. -/
  stop : ℤ
  step : ℤ
deriving DecidableEq

/-- Why a slice fails. -/
inductive SliceFault
  /-- `ValueError` for a step of zero. -/
  | zeroStep
  /-- An element outside of the sequence is read. -/
  | outside
  /-- More elements than the sequence has. -/
  | unfinished
deriving DecidableEq

/-- The start of a slice before it is kept within the sequence. -/
def givenStart (bits : ℕ) (len step : ℤ) : Option ℤ→ℤ
  | none => if 0 < step then 0 else wrap bits (len-1)
  | some start => start

/-- The end of a slice before it is kept within the sequence, with one more for a negative
step. -/
def givenStop (bits : ℕ) (len step : ℤ) : Option ℤ→ℤ
  | none => if 0 < step then wrap bits len else 0
  | some stop => if 0 ≤ stop∧step < 0 then wrap bits (stop+1) else stop

/-- The start of a slice kept within the sequence. -/
def boundStart (bits : ℕ) (len step start : ℤ) : ℤ :=
  if start < 0 then
    if wrap bits (len+start) < 0 then if step < 0 then -1 else 0 else wrap bits (len+start)
  else if 0 < step∧len < start then wrap bits len
  else if step < 0∧len ≤ start then wrap bits (len-1)
  else start

/-- The end of a slice kept within the sequence. -/
def boundStop (bits : ℕ) (len step stop : ℤ) : ℤ :=
  if stop < 0 then
    let stop := if wrap bits (len+stop) < 0 then -1 else wrap bits (len+stop)
    if step < 0 then wrap bits (stop+1) else stop
  else if len < stop then wrap bits len
  else stop

/-- The end of a slice moved to its start when nothing is in between. -/
def emptyStop (bits : ℕ) (step start stop : ℤ) : ℤ :=
  if 0 < step∧stop < start then start
  else if step < 0∧start < stop then wrap bits (start+1)
  else stop

/-- `mp_seq_get_fast_slice_indexes`: the indexes, and whether the step is one. -/
def mpSeqGetFastSliceIndexes (bits len : ℕ) (slice : Slice) : Except SliceFault (BoundSlice×Bool) :=
  let step := slice.step.getD 1
  if step=0 then .error .zeroStep
  else
    let start := boundStart bits len step (givenStart bits len step slice.start)
    let stop := boundStop bits len step (givenStop bits len step slice.stop)
    .ok ({
      start := start
      stop := emptyStop bits step start stop
      step := step },step==1)

/-- The loops of `mp_seq_extract_slice`, with a bound for their turns. -/
def extractLoop {α : Type} (bits : ℕ) (seq : List α) (stop step : ℤ) :
    ℕ→ℤ→Except SliceFault (List α)
  | 0,_ => .error .unfinished
  | turns+1,start =>
    if if step < 0 then stop ≤ start else start < stop then
      match if 0 ≤ start then seq[start.toNat]? else none with
      | none => .error .outside
      | some x => do
        let rest ← extractLoop bits seq stop step turns (wrap bits (start+step))
        .ok (x::rest)
    else .ok []

/-- `mp_seq_extract_slice`. No more turns than elements and one are taken. -/
def mpSeqExtractSlice {α : Type} (bits : ℕ) (seq : List α) (indexes : BoundSlice) :
    Except SliceFault (List α) :=
  extractLoop bits seq indexes.stop indexes.step (seq.length+1) indexes.start

/-- A bound of a slice in Python: negative ones count from the end, and it is kept between the
first index and the end, which lie one lower for a negative step. -/
def pyBound (len step i : ℤ) : ℤ :=
  if i < 0 then max (i+len) (if step < 0 then -1 else 0)
  else min i (if step < 0 then len-1 else len)

/-- The first index of a slice in Python. -/
def pyStart (len step : ℤ) : Option ℤ→ℤ
  | none => if step < 0 then len-1 else 0
  | some i => pyBound len step i

/-- The end of the indexes of a slice in Python. -/
def pyStop (len step : ℤ) : Option ℤ→ℤ
  | none => if step < 0 then -1 else len
  | some i => pyBound len step i

/-- The indexes of a slice in Python. -/
def pyIndices (len : ℕ) (slice : Slice) : List ℤ :=
  progression (pyStart len (slice.step.getD 1) slice.start)
    (pyStop len (slice.step.getD 1) slice.stop) (slice.step.getD 1)

/-- The slice of a sequence in Python. -/
def pySlice {α : Type} (seq : List α) (slice : Slice) : List α :=
  (pyIndices seq.length slice).filterMap fun i => seq[i.toNat]?

section Bounds

variable {bits : ℕ} {len step : ℤ}

/-- The count of the machine integers. -/
theorem two_pow_eq (hbits : 0 < bits) : ((2^bits : ℕ) : ℤ)=2*(intMax bits+1) := by
  obtain ⟨n,rfl⟩ := exists_eq_succ_of_ne_zero hbits.ne'
  rw [intMax,succ_sub_one,succ_eq_add_one]
  push_cast
  rw [pow_succ]
  omega

/-- A machine integer is stored as it is. -/
theorem wrap_of_isInt (hbits : 0 < bits) {x : ℤ} (h : IsInt bits x) : wrap bits x=x := by
  have hpow := two_pow_eq hbits
  obtain ⟨hlow,hhigh⟩ := h
  exact Int.bmod_eq_of_le_mul_two (by omega) (by omega)

/-- An integer above the largest one is stored as a negative one. -/
theorem wrap_of_gt (hbits : 0 < bits) {x : ℤ} (h : intMax bits < x) (hx : x ≤ 3*intMax bits+2) :
    wrap bits x=x-2*(intMax bits+1) := by
  have hpow := two_pow_eq hbits
  have hshift : wrap bits x=wrap bits (x-2*(intMax bits+1)) := by
    have hmul := Int.sub_mul_bmod_self_right x 1 (2^bits)
    rw [Int.one_mul,hpow] at hmul
    exact hmul.symm
  rw [hshift]
  exact wrap_of_isInt hbits ⟨by omega,by omega⟩

/-- The first index of a slice in Python is within the sequence, or next to it. -/
theorem pyStart_bounds (hlen : 0 ≤ len) (start : Option ℤ) :
    (if step < 0 then -1 else 0) ≤ pyStart len step start∧
      pyStart len step start ≤ if step < 0 then len-1 else len := by
  cases start with
  | none =>
    rw [pyStart]
    split <;> omega
  | some i =>
    rw [pyStart,pyBound]
    split <;> split <;> omega

/-- So is the end. -/
theorem pyStop_bounds (hlen : 0 ≤ len) (stop : Option ℤ) :
    (if step < 0 then -1 else 0) ≤ pyStop len step stop∧
      pyStop len step stop ≤ if step < 0 then len-1 else len := by
  cases stop with
  | none =>
    rw [pyStop]
    split <;> omega
  | some i =>
    rw [pyStop,pyBound]
    split <;> split <;> omega

end Bounds

section Indexes

variable {bits : ℕ} {len step : ℤ}

section

variable (hbits : 0 < bits) (hlen : 0 ≤ len∧len ≤ intMax bits)
include hbits hlen

/-- The start is the one of Python. -/
theorem boundStart_eq (hstep : step≠0)
    {start : Option ℤ} (hstart : ∀ i∈start,IsInt bits i) :
    boundStart bits len step (givenStart bits len step start)=pyStart len step start := by
  have hint : ∀ x,-intMax bits-1 ≤ x → x ≤ intMax bits → wrap bits x=x := fun x hlow hhigh =>
    wrap_of_isInt hbits ⟨hlow,hhigh⟩
  have hlast := hint (len-1) (by omega) (by omega)
  have hend := hint len (by omega) (by omega)
  cases start with
  | none =>
    have hempty : len-1 < 0 → wrap bits (len+(len-1))=len+(len-1) := fun h =>
      hint _ (by omega) (by omega)
    rw [givenStart,pyStart,hlast,boundStart,hend,hlast]
    split_ifs <;> omega
  | some i =>
    obtain ⟨hlow,hhigh⟩ := hstart i rfl
    have hneg : i < 0 → wrap bits (len+i)=len+i := fun h => hint _ (by omega) (by omega)
    rw [givenStart,pyStart,pyBound,boundStart,hlast,hend]
    split_ifs <;> omega

/-- The end of a slice whose step is positive. -/
theorem emptyStop_up (hstep : 0 < step)
    {start : ℤ} (hstart : 0 ≤ start) {stop : Option ℤ} (hstop : ∀ i∈stop,IsInt bits i) :
    emptyStop bits step start (boundStop bits len step (givenStop bits len step stop))=
      max start (pyStop len step stop) := by
  have hint : ∀ x,-intMax bits-1 ≤ x → x ≤ intMax bits → wrap bits x=x := fun x hlow hhigh =>
    wrap_of_isInt hbits ⟨hlow,hhigh⟩
  have hend := hint len (by omega) (by omega)
  have hpos : ¬step < 0 := by omega
  have hno : ∀ p : Prop,¬(p∧step < 0) := fun p h => hpos h.2
  cases stop with
  | none =>
    rw [givenStop,pyStop,if_pos hstep,if_neg hpos,hend,boundStop,emptyStop]
    rw [if_neg hpos,hend]
    split_ifs <;> omega
  | some i =>
    obtain ⟨hlow,hhigh⟩ := hstop i rfl
    have hneg : i < 0 → wrap bits (len+i)=len+i := fun h => hint _ (by omega) (by omega)
    rw [givenStop,pyStop,pyBound,if_neg (hno _),boundStop,emptyStop]
    dsimp only
    rw [if_neg hpos,if_neg hpos,if_neg hpos,hend]
    split_ifs <;> omega

/-- The end of a slice whose step is negative, but for the largest end there is. -/
theorem emptyStop_down (hstep : step < 0)
    {start : ℤ} (hstart : -1 ≤ start∧start < len) {stop : Option ℤ}
    (hstop : ∀ i∈stop,IsInt bits i) (hmax : stop≠some (intMax bits)) :
    emptyStop bits step start (boundStop bits len step (givenStop bits len step stop))=
      min start (pyStop len step stop)+1 := by
  have hint : ∀ x,-intMax bits-1 ≤ x → x ≤ intMax bits → wrap bits x=x := fun x hlow hhigh =>
    wrap_of_isInt hbits ⟨hlow,hhigh⟩
  have hend := hint len (by omega) (by omega)
  have hnext := hint (start+1) (by omega) (by omega)
  have hzero := hint (-1+1) (by omega) (by omega)
  have hpos : ¬0 < step := by omega
  cases stop with
  | none =>
    rw [givenStop,pyStop,if_neg hpos,if_pos hstep,boundStop,emptyStop,hnext]
    rw [if_pos hstep]
    split_ifs <;> omega
  | some i =>
    obtain ⟨hlow,hhigh⟩ := hstop i rfl
    have hne : i≠intMax bits := fun h => hmax (congrArg some h)
    have hneg : i < 0 → wrap bits (len+i)=len+i := fun h => hint _ (by omega) (by omega)
    have hneg' : i < 0 → ¬len+i < 0 → wrap bits (len+i+1)=len+i+1 := fun h h' =>
      hint _ (by omega) (by omega)
    have hup : 0 ≤ i → wrap bits (i+1)=i+1 := fun h => hint _ (by omega) (by omega)
    rw [givenStop,pyStop,pyBound,boundStop,emptyStop,hnext,hend]
    dsimp only
    rw [if_pos hstep,if_pos hstep,if_pos hstep]
    by_cases h : i < 0
    · rw [if_neg (by omega : ¬(0 ≤ i∧step < 0)),if_pos h,if_pos h,hneg h]
      split_ifs <;> omega
    · rw [if_pos (by omega : 0 ≤ i∧step < 0),hup (by omega),if_neg h]
      split_ifs <;> omega

/-- The largest end wraps around for a negative step, which makes it the lowest one. -/
theorem emptyStop_max (hstep : step < 0)
    {start : ℤ} (hstart : -1 ≤ start) :
    emptyStop bits step start
      (boundStop bits len step (givenStop bits len step (some (intMax bits))))=0 := by
  have hint : ∀ x,-intMax bits-1 ≤ x → x ≤ intMax bits → wrap bits x=x := fun x hlow hhigh =>
    wrap_of_isInt hbits ⟨hlow,hhigh⟩
  have hzero := hint (-1+1) (by omega) (by omega)
  have hover : wrap bits (intMax bits+1)=-intMax bits-1 := by
    rw [wrap_of_gt hbits (by omega) (by omega)]
    omega
  have hlow := hint (len+(-intMax bits-1)) (by omega) (by omega)
  rw [givenStop,if_pos (by omega : 0 ≤ intMax bits∧step < 0),hover,boundStop,emptyStop]
  rw [hlow,if_pos hstep]
  split_ifs with h1 h2 h3 h4 <;> try omega
  rw [show start+1=0 by omega]
  exact hint 0 (by omega) (by omega)

end

end Indexes

section Extraction

variable {α : Type} {bits : ℕ} {seq : List α} {stop step : ℤ}

/-- The end of the indexes a loop goes through: for a negative step the last one is included. -/
def loopEnd (step stop : ℤ) : ℤ := if step < 0 then stop-1 else stop

theorem loop_iff (step start stop : ℤ) :
    (if step < 0 then stop ≤ start else start < stop)↔Before step start (loopEnd step stop) := by
  rw [Before,loopEnd]
  split <;> omega

theorem index_eq {x : ℤ} (h : 0 ≤ x∧x < seq.length) :
    ∃ a,(if 0 ≤ x then seq[x.toNat]? else none)=some a∧seq[x.toNat]?=some a := by
  have hlt : x.toNat < seq.length := by omega
  exact ⟨_,by rw [if_pos h.1,List.getElem?_eq_getElem hlt],List.getElem?_eq_getElem hlt⟩

/-- The elements at the indexes are taken when all of them are inside and the index never
overflows. -/
theorem extractLoop_eq (hbits : 0 < bits) (hstep : step≠0) {turns : ℕ} {start : ℤ}
    (hturns : count start (loopEnd step stop) step < turns)
    (hin : ∀ x∈progression start (loopEnd step stop) step,0 ≤ x∧x < seq.length)
    (hnext : ∀ x∈progression start (loopEnd step stop) step,IsInt bits (x+step)) :
    extractLoop bits seq stop step turns start=
      .ok ((progression start (loopEnd step stop) step).filterMap fun i => seq[i.toNat]?) := by
  induction turns generalizing start with
  | zero => exact absurd hturns (not_lt_zero _)
  | succ turns ih =>
    rw [extractLoop]
    by_cases hbefore : Before step start (loopEnd step stop)
    · have hcons := progression_cons hstep hbefore
      have hcount := count_cons hstep hbefore
      rw [hcons] at hin hnext ⊢
      obtain ⟨a,hread,helem⟩ := index_eq (hin start mem_cons_self)
      have hrest := @ih (start+step) (by omega) (fun x hx => hin x (mem_cons_of_mem _ hx))
        fun x hx => hnext x (mem_cons_of_mem _ hx)
      rw [if_pos ((loop_iff step start stop).mpr hbefore),hread,
        wrap_of_isInt hbits (hnext start mem_cons_self),filterMap_cons,helem]
      rw [hrest]
      rfl
    · rw [if_neg (fun h => hbefore ((loop_iff step start stop).mp h)),progression_nil hstep hbefore]
      rfl

/-- An index that overflows behind the last element is negative and is read too. -/
theorem extractLoop_fails (hbits : 0 < bits) (hstep : 0 < step) (hmax : step ≤ intMax bits)
    (hlen : seq.length ≤ intMax bits) {turns : ℕ} {start : ℤ}
    (hturns : count start stop step < turns) (hsome : start < stop)
    (hin : ∀ x∈progression start stop step,0 ≤ x∧x < seq.length)
    (hover : intMax bits < start+count start stop step*step) :
    extractLoop bits seq stop step turns start=.error .outside := by
  have hpos : ¬step < 0 := by omega
  have hgoes : ∀ x < stop,if step < 0 then stop ≤ x else x < stop := fun x hx => by
    rw [if_neg hpos]
    exact hx
  induction turns generalizing start with
  | zero => exact absurd hturns (not_lt_zero _)
  | succ turns ih =>
    have hbefore : Before step start stop := by
      rw [Before,if_neg hpos]
      exact hsome
    have hcons := progression_cons hstep.ne' hbefore
    have hcount := count_cons hstep.ne' hbefore
    rw [hcount,Int.natCast_succ,Int.add_mul,Int.one_mul] at hover
    rw [hcons] at hin
    have hfirst := hin start mem_cons_self
    obtain ⟨a,hread,-⟩ := index_eq hfirst
    have hrest : extractLoop bits seq stop step turns (wrap bits (start+step))=
        .error .outside := by
      by_cases hmore : start+step < stop
      · have hbefore' : Before step (start+step) stop := by
          rw [Before,if_neg hpos]
          exact hmore
        have hsecond := hin (start+step) (mem_cons_of_mem _ (by
          rw [progression_cons hstep.ne' hbefore']
          exact mem_cons_self))
        rw [wrap_of_isInt hbits ⟨by omega,by omega⟩]
        exact ih (by omega) hmore (fun x hx => hin x (mem_cons_of_mem _ hx)) (by omega)
      · have hnone : count (start+step) stop step=0 := by
          have hend : ¬Before step (start+step) stop := by
            rw [Before,if_neg hpos]
            exact hmore
          rw [←length_progression,progression_nil hstep.ne' hend]
          rfl
        rw [hnone,Int.natCast_zero,Int.zero_mul] at hover
        obtain ⟨n,rfl⟩ : ∃ n,turns=n+1 := ⟨turns-1,by omega⟩
        have hnegative := @wrap_of_gt bits hbits (start+step) (by omega) (by omega)
        rw [extractLoop,if_pos (hgoes _ (by omega)),if_neg (by omega)]
    rw [extractLoop,if_pos (hgoes _ hsome),hread]
    rw [hrest]
    rfl

end Extraction

section Statement

/-- A sequence in memory and a slice of it. -/
structure Slicing (α : Type) where
  /-- The bits of a machine word. -/
  bits : ℕ
  /-- The elements. -/
  seq : List α
  slice : Slice
  /-- A word holds the one. -/
  one_lt : 1 < bits
  /-- A word counts the bytes of the elements, four of them or more for each. -/
  inMemory : 4*seq.length ≤ 2^bits
  start : ∀ i∈slice.start,IsInt bits i
  /-- The end is a machine integer. -/
  stop : ∀ i∈slice.stop,IsInt bits i
  step : ∀ i∈slice.step,IsInt bits i
  step_ne : slice.step≠some 0

variable {α : Type} (o : Slicing α)

/-- The step, which is one for `None`. -/
def Slicing.stride : ℤ := o.slice.step.getD 1

/-- The first index in Python. -/
def Slicing.first : ℤ := pyStart o.seq.length o.stride o.slice.start

/-- The end of the indexes in Python. -/
def Slicing.last : ℤ := pyStop o.seq.length o.stride o.slice.stop

/-- The indexes are found, with whether the step is one, and the elements at them are those of
Python's slice. -/
def Slicing.Selects : Prop :=
  ∃ indexes,mpSeqGetFastSliceIndexes o.bits o.seq.length o.slice=.ok (indexes,o.stride==1)∧
    mpSeqExtractSlice o.bits o.seq indexes=.ok (pySlice o.seq o.slice)

/-- Elements are selected and the index behind the last one of them is no machine integer. -/
def Slicing.RunsOver : Prop :=
  0 < o.stride∧o.first < o.last∧intMax o.bits < o.first+count o.first o.last o.stride*o.stride

/-- The end of a backward slice that has a start is the largest machine integer. -/
def Slicing.EndWraps : Prop :=
  o.stride < 0∧o.slice.stop=some (intMax o.bits)∧0 ≤ o.first

end Statement

section Selection

variable {α : Type} (o : Slicing α)

/-- The one is a machine integer, and the elements are counted by them. -/
theorem length_le :
    1 ≤ intMax o.bits∧(0 : ℤ) ≤ o.seq.length∧(o.seq.length : ℤ) ≤ intMax o.bits := by
  have hbits := o.one_lt
  have hmem : ((4*o.seq.length : ℕ) : ℤ) ≤ ((2^o.bits : ℕ) : ℤ) := Int.ofNat_le.mpr o.inMemory
  have hone : 2^1 ≤ 2^(o.bits-1) := Nat.pow_le_pow_right Nat.two_pos (by omega)
  have hmax : intMax o.bits=((2^(o.bits-1) : ℕ) : ℤ)-1 := by
    rw [intMax]
    push_cast
    rfl
  rw [two_pow_eq (zero_lt_of_lt hbits)] at hmem
  omega

/-- The step is a machine integer other than zero. -/
theorem stride_isInt : o.stride≠0∧IsInt o.bits o.stride := by
  have hone := (length_le o).1
  cases hstep : o.slice.step with
  | none =>
    have hstride : o.stride=1 := congrArg (Option.getD · 1) hstep
    rw [hstride]
    exact ⟨by decide,by omega,hone⟩
  | some step =>
    have hstride : o.stride=step := congrArg (Option.getD · 1) hstep
    rw [hstride]
    exact ⟨fun h => o.step_ne (hstep.trans (congrArg some h)),o.step step hstep⟩

/-- The end of the indexes that are gone through. -/
def Slicing.behind : ℤ := if o.stride < 0 then min o.first o.last else max o.first o.last

/-- The indexes that are gone through are those of Python. -/
theorem progression_behind :
    progression o.first o.behind o.stride=progression o.first o.last o.stride := by
  refine progression_congr (stride_isInt o).1 fun k => ?_
  have hk := Int.natCast_nonneg k
  rw [Before,Before,Slicing.behind]
  split
  case isTrue hneg =>
    have hle := Int.mul_nonneg hk (show 0 ≤ -o.stride by omega)
    rw [Int.mul_neg] at hle
    omega
  case isFalse hpos =>
    have hle := Int.mul_nonneg hk (show 0 ≤ o.stride by omega)
    omega

/-- The indexes of a slice lie within the sequence. -/
theorem mem_bounds {x : ℤ} (hx : x∈progression o.first o.last o.stride) :
    0 ≤ x∧x < o.seq.length := by
  have hlen := (length_le o).2.1
  have hfirst := @pyStart_bounds o.seq.length o.stride hlen o.slice.start
  have hlast := @pyStop_bounds o.seq.length o.stride hlen o.slice.stop
  have hmem := mem_progression (stride_isInt o).1 hx
  rw [Before,Before] at hmem
  rw [←Slicing.first] at hfirst
  rw [←Slicing.last] at hlast
  split at hmem
  case isTrue hneg =>
    rw [if_pos hneg,if_pos hneg] at hfirst hlast
    omega
  case isFalse hpos =>
    rw [if_neg hpos,if_neg hpos] at hfirst hlast
    omega

/-- There are no more indexes than elements. -/
theorem count_le : count o.first o.last o.stride ≤ o.seq.length := by
  refine Nat.le_of_not_lt fun hmore => ?_
  have hin : ∀ k < count o.first o.last o.stride,
      0 ≤ o.first+k*o.stride∧o.first+k*o.stride < o.seq.length := fun k hk =>
    mem_bounds o (mem_map.mpr ⟨k,mem_range.mpr hk,rfl⟩)
  have hfirst := hin 0 (zero_lt_of_lt hmore)
  have hlast := hin o.seq.length hmore
  have hstride := (stride_isInt o).1
  rw [cast_zero,Int.zero_mul,Int.add_zero] at hfirst
  have hlen := (length_le o).2.1
  rcases Int.lt_or_gt_of_ne hstride with hneg | hpos
  · have hle := Int.mul_le_mul_of_nonneg_left (show o.stride ≤ -1 by omega) hlen
    omega
  · have hle := Int.mul_le_mul_of_nonneg_left (show 1 ≤ o.stride by omega) hlen
    omega

/-- The indexes are found when the end does not wrap around. -/
theorem indexes_eq (hwrap : ¬o.EndWraps) :
    ∃ stop,mpSeqGetFastSliceIndexes o.bits o.seq.length o.slice=.ok ({
      start := o.first
      stop := stop
      step := o.stride },o.stride==1)∧loopEnd o.stride stop=o.behind := by
  obtain ⟨hone,hlen⟩ := length_le o
  obtain ⟨hne,hint⟩ := stride_isInt o
  have hbits := zero_lt_of_lt o.one_lt
  have hfirst := @pyStart_bounds o.seq.length o.stride hlen.1 o.slice.start
  have hstart := boundStart_eq hbits hlen hne o.start
  have hind : mpSeqGetFastSliceIndexes o.bits o.seq.length o.slice=.ok ({
      start := o.first
      stop := emptyStop o.bits o.stride o.first (boundStop o.bits o.seq.length o.stride
        (givenStop o.bits o.seq.length o.stride o.slice.stop))
      step := o.stride },o.stride==1) := by
    rw [mpSeqGetFastSliceIndexes]
    rw [←Slicing.stride,if_neg hne,hstart]
    rfl
  refine ⟨_,hind,?_⟩
  rw [←Slicing.first] at hfirst
  rw [loopEnd,Slicing.behind]
  split
  case isTrue hneg =>
    rw [if_pos hneg,if_pos hneg] at hfirst
    by_cases hmax : o.slice.stop=some (intMax o.bits)
    · have hnone : o.first=-1 := by
        have hno : ¬0 ≤ o.first := fun h => hwrap ⟨hneg,hmax,h⟩
        omega
      have hlast := (@pyStop_bounds o.seq.length o.stride hlen.1 o.slice.stop).1
      rw [if_pos hneg,←Slicing.last] at hlast
      rw [hmax,emptyStop_max hbits hlen hneg hfirst.1,hnone]
      omega
    · rw [emptyStop_down hbits hlen hneg (by omega) o.stop hmax,←Slicing.last]
      omega
  case isFalse hpos =>
    rw [if_neg hpos,if_neg hpos] at hfirst
    rw [emptyStop_up hbits hlen (by omega) hfirst.1 o.stop,←Slicing.last]

/-- The index behind each element fits unless the one behind the last one does not. -/
theorem next_isInt (hover : ¬o.RunsOver) {x : ℤ}
    (hx : x∈progression o.first o.last o.stride) : IsInt o.bits (x+o.stride) := by
  obtain ⟨hone,hlen⟩ := length_le o
  obtain ⟨hne,hlow,hhigh⟩ := stride_isInt o
  have hin := mem_bounds o hx
  refine ⟨by omega,?_⟩
  by_cases hpos : 0 < o.stride
  · rw [progression,mem_map] at hx
    obtain ⟨k,hk,rfl⟩ := hx
    have hlt := mem_range.mp hk
    have hsome : o.first < o.last := by
      have hbefore := (lt_count_iff hne 0).mp (zero_lt_of_lt hlt)
      rw [Before,if_neg (by omega),cast_zero,Int.zero_mul,Int.add_zero] at hbefore
      exact hbefore
    have hfits : o.first+count o.first o.last o.stride*o.stride ≤ intMax o.bits :=
      Int.not_lt.mp fun h => hover ⟨hpos,hsome,h⟩
    have hle := Int.mul_le_mul_of_nonneg_right (Int.ofNat_le.mpr (succ_le_of_lt hlt))
      (show 0 ≤ o.stride by omega)
    rw [cast_succ,Int.add_mul,Int.one_mul] at hle
    omega
  · omega

/-- Without an overflow the elements of Python are selected. -/
theorem selects (hover : ¬o.RunsOver) (hwrap : ¬o.EndWraps) : o.Selects := by
  obtain ⟨stop,hind,hend⟩ := indexes_eq o hwrap
  have hcount : count o.first (loopEnd o.stride stop) o.stride < o.seq.length+1 := by
    rw [hend,←length_progression,progression_behind,length_progression]
    exact lt_succ_of_le (count_le o)
  have hprog : progression o.first (loopEnd o.stride stop) o.stride=
      progression o.first o.last o.stride := by rw [hend,progression_behind]
  refine ⟨_,hind,?_⟩
  rw [mpSeqExtractSlice]
  rw [extractLoop_eq (zero_lt_of_lt o.one_lt) (stride_isInt o).1 hcount
    (fun x hx => mem_bounds o (hprog ▸ hx)) fun x hx => next_isInt o hover (hprog ▸ hx),hprog]
  rfl

/-- An index behind the last element that overflows is read. -/
theorem not_selects_of_runsOver (h : o.RunsOver) (hwrap : ¬o.EndWraps) : ¬o.Selects := by
  obtain ⟨hpos,hsome,hover⟩ := h
  obtain ⟨hone,hlen⟩ := length_le o
  have hnot : ¬o.stride < 0 := by omega
  obtain ⟨stop,hind,hend⟩ := indexes_eq o hwrap
  have hstop : stop=o.last := by
    rw [loopEnd,if_neg hnot,Slicing.behind,if_neg hnot] at hend
    omega
  have hfails := extractLoop_fails (zero_lt_of_lt o.one_lt) hpos (stride_isInt o).2.2
    hlen.2 (lt_succ_of_le (count_le o)) hsome (fun x hx => mem_bounds o hx) hover
  rintro ⟨indexes,hfound,hextract⟩
  rw [hind,hstop] at hfound
  cases hfound
  rw [mpSeqExtractSlice] at hextract
  rw [hfails] at hextract
  cases hextract

/-- An end that wraps around has the elements down to the first one selected. -/
theorem not_selects_of_endWraps (h : o.EndWraps) : ¬o.Selects := by
  obtain ⟨hneg,hmax,hfirst⟩ := h
  obtain ⟨hone,hlen⟩ := length_le o
  obtain ⟨hne,hlow,hhigh⟩ := stride_isInt o
  have hbits := zero_lt_of_lt o.one_lt
  have hbound := (@pyStart_bounds o.seq.length o.stride hlen.1 o.slice.start).2
  rw [if_pos hneg,←Slicing.first] at hbound
  have hlast : o.last=o.seq.length-1 := by
    rw [Slicing.last,hmax,pyStop,pyBound,if_neg (by omega),if_pos hneg]
    omega
  have hempty : pySlice o.seq o.slice=[] := by
    have hnil : progression o.first o.last o.stride=[] := progression_nil hne (by
      rw [Before,if_pos hneg]
      omega)
    change (progression o.first o.last o.stride).filterMap _=[]
    rw [hnil]
    rfl
  rintro ⟨indexes,hfound,hextract⟩
  have hstart := boundStart_eq hbits hlen hne o.start
  rw [mpSeqGetFastSliceIndexes] at hfound
  dsimp only at hfound
  rw [←Slicing.stride,if_neg hne,hstart,←Slicing.first,hmax,
    emptyStop_max hbits hlen hneg (by omega)] at hfound
  cases hfound
  obtain ⟨a,hread,-⟩ := @index_eq α o.seq o.first ⟨hfirst,by omega⟩
  rw [hempty,mpSeqExtractSlice,extractLoop] at hextract
  rw [if_pos (by rw [if_pos hneg]; exact hfirst),hread] at hextract
  dsimp only at hextract
  cases hrest : extractLoop o.bits o.seq 0 o.stride o.seq.length
      (wrap o.bits (o.first+o.stride)) with
  | error fault =>
    rw [hrest] at hextract
    cases hextract
  | ok rest =>
    rw [hrest] at hextract
    cases hextract

/-- The last of two elements with the largest step. -/
def farStep : Slicing ℕ where
  bits := 32
  seq := [10,20]
  slice := ⟨some 1,none,some 2147483647⟩
  one_lt := by decide
  inMemory := by decide
  start := fun i h => by
    cases h
    exact ⟨by decide,by decide⟩
  stop := fun i h => nomatch h
  step := fun i h => by
    cases h
    exact ⟨by decide,by decide⟩
  step_ne := by decide

end Selection

end MicroPython.Slices
