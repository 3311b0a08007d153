import MicroPython.SmallInt

/-!
# Random members of ranges

`randrange` and `randint` compute the number of members of a range in the machine word and draw
below it by rejection. The machine has 32 bits, and what overflows wraps around.
-/

namespace MicroPython.RandRange

open Slices (wrap)

/-- The state of the generator. -/
structure Yasmarang where
  /-- `yasmarang_pad` -/
  pad : UInt32
  /-- `yasmarang_n` -/
  n : UInt32
  /-- `yasmarang_d` -/
  d : UInt32
  /-- `yasmarang_dat` -/
  dat : UInt8

/-- `yasmarang` -/
def yasmarang (s : Yasmarang) : UInt32×Yasmarang :=
  let pad := s.pad+(s.dat.toUInt32+s.d*s.n)
  let pad := (pad<<<3)+(pad>>>29)
  let d := s.d^^^((pad<<<31)+(pad>>>1))
  let dat := s.dat^^^(pad.toUInt8^^^(d>>>8).toUInt8^^^1)
  (pad^^^(d<<<5)^^^(pad>>>18)^^^(dat.toUInt32<<<1),⟨pad,pad|||2,d,dat⟩)

/-- The loop for the mask of `yasmarang_randbelow`, of a number of rounds at most. -/
def maskLoop (n : UInt32) : ℕ→UInt32→Option UInt32
  | 0,_ => none
  | rounds+1,mask =>
    if n&&&mask<n then maskLoop n rounds (mask<<<1|||1) else some mask

/-- The loop that rejects, over what a generator gives. It may go on for ever. -/
def rejectLoop (next : Yasmarang→UInt32×Yasmarang) (n mask : UInt32) :
    ℕ→Yasmarang→Option (UInt32×Yasmarang)
  | 0,_ => none
  | rounds+1,s =>
    if n ≤ (next s).1&&&mask then rejectLoop next n mask rounds (next s).2
    else some ((next s).1&&&mask,(next s).2)

/-- How a call ends. -/
inductive Outcome where
  /-- A `ValueError`. -/
  | valueError
  /-- It did not end in a number of rounds. -/
  | running
  | value (v : ℤ) (s : Yasmarang)

/-- A call, with a generator and a number of rounds. -/
abbrev Call : Type := (Yasmarang→UInt32×Yasmarang)→ℕ→Yasmarang→Outcome

/-- `start + step * yasmarang_randbelow(n)` -/
def randbelow (start step n : ℤ) : Call := fun next rounds s =>
  let n := UInt32.ofInt n
  match (maskLoop n 32 1).bind fun mask => rejectLoop next n mask rounds s with
  | none => .running
  | some (r,s) => .value (wrap 32 (start+step*r.toNat)) s

/-- `mod_urandom_randrange`, with the arguments that are there. -/
def modUrandomRandrange (start : ℤ) : Option ℤ→Option ℤ→Call
  | none,_ => if 0<start then randbelow 0 1 start else fun _ _ _ => .valueError
  | some stop,none =>
    if start<stop then randbelow start 1 (wrap 32 (stop-start)) else fun _ _ _ => .valueError
  | some stop,some step =>
    let n :=
      if 0<step then wrap 32 ((wrap 32 (stop-start+step-1)).tdiv step)
      else if step<0 then wrap 32 ((wrap 32 (stop-start+step+1)).tdiv step)
      else 0
    if 0<n then randbelow start step n else fun _ _ _ => .valueError

/-- `mod_urandom_randint` -/
def modUrandomRandint (a b : ℤ) : Call :=
  if a ≤ b then randbelow a 1 (wrap 32 (b-a+1)) else fun _ _ _ => .valueError

/-! ## What is asked for -/

/-- The members of a range. -/
def InRange (start stop step v : ℤ) : Prop :=
  ∃ k : ℕ,v=start+step*k∧(0<step∧v<stop∨step<0∧stop<v)

/-- A call raises an exception exactly when a range is empty, returns members of it only, and can
return one when there is one. -/
def Right (f : Call) (start stop step : ℤ) : Prop :=
  (∀ rounds s,(f yasmarang rounds s=.valueError↔∀ v,¬InRange start stop step v)∧
    ∀ v s',f yasmarang rounds s=.value v s' → InRange start stop step v)∧
  ((∃ v,InRange start stop step v) → ∃ next rounds s v s',f next rounds s=.value v s')

/-- A machine integer. -/
def InWord (x : ℤ) : Prop := -2^31 ≤ x∧x<2^31

/-- The number of members can be computed in the word. -/
def Computable (start stop step : ℤ) : Prop :=
  if 0<step then InWord (stop-start+step-1)
  else if step= -1 then InWord (start-stop)
  else step=0∨InWord (stop-start+step+1)

/-! ## Drawing -/

/-- The mask is found, since a mask of 32 bits ends the loop. -/
theorem maskLoop_ends (n : UInt32) : ∃ mask,maskLoop n 32 1=some mask := by
  have hloop : ∀ k<32,∃ mask,maskLoop n (k+1) (UInt32.ofNat (2^(32-k)-1))=some mask := by
    intro k hk
    induction k with
    | zero =>
      refine ⟨0xffffffff,?_⟩
      have hall : n&&&(UInt32.ofNat (2^(32-0)-1))=n := by
        rw [show UInt32.ofNat (2^(32-0)-1)= -1 by decide,UInt32.and_neg_one]
      rw [maskLoop,hall,if_neg (UInt32.lt_irrefl n)]
      rfl
    | succ k ih =>
      rw [maskLoop]
      split
      case isTrue =>
        have hnext : ∀ k<31,UInt32.ofNat (2^(32-(k+1))-1)<<<1|||1=UInt32.ofNat (2^(32-k)-1) := by
          decide
        rw [hnext k (by omega)]
        exact ih (by omega)
      case isFalse => exact ⟨_,rfl⟩
  exact hloop 31 (by decide)

/-- The loop that rejects returns a number below its bound only. -/
theorem rejectLoop_lt {next : Yasmarang→UInt32×Yasmarang} {n mask r : UInt32} {s' : Yasmarang}
    (rounds : ℕ) : ∀ {s : Yasmarang},rejectLoop next n mask rounds s=some (r,s') → r<n := by
  induction rounds with
  | zero => exact fun h => by cases h
  | succ rounds ih =>
    intro s h
    rw [rejectLoop] at h
    split at h
    case isTrue => exact ih h
    case isFalse hless =>
      cases h
      exact UInt32.not_le.mp hless

variable {start stop step n : ℤ}

/-- What a draw does. -/
theorem randbelow_spec (start step n : ℤ) :
    (∀ next rounds s,randbelow start step n next rounds s≠.valueError∧
      ∀ v s',randbelow start step n next rounds s=.value v s' →
        ∃ k : ℕ,(k : ℤ)<n%2^32∧v=wrap 32 (start+step*k))∧
      ((∃ next rounds s v s',randbelow start step n next rounds s=.value v s')↔n%2^32≠0) := by
  obtain ⟨mask,hmask⟩ := maskLoop_ends (UInt32.ofInt n)
  have hcount : ((UInt32.ofInt n).toNat : ℤ)=n%2^32 := by
    rw [UInt32.ofInt,UInt32.toNat_ofNat_of_lt' (by rw [UInt32.size]; omega)]
    omega
  have hmember : ∀ next rounds s v s',randbelow start step n next rounds s=.value v s' →
      ∃ k : ℕ,(k : ℤ)<n%2^32∧v=wrap 32 (start+step*k) := by
    intro next rounds s v s' h
    rw [randbelow,hmask] at h
    cases hloop : rejectLoop next (UInt32.ofInt n) mask rounds s with
    | none => rw [Option.bind_some,hloop] at h; cases h
    | some r =>
      rw [Option.bind_some,hloop] at h
      cases h
      have hlt := UInt32.lt_iff_toNat_lt.mp (rejectLoop_lt rounds hloop)
      exact ⟨r.1.toNat,by omega,rfl⟩
  refine ⟨fun next rounds s => ⟨?_,hmember next rounds s⟩,?_,fun hne => ?_⟩
  · rw [randbelow]
    split <;> exact Outcome.noConfusion
  · rintro ⟨next,rounds,s,v,s',h⟩
    obtain ⟨k,hk,_⟩ := hmember next rounds s v s' h
    omega
  · have hpos : ¬UInt32.ofInt n ≤ 0&&&mask := by
      rw [UInt32.zero_and,UInt32.le_iff_toNat_le,UInt32.toNat_zero]
      omega
    refine ⟨fun s => (0,s),1,⟨0,0,0,0⟩,wrap 32 (start+step*(0&&&mask).toNat),⟨0,0,0,0⟩,?_⟩
    rw [randbelow,hmask,Option.bind_some,rejectLoop,if_neg hpos]

theorem exists_inRange :
    (∃ v,InRange start stop step v)↔0<step∧start<stop∨step<0∧stop<start := by
  constructor
  · rintro ⟨v,k,rfl,⟨hstep,hlt⟩ | ⟨hstep,hlt⟩⟩
    · have hsign := mul_nonneg hstep.le (Int.natCast_nonneg k)
      omega
    · have hsign := mul_nonpos_of_nonpos_of_nonneg hstep.le (Int.natCast_nonneg k)
      omega
  · exact fun h => ⟨start,0,by simp,h⟩

/-- The word is wrapped around at 32 bits. -/
theorem wrap_eq (x : ℤ) : wrap 32 x=(x+2^31)%2^32-2^31 := by
  rw [wrap,Int.bmod_def]
  push_cast
  split <;> omega

/-- A guarded draw of the members of a range is right when the guard tells whether there are
members and their number does not vanish. -/
theorem right_if {p : Prop} [Decidable p] (hstart : InWord start)
    (hstop : -2^31 ≤ stop∧stop ≤ 2^31)
    (hmember : p → (∃ v,InRange start stop step v) → ∀ k : ℕ,(k : ℤ)<n%2^32 →
      InRange start stop step (start+step*k)) :
    Right (if p then randbelow start step n else fun _ _ _ => .valueError) start stop step↔
      (p↔∃ v,InRange start stop step v)∧(p → n%2^32≠0) := by
  obtain ⟨hspec,hreturns⟩ := randbelow_spec start step n
  rw [InWord] at hstart
  by_cases hp : p
  · rw [if_pos hp,iff_true_left hp,imp_iff_right hp]
    constructor
    · rintro ⟨hright,hcan⟩
      have hsome : ∃ v,InRange start stop step v := by
        by_contra hnone
        exact (hspec yasmarang 0 ⟨0,0,0,0⟩).1 ((hright 0 _).1.mpr (not_exists.mp hnone))
      exact ⟨hsome,hreturns.mp (hcan hsome)⟩
    · rintro ⟨hsome,hne⟩
      refine ⟨fun rounds s => ⟨iff_of_false (hspec _ rounds s).1 (not_forall_not.mpr hsome),
        fun v s' h => ?_⟩,fun _ => hreturns.mpr hne⟩
      obtain ⟨k,hk,rfl⟩ := (hspec _ rounds s).2 v s' h
      have hin := hmember hp hsome k hk
      obtain ⟨k',hk',hlt⟩ := hin
      have hword : wrap 32 (start+step*k)=start+step*k := by
        rcases hlt with ⟨hstep,hlt⟩ | ⟨hstep,hlt⟩
        · have hsign := mul_nonneg hstep.le (Int.natCast_nonneg k)
          rw [wrap_eq]
          omega
        · have hsign := mul_nonpos_of_nonpos_of_nonneg hstep.le (Int.natCast_nonneg k)
          rw [wrap_eq]
          omega
      rw [hword]
      exact hmember hp hsome k hk
  · rw [if_neg hp,iff_false_left hp,and_iff_left fun h => absurd h hp]
    constructor
    · exact fun h => not_exists.mpr ((h.1 0 ⟨0,0,0,0⟩).1.mp rfl)
    · intro hnone
      exact ⟨fun _ _ => ⟨iff_of_true rfl (not_exists.mp hnone),fun _ _ h => by cases h⟩,
        fun hsome => absurd hsome hnone⟩

/-- How many steps a truncated quotient holds. -/
theorem lt_tdiv_iff {d c : ℤ} (hc : 0<c) (k : ℕ) : (k : ℤ)<d.tdiv c↔(k+1)*c ≤ d := by
  rcases lt_or_ge d 0 with hneg | hpos
  · have hle := Int.tdiv_nonneg (neg_nonneg.mpr hneg.le) hc.le
    rw [Int.neg_tdiv] at hle
    have hprod := mul_nonneg (Int.natCast_nonneg (k+1)) hc.le
    push_cast at hprod
    omega
  · rw [←not_iff_not,not_lt,not_le,←SmallInt.tdiv_lt_iff hpos hc,Int.lt_add_one_iff]

/-- `randrange` with a step is right when the number of members can be computed. -/
theorem randrange_right_iff (hstart : InWord start) (hstop : InWord stop) (hstep : InWord step) :
    Right (modUrandomRandrange start (some stop) (some step)) start stop step↔
      Computable start stop step := by
  have hend : -2^31 ≤ stop∧stop ≤ 2^31 := ⟨hstop.1,hstop.2.le⟩
  obtain ⟨d,hd⟩ : ∃ d,d=if 0<step then stop-start+step-1 else stop-start+step+1 := ⟨_,rfl⟩
  obtain ⟨q,hq⟩ : ∃ q,q=(wrap 32 d).tdiv step := ⟨_,rfl⟩
  have hword := wrap_eq d
  have hresult := wrap_eq q
  have hlow : -2^31 ≤ q := by
    have hle := Int.natAbs_tdiv_le_natAbs (wrap 32 d) step
    omega
  rw [modUrandomRandrange,Computable]
  rcases lt_trichotomy step 0 with hneg | rfl | hpos
  · rw [if_neg hneg.not_gt] at hd
    have hcount : ∀ k : ℕ,(k : ℤ)<q↔(k+1)*(-step) ≤ -wrap 32 d := fun k => by
      rw [hq,←Int.neg_tdiv_neg,lt_tdiv_iff (neg_pos.mpr hneg)]
    have hsome := hcount 0
    have hlast := hcount (2^31-1)
    have hmost := hcount (2^31)
    rw [if_neg hneg.not_gt,if_pos hneg,if_neg hneg.not_gt,←hd,←hq,
      right_if hstart hend fun hp hany k hk => ?_]
    all_goals simp only [exists_inRange,InWord] at *
    · split <;> omega
    · have hreach := hcount k
      rw [show ((k : ℤ)+1)*(-step)= -(step*k)-step by ring] at hreach
      exact ⟨k,rfl,.inr ⟨hneg,by omega⟩⟩
  · rw [right_if hstart hend fun hp => absurd hp (by simp)]
    simp [exists_inRange]
  · rw [if_pos hpos] at hd
    have hcount : ∀ k : ℕ,(k : ℤ)<q↔(k+1)*step ≤ wrap 32 d := fun k => by
      rw [hq,lt_tdiv_iff hpos]
    have hsome := hcount 0
    have hlast := hcount (2^31-1)
    rw [if_pos hpos,if_pos hpos,←hd,←hq,right_if hstart hend fun hp hany k hk => ?_]
    all_goals simp only [exists_inRange,InWord] at *
    · omega
    · have hreach := hcount k
      rw [show ((k : ℤ)+1)*step=step*k+step by ring] at hreach
      exact ⟨k,rfl,.inl ⟨hpos,by omega⟩⟩

/-- `randint` is right unless it is asked for the whole word. -/
theorem randint_right_iff (hstart : InWord start) (hstop : InWord stop) :
    Right (modUrandomRandint start stop) start (stop+1) 1↔¬(start= -2^31∧stop=2^31-1) := by
  have hword := wrap_eq (stop-start+1)
  rw [modUrandomRandint,right_if hstart (by rw [InWord] at hstop; omega) fun hp hany k hk => ?_]
  all_goals simp only [exists_inRange,InWord] at *
  · omega
  · exact ⟨k,rfl,.inl ⟨Int.one_pos,by omega⟩⟩

end MicroPython.RandRange
