import Mathlib.Tactic.Ring

/-!
# Arithmetic progressions with an end

The integers from a start on by a step that are not zero, as long as they come before an end
that is left out. The count of them has a closed form, and a progression taken apart from the
front is what a loop goes through.
-/

namespace MicroPython.Progression

open Nat List

/-- An integer comes before the end, in the direction of the step. -/
def Before (step x stop : ℤ) : Prop := if step < 0 then stop < x else x < stop

/-- It is decided by a comparison. -/
instance (step x stop : ℤ) : Decidable (Before step x stop) :=
  inferInstanceAs (Decidable (if step < 0 then stop < x else x < stop))

/-- The count of the integers before the end. -/
def count (start stop step : ℤ) : ℕ :=
  if step < 0 then ((start-stop-step-1)/(-step)).toNat else ((stop-start+step-1)/step).toNat

/-- The integers from the start on by the step before the end. -/
def progression (start stop step : ℤ) : List ℤ :=
  (List.range (count start stop step)).map fun k : ℕ => start+(k : ℤ)*step

section Counting

variable {start stop step : ℤ}

/-- The places below the count are those of integers before the end. -/
theorem lt_count_iff (h : step≠0) (k : ℕ) :
    k < count start stop step↔Before step (start+k*step) stop := by
  rw [count,Before]
  split
  case isTrue hneg =>
    have hle : (k : ℤ)+1 ≤ (start-stop-step-1)/(-step)↔
        ((k : ℤ)+1)*(-step) ≤ start-stop-step-1 := Int.le_ediv_iff_mul_le (by omega)
    have hmul : ((k : ℤ)+1)*(-step)=-(k*step)-step := by ring
    rw [hmul] at hle
    generalize (start-stop-step-1)/(-step)=q at hle ⊢
    generalize (k : ℤ)*step=p at hle ⊢
    omega
  case isFalse hpos =>
    have hle : (k : ℤ)+1 ≤ (stop-start+step-1)/step↔
        ((k : ℤ)+1)*step ≤ stop-start+step-1 := Int.le_ediv_iff_mul_le (by omega)
    have hmul : ((k : ℤ)+1)*step=k*step+step := by ring
    rw [hmul] at hle
    generalize (stop-start+step-1)/step=q at hle ⊢
    generalize (k : ℤ)*step=p at hle ⊢
    omega

/-- The count is what separates the places. -/
theorem count_eq (h : step≠0) {n : ℕ}
    (hn : ∀ k : ℕ,k < n↔Before step (start+k*step) stop) : count start stop step=n := by
  have hall : ∀ k,k < count start stop step↔k < n := fun k =>
    (lt_count_iff h k).trans (hn k).symm
  have hcount := hall n
  have hn' := hall (count start stop step)
  omega

@[simp] theorem length_progression (start stop step : ℤ) :
    (progression start stop step).length=count start stop step := by
  rw [progression,length_map,length_range]

/-- At the end nothing is left. -/
theorem progression_nil (h : step≠0) (hend : ¬Before step start stop) :
    progression start stop step=[] := by
  refine length_eq_zero_iff.mp ?_
  rw [length_progression]
  refine Nat.eq_zero_of_not_pos fun hpos => hend ?_
  have hfirst := (lt_count_iff h 0).mp hpos
  rw [cast_zero,Int.zero_mul,Int.add_zero] at hfirst
  exact hfirst

/-- The first integer leaves a shorter progression. -/
theorem count_cons (h : step≠0) (hbefore : Before step start stop) :
    count start stop step=count (start+step) stop step+1 := by
  refine count_eq h fun k => ?_
  cases k with
  | zero =>
    rw [cast_zero,Int.zero_mul,Int.add_zero]
    exact ⟨fun _ => hbefore,fun _ => succ_pos _⟩
  | succ k =>
    rw [succ_lt_succ_iff,lt_count_iff h,
      show start+((k+1 : ℕ) : ℤ)*step=start+step+k*step by push_cast; ring]

/-- Before the end there is a first integer. -/
theorem progression_cons (h : step≠0) (hbefore : Before step start stop) :
    progression start stop step=start::progression (start+step) stop step := by
  rw [progression,progression,count_cons h hbefore,range_succ_eq_map,map_cons,
    map_map,cast_zero,Int.zero_mul,Int.add_zero]
  refine congrArg (start::·) (map_congr_left fun k _ => ?_)
  change start+((k+1 : ℕ) : ℤ)*step=_
  push_cast
  ring

/-- Two ends that the same integers come before end the same progression. -/
theorem progression_congr (h : step≠0) {stop' : ℤ}
    (hsame : ∀ k : ℕ,Before step (start+k*step) stop↔Before step (start+k*step) stop') :
    progression start stop step=progression start stop' step := by
  have hcount : count start stop step=count start stop' step :=
    count_eq h fun k => (lt_count_iff h k).trans (hsame k).symm
  rw [progression,progression,hcount]

/-- The integers of a progression come before its end and not before its start. -/
theorem mem_progression (h : step≠0) {x : ℤ} (hx : x∈progression start stop step) :
    Before step x stop∧¬Before step x start := by
  rw [progression,mem_map] at hx
  obtain ⟨k,hk,rfl⟩ := hx
  refine ⟨(lt_count_iff h k).mp (mem_range.mp hk),?_⟩
  rw [Before]
  split
  case isTrue hneg =>
    have hle := Int.mul_nonneg (Int.natCast_nonneg k) (show 0 ≤ -step by omega)
    rw [Int.mul_neg] at hle
    omega
  case isFalse hpos =>
    have hle := Int.mul_nonneg (Int.natCast_nonneg k) (show 0 ≤ step by omega)
    omega

end Counting

end MicroPython.Progression
