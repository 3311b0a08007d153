import Mathlib.Tactic.IntervalCases

/-!
# The Gregorian calendar

Months are numbered one after the other from January of the year 0. A date is a month and a day
in it, and the days before its month make it the number of a day.
-/

namespace MicroPython.Calendar

/-- The years with a day more. -/
def IsLeap (year : ℕ) : Prop := year%4=0∧(year%100≠0∨year%400=0)

instance : DecidablePred IsLeap := fun _ => inferInstanceAs (Decidable (_∧_))

/-- The days of a month. -/
def monthLength (month : ℕ) : ℕ :=
  match month%12 with
  | 1 => if IsLeap (month/12) then 29 else 28
  | 3 | 5 | 8 | 10 => 30
  | _ => 31

/-- The days before a month. -/
def monthStart : ℕ→ℕ
  | 0 => 0
  | month+1 => monthStart month+monthLength month

/-- The days before a month of a year that is not leap. -/
def commonStart (month : ℕ) : ℕ := [0,31,59,90,120,151,181,212,243,273,304,334,365].getD month 0

/-- A month has 28 to 31 days. -/
theorem monthLength_bounds (month : ℕ) : 28 ≤ monthLength month∧monthLength month ≤ 31 := by
  rw [monthLength]
  split
  case h_1 => split <;> omega
  all_goals omega

/-- The days before a month of a year, from those before the year. -/
theorem monthStart_add (year : ℕ) {month : ℕ} (h : month ≤ 12) : monthStart (12*year+month)=
      monthStart (12*year)+commonStart month+if 2 ≤ month∧IsLeap year then 1 else 0 := by
  have hdiv : ∀ m<12,(12*year+m)/12=year := fun m hm => by omega
  have hmod : ∀ m<12,(12*year+m)%12=m := fun m hm => by omega
  induction month with
  | zero => rfl
  | succ month ih =>
    rw [←Nat.add_assoc,monthStart,ih (by omega),monthLength,hdiv month h,hmod month h]
    have hlt : month<12 := h
    interval_cases month <;> simp only [commonStart] <;> by_cases hleap : IsLeap year <;>
      simp [hleap]

/-- The days before a year. -/
theorem monthStart_year (year : ℕ) :
    monthStart (12*year)+(year+99)/100=365*year+(year+3)/4+(year+399)/400 := by
  induction year with
  | zero => rfl
  | succ year ih =>
    have hstep : monthStart (12*year+12)=monthStart (12*year)+365+if IsLeap year then 1 else 0 := by
      rw [monthStart_add year (Nat.le_refl 12)]
      simp [commonStart]
    have h₄ : (year+1+3)/4=(year+3)/4+if 4∣year+1+3 then 1 else 0 := Nat.succ_div
    have h₁₀₀ : (year+1+99)/100=(year+99)/100+if 100∣year+1+99 then 1 else 0 := Nat.succ_div
    have h₄₀₀ : (year+1+399)/400=(year+399)/400+if 400∣year+1+399 then 1 else 0 :=
      Nat.succ_div
    rw [Nat.mul_succ,hstep,h₄,h₁₀₀,h₄₀₀]
    have hleap : IsLeap year↔4∣year+1+3∧(¬100∣year+1+99∨400∣year+1+399) := by
      rw [IsLeap]
      omega
    simp only [hleap]
    split_ifs <;> omega

/-- Later months start later. -/
theorem monthStart_mono {m n : ℕ} (h : m ≤ n) : monthStart m+(n-m) ≤ monthStart n := by
  induction n, h using Nat.le_induction with
  | base => omega
  | succ n hn ih =>
    have hpos := monthLength_bounds n
    rw [monthStart]
    omega

end MicroPython.Calendar
