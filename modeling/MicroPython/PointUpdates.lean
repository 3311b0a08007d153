import Mathlib.Data.Nat.Notation

/-!
# Updates of single elements

A list is changed at one place after another. A change behind the end of the list fails. Changes
inside of it can be made in any order when they commute, and what is read of an element stays
when no change of that element affects it.
-/

namespace MicroPython.PointUpdates

open List

variable {α β : Type}

/-- A change of one element. -/
structure Update (α : Type) where
  /-- The place. -/
  index : ℕ
  /-- What becomes of the element there. -/
  change : α→α

/-- An element of a list is changed. -/
def modifyAt (xs : List α) (i : ℕ) (f : α→α) : Option (List α) :=
  if i < xs.length then some (xs.modify i f) else none

/-- Updates are made one after another. -/
def applyAll : List (Update α)→List α→Option (List α)
  | [],xs => some xs
  | u::us,xs => (modifyAt xs u.index u.change).bind (applyAll us)

/-- The list after updates that all lie inside of it. -/
def changed (us : List (Update α)) (xs : List α) : List α :=
  us.foldl (fun xs u => xs.modify u.index u.change) xs

/-- Two updates that can be made in any order. -/
def Commutes (u v : Update α) : Prop :=
  u.index=v.index → ∀ a,u.change (v.change a)=v.change (u.change a)

/-! ## Laws -/

variable {us vs : List (Update α)} {xs ys : List α}

/-- Updates after others. -/
theorem applyAll_append (us vs : List (Update α)) (xs : List α) :
    applyAll (us++vs) xs=(applyAll us xs).bind (applyAll vs) := by
  induction us generalizing xs with
  | nil => rfl
  | cons u us ih =>
    rw [cons_append,applyAll,applyAll]
    cases modifyAt xs u.index u.change with
    | none => rfl
    | some xs => exact ih xs

/-- Updates inside the list are made. -/
theorem applyAll_inside (h : ∀ u∈us,u.index < xs.length) : applyAll us xs=some (changed us xs) := by
  induction us generalizing xs with
  | nil => rfl
  | cons u us ih =>
    rw [applyAll,modifyAt,if_pos (h u mem_cons_self)]
    exact ih fun v hv => by simpa using h v (mem_cons_of_mem u hv)

theorem modify_comm {u v : Update α} (h : Commutes u v) (xs : List α) :
    (xs.modify u.index u.change).modify v.index v.change=
      (xs.modify v.index v.change).modify u.index u.change := by
  refine ext_getElem? fun i => ?_
  simp only [List.getElem?_modify]
  by_cases hu : u.index=i
  · by_cases hv : v.index=i
    · cases xs[i]? with
      | none => simp
      | some a => simp [hu,hv,h (hu.trans hv.symm) a]
    · simp [hu,hv]
  · simp [hu]

theorem changed_perm (hperm : us.Perm vs) (h : ∀ u∈us,∀ v∈us,Commutes u v) (xs : List α) :
    changed us xs=changed vs xs :=
  hperm.foldl_eq' (fun u hu v hv xs => modify_comm (h u hu v hv) xs) xs

/-- What is read of an element stays when its changes do not affect it. -/
theorem changed_reads (g : α→β) (i : ℕ)
    (h : ∀ u∈us,u.index=i → ∀ a,g (u.change a)=g a) (xs : List α) :
    ((changed us xs)[i]?).map g=(xs[i]?).map g := by
  induction us generalizing xs with
  | nil => rfl
  | cons u us ih =>
    have hrest := ih (fun v hv => h v (mem_cons_of_mem u hv)) (xs.modify u.index u.change)
    rw [changed,foldl_cons]
    refine hrest.trans ?_
    rw [List.getElem?_modify]
    by_cases hu : u.index=i
    · cases xs[i]? with
      | none => simp
      | some a => simp [hu,h u mem_cons_self hu a]
    · simp [hu]

end MicroPython.PointUpdates
