import Mathlib.Data.Int.Notation
import Mathlib.Order.Basic

/-!
# Rearrangements of a part of an array

A part of an array lies between two indexes that are both in it. Swapping elements of the part
rearranges it: nothing outside of it changes, and its elements stay in it. A sorted array is
put together from sorted parts on both sides of a bound.
-/

namespace MicroPython.Rearrangement

/-- An index between two others. -/
def Within (low high : ℤ) (i : ℕ) : Prop := low ≤ i∧(i : ℤ) ≤ high

/-- The elements of a part have a property. -/
def AllOn {α : Type} (p : α→Prop) (low high : ℤ) (xs : Array α) : Prop :=
  ∀ i,Within low high i → ∀ x∈xs[i]?,p x

/-- The elements of a part are in order. -/
def SortedOn {α : Type} (r : α→α→Prop) (low high : ℤ) (xs : Array α) : Prop :=
  ∀ i j,Within low high i → Within low high j → i < j → ∀ x∈xs[i]?,∀ y∈xs[j]?,r x y

/-- An array whose part has been rearranged. -/
structure Rearranges {α : Type} (low high : ℤ) (xs ys : Array α) : Prop where
  /-- The elements are the same ones. -/
  perm : ys.Perm xs
  /-- Outside of the part nothing changes. -/
  outside : ∀ i,¬Within low high i → ys[i]?=xs[i]?
  /-- The elements of the part come from it. -/
  inside : ∀ i,Within low high i → ∃ j,Within low high j∧ys[i]?=xs[j]?

section Laws

variable {α : Type} {low high : ℤ} {xs ys zs : Array α}

/-- Nothing is changed. -/
theorem Rearranges.refl (low high : ℤ) (xs : Array α) : Rearranges low high xs xs :=
  ⟨.refl _,fun _ _ => rfl,fun i hi => ⟨i,hi,rfl⟩⟩

/-- One rearrangement after another. -/
theorem Rearranges.trans (h : Rearranges low high xs ys) (h' : Rearranges low high ys zs) :
    Rearranges low high xs zs where
  perm := h'.perm.trans h.perm
  outside := fun i hi => (h'.outside i hi).trans (h.outside i hi)
  inside := fun i hi => by
    obtain ⟨j,hj,heq⟩ := h'.inside i hi
    obtain ⟨k,hk,heq'⟩ := h.inside j hj
    exact ⟨k,hk,heq.trans heq'⟩

theorem Rearranges.size (h : Rearranges low high xs ys) : ys.size=xs.size :=
  h.perm.size_eq

variable {low' high' : ℤ} {p : α→Prop} {r : α→α→Prop}

/-- A rearranged part lies in a larger one. -/
theorem Rearranges.widen (h : Rearranges low high xs ys) (hlow : low' ≤ low)
    (hhigh : high ≤ high') : Rearranges low' high' xs ys where
  perm := h.perm
  outside := fun i hi => h.outside i fun hin =>
    hi ⟨Int.le_trans hlow hin.1,Int.le_trans hin.2 hhigh⟩
  inside := fun i hi => by
    by_cases hin : Within low high i
    · obtain ⟨j,hj,heq⟩ := h.inside i hin
      exact ⟨j,⟨Int.le_trans hlow hj.1,Int.le_trans hj.2 hhigh⟩,heq⟩
    · exact ⟨i,hi,h.outside i hin⟩

/-- Two elements of a part are swapped. -/
theorem Rearranges.swap {i j : ℕ} (hi : i < xs.size) (hj : j < xs.size)
    (hlow : Within low high i) (hhigh : Within low high j) :
    Rearranges low high xs (xs.swap i j hi hj) where
  perm := Array.swap_perm hi hj
  outside := fun k hk => by
    have hki : i≠k := fun h => hk (h ▸ hlow)
    have hkj : j≠k := fun h => hk (h ▸ hhigh)
    rw [Array.getElem?_swap,if_neg hkj,if_neg hki]
  inside := fun k hk => by
    rw [Array.getElem?_swap]
    split
    case isTrue hkj => exact ⟨i,hlow,(Array.getElem?_eq_getElem hi).symm⟩
    case isFalse hkj =>
      split
      case isTrue hki => exact ⟨j,hhigh,(Array.getElem?_eq_getElem hj).symm⟩
      case isFalse hki => exact ⟨k,hk,rfl⟩

/-- A property of the elements of a part stays when a smaller part is rearranged. -/
theorem AllOn.rearranges (h : AllOn p low' high' xs)
    (hre : Rearranges low high xs ys) (hlow : low' ≤ low) (hhigh : high ≤ high') :
    AllOn p low' high' ys := by
  intro i hi x hx
  obtain ⟨j,hj,heq⟩ := (hre.widen hlow hhigh).inside i hi
  exact h j hj x (heq ▸ hx)

theorem AllOn.apart (h : AllOn p low' high' xs)
    (hre : Rearranges low high xs ys) (hapart : high < low'∨high' < low) :
    AllOn p low' high' ys := by
  intro i hi x hx
  have hout : ¬Within low high i := fun hin => by
    obtain ⟨hlow,hhigh⟩ := hin
    obtain ⟨hlow',hhigh'⟩ := hi
    omega
  exact h i hi x (hre.outside i hout ▸ hx)

/-- Neither does the order of a part change with another part. -/
theorem SortedOn.apart (h : SortedOn r low' high' xs)
    (hre : Rearranges low high xs ys) (hapart : high < low'∨high' < low) :
    SortedOn r low' high' ys := by
  have hout : ∀ i,Within low' high' i → ys[i]?=xs[i]? := fun i hi =>
    hre.outside i fun hin => by
      obtain ⟨hlow,hhigh⟩ := hin
      obtain ⟨hlow',hhigh'⟩ := hi
      omega
  intro i j hi hj hij x hx y hy
  exact h i j hi hj hij x (hout i hi ▸ hx) y (hout j hj ▸ hy)

/-- A smaller part has the property too. -/
theorem AllOn.narrow (h : AllOn p low high xs)
    (hlow : low ≤ low') (hhigh : high' ≤ high) : AllOn p low' high' xs := fun i hi =>
  h i ⟨Int.le_trans hlow hi.1,Int.le_trans hi.2 hhigh⟩

/-- Two sorted parts with a bound between them. The lower part may end behind the first
element above the bound, and there may be an element between the parts. -/
theorem SortedOn.join {q : α→Prop} (hpq : ∀ x y,p x → q y → r x y)
    {left right : ℤ} (hleft : SortedOn r low left xs)
    (hright : SortedOn r right high xs) (hlow : AllOn p low (right-1) xs)
    (hhigh : AllOn q (left+1) high xs) : SortedOn r low high xs := by
  intro i j hi hj hij x hx y hy
  obtain ⟨hi,hi'⟩ := hi
  obtain ⟨hj,hj'⟩ := hj
  by_cases hjl : (j : ℤ) ≤ left
  · exact hleft i j ⟨hi,by omega⟩ ⟨by omega,hjl⟩ hij x hx y hy
  · by_cases hir : right ≤ i
    · exact hright i j ⟨hir,by omega⟩ ⟨by omega,hj'⟩ hij x hx y hy
    · exact hpq x y (hlow i ⟨hi,by omega⟩ x hx) (hhigh j ⟨by omega,hj'⟩ y hy)

/-- A part of one element or none is sorted. -/
theorem SortedOn.of_le (h : high ≤ low) : SortedOn r low high xs := by
  intro i j hi hj hij
  obtain ⟨hi,-⟩ := hi
  obtain ⟨-,hj⟩ := hj
  omega

/-- An array that is sorted as a whole. -/
theorem SortedOn.pairwise (h : SortedOn r 0 (xs.size-1) xs) : xs.toList.Pairwise r := by
  rw [List.pairwise_iff_getElem]
  intro i j hi hj hij
  rw [Array.length_toList] at hi hj
  exact h i j ⟨by omega,by omega⟩ ⟨by omega,by omega⟩ hij _
    (Array.getElem?_eq_getElem hi) _ (Array.getElem?_eq_getElem hj)

end Laws

end MicroPython.Rearrangement
