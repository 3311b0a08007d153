import MicroPython.Rearrangement
import Mathlib.Data.Nat.Log

/-!
# Sorting a list

`mp_quicksort` partitions a part of a list around its last element, sorts the smaller side by
a call of itself and goes on with the larger one. The frames left on the stack bound its calls.
-/

namespace MicroPython.ListSort

open Nat Option Rearrangement

/-- Why sorting fails. -/
inductive SortFault
  /-- `RuntimeError` of `MP_STACK_CHECK`. -/
  | stack
  /-- An element outside of the list is used. -/
  | outside
  | unfinished
deriving DecidableEq

/-- What two elements are compared by. -/
structure Comparing (α : Type) where
  /-- The key function, nothing for `MP_OBJ_NULL`. -/
  keyFn : Option (α→α)
  /-- `mp_binary_op` for `MP_BINARY_OP_LESS`. -/
  less : α→α→Bool
  /-- `binop_less_result`: what the loops go on for. -/
  binopLessResult : Bool

variable {α : Type}

/-- The key of an element. -/
def Comparing.key (o : Comparing α) (x : α) : α :=
  match o.keyFn with
  | none => x
  | some keyFn => keyFn x

/-- The loops go on for two keys. -/
def Comparing.goesOn (o : Comparing α) (a b : α) : Bool := o.less a b==o.binopLessResult

/-- An element at a pointer. -/
def load (items : Array α) (i : ℤ) : Except SortFault α :=
  match if 0 ≤ i then items[i.toNat]? else none with
  | some x => .ok x
  | none => .error .outside

/-- Two elements at pointers are swapped. -/
def swap (items : Array α) (i j : ℤ) : Except SortFault (Array α) :=
  if h : (0 ≤ i∧i.toNat < items.size)∧0 ≤ j∧j.toNat < items.size then
    .ok (items.swap i.toNat j.toNat h.1.2 h.2.2)
  else .error .outside

/-- `do ++h; while (h < t && ...)`. -/
def scanUp (o : Comparing α) (items : Array α) (v : α) (t : ℤ) : ℕ→ℤ→Except SortFault ℤ
  | 0,_ => .error .unfinished
  | turns+1,h =>
    if h+1 < t then do
      let x ← load items (h+1)
      if o.goesOn (o.key x) v then scanUp o items v t turns (h+1) else .ok (h+1)
    else .ok (h+1)

/-- `do --t; while (h < t && ...)`. -/
def scanDown (o : Comparing α) (items : Array α) (v : α) (h : ℤ) : ℕ→ℤ→Except SortFault ℤ
  | 0,_ => .error .unfinished
  | turns+1,t =>
    if h < t-1 then do
      let x ← load items (t-1)
      if o.goesOn v (o.key x) then scanDown o items v h turns (t-1) else .ok (t-1)
    else .ok (t-1)

/-- The loop that partitions around a pivot: the list and both pointers. -/
def partitionLoop (o : Comparing α) (v : α) : ℕ→Array α→ℤ→ℤ→Except SortFault (Array α×ℤ×ℤ)
  | 0,_,_,_ => .error .unfinished
  | turns+1,items,h,t => do
    let h ← scanUp o items v t ((t-h).toNat+1) h
    let t ← scanDown o items v h ((t-h).toNat+1) t
    if t ≤ h then .ok (items,h,t)
    else do
      let items ← swap items h t
      partitionLoop o v turns items h t

/-- A part is partitioned around its last element, which goes between both sides. -/
def partitionAround (o : Comparing α) (items : Array α) (head tail : ℤ) :
    Except SortFault (Array α×ℤ×ℤ) := do
  let pivot ← load items tail
  let (items,h,t) ← partitionLoop o (o.key pivot) ((tail-head).toNat+1) items (head-1) tail
  let items ← swap items h tail
  .ok (items,h,t)

/-- The loop of `mp_quicksort` with its recursive call. -/
def sortLoop (o : Comparing α) (quicksort : Array α→ℤ→ℤ→Except SortFault (Array α)) :
    ℕ→Array α→ℤ→ℤ→Except SortFault (Array α)
  | 0,_,_,_ => .error .unfinished
  | turns+1,items,head,tail =>
    if head < tail then do
      let (items,h,t) ← partitionAround o items head tail
      if t-head < tail-h-1 then do
        let items ← quicksort items head t
        sortLoop o quicksort turns items (h+1) tail
      else do
        let items ← quicksort items (h+1) tail
        sortLoop o quicksort turns items head t
    else .ok items

/-- `mp_quicksort` with the frames left on the stack. -/
def mpQuicksort (o : Comparing α) : ℕ→Array α→ℤ→ℤ→Except SortFault (Array α)
  | 0,_,_,_ => .error .stack
  | frames+1,items,head,tail =>
    sortLoop o (mpQuicksort o frames) ((tail-head).toNat+1) items head tail

/-- `mp_obj_list_sort`. -/
def mpObjListSort (frames : ℕ) (keyFn : Option (α→α)) (less : α→α→Bool) (reverse : Bool)
    (items : Array α) : Except SortFault (Array α) :=
  if 1 < items.size then
    mpQuicksort ({
      keyFn := keyFn
      less := less
      binopLessResult := !reverse }) frames items 0 (items.size-1)
  else .ok items

/-- A comparison by which elements have a place among each other: not being less goes both
ways for equal ones only, and through a third element. -/
structure TotalPreorder (less : α→α→Bool) : Prop where
  /-- Of two elements one is not less. -/
  total : ∀ a b,less a b=false∨less b a=false
  /-- Not being less goes through a third element. -/
  trans : ∀ a b c,less b a=false → less c b=false → less c a=false

/-- Two keys are in order, which is the other way around when the loops go on for no less
ones. -/
def Comparing.Ordered (o : Comparing α) (a b : α) : Prop :=
  if o.binopLessResult then o.less b a=false else o.less a b=false

/-- Two elements whose keys are in order. -/
def Comparing.InOrder (o : Comparing α) (x y : α) : Prop := o.Ordered (o.key x) (o.key y)

section Memory

variable {o : Comparing α} {items : Array α}

/-- An element of the list is loaded. -/
theorem load_eq {i : ℤ} (h : 0 ≤ i∧i < items.size) :
    ∃ x,load items i=.ok x∧items[i.toNat]?=some x := by
  have hlt : i.toNat < items.size := by omega
  refine ⟨items[i.toNat],?_,Array.getElem?_eq_getElem hlt⟩
  rw [load,if_pos h.1,Array.getElem?_eq_getElem hlt]

/-- Two elements of a part of the list are swapped. -/
theorem swap_eq {low high i j : ℤ} (hlow : 0 ≤ low) (hhigh : high < items.size)
    (hi : low ≤ i∧i ≤ high) (hj : low ≤ j∧j ≤ high) :
    ∃ swapped,swap items i j=.ok swapped∧Rearranges low high items swapped∧
      swapped[i.toNat]?=items[j.toNat]?∧swapped[j.toNat]?=items[i.toNat]?∧
      ∀ k : ℕ,(k : ℤ)≠i → (k : ℤ)≠j → swapped[k]?=items[k]? := by
  have hi' : i.toNat < items.size := by omega
  have hj' : j.toNat < items.size := by omega
  refine ⟨items.swap i.toNat j.toNat hi' hj',?_,
    .swap hi' hj' ⟨by omega,by omega⟩ ⟨by omega,by omega⟩,?_,?_,fun k hki hkj => ?_⟩
  · rw [swap,dif_pos (by omega)]
  · rw [Array.getElem?_swap]
    split
    case isTrue h => rw [h,Array.getElem?_eq_getElem hi']
    case isFalse h => rw [if_pos rfl,Array.getElem?_eq_getElem hj']
  · rw [Array.getElem?_swap,if_pos rfl,Array.getElem?_eq_getElem hi']
  · rw [Array.getElem?_swap,if_neg (by omega),if_neg (by omega)]

/-- The pointer going up stops behind elements the loop goes on for. -/
theorem scanUp_eq {v : α} {t : ℤ} (ht : t ≤ items.size) {turns : ℕ} {h : ℤ}
    (hturns : t-h ≤ turns) (hh : -1 ≤ h∧h < t) :
    ∃ h',scanUp o items v t turns h=.ok h'∧h < h'∧h' ≤ t∧
      AllOn (fun x => o.goesOn (o.key x) v=true) (h+1) (h'-1) items∧
      (h' < t → ∀ x∈items[h'.toNat]?,o.goesOn (o.key x) v=false) := by
  induction turns generalizing h with
  | zero => omega
  | succ turns ih =>
    rw [scanUp]
    by_cases hlt : h+1 < t
    · obtain ⟨x,hload,hx⟩ := @load_eq α items (h+1) (by omega)
      rw [if_pos hlt,hload]
      dsimp only [bind,Except.bind]
      by_cases hgoes : o.goesOn (o.key x) v=true
      · obtain ⟨h',hscan,hlow,hhigh,hall,hstop⟩ := ih (h:=h+1) (by omega) (by omega)
        refine ⟨h',by rw [if_pos hgoes,hscan],by omega,hhigh,fun i hi y hy => ?_,hstop⟩
        obtain ⟨hi,hi'⟩ := hi
        by_cases hfirst : (i : ℤ)=h+1
        · obtain rfl : i=(h+1).toNat := by omega
          rw [hx,mem_some] at hy
          rwa [←hy]
        · exact hall i ⟨by omega,hi'⟩ y hy
      · refine ⟨h+1,by rw [if_neg hgoes],by omega,by omega,fun i hi => ?_,fun _ y hy => ?_⟩
        · obtain ⟨hi,hi'⟩ := hi
          omega
        · rw [hx,mem_some] at hy
          rwa [←hy,←Bool.not_eq_true]
    · refine ⟨h+1,by rw [if_neg hlt],by omega,by omega,fun i hi => ?_,fun h' => ?_⟩
      · obtain ⟨hi,hi'⟩ := hi
        omega
      · exact absurd h' hlt

/-- The pointer going down stops in front of elements the loop goes on for, and not below the
other pointer unless it starts there. -/
theorem scanDown_eq {v : α} {h : ℤ} (hh : 0 ≤ h) {turns : ℕ} {t : ℤ} (hturns : t-h ≤ turns)
    (hpos : 0 < turns) (ht : h ≤ t∧t ≤ items.size) :
    ∃ t',scanDown o items v h turns t=.ok t'∧t' < t∧h-1 ≤ t'∧(h < t → h ≤ t')∧
      AllOn (fun x => o.goesOn v (o.key x)=true) (max h t'+1) (t-1) items∧
      (h < t' → ∀ x∈items[t'.toNat]?,o.goesOn v (o.key x)=false) := by
  induction turns generalizing t with
  | zero => omega
  | succ turns ih =>
    rw [scanDown]
    by_cases hlt : h < t-1
    · obtain ⟨x,hload,hx⟩ := @load_eq α items (t-1) (by omega)
      rw [if_pos hlt,hload]
      dsimp only [bind,Except.bind]
      by_cases hgoes : o.goesOn v (o.key x)=true
      · obtain ⟨t',hscan,hlow,hhigh,hin,hall,hstop⟩ := ih (t:=t-1) (by omega) (by omega) (by omega)
        refine ⟨t',by rw [if_pos hgoes,hscan],by omega,hhigh,fun _ => hin hlt,
          fun i hi y hy => ?_,hstop⟩
        obtain ⟨hi,hi'⟩ := hi
        by_cases hfirst : (i : ℤ)=t-1
        · obtain rfl : i=(t-1).toNat := by omega
          rw [hx,mem_some] at hy
          rwa [←hy]
        · exact hall i ⟨hi,by omega⟩ y hy
      · refine ⟨t-1,by rw [if_neg hgoes],by omega,by omega,fun _ => by omega,fun i hi => ?_,
          fun _ y hy => ?_⟩
        · obtain ⟨hi,hi'⟩ := hi
          omega
        · rw [hx,mem_some] at hy
          rwa [←hy,←Bool.not_eq_true]
    · refine ⟨t-1,by rw [if_neg hlt],by omega,by omega,fun _ => by omega,fun i hi => ?_,
        fun h' => ?_⟩
      · obtain ⟨hi,hi'⟩ := hi
        omega
      · exact absurd h' hlt

end Memory

section Order

variable {o : Comparing α}

/-- The loops go on for keys that are in order. -/
theorem ordered_of_goesOn (hless : TotalPreorder o.less) {a b : α} (h : o.goesOn a b=true) :
    o.Ordered a b := by
  have htotal := hless.total a b
  rw [Comparing.goesOn,beq_iff_eq] at h
  rw [Comparing.Ordered,←h]
  split
  case isTrue htrue => simpa only [htrue,Bool.true_eq_false,false_or] using htotal
  case isFalse hfalse => exact Bool.eq_false_iff.mpr hfalse

/-- They stop at keys that are in order the other way around. -/
theorem ordered_of_not_goesOn (hless : TotalPreorder o.less) {a b : α}
    (h : o.goesOn a b=false) : o.Ordered b a := by
  have htotal := hless.total a b
  rw [Comparing.goesOn,beq_eq_false_iff_ne] at h
  rw [Comparing.Ordered]
  cases hresult : o.binopLessResult <;> cases hab : o.less a b <;> simp_all

/-- The order goes through a third key. -/
theorem ordered_trans (hless : TotalPreorder o.less) {a b c : α} (h : o.Ordered a b)
    (h' : o.Ordered b c) : o.Ordered a c := by
  rw [Comparing.Ordered] at h h' ⊢
  split
  case isTrue htrue =>
    rw [if_pos htrue] at h h'
    exact hless.trans a b c h h'
  case isFalse hfalse =>
    rw [if_neg hfalse] at h h'
    exact hless.trans c b a h' h

/-- A key is in order with itself. -/
theorem ordered_refl (hless : TotalPreorder o.less) (a : α) : o.Ordered a a := by
  have hself : o.less a a=false := (hless.total a a).elim id id
  rw [Comparing.Ordered,hself,ite_self]

/-- What is known of the elements in front of the pivot. -/
def Comparing.Low (o : Comparing α) (v x : α) : Prop :=
  o.goesOn (o.key x) v=true∨o.goesOn v (o.key x)=false∨o.key x=v

/-- What is known of the elements behind the pivot. -/
def Comparing.High (o : Comparing α) (v x : α) : Prop :=
  o.goesOn v (o.key x)=true∨o.goesOn (o.key x) v=false∨o.key x=v

/-- The elements on both sides of the pivot are in order. -/
theorem inOrder_of_sides (hless : TotalPreorder o.less) {v x y : α} (hx : o.Low v x)
    (hy : o.High v y) : o.InOrder x y := by
  have hlow : o.Ordered (o.key x) v := by
    obtain hgoes | hstops | heq := hx
    · exact ordered_of_goesOn hless hgoes
    · exact ordered_of_not_goesOn hless hstops
    · rw [heq]
      exact ordered_refl hless v
  have hhigh : o.Ordered v (o.key y) := by
    obtain hgoes | hstops | heq := hy
    · exact ordered_of_goesOn hless hgoes
    · exact ordered_of_not_goesOn hless hstops
    · rw [heq]
      exact ordered_refl hless v
  exact ordered_trans hless hlow hhigh

end Order

section Partition

variable {o : Comparing α} {items : Array α} {head tail : ℤ}

/-- The loop brings the elements to their sides of the pivot. -/
theorem partitionLoop_eq {v : α} (hhead : 0 ≤ head) (htail : tail < items.size) {turns : ℕ}
    {h t : ℤ} (hturns : t-h ≤ turns) (hh : head ≤ h+1∧h < t∧t ≤ tail)
    (hlow : AllOn (o.Low v) head h items) (hhigh : AllOn (o.High v) t (tail-1) items) :
    ∃ parted h' t',partitionLoop o v turns items h t=.ok (parted,h',t')∧
      Rearranges head (tail-1) items parted∧(head ≤ h'∧h' ≤ tail)∧
      (h'-1 ≤ t'∧t' ≤ h'∧t' < tail)∧AllOn (o.Low v) head (h'-1) parted∧
      AllOn (o.High v) h' (tail-1) parted := by
  induction turns generalizing items h t with
  | zero => omega
  | succ turns ih =>
    obtain ⟨h',hup,hlt,hle,hpassed,hstop⟩ := @scanUp_eq α o items v t (by omega)
      ((t-h).toNat+1) h (by omega) (by omega)
    obtain ⟨t',hdown,hlt',hge,hin,hpassed',hstop'⟩ := @scanDown_eq α o items v h' (by omega)
      ((t-h').toNat+1) t (by omega) (by omega) (by omega)
    -- What both pointers have passed is on its side, and the element the upper one stops at
    -- belongs to the other side.
    have hfront : AllOn (o.Low v) head (h'-1) items := by
      intro i hi x hx
      obtain ⟨hi,hi'⟩ := hi
      by_cases hold : (i : ℤ) ≤ h
      · exact hlow i ⟨hi,hold⟩ x hx
      · exact .inl (hpassed i ⟨by omega,hi'⟩ x hx)
    have hback : AllOn (o.High v) (max h' t'+1) (tail-1) items := by
      intro i hi x hx
      obtain ⟨hi,hi'⟩ := hi
      by_cases hold : t ≤ i
      · exact hhigh i ⟨hold,hi'⟩ x hx
      · exact .inl (hpassed' i ⟨hi,by omega⟩ x hx)
    have hstopped : h' < tail → ∀ x∈items[h'.toNat]?,o.High v x := by
      intro hend x hx
      by_cases hinner : h' < t
      · exact .inr (.inl (hstop hinner x hx))
      · exact hhigh h'.toNat ⟨by omega,by omega⟩ x hx
    rw [partitionLoop,hup]
    dsimp only [bind,Except.bind]
    rw [hdown]
    dsimp only
    by_cases hmet : t' ≤ h'
    · refine ⟨items,h',t',by rw [if_pos hmet],.refl _ _ _,by omega,by omega,hfront,?_⟩
      intro i hi x hx
      obtain ⟨hi,hi'⟩ := hi
      by_cases hfirst : (i : ℤ)=h'
      · obtain rfl : i=h'.toNat := by omega
        exact hstopped (by omega) x hx
      · exact hback i ⟨by omega,hi'⟩ x hx
    · obtain ⟨swapped,hswap,hre,hleft,hright,hother⟩ := @swap_eq α items head (tail-1) h' t'
        hhead (by omega) (by omega) (by omega)
      have hsize := hre.size
      have hlow' : AllOn (o.Low v) head h' swapped := by
        intro i hi x hx
        obtain ⟨hi,hi'⟩ := hi
        by_cases hlast : (i : ℤ)=h'
        · obtain rfl : i=h'.toNat := by omega
          rw [hleft] at hx
          exact .inr (.inl (hstop' (by omega) x hx))
        · rw [hother i hlast (by omega)] at hx
          exact hfront i ⟨hi,by omega⟩ x hx
      have hhigh' : AllOn (o.High v) t' (tail-1) swapped := by
        intro i hi x hx
        obtain ⟨hi,hi'⟩ := hi
        by_cases hfirst : (i : ℤ)=t'
        · obtain rfl : i=t'.toNat := by omega
          rw [hright] at hx
          exact hstopped (by omega) x hx
        · rw [hother i (by omega) hfirst] at hx
          exact hback i ⟨by omega,hi'⟩ x hx
      obtain ⟨parted,h'',t'',hloop,hre',hrest⟩ := @ih swapped (by omega) h' t' (by omega)
        (by omega) hlow' hhigh'
      refine ⟨parted,h'',t'',?_,hre.trans hre',hrest⟩
      rw [if_neg hmet,hswap]
      exact hloop

/-- The list has been parted: the elements up to the pivot and those from behind the lower
side on. -/
structure Parted (o : Comparing α) (v : α) (head tail h t : ℤ) (items : Array α) : Prop where
  pivot : head ≤ h∧h ≤ tail
  /-- The lower side ends at the pivot or in front of it. -/
  lower : h-1 ≤ t∧t ≤ h∧t < tail
  /-- The elements up to the pivot. -/
  low : AllOn (o.Low v) head h items
  /-- The elements behind the lower side. -/
  high : AllOn (o.High v) (t+1) tail items

/-- A part is parted around its last element. -/
theorem partitionAround_eq (hhead : 0 ≤ head) (htail : tail < items.size) (hlt : head < tail) :
    ∃ parted h t v,partitionAround o items head tail=.ok (parted,h,t)∧
      Rearranges head tail items parted∧Parted o v head tail h t parted := by
  obtain ⟨pivot,hload,hpivot⟩ := @load_eq α items tail (by omega)
  obtain ⟨looped,h,t,hloop,hre,hh,ht,hlow,hhigh⟩ := @partitionLoop_eq α o items head tail
    (o.key pivot) hhead htail ((tail-head).toNat+1) (head-1) tail (by omega) (by omega)
    (fun i hi => by
      obtain ⟨hi,hi'⟩ := hi
      omega)
    (fun i hi => by
      obtain ⟨hi,hi'⟩ := hi
      omega)
  have hsize := hre.size
  have hre' := hre.widen (Int.le_refl head) (show tail-1 ≤ tail by omega)
  have hlast : looped[tail.toNat]?=some pivot := by
    rw [hre.outside tail.toNat fun hin => by
      obtain ⟨-,hin⟩ := hin
      omega]
    exact hpivot
  obtain ⟨parted,hswap,hre'',hmid,hend,hother⟩ := @swap_eq α looped head tail h tail hhead
    (by omega) hh (by omega)
  refine ⟨parted,h,t,o.key pivot,?_,hre'.trans hre'',hh,ht,?_,?_⟩
  · rw [partitionAround,hload]
    dsimp only [bind,Except.bind]
    rw [hloop]
    dsimp only
    rw [hswap]
  · intro i hi x hx
    obtain ⟨hi,hi'⟩ := hi
    by_cases hpos : (i : ℤ)=h
    · obtain rfl : i=h.toNat := by omega
      rw [hmid,hlast,mem_some] at hx
      exact .inr (.inr (by rw [hx]))
    · rw [hother i hpos (by omega)] at hx
      exact hlow i ⟨hi,by omega⟩ x hx
  · intro i hi x hx
    obtain ⟨hi,hi'⟩ := hi
    by_cases hpos : (i : ℤ)=h
    · obtain rfl : i=h.toNat := by omega
      rw [hmid,hlast,mem_some] at hx
      exact .inr (.inr (by rw [hx]))
    · by_cases hback : (i : ℤ)=tail
      · obtain rfl : i=tail.toNat := by omega
        rw [hend] at hx
        exact hhigh h.toNat ⟨by omega,by omega⟩ x hx
      · rw [hother i hpos hback] at hx
        exact hhigh i ⟨by omega,by omega⟩ x hx

theorem Parted.lowerSide {v : α} {h t : ℤ} {sorted : Array α}
    (hparted : Parted o v head tail h t items) (hre : Rearranges head t items sorted) :
    Parted o v head tail h t sorted where
  pivot := hparted.pivot
  lower := hparted.lower
  low := hparted.low.rearranges hre (Int.le_refl _) hparted.lower.2.1
  high := hparted.high.apart hre (.inl (Int.lt_succ t))

/-- So does sorting the upper side. -/
theorem Parted.upperSide {v : α} {h t : ℤ} {sorted : Array α}
    (hparted : Parted o v head tail h t items) (hre : Rearranges (h+1) tail items sorted) :
    Parted o v head tail h t sorted where
  pivot := hparted.pivot
  lower := hparted.lower
  low := hparted.low.apart hre (.inr (Int.lt_succ h))
  high := hparted.high.rearranges hre (by
    have hlower := hparted.lower
    omega) (Int.le_refl _)

theorem Parted.sorted {v : α} {h t : ℤ} (hless : TotalPreorder o.less)
    (hparted : Parted o v head tail h t items) (hlower : SortedOn o.InOrder head t items)
    (hupper : SortedOn o.InOrder (h+1) tail items) : SortedOn o.InOrder head tail items :=
  .join (fun _ _ hx hy => inOrder_of_sides hless hx hy) hlower hupper
    (hparted.low.narrow (Int.le_refl _) (by omega)) hparted.high

end Partition

section Recursion

variable {o : Comparing α}

/-- The part of a list has been sorted. -/
structure Sorted (o : Comparing α) (head tail : ℤ) (items sorted : Array α) : Prop where
  /-- It is the same elements in another order. -/
  rearranges : Rearranges head tail items sorted
  /-- They are in order when the comparison gives them a place. -/
  inOrder : TotalPreorder o.less → SortedOn o.InOrder head tail sorted

/-- A function sorts every part for which the frames are enough. -/
def Sorts (o : Comparing α) (frames : ℕ)
    (quicksort : Array α→ℤ→ℤ→Except SortFault (Array α)) : Prop :=
  ∀ items head tail,0 ≤ head → head ≤ tail+1 → tail < items.size →
    Nat.log 2 (tail-head+1).toNat < frames →
    ∃ sorted,quicksort items head tail=.ok sorted∧Sorted o head tail items sorted

/-- At most half of the elements need one frame less. -/
theorem log_half_lt {m n frames : ℕ} (hn : 2 ≤ n) (hm : 2*m ≤ n)
    (hframes : Nat.log 2 n < frames+1) : Nat.log 2 m < frames := by
  have hhalf : Nat.log 2 m ≤ Nat.log 2 (n/2) := log_mono_right (by omega)
  have hpos : 0 < Nat.log 2 n := log_pos (by decide) hn
  rw [log_div_base] at hhalf
  omega

/-- The loop sorts a part when its recursive call sorts every part of half of the size. -/
theorem sortLoop_sorts {quicksort : Array α→ℤ→ℤ→Except SortFault (Array α)} {frames : ℕ}
    (hquicksort : Sorts o frames quicksort) {turns : ℕ} {items : Array α} {head tail : ℤ}
    (hturns : tail-head < turns) (hpos : 0 < turns) (hhead : 0 ≤ head) (hle : head ≤ tail+1)
    (htail : tail < items.size) (hframes : Nat.log 2 (tail-head+1).toNat < frames+1) :
    ∃ sorted,sortLoop o quicksort turns items head tail=.ok sorted∧
      Sorted o head tail items sorted := by
  induction turns generalizing items head tail with
  | zero => omega
  | succ turns ih =>
    rw [sortLoop]
    by_cases hlt : head < tail
    · obtain ⟨parted,h,t,v,hpart,hre,hparted⟩ := partitionAround_eq hhead htail hlt
      obtain ⟨hpivot,hpivot'⟩ := hparted.pivot
      obtain ⟨hlower,hlower',hlower''⟩ := hparted.lower
      have hsize := hre.size
      rw [if_pos hlt,hpart]
      dsimp only [bind,Except.bind]
      by_cases hsmall : t-head < tail-h-1
      · have hhalf : Nat.log 2 (t-head+1).toNat < frames :=
          log_half_lt (n:=(tail-head+1).toNat) (by omega) (by omega) hframes
        have hmost : Nat.log 2 (tail-(h+1)+1).toNat ≤ Nat.log 2 (tail-head+1).toNat :=
          log_mono_right (by omega)
        obtain ⟨lower,hcall,hsorted⟩ := hquicksort parted head t hhead (by omega) (by omega) hhalf
        have hsize' := hsorted.rearranges.size
        obtain ⟨upper,hloop,hsorted'⟩ := @ih lower (h+1) tail (by omega) (by omega) (by omega)
          (by omega) (by omega) (by omega)
        have hparted' := (hparted.lowerSide hsorted.rearranges).upperSide hsorted'.rearranges
        refine ⟨upper,?_,?_,fun hless => ?_⟩
        · rw [if_pos hsmall,hcall]
          exact hloop
        · exact (hre.trans (hsorted.rearranges.widen (Int.le_refl _) (by omega))).trans
            (hsorted'.rearranges.widen (by omega) (Int.le_refl _))
        · exact hparted'.sorted hless
            ((hsorted.inOrder hless).apart hsorted'.rearranges (.inr (by omega)))
            (hsorted'.inOrder hless)
      · have hhalf : Nat.log 2 (tail-(h+1)+1).toNat < frames :=
          log_half_lt (n:=(tail-head+1).toNat) (by omega) (by omega) hframes
        have hmost : Nat.log 2 (t-head+1).toNat ≤ Nat.log 2 (tail-head+1).toNat :=
          log_mono_right (by omega)
        obtain ⟨upper,hcall,hsorted⟩ := hquicksort parted (h+1) tail (by omega) (by omega)
          (by omega) hhalf
        have hsize' := hsorted.rearranges.size
        obtain ⟨lower,hloop,hsorted'⟩ := @ih upper head t (by omega) (by omega) hhead
          (by omega) (by omega) (by omega)
        have hparted' := (hparted.upperSide hsorted.rearranges).lowerSide hsorted'.rearranges
        refine ⟨lower,?_,?_,fun hless => ?_⟩
        · rw [if_neg hsmall,hcall]
          exact hloop
        · exact (hre.trans (hsorted.rearranges.widen (by omega) (Int.le_refl _))).trans
            (hsorted'.rearranges.widen (Int.le_refl _) (by omega))
        · exact hparted'.sorted hless (hsorted'.inOrder hless)
            ((hsorted.inOrder hless).apart hsorted'.rearranges (.inl (by omega)))
    · rw [if_neg hlt]
      exact ⟨items,rfl,.refl _ _ _,fun _ => .of_le (by omega)⟩

/-- Sorting a part needs one frame more than the logarithm of its size. -/
theorem mpQuicksort_sorts (o : Comparing α) (frames : ℕ) :
    Sorts o frames (mpQuicksort o frames) := by
  induction frames with
  | zero =>
    intro items head tail hhead hle htail hframes
    exact absurd hframes (not_lt_zero _)
  | succ frames ih =>
    intro items head tail hhead hle htail hframes
    exact sortLoop_sorts ih (by omega) (succ_pos _) hhead hle htail hframes

/-- What sorting a list gives. -/
structure ListSorted (keyFn : Option (α→α)) (less : α→α→Bool) (reverse : Bool)
    (items sorted : Array α) : Prop where
  /-- The elements are those of the list. -/
  perm : sorted.toList.Perm items.toList
  /-- No element has a key less than that of an earlier one, nor greater in reverse. -/
  inOrder : sorted.toList.Pairwise fun x y =>
    let key := fun x : α => keyFn.elim x fun keyFn => keyFn x
    if reverse then less (key x) (key y)=false else less (key y) (key x)=false

/-- A list is sorted, without the use of an element outside of it and with a call for each
halving of its length at most. -/
theorem mpObjListSort_sorts {keyFn : Option (α→α)} {less : α→α→Bool} {reverse : Bool}
    {items : Array α} {frames : ℕ} (hless : TotalPreorder less)
    (hframes : Nat.log 2 items.size < frames) :
    ∃ sorted,mpObjListSort frames keyFn less reverse items=.ok sorted∧
      ListSorted keyFn less reverse items sorted := by
  rw [mpObjListSort]
  by_cases hlen : 1 < items.size
  · rw [if_pos hlen]
    have hpart : ((items.size : ℤ)-1-0+1).toNat=items.size := by omega
    obtain ⟨sorted,hcall,hsorted⟩ := mpQuicksort_sorts ({
      keyFn := keyFn
      less := less
      binopLessResult := !reverse }) frames items 0 (items.size-1) (by omega) (by omega)
      (by omega) (by rw [hpart]; exact hframes)
    have hsize := hsorted.rearranges.size
    have hinOrder := hsorted.inOrder hless
    rw [←hsize] at hinOrder
    refine ⟨sorted,hcall,Array.perm_iff_toList_perm.mp hsorted.rearranges.perm,
      hinOrder.pairwise.imp fun {x y} hxy => ?_⟩
    cases keyFn <;> cases reverse <;> exact hxy
  · rw [if_neg hlen]
    have hshort : (items.size : ℤ)-1 ≤ 0 := by omega
    exact ⟨items,rfl,.refl _,(SortedOn.of_le hshort).pairwise⟩

/-- Three numbers sorted by their last digits with two frames, the highest digit first. -/
theorem lastDigits_sorted :
    ∃ sorted,mpObjListSort 2 (some (·%10)) (fun a b : ℕ => decide (a < b)) true #[31,12,23]=
        .ok sorted∧
      ListSorted (some (·%10)) (fun a b : ℕ => decide (a < b)) true #[31,12,23] sorted :=
  mpObjListSort_sorts ({
    total := fun a b => by
      simp only [decide_eq_false_iff_not]
      omega
    trans := fun a b c => by
      simp only [decide_eq_false_iff_not]
      omega }) (by decide)

end Recursion

end MicroPython.ListSort
