import Mathlib.Data.List.Nodup
import Mathlib.Data.List.Infix

/-!
# Interning pools

A pool holds distinct items and numbers them from one in the order in which
they came. Interning an item gives its number and adds it when it is new.
Pools only grow at the end, so a number once given stays.
-/

namespace MicroPython.Interning

open List

variable {α : Type}

/-- Distinct items, numbered from one. -/
structure Pool (α : Type) where
  /-- The items, oldest first. -/
  items : List α
  /-- No item has two numbers. -/
  nodup : items.Nodup

namespace Pool

theorem eq_of_items {p q : Pool α} (h : p.items=q.items) : p=q := by
  cases p
  cases q
  simp only [mk.injEq]
  exact h

/-- A pool is below those that it can grow to. -/
instance : Preorder (Pool α) where
  le p q := p.items<+:q.items
  le_refl p := List.prefix_rfl
  le_trans p q r hpq hqr := hpq.trans hqr

theorem le_iff {p q : Pool α} : p≤q↔p.items<+:q.items := Iff.rfl

theorem mem_of_le {p q : Pool α} (h : p≤q) {a : α} (ha : a∈p.items) : a∈q.items :=
  (le_iff.mp h).subset ha

variable [DecidableEq α]

/-- The number of an item of the pool. -/
def number (p : Pool α) (a : α) : ℕ := p.items.idxOf a+1

/-- The item with a number. Zero is no item's number. -/
def item (p : Pool α) : ℕ→Option α
  | 0 => none
  | n+1 => p.items[n]?

/-- Interning: a new item goes to the end. -/
def intern (p : Pool α) (a : α) : Pool α :=
  if h : a∈p.items then p
  else ⟨p.items++[a],List.nodup_append.mpr ⟨p.nodup,List.nodup_singleton a,by
    intro x hx y hy
    rw [List.mem_singleton.mp hy]
    exact fun hxy => h (hxy▸hx)⟩⟩

/-- Interning several items, one after the other. -/
def internAll (p : Pool α) (as : List α) : Pool α := as.foldl intern p

variable (p : Pool α) (a : α)

/-- Interning grows the pool. -/
theorem le_intern : p≤p.intern a := by
  rw [le_iff,intern]
  split
  · exact prefix_rfl
  · exact prefix_append p.items [a]

/-- What is interned is in the pool. -/
theorem mem_intern : a∈(p.intern a).items := by
  rw [intern]
  split
  case isTrue h => exact h
  case isFalse h => exact mem_append_right _ (mem_singleton.mpr rfl)

/-- The first item is interned first. -/
@[simp]
theorem internAll_cons (as : List α) :
    p.internAll (a::as)=(p.intern a).internAll as := rfl

/-- Items are interned in their order. -/
theorem internAll_append (as bs : List α) :
    p.internAll (as++bs)=(p.internAll as).internAll bs := foldl_append

/-- Interning several items grows the pool. -/
theorem le_internAll (as : List α) : p≤p.internAll as := by
  induction as generalizing p with
  | nil => exact le_refl p
  | cons a as ih =>
    have hfirst := le_intern p a
    exact le_trans hfirst (ih (p.intern a))

theorem mem_internAll {as : List α} {a : α} (ha : a∈as) :
    a∈(p.internAll as).items := by
  induction as generalizing p with
  | nil => exact absurd ha not_mem_nil
  | cons b as ih =>
    rcases mem_cons.mp ha with heq | hrest
    · have hfirst := mem_intern p b
      have hgrow := le_internAll (p.intern b) as
      rw [heq]
      exact mem_of_le hgrow hfirst
    · exact ih (p.intern b) hrest

/-- A number once given stays. -/
theorem number_eq_of_le {p q : Pool α} (h : p≤q) {a : α} (ha : a∈p.items) :
    q.number a=p.number a := by
  obtain ⟨more,hmore⟩ := le_iff.mp h
  rw [number,number,←hmore,idxOf_append_of_mem ha]

theorem number_of_getElem? {p : Pool α} {i : ℕ} {a : α} (h : p.items[i]?=some a) :
    p.number a=i+1 := by
  obtain ⟨hlt,heq⟩ := List.getElem?_eq_some_iff.mp h
  rw [number,←heq,p.nodup.idxOf_getElem i hlt]

theorem item_number {p : Pool α} {a : α} (ha : a∈p.items) : p.item (p.number a)=some a := by
  rw [number,item]
  have hlt := idxOf_lt_length_of_mem ha
  rw [List.getElem?_eq_getElem hlt,getElem_idxOf hlt]

end Pool

end MicroPython.Interning
