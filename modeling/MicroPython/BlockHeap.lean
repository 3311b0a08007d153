import Mathlib.Data.List.Pairwise
import Mathlib.Tactic.Common

/-!
# Blocks of memory

An allocator holds blocks of cells that do not overlap. It is asked for a block, to
make one larger or smaller where it is, and to free one. Before it hands out a block it
may collect others, but none that is still in use. What it answers is its own choice, as
long as a new block overlaps none that it holds.
-/

namespace MicroPython.BlockHeap

open List

/-- Cells in a row. -/
structure Block where
  /-- The first cell. -/
  head : ℕ
  /-- How many cells there are. -/
  size : ℕ
deriving DecidableEq

namespace Block

/-- No cell is in both blocks. -/
def Apart (a b : Block) : Prop := a.head+a.size≤b.head∨b.head+b.size≤a.head

/-- Whether blocks overlap can be computed. -/
instance (a b : Block) : Decidable (a.Apart b) := inferInstanceAs (Decidable (_∨_))

/-- All cells of the first block are in the second. -/
def Inside (a b : Block) : Prop := b.head≤a.head∧a.head+a.size≤b.head+b.size

variable {a b c d : Block}

/-- The order of the blocks does not matter. -/
theorem Apart.symm (h : a.Apart b) : b.Apart a := Or.symm h

/-- Being apart is symmetric. -/
instance : Std.Symm Apart := ⟨fun _ _ h => h.symm⟩

theorem Inside.refl (a : Block) : a.Inside a := ⟨Nat.le_refl _,Nat.le_refl _⟩

theorem Apart.inside (h : a.Apart b) (ha : c.Inside a) (hb : d.Inside b) : c.Apart d := by
  unfold Apart Inside at *
  omega

theorem not_apart_of_head (ha : 0<a.size) (hb : 0<b.size) (h : a.head=b.head) : ¬a.Apart b := by
  unfold Apart
  omega

end Block

/-- The blocks that an allocator holds. -/
structure Heap where
  /-- The blocks, the newest first. -/
  blocks : List Block
  /-- No two blocks overlap. -/
  apart : blocks.Pairwise Block.Apart
  /-- Every block has a cell. -/
  sized : ∀ b∈blocks,0<b.size

/-- What an allocator does when it is asked for a block. -/
structure Answer where
  /-- The heads of the blocks that it collects before, if they are not in use. -/
  freed : List ℕ
  /-- Where the new block begins, if there is one. -/
  head : Option ℕ

namespace Heap

variable {h h' : Heap} {live : List ℕ} {a : Answer} {b c : Block} {n p : ℕ}

/-- A heap without blocks. -/
def empty : Heap where
  blocks := []
  apart := List.Pairwise.nil
  sized := fun _ hb => absurd hb List.not_mem_nil

/-- Some of the blocks. -/
def keep (h : Heap) (kept : Block→Bool) : Heap where
  blocks := h.blocks.filter kept
  apart := h.apart.filter kept
  sized := fun b hb => h.sized b (List.mem_filter.mp hb).1

/-- One more block. -/
def add (h : Heap) (b : Block) (hb : 0<b.size) (hapart : ∀ c∈h.blocks,b.Apart c) : Heap where
  blocks := b::h.blocks
  apart := List.pairwise_cons.mpr ⟨hapart,h.apart⟩
  sized := List.forall_mem_cons.mpr ⟨hb,h.sized⟩

/-- A block is given back. -/
def free (h : Heap) (p : ℕ) : Heap := h.keep fun b => decide (b.head≠p)

/-- Blocks are collected, except for those in use. -/
def collect (h : Heap) (live freed : List ℕ) : Heap :=
  h.keep fun b => decide (b.head∈live∨b.head∉freed)

/-- The allocator is asked for a block of a size. There is none where the answer would
overlap a block that is held. -/
def alloc (h : Heap) (live : List ℕ) (a : Answer) (n : ℕ) : Heap×Option ℕ :=
  let rest := h.collect live a.freed
  match a.head with
  | none => (rest,none)
  | some p =>
    if hfit : 0<n∧∀ c∈rest.blocks,Block.Apart ⟨p,n⟩ c then
      (rest.add ⟨p,n⟩ hfit.1 hfit.2,some p)
    else (rest,none)

/-- The allocator is asked to change the size of a block where it is. -/
def resize (h : Heap) (p n : ℕ) : Option Heap :=
  let rest := h.free p
  if hfit : 0<n∧∀ c∈rest.blocks,Block.Apart ⟨p,n⟩ c then
    if h.blocks.any (fun b => b.head=p) then some (rest.add ⟨p,n⟩ hfit.1 hfit.2) else none
  else none

theorem mem_keep {kept : Block→Bool} : b∈(h.keep kept).blocks↔b∈h.blocks∧kept b=true :=
  mem_filter

/-- Freeing a block leaves all others. -/
theorem mem_free : b∈(h.free p).blocks↔b∈h.blocks∧b.head≠p := by
  rw [free,mem_keep,decide_eq_true_iff]

theorem mem_collect_of_live {freed : List ℕ} (hb : b∈h.blocks) (hlive : b.head∈live) :
    b∈(h.collect live freed).blocks := by
  rw [collect,mem_keep,decide_eq_true_iff]
  exact ⟨hb,.inl hlive⟩

/-- Different blocks do not overlap. -/
theorem apart_of_ne (hb : b∈h.blocks) (hc : c∈h.blocks) (hne : b≠c) : b.Apart c :=
  h.apart.forall hb hc hne

theorem eq_of_head (hb : b∈h.blocks) (hc : c∈h.blocks) (hhead : b.head=c.head) : b=c := by
  by_contra hne
  exact Block.not_apart_of_head (h.sized b hb) (h.sized c hc) hhead (apart_of_ne hb hc hne)

/-- A block in use stays when another is asked for. -/
theorem mem_alloc_of_live (hb : b∈h.blocks) (hlive : b.head∈live) :
    b∈(h.alloc live a n).1.blocks := by
  have hrest : b∈(h.collect live a.freed).blocks := mem_collect_of_live hb hlive
  unfold alloc
  split
  · exact hrest
  · dsimp only
    split
    · exact mem_cons_of_mem _ hrest
    · exact hrest

theorem alloc_some (h' : (h.alloc live a n).2=some p) : ⟨p,n⟩∈(h.alloc live a n).1.blocks∧
      ∀ b∈h.blocks,b.head∈live → Block.Apart ⟨p,n⟩ b := by
  unfold alloc at h' ⊢
  split at h'
  · cases h'
  · dsimp only at h' ⊢
    split at h'
    case isFalse => cases h'
    case isTrue hfit =>
      cases h'
      rw [dif_pos hfit]
      exact ⟨mem_cons_self,fun b hb hlive => hfit.2 b (mem_collect_of_live hb hlive)⟩

/-- A block of another size is apart from all others, which stay. -/
theorem resize_some (h' : h.resize p n=some c') :
    ⟨p,n⟩∈c'.blocks∧∀ b∈h.blocks,b.head≠p → b∈c'.blocks∧Block.Apart ⟨p,n⟩ b := by
  unfold resize at h'
  dsimp only at h'
  split at h'
  case isFalse => cases h'
  case isTrue hfit =>
    split at h'
    case isFalse => cases h'
    case isTrue =>
      cases h'
      refine ⟨mem_cons_self,fun b hb hne => ?_⟩
      have hrest : b∈(h.free p).blocks := mem_free.mpr ⟨hb,hne⟩
      exact ⟨mem_cons_of_mem _ hrest,hfit.2 b hrest⟩

end Heap

section Cells

variable {α : Type} {mem : ℕ→α}

/-- Cells in a row get new values. -/
def store (mem : ℕ→α) (p : ℕ) (xs : List α) : ℕ→α := fun i =>
  if p ≤ i then (xs[i-p]?).getD (mem i) else mem i

/-- The values of cells in a row. -/
def load (mem : ℕ→α) (p n : ℕ) : List α := (List.range n).map fun i => mem (p+i)

/-- How many values are read. -/
@[simp]
theorem length_load (p n : ℕ) : (load mem p n).length=n := by
  rw [load,length_map,length_range]

/-- One of the values that are read. -/
theorem getElem?_load {p n i : ℕ} (hi : i<n) : (load mem p n)[i]?=some (mem (p+i)) := by
  rw [load,List.getElem?_map,List.getElem?_range hi,Option.map_some]

/-- What was stored is read. -/
theorem load_store (p : ℕ) (xs : List α) : load (store mem p xs) p xs.length=xs := by
  refine ext_getElem (length_load p xs.length) fun i hi hi' => ?_
  refine Option.some.inj ?_
  rw [←List.getElem?_eq_getElem hi,getElem?_load hi',store,if_pos (Nat.le_add_right p i),
    Nat.add_sub_cancel_left,List.getElem?_eq_getElem hi',Option.getD_some]

/-- Cells are stored one row after the other. -/
theorem store_store (p : ℕ) (xs ys : List α) :
    store (store mem p xs) (p+xs.length) ys=store mem p (xs++ys) := by
  funext i
  unfold store
  by_cases hp : p ≤ i
  · rw [if_pos hp,if_pos hp]
    by_cases hq : p+xs.length ≤ i
    · have hle : xs.length ≤ i-p := by omega
      have hsub : i-(p+xs.length)=i-p-xs.length := by omega
      rw [if_pos hq,List.getElem?_append_right hle,hsub,List.getElem?_eq_none hle,Option.getD_none]
    · have hlt : i-p<xs.length := by omega
      rw [if_neg hq,List.getElem?_append_left hlt]
  · have hq : ¬p+xs.length ≤ i := by omega
    rw [if_neg hp,if_neg hp,if_neg hq]

/-- Cells are read one row after the other. -/
theorem load_add (p m n : ℕ) : load mem p (m+n)=load mem p m++load mem (p+m) n := by
  rw [load,range_add,map_append,map_map]
  refine congrArg _ (map_congr_left fun i _ => ?_)
  rw [Function.comp_apply,Nat.add_assoc]

/-- Cells apart from those that are stored stay. -/
theorem store_of_apart {p i : ℕ} {xs : List α} (h : i<p∨p+xs.length ≤ i) :
    store mem p xs i=mem i := by
  unfold store
  split
  case isFalse => rfl
  case isTrue hle =>
    have hout : xs.length ≤ i-p := by omega
    rw [List.getElem?_eq_none hout,Option.getD_none]

/-- Reading cells apart from those that are stored. -/
theorem load_store_of_apart {p q n : ℕ} {xs : List α}
    (h : Block.Apart ⟨p,xs.length⟩ ⟨q,n⟩) : load (store mem p xs) q n=load mem q n := by
  refine map_congr_left fun i hi => store_of_apart ?_
  have hlt := mem_range.mp hi
  unfold Block.Apart at h
  dsimp only at h
  omega

end Cells

end MicroPython.BlockHeap
