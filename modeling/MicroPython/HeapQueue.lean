import MicroPython.BinaryHeap

/-!
# The heap queue

`uheapq` keeps a list as a binary heap. An item that sinks travels to a leaf first and rises from
there again. With a comparison that belongs to a total preorder, every list becomes a heap of its
items, and taking the first item away again and again sorts them.
-/

namespace MicroPython.HeapQueue

open BinaryHeap

variable {α : Type}

/-- Why the functions end early. -/
inductive HeapError where
  /-- `IndexError: empty heap` -/
  | emptyHeap
  deriving DecidableEq

/-- `heap_siftdown` -/
def heapSiftdown (less : α→α→Bool) (heap : List α) (startPos pos : ℕ) : List α :=
  match heap[pos]? with
  | none => heap
  | some item => siftDown less item startPos heap pos

/-- `heap_siftup` -/
def heapSiftup (less : α→α→Bool) (heap : List α) (pos : ℕ) : List α := siftUp less heap pos

/-- `mod_uheapq_heappush` -/
def heappush (less : α→α→Bool) (heap : List α) (item : α) : List α :=
  heapSiftdown less (heap++[item]) 0 heap.length

/-- `mod_uheapq_heappop`, with the item that it returns. -/
def heappop (less : α→α→Bool) (heap : List α) : Except HeapError (α×List α) :=
  match heap.head?,heap.getLast? with
  | some item,some last =>
    let rest := (heap.set 0 last).dropLast
    .ok (item,if rest.length=0 then rest else heapSiftup less rest 0)
  | _,_ => .error .emptyHeap

/-- The loop of `mod_uheapq_heapify`, before the place where it continues. -/
def heapifyLoop (less : α→α→Bool) : ℕ→List α→List α
  | 0,heap => heap
  | i+1,heap => heapifyLoop less i (heapSiftup less heap i)

/-- `mod_uheapq_heapify` -/
def heapify (less : α→α→Bool) (heap : List α) : List α := heapifyLoop less (heap.length/2) heap

/-- A program takes as many items away. -/
def popAll (less : α→α→Bool) : ℕ→List α→Except HeapError (List α)
  | 0,_ => .ok []
  | n+1,heap => (heappop less heap).bind fun (item,rest) =>
    (popAll less n rest).map fun items => item::items

/-! ## Total preorders -/

/-- Any two items are in order one way or the other, and order is transitive. -/
structure IsTotalPreorder (le : α→α→Bool) : Prop where
  /-- Two items. -/
  total : ∀ a b,le a b=true∨le b a=true
  /-- Three items. -/
  trans : ∀ a b c,le a b=true → le b c=true → le a c=true

/-- `<` of the items. -/
def lessOf (le : α→α→Bool) (a b : α) : Bool := !le b a

variable {le : α→α→Bool} {heap rest : List α} {item : α}

theorem lessOf_eq_false {a b : α} : lessOf le a b=false↔le b a=true := by
  simp [lessOf]

/-- The comparison orders the items. -/
theorem orders_lessOf (h : IsTotalPreorder le) : Orders (lessOf le) fun _ => True where
  asymm := by
    intro a b _ _ hless
    rw [lessOf_eq_false]
    cases h.total a b with
    | inl hab => exact hab
    | inr hba => simp [lessOf,hba] at hless
  trans := by
    intro a b c _ _ _ hab hbc
    rw [lessOf_eq_false] at hab hbc ⊢
    exact h.trans c b a hbc hab

/-- A heap: no item comes before the one above it. -/
def Heap (le : α→α→Bool) (heap : List α) : Prop :=
  ∀ i a b,0 < i → heap[i]?=some a → heap[parent i]?=some b → le b a=true

theorem heap_iff : Heap le heap↔IsHeap (lessOf le) heap := by
  simp only [Heap,IsHeap,lessOf_eq_false]

/-! ## The functions of the module -/

variable (less : α→α→Bool)

/-- The loop is the one over all places. -/
theorem heapifyLoop_eq (n : ℕ) (heap : List α) :
    heapifyLoop less n heap=heapifyFrom less n heap := by
  induction n generalizing heap with
  | zero => rfl
  | succ n ih => exact ih _

/-- The items stay. -/
theorem heapify_perm (heap : List α) : (heapify less heap).Perm heap := by
  rw [heapify,heapifyLoop_eq]
  exact heapifyFrom_perm less _ heap

theorem heapify_heap (h : IsTotalPreorder le) (heap : List α) :
    Heap le (heapify (lessOf le) heap) := by
  rw [heap_iff,heapify,heapifyLoop_eq]
  exact heapifyFrom_isHeap (orders_lessOf h) (fun _ _ => trivial) (heapFrom_half _ heap)

theorem heappush_eq (heap : List α) (item : α) :
    heappush less heap item=push less heap item := by
  simp [heappush,heapSiftdown,push]

/-- A pop takes the first item away. -/
theorem heappop_eq (first : α) (rest : List α) :
    heappop less (first::rest)=.ok (first,removeFirst less (first::rest)) := by
  obtain ⟨last,hlast⟩ : ∃ last,(first::rest).getLast?=some last :=
    ⟨_,List.getLast?_eq_some_getLast (List.cons_ne_nil first rest)⟩
  rw [heappop,removeFirst,hlast]
  dsimp only [List.head?_cons]
  split
  case isTrue hempty =>
    rw [List.eq_nil_of_length_eq_zero hempty]
    rfl
  case isFalse => rfl

/-- A pop from a heap returns an item that comes before all others, or beside them, and leaves a
heap of the others. -/
theorem heappop_heap (h : IsTotalPreorder le) (first : α) (hheap : Heap le (first::rest)) :
    ∃ rest',heappop (lessOf le) (first::rest)=.ok (first,rest')∧Heap le rest'∧
      rest'.Perm rest∧∀ a∈first::rest,le first a=true := by
  have horder := orders_lessOf h
  rw [heap_iff] at hheap
  refine ⟨_,heappop_eq _ first rest,?_,removeFirst_perm _ first rest,fun a ha => ?_⟩
  · exact heap_iff.mpr (removeFirst_isHeap horder (fun _ _ => trivial) hheap)
  · obtain ⟨i,hi⟩ := List.mem_iff_getElem?.mp ha
    exact lessOf_eq_false.mp (hheap.first horder (fun _ _ => trivial) rfl i a hi)

/-- Taking all items away sorts them. -/
theorem popAll_sorts (h : IsTotalPreorder le) (n : ℕ) (hheap : Heap le heap)
    (hlength : heap.length=n) : ∃ items,popAll (lessOf le) n heap=.ok items∧
      items.Perm heap∧items.Pairwise fun a b => le a b=true := by
  induction n generalizing heap with
  | zero =>
    refine ⟨[],rfl,?_,List.Pairwise.nil⟩
    rw [List.eq_nil_of_length_eq_zero hlength]
  | succ n ih =>
    cases heap with
    | nil => cases hlength
    | cons first rest =>
      obtain ⟨rest',hpop,hrest,hperm,hfirst⟩ := heappop_heap h first hheap
      obtain ⟨items,hitems,hsame,hsorted⟩ := ih hrest (hperm.length_eq.trans (Nat.succ.inj hlength))
      refine ⟨first::items,?_,(hsame.trans hperm).cons first,?_⟩
      · rw [popAll,hpop]
        simp [Except.bind,hitems,Except.map]
      · refine List.Pairwise.cons (fun a ha => hfirst a ?_) hsorted
        exact List.mem_cons_of_mem first ((hsame.trans hperm).mem_iff.mp ha)

/-- With every total preorder, `heapify` makes a heap of the items of every list, `heappush` and
`heappop` keep heaps, `heappop` returns a smallest item and takes just that item away, and taking
everything away sorts the items. -/
theorem heap_queue_correct (le : α→α→Bool) (h : IsTotalPreorder le) (heap : List α) :
    (Heap le (heapify (lessOf le) heap)∧(heapify (lessOf le) heap).Perm heap)∧
    (Heap le heap → ∀ item,Heap le (heappush (lessOf le) heap item)∧
      (heappush (lessOf le) heap item).Perm (heap++[item]))∧
    (Heap le heap → match heappop (lessOf le) heap with
      | .error e => e=.emptyHeap∧heap=[]
      | .ok (item,rest) => Heap le rest∧heap.Perm (item::rest)∧∀ a∈heap,le item a=true)∧
    ∃ items,popAll (lessOf le) heap.length (heapify (lessOf le) heap)=.ok items∧
      items.Perm heap∧items.Pairwise fun a b => le a b=true := by
  have horder := orders_lessOf h
  refine ⟨⟨heapify_heap h heap,heapify_perm _ heap⟩,fun hheap item => ⟨?_,?_⟩,fun hheap => ?_,?_⟩
  · rw [heap_iff,heappush_eq]
    exact push_isHeap horder (fun _ _ => trivial) trivial (heap_iff.mp hheap)
  · rw [heappush_eq]
    exact push_perm _ heap item
  · cases heap with
    | nil => exact ⟨rfl,rfl⟩
    | cons first rest =>
      obtain ⟨rest',hpop,hrest,hperm,hfirst⟩ := heappop_heap h first hheap
      rw [hpop]
      exact ⟨hrest,hperm.symm.cons first,hfirst⟩
  · have hperm := heapify_perm (lessOf le) heap
    obtain ⟨items,hitems,hsame,hsorted⟩ := popAll_sorts h heap.length (heapify_heap h heap)
      hperm.length_eq
    exact ⟨items,hitems,hsame.trans hperm,hsorted⟩

/-- Numbers in their order. -/
theorem heap_queue_numbers : IsTotalPreorder Nat.ble∧
    ∃ items,popAll (lessOf Nat.ble) 5 (heapify (lessOf Nat.ble) [3,1,4,1,5])=.ok items∧
      items.Perm [3,1,4,1,5]∧items.Pairwise fun a b => Nat.ble a b=true := by
  have horder : IsTotalPreorder Nat.ble := by
    constructor
    · intro a b
      simpa using Nat.le_total a b
    · intro a b c hab hbc
      simp only [Nat.ble_eq] at hab hbc ⊢
      exact Nat.le_trans hab hbc
  exact ⟨horder,(heap_queue_correct Nat.ble horder [3,1,4,1,5]).2.2.2⟩

end MicroPython.HeapQueue
