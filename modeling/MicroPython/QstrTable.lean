import MicroPython.InputMachine
import MicroPython.Interning
import MicroPython.Qstr

/-!
# The table of interned strings

The chunks, the pools and the buffers of callers are blocks of the allocator, and the
strings lie in them one after the other. A string stays where it is as long as the
collector finds its block, which is so when the first string of each chunk is in a pool.
-/

namespace MicroPython.QstrTable

open Nat List BlockHeap InputMachine Qstr

variable {vm vm' : Vm} {strs : List (List ℕ)} {locals : List ℕ} {ans : Answers}

/-- The block of a pool in RAM. -/
def poolBlock (pool : QstrPool) : Option Block :=
  pool.head.map fun p => ⟨p,poolBytes pool.alloc⟩

/-- The cells of a string in RAM. -/
def entryBlock (e : Ptr×List ℕ) : Option Block :=
  e.1.addr.map fun q => ⟨q,qAlloc e.2.length⟩

/-- The qstrs after MP_QSTR_NULL, with their strings. -/
def entries (vm : Vm) (strs : List (List ℕ)) : List (Ptr×List ℕ) :=
  (qstrsOf vm.pools).tail.zip strs

/-- The cells that are in use. -/
def regions (vm : Vm) (strs : List (List ℕ)) : List Block :=
  vm.pools.filterMap poolBlock++vm.buffers++(entries vm strs).filterMap entryBlock

/-- The end of a chunk that is not used yet. -/
def room (vm : Vm) (chunk : ℕ) : Block :=
  ⟨chunk+vm.qstrLastUsed,vm.qstrLastAlloc-vm.qstrLastUsed⟩

/-- The pools number the strings from one on and hold their bytes. -/
structure Table (vm : Vm) (strs : List (List ℕ)) : Prop where
  /-- Each pool knows how many qstrs are before it. -/
  numbered : Numbered vm.pools
  null : (qstrsOf vm.pools).head?=some mpQstrNull
  length : (qstrsOf vm.pools).length=strs.length+1
  /-- Each string is where its pointer says. -/
  held : ∀ e∈entries vm strs,Holds vm.memory e.1 e.2

/-- No pool has more pointers than fit. -/
structure Roomy (vm : Vm) : Prop where
  /-- There is a next size. -/
  pos : 0<vm.lastPool.alloc
  rom : vm.lastPool.head=none → vm.lastPool.alloc≤vm.lastPool.qstrs.length
  /-- The pointers of a pool in RAM are in its block. -/
  fits : ∀ pool∈vm.pools,pool.head≠none → pool.qstrs.length≤pool.alloc

/-- What is in use does not overlap, and the collector finds its blocks. -/
structure Placed (vm : Vm) (strs : List (List ℕ)) : Prop where
  /-- No two of the cells in use are the same. -/
  apart : (regions vm strs).Pairwise Block.Apart
  /-- All of them are in blocks that are not collected. -/
  inside : ∀ r∈regions vm strs,∃ b∈vm.heap.blocks,r.Inside b∧b.head∈vm.live []
  /-- There are cells in each region. -/
  sized : ∀ r∈regions vm strs,0 < r.size
  /-- The buffers of callers are blocks of their own. -/
  buffers : ∀ r∈vm.buffers,r∈vm.heap.blocks
  /-- The end of the chunk is free. -/
  chunk : ∀ c,vm.qstrLastChunk=some c → ⟨c,vm.qstrLastAlloc⟩∈vm.heap.blocks∧
    vm.qstrLastUsed≤vm.qstrLastAlloc∧∀ r∈regions vm strs,r.Apart (room vm c)

/-- The first string of the chunk is in a pool. -/
def Anchored (vm : Vm) : Prop := ∀ c,vm.qstrLastChunk=some c → Ptr.ram c∈qstrsOf vm.pools

/-- What the collector finds. -/
theorem mem_live {x : ℕ} : x∈vm.live locals↔(∃ pool∈vm.pools,pool.head=some x)∨
    Ptr.ram x∈qstrsOf vm.pools∨(∃ r∈vm.buffers,r.head=x)∨x∈locals := by
  have haddr : x∈(qstrsOf vm.pools).filterMap Ptr.addr↔Ptr.ram x∈qstrsOf vm.pools := by
    rw [mem_filterMap]
    constructor
    · rintro ⟨p,hp,haddr⟩
      cases p with
      | rom bytes => cases haddr
      | ram q =>
        cases haddr
        exact hp
    · exact fun hp => ⟨.ram x,hp,rfl⟩
  rw [Vm.live,mem_append,mem_append,mem_append,haddr,mem_filterMap,mem_map,or_assoc,or_assoc]

theorem live_of_nil {x : ℕ} (h : x∈vm.live []) : x∈vm.live locals := by
  rw [mem_live] at *
  rcases h with h | h | h | h
  · exact .inl h
  · exact .inr (.inl h)
  · exact .inr (.inr (.inl h))
  · cases h

theorem Anchored.live (h : Anchored vm) {c : ℕ} (hc : vm.qstrLastChunk=some c) :
    c∈vm.live locals := mem_live.mpr (.inr (.inl (h c hc)))

section Cases

variable {n qPtr : ℕ} {a : Answer}

/-- What the first part of qstr_from_strn does. -/
theorem growChunk_cases (vm : Vm) (n : ℕ) (ans : Answers) :
    (∃ c heap,vm.qstrLastChunk=some c∧vm.heap.resize c (vm.qstrLastAlloc+n)=some heap∧
      growChunk vm n ans={vm with heap := heap,qstrLastAlloc := vm.qstrLastAlloc+n})∨
    (∃ c heap,vm.qstrLastChunk=some c∧(heap=vm.heap∨vm.heap.resize c vm.qstrLastUsed=some heap)∧
      growChunk vm n ans={vm with heap := heap,qstrLastChunk := none})∨
    (growChunk vm n ans=vm∧
      ∀ c,vm.qstrLastChunk=some c → vm.qstrLastUsed+n≤vm.qstrLastAlloc) := by
  rw [growChunk]
  split
  case h_1 hnone =>
    refine .inr (.inr ⟨rfl,fun c hc => ?_⟩)
    rw [hnone] at hc
    cases hc
  case h_2 chunk hsome =>
    split
    case isFalse hroom => exact .inr (.inr ⟨rfl,fun c _ => Nat.le_of_not_lt hroom⟩)
    case isTrue hroom =>
      dsimp only
      split
      case h_1 hfail =>
        refine .inr (.inl ⟨chunk,_,hsome,?_,rfl⟩)
        cases ans.shrink with
        | false => exact .inl rfl
        | true =>
          rw [if_pos rfl]
          cases hresize : vm.heap.resize chunk vm.qstrLastUsed with
          | none => exact .inl rfl
          | some heap => exact .inr rfl
      case h_2 heap hgrown =>
        refine .inl ⟨chunk,heap,hsome,?_,rfl⟩
        split at hgrown
        · exact hgrown
        · cases hgrown

/-- The blocks that are found stay, and a new block is apart from them. -/
def Keeps (vm : Vm) (locals : List ℕ) (heap : Heap) : Prop :=
  ∀ b∈vm.heap.blocks,b.head∈vm.live locals → b∈heap.blocks

theorem keeps_alloc (vm : Vm) (locals : List ℕ) (a : Answer) (n : ℕ) :
    Keeps vm locals (vm.heap.alloc (vm.live locals) a n).1 :=
  fun _ hb hlive => Heap.mem_alloc_of_live hb hlive

/-- A block is new when it is apart from all blocks that are found. -/
def Fresh (vm : Vm) (locals : List ℕ) (heap : Heap) (b : Block) : Prop :=
  b∈heap.blocks∧∀ c∈vm.heap.blocks,c.head∈vm.live locals → b.Apart c

/-- What the second part of qstr_from_strn does. -/
theorem newChunk_cases (vm : Vm) (n : ℕ) (ans : Answers) :
    (∃ c size heap,vm.qstrLastChunk=none∧n ≤ size∧Keeps vm [] heap∧Fresh vm [] heap ⟨c,size⟩∧
      newChunk vm n ans={vm with
        heap := heap
        qstrLastChunk := some c
        qstrLastAlloc := size
        qstrLastUsed := 0})∨
    (∃ heap,vm.qstrLastChunk=none∧Keeps vm [] heap∧newChunk vm n ans={vm with heap := heap})∨
    (∃ c,vm.qstrLastChunk=some c∧newChunk vm n ans=vm) := by
  have hkeeps := keeps_alloc vm [] ans.large (chunkSize n)
  rw [newChunk]
  split
  case h_1 c hsome => exact .inr (.inr ⟨c,hsome,rfl⟩)
  case h_2 hnone =>
    split
    case h_1 heap chunk hlarge =>
      have hle : n≤chunkSize n := by
        unfold chunkSize
        split
        · omega
        · exact le_refl n
      have hsome := @Heap.alloc_some vm.heap (vm.live []) ans.large (chunkSize n) chunk
      rw [hlarge] at hkeeps hsome
      exact .inl ⟨chunk,chunkSize n,heap,hnone,hle,hkeeps,hsome rfl,rfl⟩
    case h_2 heap hlarge =>
      rw [hlarge] at hkeeps
      have hexact : Keeps vm [] (heap.alloc (vm.live []) ans.exact n).1 :=
        fun b hb hlive => Heap.mem_alloc_of_live (hkeeps b hb hlive) hlive
      split
      case h_1 heap' chunk hok =>
        have hsome := @Heap.alloc_some heap (vm.live []) ans.exact n chunk
        rw [hok] at hexact hsome
        have hfresh : Fresh vm [] heap' ⟨chunk,n⟩ :=
          ⟨(hsome rfl).1,fun b hb hlive => (hsome rfl).2 b (hkeeps b hb hlive) hlive⟩
        exact .inl ⟨chunk,n,heap',hnone,le_refl n,hexact,hfresh,rfl⟩
      case h_2 heap' hfail =>
        rw [hfail] at hexact
        exact .inr (.inl ⟨heap',hnone,hexact,rfl⟩)

/-- The pool that follows the last one. -/
def nextPool (vm : Vm) (heap : Heap) (pool : ℕ) : Vm :=
  {vm with
    heap := heap
    lastPool := {
      head := some pool
      totalPrevLen := vm.lastPool.totalPrevLen+vm.lastPool.qstrs.length
      alloc := vm.lastPool.alloc*2
      qstrs := []}
    prev := vm.lastPool::vm.prev}

/-- There is no memory for a pool that is needed. -/
def PoolFails (vm : Vm) (qPtr : ℕ) (a : Answer) : Prop :=
  vm.lastPool.alloc≤vm.lastPool.qstrs.length∧
    (vm.heap.alloc (vm.live [qPtr]) a (poolBytes (vm.lastPool.alloc*2))).2=none

/-- Whether a pool is missing can be computed. -/
instance (vm : Vm) (qPtr : ℕ) (a : Answer) : Decidable (PoolFails vm qPtr a) :=
  inferInstanceAs (Decidable (_∧_))

/-- What qstr_add does. -/
theorem qstrAdd_cases (vm : Vm) (qPtr : ℕ) (a : Answer) :
    (∃ heap,PoolFails vm qPtr a∧Keeps vm [qPtr] heap∧
      qstrAdd vm qPtr a=({vm with heap := heap},.error (vm.lastPool.alloc*2)))∨
    (∃ heap pool,¬PoolFails vm qPtr a∧Keeps vm [qPtr] heap∧
      Fresh vm [qPtr] heap ⟨pool,poolBytes (vm.lastPool.alloc*2)⟩∧
      qstrAdd vm qPtr a=append (nextPool vm heap pool) qPtr)∨
    (¬PoolFails vm qPtr a∧vm.lastPool.qstrs.length<vm.lastPool.alloc∧
      qstrAdd vm qPtr a=append vm qPtr) := by
  have hkeeps := keeps_alloc vm [qPtr] a (poolBytes (vm.lastPool.alloc*2))
  rw [qstrAdd]
  split
  case isFalse hroom =>
    exact .inr (.inr ⟨fun hfails => hroom hfails.1,Nat.lt_of_not_le hroom,rfl⟩)
  case isTrue hfull =>
    dsimp only
    split
    case h_1 heap hnone =>
      rw [hnone] at hkeeps
      exact .inl ⟨heap,⟨hfull,congrArg Prod.snd hnone⟩,hkeeps,rfl⟩
    case h_2 heap pool hsome =>
      have hfresh := @Heap.alloc_some vm.heap (vm.live [qPtr]) a
        (poolBytes (vm.lastPool.alloc*2)) pool
      have hgot : ¬PoolFails vm qPtr a := by
        rintro ⟨_,hnone⟩
        rw [hsome] at hnone
        cases hnone
      rw [hsome] at hkeeps hfresh
      exact .inr (.inl ⟨heap,pool,hgot,hkeeps,hfresh rfl,rfl⟩)

end Cases

namespace Table

section

variable (h : Table vm strs)
include h

theorem qstrsOf_eq : qstrsOf vm.pools=mpQstrNull::(qstrsOf vm.pools).tail :=
  eq_cons_of_mem_head? h.null

theorem length_tail : (qstrsOf vm.pools).tail.length=strs.length := by
  rw [List.length_tail,h.length]
  rfl

/-- A string and its pointer. -/
theorem entry_at {i : ℕ} {s : List ℕ} (hs : strs[i]?=some s) :
    ∃ p,(qstrsOf vm.pools)[i+1]?=some p∧(p,s)∈entries vm strs := by
  have hlt : i<(qstrsOf vm.pools).tail.length := by
    rw [h.length_tail]
    exact (List.getElem?_eq_some_iff.mp hs).1
  refine ⟨(qstrsOf vm.pools).tail[i],?_,?_⟩
  · exact List.getElem?_tail.symm.trans (List.getElem?_eq_getElem hlt)
  · refine mem_of_getElem? (i:=i) ?_
    rw [entries,List.getElem?_zip_eq_some]
    exact ⟨List.getElem?_eq_getElem hlt,hs⟩

/-- Each pointer except the first has a string. -/
theorem string_at {i : ℕ} {p : Ptr}
    (hp : (qstrsOf vm.pools)[i+1]?=some p) : ∃ s,strs[i]?=some s∧(p,s)∈entries vm strs := by
  rw [h.qstrsOf_eq,List.getElem?_cons_succ] at hp
  have hlt : i < strs.length := by
    rw [←h.length_tail]
    exact (List.getElem?_eq_some_iff.mp hp).1
  refine ⟨strs[i],List.getElem?_eq_getElem hlt,mem_of_getElem? (i:=i) ?_⟩
  rw [entries,List.getElem?_zip_eq_some]
  exact ⟨hp,List.getElem?_eq_getElem hlt⟩

/-- What the search for a string finds has the hash, the length and the bytes that are
looked for. -/
theorem find (str : List ℕ) :
    (qstrFindStrn vm str=0∧∀ e∈entries vm strs,¬Matches vm.memory str e.1)∨
      ∃ i s p,qstrFindStrn vm str=i+1∧strs[i]?=some s∧Holds vm.memory p s∧
        Matches vm.memory str p := by
  rcases findStrnIn_eq h.numbered str with ⟨hzero,hnone⟩ | ⟨p,hp,hmatch⟩
  · refine .inl ⟨hzero,fun e he => hnone e.1 ?_⟩
    exact mem_of_mem_tail (of_mem_zip he).1
  · refine .inr ?_
    have hpos : findStrnIn vm.memory str vm.pools≠0 := by
      intro hzero
      rw [hzero,h.qstrsOf_eq,List.getElem?_cons_zero] at hp
      cases hp
      exact not_matches_mpQstrNull _ _ hmatch
    obtain ⟨i,hi⟩ := exists_eq_succ_of_ne_zero hpos
    rw [hi] at hp
    obtain ⟨s,hs,hmem⟩ := h.string_at hp
    exact ⟨i,s,p,hi,hs,h.held _ hmem,hmatch⟩

/-- A string of 256 bytes is never found. -/
theorem find_long {str : List ℕ} (hlong : 256 ≤ str.length) :
    qstrFindStrn vm str=0 := by
  rcases h.find str with ⟨hzero,_⟩ | ⟨i,s,p,_,_,hholds,hmatch⟩
  · exact hzero
  · exact absurd hmatch (hholds.not_matches hlong)

/-- Where all strings are short, the number of a string is found. -/
theorem find_short (hshort : ∀ s∈strs,s.length<256) (str : List ℕ) :
    (qstrFindStrn vm str=0∧str∉strs)∨
      ∃ i,qstrFindStrn vm str=i+1∧strs[i]?=some str := by
  rcases h.find str with ⟨hzero,hnone⟩ | ⟨i,s,p,hfind,hs,hholds,hmatch⟩
  · refine .inl ⟨hzero,fun hmem => ?_⟩
    obtain ⟨i,hi⟩ := List.getElem?_of_mem hmem
    obtain ⟨p,_,hp⟩ := h.entry_at hi
    exact hnone _ hp (((h.held _ hp).matches_iff_eq (hshort str hmem) str).mpr rfl)
  · have heq := (hholds.matches_iff_eq (hshort s (mem_of_getElem? hs)) str).mp hmatch
    rw [heq] at hs
    exact .inr ⟨i,hfind,hs⟩

/-- What is read of a number: one byte of the length, and as many bytes of the string. -/
theorem read {i : ℕ} {s : List ℕ} (hs : strs[i]?=some s) :
    qstrHash vm (i+1)=some (qstrComputeHash s)∧qstrLen vm (i+1)=some (s.length%256)∧
      qstrData vm (i+1)=some (s.take (s.length%256)) := by
  obtain ⟨p,hp,hmem⟩ := h.entry_at hs
  have hfind : findQstr vm (i+1)=some p := (findQstrIn_eq h.numbered (i+1)).trans hp
  have hholds := h.held _ hmem
  rw [qstrHash,qstrLen,qstrData,hfind,Option.map_some,Option.map_some,Option.map_some,
    hholds.hash,hholds.length,hholds.data (mod_le s.length 256)]
  exact ⟨rfl,rfl,rfl⟩

/-- Storing cells apart from those of the strings. -/
theorem store {q : ℕ} {xs : List ℕ}
    (hapart : ∀ r∈regions vm strs,r.Apart ⟨q,xs.length⟩) :
    Table {vm with memory := store vm.memory q xs} strs := by
  refine ⟨h.numbered,h.null,h.length,fun e he => ?_⟩
  have hholds := h.held e he
  cases hp : e.1 with
  | rom bytes =>
    rw [hp] at hholds
    exact hholds
  | ram r =>
    rw [hp,holds_ram] at hholds
    have hblock : entryBlock e=some ⟨r,qAlloc e.2.length⟩ := by
      rw [entryBlock,hp]
      rfl
    have hmem : ⟨r,qAlloc e.2.length⟩∈regions vm strs :=
      mem_append_right _ (mem_filterMap.mpr ⟨e,he,hblock⟩)
    rw [holds_ram,load_store_of_apart (hapart _ hmem).symm]
    exact hholds

end

end Table

namespace Placed

section

variable (h : Placed vm strs)
include h

theorem memory (m : ℕ→ℕ) : Placed {vm with memory := m} strs :=
  ⟨h.apart,h.inside,h.sized,h.buffers,h.chunk⟩

/-- What is apart from the blocks that are found is apart from what is in use. -/
theorem apart_of_blocks {b : Block}
    (hb : ∀ c∈vm.heap.blocks,c.head∈vm.live locals → b.Apart c) :
    ∀ r∈regions vm strs,r.Apart b := by
  intro r hr
  obtain ⟨c,hc,hrc,hlive⟩ := h.inside r hr
  have hapart := hb c hc (live_of_nil hlive)
  exact (hapart.inside (.refl b) hrc).symm

/-- A heap with the same blocks that are found. -/
theorem keeps {heap : Heap} (hkeeps : Keeps vm locals heap)
    (hchunk : ∀ c,vm.qstrLastChunk=some c → c∈vm.live locals) :
    Placed {vm with heap := heap} strs := by
  refine ⟨h.apart,fun r hr => ?_,h.sized,fun r hr => ?_,fun c hc => ?_⟩
  · obtain ⟨b,hb,hrb,hlive⟩ := h.inside r hr
    exact ⟨b,hkeeps b hb (live_of_nil hlive),hrb,hlive⟩
  · have hlive : r.head∈vm.live locals := mem_live.mpr (.inr (.inr (.inl ⟨r,hr,rfl⟩)))
    exact hkeeps r (h.buffers r hr) hlive
  · obtain ⟨hmem,hle,hroom⟩ := h.chunk c hc
    exact ⟨hkeeps _ hmem (hchunk c hc),hle,hroom⟩

/-- What is in use of a chunk is in front of its end. -/
theorem inside_used {c : ℕ} (hc : vm.qstrLastChunk=some c) {r : Block}
    (hr : r∈regions vm strs) (hrc : r.Inside ⟨c,vm.qstrLastAlloc⟩) :
    r.Inside ⟨c,vm.qstrLastUsed⟩ := by
  obtain ⟨_,hle,hroom⟩ := h.chunk c hc
  have hapart := hroom r hr
  have hsize := h.sized r hr
  unfold Block.Inside Block.Apart room at *
  dsimp only at *
  omega

/-- A buffer is not the block of a chunk that has a string. -/
theorem buffer_ne {c : ℕ} (hc : Ptr.ram c∈qstrsOf vm.pools)
    (htable : Table vm strs) {r : Block} (hr : r∈vm.buffers) : r.head≠c := by
  intro hhead
  rw [htable.qstrsOf_eq] at hc
  rcases mem_cons.mp hc with hnull | htail
  · cases hnull
  · obtain ⟨i,hi⟩ := List.getElem?_of_mem htail
    rw [List.getElem?_tail] at hi
    obtain ⟨s,_,hmem⟩ := htable.string_at hi
    have hblock : ⟨c,qAlloc s.length⟩∈(entries vm strs).filterMap entryBlock :=
      mem_filterMap.mpr ⟨_,hmem,rfl⟩
    have hall := mem_append_left ((entries vm strs).filterMap entryBlock)
      (mem_append_right (vm.pools.filterMap poolBlock) hr)
    have hapart := (pairwise_append.mp h.apart).2.2 r (mem_append_right _ hr) _ hblock
    have hpos : 0<qAlloc s.length := by
      unfold qAlloc
      omega
    exact Block.not_apart_of_head (h.sized r hall) hpos hhead hapart

/-- A chunk of another size, in which everything in use still is. -/
theorem resize (htable : Table vm strs) {c n : ℕ} {heap : Heap}
    (hc : vm.qstrLastChunk=some c) (hanchor : Ptr.ram c∈qstrsOf vm.pools)
    (hn : vm.qstrLastUsed≤n) (hheap : vm.heap.resize c n=some heap) :
    (∀ r∈regions vm strs,∃ b∈heap.blocks,r.Inside b∧b.head∈vm.live [])∧
      ∀ r∈vm.buffers,r∈heap.blocks := by
  obtain ⟨hnew,hothers⟩ := Heap.resize_some hheap
  constructor
  · intro r hr
    obtain ⟨b,hb,hrb,hlive⟩ := h.inside r hr
    by_cases hhead : b.head=c
    · have hb' : b=⟨c,vm.qstrLastAlloc⟩ := Heap.eq_of_head hb (h.chunk c hc).1 hhead
      rw [hb'] at hrb hlive
      have hused := h.inside_used hc hr hrb
      refine ⟨⟨c,n⟩,hnew,?_,hlive⟩
      unfold Block.Inside at *
      dsimp only at *
      omega
    · exact ⟨b,(hothers b hb hhead).1,hrb,hlive⟩
  · intro r hr
    exact (hothers r (h.buffers r hr) (h.buffer_ne hanchor htable hr)).1

/-- What is in use stays in its place when the chunk grows or is given up. -/
theorem growChunk (htable : Table vm strs) (hanchor : Anchored vm)
    (n : ℕ) (ans : Answers) : Placed (growChunk vm n ans) strs∧
      ∀ c,(growChunk vm n ans).qstrLastChunk=some c →
        (growChunk vm n ans).qstrLastUsed+n≤(growChunk vm n ans).qstrLastAlloc := by
  rcases growChunk_cases vm n ans with ⟨c,heap,hc,hheap,heq⟩ | ⟨c,heap,hc,hheap,heq⟩ | ⟨heq,hroom⟩
  · obtain ⟨hmem,hle,hfree⟩ := h.chunk c hc
    have hn : vm.qstrLastUsed≤vm.qstrLastAlloc+n := by omega
    obtain ⟨hinside,hbuffers⟩ := h.resize htable hc (hanchor c hc) hn hheap
    obtain ⟨hnew,hothers⟩ := Heap.resize_some hheap
    rw [heq]
    refine ⟨⟨h.apart,hinside,h.sized,hbuffers,fun c' hc' => ?_⟩,fun c' hc' => ?_⟩
    · have hsame : c'=c := by
        rw [show vm.qstrLastChunk=some c' from hc'] at hc
        exact Option.some.inj hc
      rw [hsame]
      refine ⟨hnew,hn,fun r hr => ?_⟩
      obtain ⟨b,hb,hrb,_⟩ := h.inside r hr
      by_cases hhead : b.head=c
      · have hb' : b=⟨c,vm.qstrLastAlloc⟩ := Heap.eq_of_head hb hmem hhead
        rw [hb'] at hrb
        have hused := h.inside_used hc hr hrb
        unfold Block.Inside at hused
        unfold Block.Apart room
        exact .inl hused.2
      · have hapart := (hothers b hb hhead).2
        refine (hapart.inside ?_ hrb).symm
        unfold Block.Inside room
        dsimp only
        omega
    · show vm.qstrLastUsed+n≤vm.qstrLastAlloc+n
      omega
  · rw [heq]
    have hplaced : (∀ r∈regions vm strs,∃ b∈heap.blocks,r.Inside b∧b.head∈vm.live [])∧
        ∀ r∈vm.buffers,r∈heap.blocks := by
      rcases hheap with hsame | hshrunk
      · rw [hsame]
        exact ⟨h.inside,h.buffers⟩
      · exact h.resize htable hc (hanchor c hc) (le_refl _) hshrunk
    exact ⟨⟨h.apart,hplaced.1,h.sized,hplaced.2,fun c' hc' => nomatch hc'⟩,
      fun c' hc' => nomatch hc'⟩
  · rw [heq]
    exact ⟨h,hroom⟩

end

end Placed

namespace Placed

/-- What is in use stays in its place when a chunk is allocated. There is room in the
chunk, and a chunk that is not new has a string. -/
theorem newChunk (h : Placed vm strs) (hanchor : Anchored vm) {n : ℕ}
    (hroom : ∀ c,vm.qstrLastChunk=some c → vm.qstrLastUsed+n≤vm.qstrLastAlloc)
    (ans : Answers) : Placed (newChunk vm n ans) strs∧
      ∀ c,(newChunk vm n ans).qstrLastChunk=some c →
        (newChunk vm n ans).qstrLastUsed+n≤(newChunk vm n ans).qstrLastAlloc∧
        (Ptr.ram c∈qstrsOf vm.pools∨vm.qstrLastChunk=none∧(newChunk vm n ans).qstrLastUsed=0) := by
  rcases newChunk_cases vm n ans with ⟨c,size,heap,hnone,hn,hkeeps,hfresh,heq⟩ |
    ⟨heap,hnone,hkeeps,heq⟩ | ⟨c,hc,heq⟩
  · have hplaced := h.keeps hkeeps fun c hc => by
      rw [hnone] at hc
      cases hc
    rw [heq]
    refine ⟨⟨h.apart,hplaced.inside,h.sized,hplaced.buffers,fun c' hc' => ?_⟩,fun c' hc' => ?_⟩
    · cases hc'
      exact ⟨hfresh.1,zero_le _,h.apart_of_blocks hfresh.2⟩
    · refine ⟨?_,.inr ⟨hnone,rfl⟩⟩
      rw [zero_add]
      exact hn
  · have hplaced := h.keeps hkeeps fun c hc => by
      rw [hnone] at hc
      cases hc
    rw [heq]
    refine ⟨hplaced,fun c hc => ?_⟩
    rw [show vm.qstrLastChunk=some c from hc] at hnone
    cases hnone
  · rw [heq]
    exact ⟨h,fun c hc => ⟨hroom c hc,.inl (hanchor c hc)⟩⟩

end Placed

/-- A string that is stored but not yet in a pool. -/
structure Pending (vm : Vm) (strs : List (List ℕ)) (q : ℕ) (s : List ℕ) : Prop where
  /-- It is apart from what is in use. -/
  apart : ∀ r∈regions vm strs,r.Apart ⟨q,qAlloc s.length⟩
  /-- The running function holds its block, if nothing else does. -/
  inside : ∃ b∈vm.heap.blocks,Block.Inside ⟨q,qAlloc s.length⟩ b∧b.head∈vm.live [q]
  room : ∀ c,vm.qstrLastChunk=some c → Block.Apart ⟨q,qAlloc s.length⟩ (room vm c)
  /-- Its bytes are there. -/
  held : load vm.memory q (qAlloc s.length)=entry s

/-- The bytes of a string are stored in a row. -/
theorem storeString_eq (vm : Vm) (q : ℕ) (s : List ℕ) :
    storeString vm q s={vm with
      qstrLastUsed := vm.qstrLastUsed+qAlloc s.length
      memory := store vm.memory q (entry s)} := by
  have hmem : store (store (qSetLength (qSetHash vm.memory q (qstrComputeHash s)) q s.length)
      (q+2+1) s) (q+2+1+s.length) [0]=store vm.memory q (entry s) := by
    rw [qSetHash,qSetLength]
    have hlen : store (store vm.memory q [qstrComputeHash s%256,qstrComputeHash s>>>8%256])
        (q+2) [s.length%256]=store vm.memory q
          [qstrComputeHash s%256,qstrComputeHash s>>>8%256,s.length%256] :=
      store_store q [qstrComputeHash s%256,qstrComputeHash s>>>8%256] [s.length%256]
    rw [hlen]
    have hdata : store (store vm.memory q
        [qstrComputeHash s%256,qstrComputeHash s>>>8%256,s.length%256]) (q+2+1) s=
        store vm.memory q ([qstrComputeHash s%256,qstrComputeHash s>>>8%256,s.length%256]++s) :=
      store_store q [qstrComputeHash s%256,qstrComputeHash s>>>8%256,s.length%256] s
    have hend : q+2+1+s.length=
        q+([qstrComputeHash s%256,qstrComputeHash s>>>8%256,s.length%256]++s).length := by
      rw [length_append,length_cons,length_cons,length_cons,length_nil]
      omega
    rw [hdata,hend,store_store]
    rfl
  rw [storeString,hmem]

/-- A string that is stored where the chunk has room. -/
theorem storeString_pending (h : Placed vm strs) (htable : Table vm strs) {c : ℕ}
    {s : List ℕ} (hc : vm.qstrLastChunk=some c)
    (hroom : vm.qstrLastUsed+qAlloc s.length≤vm.qstrLastAlloc)
    (hlive : c∈vm.live [c+vm.qstrLastUsed]) :
    Placed (storeString vm (c+vm.qstrLastUsed) s) strs∧
      Table (storeString vm (c+vm.qstrLastUsed) s) strs∧
      Pending (storeString vm (c+vm.qstrLastUsed) s) strs (c+vm.qstrLastUsed) s := by
  obtain ⟨hmem,hle,hfree⟩ := h.chunk c hc
  have hnew : Block.Inside ⟨c+vm.qstrLastUsed,qAlloc s.length⟩ (room vm c) := by
    unfold Block.Inside room
    dsimp only
    omega
  have hapart : ∀ r∈regions vm strs,r.Apart ⟨c+vm.qstrLastUsed,qAlloc s.length⟩ :=
    fun r hr => (hfree r hr).inside (.refl r) hnew
  rw [storeString_eq]
  have hsame : ∀ c',vm.qstrLastChunk=some c' → c'=c := by
    intro c' hc'
    rw [hc] at hc'
    exact (Option.some.inj hc').symm
  refine ⟨⟨h.apart,h.inside,h.sized,h.buffers,fun c' hc' => ?_⟩,?_,?_⟩
  · rw [hsame c' hc']
    refine ⟨hmem,hroom,fun r hr => (hfree r hr).inside (.refl r) ?_⟩
    unfold Block.Inside room
    dsimp only
    omega
  · have hstored : Table {vm with
        memory := store vm.memory (c+vm.qstrLastUsed) (entry s)} strs := by
      refine htable.store ?_
      rw [length_entry]
      exact hapart
    exact ⟨hstored.numbered,hstored.null,hstored.length,hstored.held⟩
  · refine ⟨hapart,⟨⟨c,vm.qstrLastAlloc⟩,hmem,?_,hlive⟩,fun c' hc' => ?_,?_⟩
    · unfold Block.Inside
      dsimp only
      omega
    · rw [hsame c' hc']
      unfold Block.Apart room
      dsimp only
      omega
    · have hload := @load_store _ vm.memory (c+vm.qstrLastUsed) (entry s)
      rw [length_entry] at hload
      exact hload

section Append

variable {q : ℕ} {s : List ℕ}

theorem qstrsOf_nextPool (vm : Vm) (heap : Heap) (pool : ℕ) :
    qstrsOf (nextPool vm heap pool).pools=qstrsOf vm.pools := append_nil _

/-- A new pool is one more block in use. -/
theorem regions_nextPool (vm : Vm) (heap : Heap) (pool : ℕ) (strs : List (List ℕ)) :
    regions (nextPool vm heap pool) strs=
      ⟨pool,poolBytes (vm.lastPool.alloc*2)⟩::regions vm strs := by
  unfold regions entries
  rw [qstrsOf_nextPool]
  rfl

/-- What is found is also found with a new pool. -/
theorem live_nextPool {heap : Heap} {pool x : ℕ} (h : x∈vm.live locals) :
    x∈(nextPool vm heap pool).live locals := by
  rw [mem_live] at *
  rw [qstrsOf_nextPool]
  rcases h with ⟨old,hold,hhead⟩ | h
  · exact .inl ⟨old,mem_cons_of_mem _ hold,hhead⟩
  · exact .inr h

/-- A pool for which there is memory. -/
theorem nextPool_placed (h : Placed vm strs) (htable : Table vm strs)
    (hpending : Pending vm strs q s) {heap : Heap} {pool : ℕ} (hkeeps : Keeps vm [q] heap)
    (hfresh : Fresh vm [q] heap ⟨pool,poolBytes (vm.lastPool.alloc*2)⟩)
    (hchunk : ∀ c,vm.qstrLastChunk=some c → c∈vm.live [q]) :
    Placed (nextPool vm heap pool) strs∧Table (nextPool vm heap pool) strs∧
      Pending (nextPool vm heap pool) strs q s := by
  have hkept := h.keeps hkeeps hchunk
  have hnew := h.apart_of_blocks hfresh.2
  have hregions := regions_nextPool vm heap pool strs
  obtain ⟨b,hb,hqb,hlive⟩ := hpending.inside
  refine ⟨⟨?_,?_,?_,hkept.buffers,fun c hc => ?_⟩,⟨?_,?_,?_,?_⟩,⟨?_,?_,hpending.room,hpending.held⟩⟩
  · rw [hregions,pairwise_cons]
    exact ⟨fun r hr => (hnew r hr).symm,h.apart⟩
  · rw [hregions,forall_mem_cons]
    refine ⟨⟨_,hfresh.1,.refl _,mem_live.mpr (.inl ⟨_,mem_cons_self,rfl⟩)⟩,fun r hr => ?_⟩
    obtain ⟨b,hb,hrb,hlive⟩ := hkept.inside r hr
    exact ⟨b,hb,hrb,live_nextPool hlive⟩
  · rw [hregions,forall_mem_cons]
    exact ⟨lt_of_lt_of_le (by decide) (le_add_right 16 _),h.sized⟩
  · obtain ⟨hmem,hle,hroom⟩ := hkept.chunk c hc
    refine ⟨hmem,hle,?_⟩
    rw [hregions,forall_mem_cons]
    refine ⟨(hfresh.2 _ (h.chunk c hc).1 (hchunk c hc)).inside (.refl _) ?_,hroom⟩
    have hle' : vm.qstrLastUsed≤vm.qstrLastAlloc := hle
    unfold Block.Inside room nextPool
    dsimp only
    omega
  · refine ⟨?_,htable.numbered⟩
    show vm.lastPool.totalPrevLen+vm.lastPool.qstrs.length=(qstrsOf vm.pools).length
    rw [Vm.pools,qstrsOf,length_append,htable.numbered.1]
  · rw [qstrsOf_nextPool]
    exact htable.null
  · rw [qstrsOf_nextPool]
    exact htable.length
  · rw [entries,qstrsOf_nextPool]
    exact htable.held
  · rw [hregions,forall_mem_cons]
    exact ⟨(hfresh.2 b hb hlive).inside (.refl _) hqb,hpending.apart⟩
  · exact ⟨b,hkeeps b hb hlive,hqb,live_nextPool hlive⟩

/-- A new qstr is behind the others. -/
theorem qstrsOf_append' (vm : Vm) (q : ℕ) :
    qstrsOf (append vm q).1.pools=qstrsOf vm.pools++[.ram q] :=
  qstrsOf_append vm.lastPool vm.prev (.ram q)

/-- A new qstr has the new string. -/
theorem entries_append (htable : Table vm strs) (q : ℕ) (s : List ℕ) :
    entries (append vm q).1 (strs++[s])=entries vm strs++[(.ram q,s)] := by
  have htail : (qstrsOf vm.pools++[Ptr.ram q]).tail=(qstrsOf vm.pools).tail++[.ram q] := by
    rw [htable.qstrsOf_eq]
    rfl
  rw [entries,qstrsOf_append',htail,zip_append htable.length_tail]
  rfl

/-- A new qstr is one more region in use. -/
theorem regions_append (htable : Table vm strs) (q : ℕ) (s : List ℕ) :
    regions (append vm q).1 (strs++[s])=regions vm strs++[⟨q,qAlloc s.length⟩] := by
  rw [regions,entries_append htable,filterMap_append,←append_assoc]
  rfl

/-- What is found is also found with a new qstr, which is found as well. -/
theorem live_append {x : ℕ} (h : x∈vm.live [q]) : x∈(append vm q).1.live [] := by
  rw [mem_live] at *
  rw [qstrsOf_append']
  rcases h with ⟨pool,hpool,hhead⟩ | h | h | h
  · refine .inl ?_
    rcases mem_cons.mp hpool with hlast | hprev
    · rw [hlast] at hhead
      exact ⟨_,mem_cons_self,hhead⟩
    · exact ⟨pool,mem_cons_of_mem _ hprev,hhead⟩
  · exact .inr (.inl (mem_append_left _ h))
  · exact .inr (.inr (.inl h))
  · rw [mem_singleton.mp h]
    exact .inr (.inl (mem_append_right _ (mem_singleton.mpr rfl)))

/-- A string that is stored gets the next number. -/
theorem append_placed (h : Placed vm strs) (htable : Table vm strs)
    (hpending : Pending vm strs q s) :
    Placed (append vm q).1 (strs++[s])∧Table (append vm q).1 (strs++[s])∧
      (append vm q).2=.ok (strs.length+1) := by
  have hregions := regions_append htable q s
  obtain ⟨b,hb,hqb,hlive⟩ := hpending.inside
  have hlast : ∀ p : Block → Prop,(∀ r∈regions vm strs,p r) → p ⟨q,qAlloc s.length⟩ →
      ∀ r∈regions (append vm q).1 (strs++[s]),p r := by
    intro p hold hnew r hr
    rw [hregions,mem_append,mem_singleton] at hr
    rcases hr with hr | hr
    · exact hold r hr
    · rw [hr]
      exact hnew
  refine ⟨⟨?_,hlast _ (fun r hr => ?_) ⟨b,hb,hqb,live_append hlive⟩,hlast _ h.sized ?_,h.buffers,
    fun c hc => ?_⟩,⟨htable.numbered,?_,?_,?_⟩,?_⟩
  · rw [hregions,pairwise_append]
    refine ⟨h.apart,pairwise_singleton _ _,fun r hr r' hr' => ?_⟩
    rw [mem_singleton.mp hr']
    exact hpending.apart r hr
  · obtain ⟨b,hb,hrb,hlive⟩ := h.inside r hr
    exact ⟨b,hb,hrb,live_append (live_of_nil hlive)⟩
  · exact succ_pos _
  · obtain ⟨hmem,hle,hroom⟩ := h.chunk c hc
    exact ⟨hmem,hle,hlast _ hroom (hpending.room c hc)⟩
  · rw [qstrsOf_append',htable.qstrsOf_eq]
    rfl
  · rw [qstrsOf_append',length_append,htable.length,length_append]
    exact add_right_comm strs.length 1 1
  · rw [entries_append htable]
    intro e he
    rcases mem_append.mp he with hold | hnew
    · exact htable.held e hold
    · rw [mem_singleton.mp hnew]
      exact holds_ram.mpr hpending.held
  · have hlen := htable.length
    rw [Vm.pools,qstrsOf,length_append,←htable.numbered.1] at hlen
    refine congrArg Except.ok ?_
    omega

/-- The pools after a qstr was added. -/
theorem Roomy.append (h : Roomy vm) (hlt : vm.lastPool.qstrs.length<vm.lastPool.alloc) (q : ℕ) :
    Roomy (append vm q).1 := by
  have hlen : (vm.lastPool.qstrs++[Ptr.ram q]).length≤vm.lastPool.alloc := by
    rw [length_append]
    exact hlt
  refine ⟨h.pos,fun hrom => absurd (h.rom hrom) (Nat.not_le_of_lt hlt),fun pool hpool hhead => ?_⟩
  rcases mem_cons.mp hpool with hlast | hprev
  · rw [hlast]
    exact hlen
  · exact h.fits pool (mem_cons_of_mem _ hprev) hhead

/-- The pools with a new one. -/
theorem Roomy.nextPool (h : Roomy vm) (heap : Heap) (pool : ℕ) :
    Roomy (nextPool vm heap pool)∧(nextPool vm heap pool).lastPool.qstrs.length<
      (nextPool vm heap pool).lastPool.alloc := by
  have hpos : 0<vm.lastPool.alloc*2 := Nat.mul_pos h.pos (by decide)
  refine ⟨⟨hpos,(fun hrom => nomatch hrom),fun old hold hhead => ?_⟩,hpos⟩
  rcases mem_cons.mp hold with hlast | hprev
  · rw [hlast]
    exact zero_le _
  · exact h.fits old hprev hhead

end Append

/-- All that holds between calls. -/
structure Inv (vm : Vm) (strs : List (List ℕ)) : Prop where
  placed : Placed vm strs
  /-- The pools number them. -/
  table : Table vm strs
  /-- The pools are not overfull. -/
  roomy : Roomy vm
  /-- The first string of the chunk is in a pool. -/
  anchored : Anchored vm
  /-- The buffers of callers know their lengths, which fit into a byte. -/
  begun : ∀ r∈vm.buffers,∃ len,r.size=qAlloc len∧len<256∧vm.memory (r.head+2)=len

section Add

variable {q : ℕ} {s : List ℕ} {a : Answer}

/-- The outcomes of qstr_add: without memory for a pool that is needed nothing changes for
the strings, and else the new string has the next number. -/
theorem qstrAdd_spec (h : Placed vm strs) (htable : Table vm strs) (hroomy : Roomy vm)
    (hpending : Pending vm strs q s)
    (hchunk : ∀ c,vm.qstrLastChunk=some c → c∈vm.live [q]) (a : Answer) :
    (∃ heap,PoolFails vm q a∧qstrAdd vm q a=({vm with heap := heap},.error (vm.lastPool.alloc*2))∧
      Placed {vm with heap := heap} strs)∨
    (¬PoolFails vm q a∧(qstrAdd vm q a).2=.ok (strs.length+1)∧
      Placed (qstrAdd vm q a).1 (strs++[s])∧Table (qstrAdd vm q a).1 (strs++[s])∧
      Roomy (qstrAdd vm q a).1∧(qstrAdd vm q a).1.qstrLastChunk=vm.qstrLastChunk∧
      qstrsOf (qstrAdd vm q a).1.pools=qstrsOf vm.pools++[.ram q]) := by
  rcases qstrAdd_cases vm q a with ⟨heap,hfails,hkeeps,heq⟩ |
    ⟨heap,pool,hgot,hkeeps,hfresh,heq⟩ | ⟨hgot,hlt,heq⟩
  · exact .inl ⟨heap,hfails,heq,h.keeps hkeeps hchunk⟩
  · obtain ⟨hplaced,htable',hpending'⟩ := nextPool_placed h htable hpending hkeeps hfresh hchunk
    obtain ⟨hroomy',hlt⟩ := hroomy.nextPool heap pool
    obtain ⟨hplaced'',htable'',hid⟩ := append_placed hplaced htable' hpending'
    have hqstrs := qstrsOf_append' (nextPool vm heap pool) q
    rw [qstrsOf_nextPool] at hqstrs
    rw [heq]
    exact .inr ⟨hgot,hid,hplaced'',htable'',hroomy'.append hlt q,rfl,hqstrs⟩
  · obtain ⟨hplaced,htable',hid⟩ := append_placed h htable hpending
    rw [heq]
    exact .inr ⟨hgot,hid,hplaced,htable',hroomy.append hlt q,rfl,qstrsOf_append' vm q⟩

end Add

/-- The first part of qstr_from_strn leaves the pools, the memory and the buffers, and does
not get another chunk. -/
theorem growChunk_frame (vm : Vm) (n : ℕ) (ans : Answers) :
    (growChunk vm n ans).lastPool=vm.lastPool∧(growChunk vm n ans).prev=vm.prev∧
      (growChunk vm n ans).memory=vm.memory∧(growChunk vm n ans).buffers=vm.buffers∧
      ∀ c,(growChunk vm n ans).qstrLastChunk=some c → vm.qstrLastChunk=some c := by
  rcases growChunk_cases vm n ans with ⟨c,heap,hc,_,heq⟩ | ⟨c,heap,_,_,heq⟩ | ⟨heq,_⟩
  · rw [heq]
    exact ⟨rfl,rfl,rfl,rfl,fun c' hc' => hc'⟩
  · rw [heq]
    exact ⟨rfl,rfl,rfl,rfl,fun c' hc' => nomatch hc'⟩
  · rw [heq]
    exact ⟨rfl,rfl,rfl,rfl,fun c' hc' => hc'⟩

/-- The second part of qstr_from_strn leaves the pools, the memory and the buffers. -/
theorem newChunk_frame (vm : Vm) (n : ℕ) (ans : Answers) :
    (newChunk vm n ans).lastPool=vm.lastPool∧(newChunk vm n ans).prev=vm.prev∧
      (newChunk vm n ans).memory=vm.memory∧(newChunk vm n ans).buffers=vm.buffers := by
  rcases newChunk_cases vm n ans with ⟨c,size,heap,_,_,_,_,heq⟩ | ⟨heap,_,_,heq⟩ | ⟨c,_,heq⟩
  · rw [heq]
    exact ⟨rfl,rfl,rfl,rfl⟩
  · rw [heq]
    exact ⟨rfl,rfl,rfl,rfl⟩
  · rw [heq]
    exact ⟨rfl,rfl,rfl,rfl⟩

/-- The table only depends on the pools and the memory. -/
theorem Table.congr (h : Table vm strs) (hlast : vm'.lastPool=vm.lastPool)
    (hprev : vm'.prev=vm.prev) (hmemory : vm'.memory=vm.memory) : Table vm' strs := by
  have hpools : vm'.pools=vm.pools := by
    rw [Vm.pools,Vm.pools,hlast,hprev]
  refine ⟨?_,?_,?_,?_⟩
  · rw [hpools]
    exact h.numbered
  · rw [hpools]
    exact h.null
  · rw [hpools]
    exact h.length
  · rw [entries,hpools,hmemory]
    exact h.held

/-- Whether the pools are overfull only depends on them. -/
theorem Roomy.congr (h : Roomy vm) (hlast : vm'.lastPool=vm.lastPool)
    (hprev : vm'.prev=vm.prev) : Roomy vm' := by
  refine ⟨?_,?_,?_⟩
  · rw [hlast]
    exact h.pos
  · rw [hlast]
    exact h.rom
  · rw [Vm.pools,hlast,hprev]
    exact h.fits

/-- Adding a qstr leaves the buffers and the bytes. -/
theorem qstrAdd_frame (vm : Vm) (q : ℕ) (a : Answer) :
    (qstrAdd vm q a).1.buffers=vm.buffers∧(qstrAdd vm q a).1.memory=vm.memory := by
  rcases qstrAdd_cases vm q a with ⟨heap,_,_,heq⟩ | ⟨heap,pool,_,_,_,heq⟩ | ⟨_,_,heq⟩
  · rw [heq]
    exact ⟨rfl,rfl⟩
  · rw [heq]
    exact ⟨rfl,rfl⟩
  · rw [heq]
    exact ⟨rfl,rfl⟩

/-- The new chunk of a string is lost: it is allocated, and then there is no memory for the
pool that would point to it. -/
def LosesChunk (vm : Vm) (str : List ℕ) (ans : Answers) : Prop :=
  let grown := growChunk vm (qAlloc str.length) ans
  let got := newChunk grown (qAlloc str.length) ans
  qstrFindStrn vm str=0∧grown.qstrLastChunk=none∧
    ∃ chunk,got.qstrLastChunk=some chunk∧PoolFails (storeString got chunk str) chunk ans.pool

/-- Bytes apart from the buffers of callers are stored. -/
theorem begun_store {m : ℕ→ℕ} {buffers : List Block} {q : ℕ} {xs : List ℕ}
    (h : ∀ r∈buffers,∃ len,r.size=qAlloc len∧len<256∧m (r.head+2)=len)
    (hapart : ∀ r∈buffers,r.Apart ⟨q,xs.length⟩) :
    ∀ r∈buffers,∃ len,r.size=qAlloc len∧len<256∧store m q xs (r.head+2)=len := by
  intro r hr
  obtain ⟨len,hsize,hlt,hlen⟩ := h r hr
  refine ⟨len,hsize,hlt,?_⟩
  rw [store_of_apart,hlen]
  have hne := hapart r hr
  unfold Block.Apart at hne
  unfold qAlloc at hsize
  dsimp only at hne
  omega

/-- The buffers of callers are in use. -/
theorem mem_regions_of_buffers {r : Block} (hr : r∈vm.buffers) : r∈regions vm strs :=
  mem_append_left _ (mem_append_right _ hr)

/-- The outcomes of qstr_from_strn, where no chunk is lost: an error, a qstr that was there,
or a new one. -/
theorem qstrFromStrn_spec (h : Inv vm strs) {str : List ℕ} (hkeep : ¬LosesChunk vm str ans) :
    (∃ n,(qstrFromStrn vm str ans).2=.error n∧Inv (qstrFromStrn vm str ans).1 strs)∨
    (qstrFindStrn vm str≠0∧qstrFromStrn vm str ans=(vm,.ok (qstrFindStrn vm str)))∨
    (qstrFindStrn vm str=0∧(qstrFromStrn vm str ans).2=.ok (strs.length+1)∧
      Inv (qstrFromStrn vm str ans).1 (strs++[str])) := by
  unfold LosesChunk at hkeep
  rw [qstrFromStrn]
  by_cases hfind : qstrFindStrn vm str=0
  case neg =>
    rw [if_neg hfind]
    exact .inr (.inl ⟨hfind,rfl⟩)
  dsimp only at hkeep ⊢
  rw [if_pos hfind]
  obtain ⟨hlast,hprev,hmemory,hbuffers,hgrown⟩ := growChunk_frame vm (qAlloc str.length) ans
  obtain ⟨hplaced,hroom⟩ := h.placed.growChunk h.table h.anchored (qAlloc str.length) ans
  revert hkeep hlast hprev hmemory hbuffers hgrown hplaced hroom
  generalize growChunk vm (qAlloc str.length) ans=grown
  intro hkeep hlast hprev hmemory hbuffers hgrown hplaced hroom
  have hpools : grown.pools=vm.pools := by
    rw [Vm.pools,Vm.pools,hlast,hprev]
  have hanchored : Anchored grown := by
    intro c hc
    rw [hpools]
    exact h.anchored c (hgrown c hc)
  obtain ⟨hlast',hprev',hmemory',hbuffers'⟩ := newChunk_frame grown (qAlloc str.length) ans
  obtain ⟨hplaced',hroom'⟩ := hplaced.newChunk hanchored hroom ans
  revert hkeep hlast' hprev' hmemory' hbuffers' hplaced' hroom'
  generalize newChunk grown (qAlloc str.length) ans=got
  intro hkeep hlast' hprev' hmemory' hbuffers' hplaced' hroom'
  have hpools' : got.pools=vm.pools := by
    rw [Vm.pools,Vm.pools,hlast',hprev',hlast,hprev]
  have htable : Table got strs :=
    h.table.congr (hlast'.trans hlast) (hprev'.trans hprev) (hmemory'.trans hmemory)
  have hroomy : Roomy got := h.roomy.congr (hlast'.trans hlast) (hprev'.trans hprev)
  have hbegun : ∀ r∈got.buffers,∃ len,r.size=qAlloc len∧len<256∧got.memory (r.head+2)=len := by
    rw [hbuffers',hbuffers,hmemory',hmemory]
    exact h.begun
  cases hc : got.qstrLastChunk with
  | none =>
    refine .inl ⟨_,rfl,hplaced',htable,hroomy,fun c hc' => ?_,hbegun⟩
    rw [hc] at hc'
    cases hc'
  | some c =>
    dsimp only
    obtain ⟨hfits,hanchor⟩ := hroom' c hc
    have hlive : c∈got.live [c+got.qstrLastUsed] := by
      rw [mem_live,hpools']
      rcases hanchor with hold | ⟨_,hzero⟩
      · rw [hpools] at hold
        exact .inr (.inl hold)
      · rw [hzero]
        exact .inr (.inr (.inr (mem_singleton.mpr rfl)))
    obtain ⟨hstored,hstoredTable,hpending⟩ := storeString_pending hplaced' htable hc hfits hlive
    have hroomyStored : Roomy (storeString got (c+got.qstrLastUsed) str) := hroomy.congr rfl rfl
    have hbegunStored : ∀ r∈got.buffers,∃ len,r.size=qAlloc len∧len<256∧
        (storeString got (c+got.qstrLastUsed) str).memory (r.head+2)=len := by
      rw [storeString_eq]
      refine begun_store hbegun fun r hr => ?_
      rw [length_entry]
      exact hpending.apart r (mem_regions_of_buffers hr)
    have hlive' : ∀ c',(storeString got (c+got.qstrLastUsed) str).qstrLastChunk=some c' →
        c'∈(storeString got (c+got.qstrLastUsed) str).live [c+got.qstrLastUsed] := by
      intro c' hc'
      have hsame : c'=c := Option.some.inj (hc'.symm.trans hc)
      rw [hsame]
      exact hlive
    rcases qstrAdd_spec hstored hstoredTable hroomyStored hpending hlive' ans.pool with
      ⟨heap,hfails,heq,hkept⟩ | ⟨hgot,hid,hadded,haddedTable,haddedRoomy,hchunk,hqstrs⟩
    · rw [heq]
      refine .inl ⟨_,rfl,hkept,hstoredTable.congr rfl rfl rfl,hroomyStored.congr rfl rfl,
        fun c' hc' => ?_,hbegunStored⟩
      have hsame : c'=c := Option.some.inj (hc'.symm.trans hc)
      show Ptr.ram c'∈qstrsOf got.pools
      rw [hsame,hpools',←hpools]
      rcases hanchor with hold | ⟨hnone,hzero⟩
      · exact hold
      · rw [hzero,add_zero] at hfails
        exact absurd ⟨hfind,hnone,c,hc,hfails⟩ hkeep
    · refine .inr (.inr ⟨hfind,hid,hadded,haddedTable,haddedRoomy,fun c' hc' => ?_,?_⟩)
      · rw [hchunk] at hc'
        have hsame : c'=c := Option.some.inj (hc'.symm.trans hc)
        rw [hqstrs,hsame]
        show Ptr.ram c∈qstrsOf got.pools++[.ram (c+got.qstrLastUsed)]
        rw [hpools',←hpools]
        rcases hanchor with hold | ⟨_,hzero⟩
        · exact mem_append_left _ hold
        · rw [hzero]
          exact mem_append_right _ (mem_singleton.mpr rfl)
      · obtain ⟨hbuf,hmem⟩ := qstrAdd_frame (storeString got (c+got.qstrLastUsed) str)
          (c+got.qstrLastUsed) ans.pool
        rw [hbuf,hmem]
        exact hbegunStored

section Buffers

variable {r : Block}

/-- A buffer of a caller goes in front of what is in use. -/
theorem regions_perm (vm : Vm) (strs : List (List ℕ)) (r : Block) (buffers : List Block) :
    (regions {vm with buffers := r::buffers} strs).Perm
      (r::regions {vm with buffers := buffers} strs) := by
  unfold regions
  rw [append_assoc,append_assoc]
  exact perm_middle

/-- A caller gets a buffer. -/
theorem buildStart_placed (h : Placed vm strs) (hanchor : Anchored vm) {heap : Heap}
    (hkeeps : Keeps vm [] heap) (hfresh : Fresh vm [] heap r) (hr : 0 < r.size) :
    Placed {vm with
      heap := heap
      buffers := r::vm.buffers} strs := by
  have hkept := h.keeps hkeeps fun c hc => hanchor.live hc
  have hnew := h.apart_of_blocks hfresh.2
  have hperm := regions_perm vm strs r vm.buffers
  have hmem : ∀ x∈vm.live [],x∈Vm.live {vm with buffers := r::vm.buffers} [] := by
    intro x hx
    rw [mem_live] at *
    rcases hx with hx | hx | ⟨r',hr',hhead⟩ | hx
    · exact .inl hx
    · exact .inr (.inl hx)
    · exact .inr (.inr (.inl ⟨r',mem_cons_of_mem _ hr',hhead⟩))
    · cases hx
  refine ⟨?_,fun r' hr' => ?_,fun r' hr' => ?_,fun r' hr' => ?_,fun c hc => ?_⟩
  · refine (hperm.pairwise_iff Block.Apart.symm).mpr (pairwise_cons.mpr ⟨?_,h.apart⟩)
    exact fun r' hr' => (hnew r' hr').symm
  · rcases mem_cons.mp (hperm.mem_iff.mp hr') with heq | hold
    · rw [heq]
      exact ⟨r,hfresh.1,.refl r,mem_live.mpr (.inr (.inr (.inl ⟨r,mem_cons_self,rfl⟩)))⟩
    · obtain ⟨b,hb,hrb,hlive⟩ := hkept.inside r' hold
      exact ⟨b,hb,hrb,hmem _ hlive⟩
  · rcases mem_cons.mp (hperm.mem_iff.mp hr') with heq | hold
    · rw [heq]
      exact hr
    · exact h.sized r' hold
  · rcases mem_cons.mp hr' with heq | hold
    · rw [heq]
      exact hfresh.1
    · exact hkept.buffers r' hold
  · obtain ⟨hchunk,hle,hroom⟩ := hkept.chunk c hc
    refine ⟨hchunk,hle,fun r' hr' => ?_⟩
    rcases mem_cons.mp (hperm.mem_iff.mp hr') with heq | hold
    · rw [heq]
      refine (hfresh.2 _ (h.chunk c hc).1 (hanchor.live hc)).inside (.refl r) ?_
      have hle' : vm.qstrLastUsed≤vm.qstrLastAlloc := hle
      unfold Block.Inside room
      dsimp only
      omega
    · exact hroom r' hold

/-- A buffer is taken from a caller. It is apart from what is still in use, and its block
can be freed. -/
theorem erase_placed (h : Placed vm strs) (htable : Table vm strs) (hanchor : Anchored vm)
    (hr : r∈vm.buffers) :
    Placed {vm with buffers := vm.buffers.erase r} strs∧
      (∀ r'∈regions {vm with buffers := vm.buffers.erase r} strs,r'.Apart r)∧
      Placed {vm with
        heap := vm.heap.free r.head
        buffers := vm.buffers.erase r} strs := by
  have hperm : (regions vm strs).Perm
      (r::regions {vm with buffers := vm.buffers.erase r} strs) := by
    refine List.Perm.trans ?_ (regions_perm vm strs r (vm.buffers.erase r))
    unfold regions
    refine List.Perm.append_right _ (List.Perm.append_left _ ?_)
    exact perm_cons_erase hr
  have hpair := pairwise_cons.mp ((hperm.pairwise_iff Block.Apart.symm).mp h.apart)
  have hin : ∀ r'∈regions {vm with buffers := vm.buffers.erase r} strs,r'∈regions vm strs :=
    fun r' hr' => hperm.mem_iff.mpr (mem_cons_of_mem _ hr')
  have hpos : 0 < r.size := h.sized r (mem_regions_of_buffers hr)
  have hinside : ∀ r'∈regions {vm with buffers := vm.buffers.erase r} strs,
      ∃ b∈vm.heap.blocks,r'.Inside b∧b.head≠r.head∧
        b.head∈Vm.live {vm with buffers := vm.buffers.erase r} [] := by
    intro r' hr'
    obtain ⟨b,hb,hrb,hlive⟩ := h.inside r' (hin r' hr')
    have hne : b.head≠r.head := by
      intro hhead
      have hbr : b=r := Heap.eq_of_head hb (h.buffers r hr) hhead
      rw [hbr] at hrb
      have hapart := hpair.1 r' hr'
      have hself := hapart.inside hrb (.refl r')
      exact Block.not_apart_of_head (h.sized r' (hin r' hr')) (h.sized r' (hin r' hr')) rfl hself
    refine ⟨b,hb,hrb,hne,?_⟩
    rw [mem_live] at *
    rcases hlive with hx | hx | ⟨r2,hr2,hhead⟩ | hx
    · exact .inl hx
    · exact .inr (.inl hx)
    · refine .inr (.inr (.inl ⟨r2,?_,hhead⟩))
      refine (mem_erase_of_ne fun heq => hne ?_).mpr hr2
      rw [←hhead,heq]
    · cases hx
  have hbuffers : ∀ r'∈vm.buffers.erase r,r'∈vm.heap.blocks∧r'.head≠r.head := by
    intro r' hr'
    have hmem : r'∈vm.buffers := mem_of_mem_erase hr'
    refine ⟨h.buffers r' hmem,fun hhead => ?_⟩
    have hreg : r'∈regions {vm with buffers := vm.buffers.erase r} strs :=
      @mem_regions_of_buffers {vm with buffers := vm.buffers.erase r} strs r' hr'
    exact Block.not_apart_of_head hpos (h.sized r' (hin r' hreg)) hhead.symm (hpair.1 r' hreg)
  refine ⟨⟨hpair.2,fun r' hr' => ?_,fun r' hr' => h.sized r' (hin r' hr'),
    fun r' hr' => (hbuffers r' hr').1,fun c hc => ?_⟩,fun r' hr' => (hpair.1 r' hr').symm,
    ⟨hpair.2,fun r' hr' => ?_,fun r' hr' => h.sized r' (hin r' hr'),
    fun r' hr' => Heap.mem_free.mpr (hbuffers r' hr'),fun c hc => ?_⟩⟩
  · obtain ⟨b,hb,hrb,_,hlive⟩ := hinside r' hr'
    exact ⟨b,hb,hrb,hlive⟩
  · obtain ⟨hmem,hle,hroom⟩ := h.chunk c hc
    exact ⟨hmem,hle,fun r' hr' => hroom r' (hin r' hr')⟩
  · obtain ⟨b,hb,hrb,hne,hlive⟩ := hinside r' hr'
    exact ⟨b,Heap.mem_free.mpr ⟨hb,hne⟩,hrb,hlive⟩
  · obtain ⟨hmem,hle,hroom⟩ := h.chunk c hc
    have hne : r.head≠c := h.buffer_ne (hanchor c hc) htable hr
    exact ⟨Heap.mem_free.mpr ⟨hmem,hne.symm⟩,hle,fun r' hr' => hroom r' (hin r' hr')⟩

end Buffers

/-- A call that returns a qstr does not lose a chunk. -/
theorem not_losesChunk_of_ok {str : List ℕ} {q : ℕ} (h : (qstrFromStrn vm str ans).2=.ok q) :
    ¬LosesChunk vm str ans := by
  rintro ⟨hfind,hnone,chunk,hchunk,hfails⟩
  have hused : (newChunk (growChunk vm (qAlloc str.length) ans) (qAlloc str.length)
      ans).qstrLastUsed=0 := by
    rcases newChunk_cases (growChunk vm (qAlloc str.length) ans) (qAlloc str.length) ans with
      ⟨_,_,_,_,_,_,_,heq⟩ | ⟨_,_,_,heq⟩ | ⟨c,hc,_⟩
    · rw [heq]
    · rw [heq] at hchunk
      rw [show (growChunk vm (qAlloc str.length) ans).qstrLastChunk=some chunk from hchunk] at hnone
      cases hnone
    · rw [hc] at hnone
      cases hnone
  rw [qstrFromStrn] at h
  dsimp only at h
  rw [if_pos hfind,hchunk] at h
  dsimp only at h
  rw [hused,add_zero] at h
  rcases qstrAdd_cases _ chunk ans.pool with ⟨_,_,_,heq⟩ | ⟨_,_,hgot,_⟩ | ⟨hgot,_⟩
  · rw [heq] at h
    cases h
  · exact hgot hfails
  · exact hgot hfails

/-- The outcomes of a call that interns a string, where all strings are short: an error, the
number that the string has, or the next number. -/
def Interns (strs : List (List ℕ)) (str : List ℕ) (r : Vm×Except ℕ ℕ) : Prop :=
  (∃ n,r.2=.error n∧Inv r.1 strs)∨
  (∃ i,r.2=.ok (i+1)∧strs[i]?=some str∧Inv r.1 strs)∨
  (str∉strs∧r.2=.ok (strs.length+1)∧Inv r.1 (strs++[str]))

/-- A string is interned by qstr_from_strn. -/
theorem qstrFromStrn_interns (h : Inv vm strs) (hshort : ∀ s∈strs,s.length<256) {str : List ℕ}
    (hkeep : ¬LosesChunk vm str ans) : Interns strs str (qstrFromStrn vm str ans) := by
  have hfound := h.table.find_short hshort str
  rcases qstrFromStrn_spec h hkeep with herror | ⟨hne,heq⟩ | ⟨hzero,hid,hinv⟩
  · exact .inl herror
  · rcases hfound with ⟨hzero,_⟩ | ⟨i,hi,hstr⟩
    · exact absurd hzero hne
    · rw [heq,hi]
      exact .inr (.inl ⟨i,rfl,hstr,h⟩)
  · rcases hfound with ⟨_,hnew⟩ | ⟨i,hi,_⟩
    · exact .inr (.inr ⟨hnew,hid,hinv⟩)
    · rw [hi] at hzero
      cases hzero

/-- A string that is stored is interned by qstr_add, where the chunk has a string. -/
theorem qstrAdd_interns (h : Inv vm strs) {q : ℕ} {s : List ℕ} (hpending : Pending vm strs q s)
    (hnew : s∉strs) (a : Answer) : Interns strs s (qstrAdd vm q a) := by
  obtain ⟨hbuf,hmem⟩ := qstrAdd_frame vm q a
  rcases qstrAdd_spec h.placed h.table h.roomy hpending (fun c hc => h.anchored.live hc) a with
    ⟨heap,_,heq,hkept⟩ | ⟨_,hid,hadded,htable,hroomy,hchunk,hqstrs⟩
  · rw [heq]
    exact .inl ⟨_,rfl,hkept,h.table.congr rfl rfl rfl,h.roomy.congr rfl rfl,h.anchored,h.begun⟩
  · refine .inr (.inr ⟨hnew,hid,hadded,htable,hroomy,fun c hc => ?_,?_⟩)
    · rw [hchunk] at hc
      rw [hqstrs]
      exact mem_append_left _ (h.anchored c hc)
    · rw [hbuf,hmem]
      exact h.begun

/-- A caller gets a buffer, or there is no memory for it. -/
theorem qstrBuildStart_inv (h : Inv vm strs) {len : ℕ} (hlen : len<256) (a : Answer) :
    Inv (qstrBuildStart vm len a).1 strs := by
  have hkeeps := keeps_alloc vm [] a (qAlloc len)
  have hfresh := @Heap.alloc_some vm.heap (vm.live []) a (qAlloc len)
  revert hkeeps hfresh
  rw [qstrBuildStart]
  generalize vm.heap.alloc (vm.live []) a (qAlloc len)=r
  intro hkeeps hfresh
  obtain ⟨heap,head⟩ := r
  cases head with
  | none =>
    have hplaced := h.placed.keeps hkeeps fun c hc => h.anchored.live hc
    exact ⟨hplaced,h.table.congr rfl rfl rfl,h.roomy.congr rfl rfl,h.anchored,h.begun⟩
  | some q =>
    have hnew : Fresh vm [] heap ⟨q,qAlloc len⟩ := hfresh rfl
    have hapart := h.placed.apart_of_blocks hnew.2
    have hcell : Block.Inside ⟨q+2,1⟩ ⟨q,qAlloc len⟩ := by
      unfold Block.Inside qAlloc
      dsimp only
      omega
    have hpos : 0<qAlloc len := succ_pos _
    have hplaced := buildStart_placed h.placed h.anchored hkeeps hnew hpos
    have htable : Table {vm with memory := qSetLength vm.memory q len} strs :=
      h.table.store fun r hr => (hapart r hr).inside (.refl r) hcell
    refine ⟨hplaced.memory _,htable.congr rfl rfl rfl,h.roomy.congr rfl rfl,h.anchored,
      fun r hr => ?_⟩
    rcases mem_cons.mp hr with heq | hold
    · rw [heq]
      refine ⟨len,rfl,hlen,?_⟩
      show store vm.memory (q+2) [len%256] (q+2)=len
      rw [store,if_pos (le_refl _),Nat.sub_self]
      exact mod_eq_of_lt hlen
    · refine begun_store h.begun (fun r hr => ?_) r hold
      exact (hapart r (mem_regions_of_buffers hr)).inside (.refl r) hcell

theorem qGetData_ram (m : ℕ→ℕ) (q n : ℕ) : qGetData (peek m (.ram q)) n=load m (q+2+1) n := by
  refine map_congr_left fun i _ => ?_
  rw [peek]
  exact congrArg m (add_assoc q 3 i).symm

/-- The bytes of a string that a caller has stored in a buffer. -/
theorem load_buildEnd {m : ℕ→ℕ} {q : ℕ} {s : List ℕ} (hlen : s.length<256)
    (hbyte : m (q+2)=s.length) :
    load (store (qSetHash (store m (q+2+1) s) q (qstrComputeHash s)) (q+2+1+s.length) [0]) q
      (qAlloc s.length)=entry s := by
  have hnul : ∀ p n,p+n≤q+2+1+s.length → load (store (qSetHash (store m (q+2+1) s) q
      (qstrComputeHash s)) (q+2+1+s.length) [0]) p n=
        load (qSetHash (store m (q+2+1) s) q (qstrComputeHash s)) p n :=
    fun p n hle => load_store_of_apart (.inr hle)
  have hhash : ∀ p n,q+2≤p → load (qSetHash (store m (q+2+1) s) q (qstrComputeHash s)) p n=
      load (store m (q+2+1) s) p n :=
    fun p n hle => load_store_of_apart (.inl hle)
  have hlength : load (store m (q+2+1) s) (q+2) 1=[s.length%256] := by
    rw [load_store_of_apart (.inr (le_refl _)),mod_eq_of_lt hlen]
    exact congrArg (fun b => [b]) hbyte
  have hend : load (store (qSetHash (store m (q+2+1) s) q (qstrComputeHash s))
      (q+2+1+s.length) [0]) (q+2+1+s.length) 1=[0] := load_store _ [0]
  have hstart : load (qSetHash (store m (q+2+1) s) q (qstrComputeHash s)) q 2=
      [qstrComputeHash s%256,qstrComputeHash s>>>8%256] :=
    load_store q [qstrComputeHash s%256,qstrComputeHash s>>>8%256]
  have hsum : q+(2+1+s.length)=q+2+1+s.length := by omega
  rw [qAlloc,load_add,load_add,load_add,hsum,hend,←add_assoc,hnul _ _ (by omega),
    hnul _ _ (by omega),hnul _ _ (by omega),hstart,hhash _ _ (le_refl _),hlength,
    hhash _ _ (by omega),load_store]
  rfl

/-- The string in a buffer is interned by qstr_build_end. -/
theorem qstrBuildEnd_interns (h : Inv vm strs) (hshort : ∀ s∈strs,s.length<256) {q : ℕ}
    {s : List ℕ} (hs : s.length<256) (hr : ⟨q,qAlloc s.length⟩∈vm.buffers) (a : Answer) :
    Interns strs s (qstrBuildEnd {vm with
      memory := store vm.memory (q+2+1) s
      buffers := vm.buffers.erase ⟨q,qAlloc s.length⟩} q a) := by
  obtain ⟨herased,hapart,hfreed⟩ := erase_placed h.placed h.table h.anchored hr
  have hbyte : vm.memory (q+2)=s.length := by
    obtain ⟨len,hsize,_,hlen⟩ := h.begun _ hr
    have hsame : len=s.length := by
      unfold qAlloc at hsize
      dsimp only at hsize
      omega
    rw [hlen,hsame]
  have hsize : qAlloc s.length=2+1+s.length+1 := rfl
  have hcells : ∀ p n,q≤p → p+n≤q+qAlloc s.length →
      Block.Inside ⟨p,n⟩ ⟨q,qAlloc s.length⟩ := fun p n hp hn => ⟨hp,hn⟩
  have hbegun : ∀ r∈vm.buffers.erase ⟨q,qAlloc s.length⟩,
      ∃ len,r.size=qAlloc len∧len<256∧vm.memory (r.head+2)=len :=
    fun r hr' => h.begun r (mem_of_mem_erase hr')
  have hstore : ∀ (m : ℕ→ℕ) (p : ℕ) (xs : List ℕ),Block.Inside ⟨p,xs.length⟩ ⟨q,qAlloc s.length⟩ →
      Table {vm with
        memory := m
        buffers := vm.buffers.erase ⟨q,qAlloc s.length⟩} strs →
      (∀ r∈vm.buffers.erase ⟨q,qAlloc s.length⟩,
        ∃ len,r.size=qAlloc len∧len<256∧m (r.head+2)=len) →
      Table {vm with
        memory := store m p xs
        buffers := vm.buffers.erase ⟨q,qAlloc s.length⟩} strs∧
      ∀ r∈vm.buffers.erase ⟨q,qAlloc s.length⟩,
        ∃ len,r.size=qAlloc len∧len<256∧store m p xs (r.head+2)=len := by
    intro m p xs hin htable hb
    refine ⟨htable.store fun r hr' => (hapart r hr').inside (.refl r) hin,
      begun_store hb fun r hr' => ?_⟩
    have hmem := @mem_regions_of_buffers {vm with
      buffers := vm.buffers.erase ⟨q,qAlloc s.length⟩} strs r hr'
    exact (hapart r hmem).inside (.refl r) hin
  have hdata := hstore vm.memory (q+2+1) s (hcells _ _ (by omega) (by omega))
    (h.table.congr rfl rfl rfl) hbegun
  have hgetLength : qGetLength (peek (store vm.memory (q+2+1) s) (.ram q))=s.length := by
    rw [qGetLength,peek,store_of_apart (.inl (lt_succ_self _)),hbyte]
  have hgetData : qGetData (peek (store vm.memory (q+2+1) s) (.ram q)) s.length=s := by
    rw [qGetData_ram,load_store]
  rw [qstrBuildEnd]
  rw [hgetLength,hgetData]
  rcases hdata.1.find_short hshort s with ⟨hzero,hnew⟩ | ⟨i,hi,hstr⟩
  · rw [if_pos hzero]
    have hhash := hstore _ q [qstrComputeHash s%256,qstrComputeHash s>>>8%256]
      (hcells q 2 (le_refl _) (by omega))
      hdata.1 hdata.2
    have hnul := hstore _ (q+2+1+s.length) [0] (hcells (q+2+1+s.length) 1 (by omega) (by omega))
      hhash.1 hhash.2
    refine qstrAdd_interns ⟨herased.memory _,hnul.1,h.roomy.congr rfl rfl,h.anchored,hnul.2⟩ ?_
      hnew a
    refine ⟨hapart,⟨_,h.placed.buffers _ hr,.refl _,mem_live.mpr
      (.inr (.inr (.inr (mem_singleton.mpr rfl))))⟩,fun c hc => ?_,load_buildEnd hs hbyte⟩
    exact (h.placed.chunk c hc).2.2 _ (mem_regions_of_buffers hr)
  · have hne : i+1≠0 := succ_ne_zero i
    rw [hi,if_neg hne]
    exact .inr (.inl ⟨i,rfl,hstr,hfreed.memory _,hdata.1.congr rfl rfl rfl,
      h.roomy.congr rfl rfl,h.anchored,hdata.2⟩)

/-- A call that interns strings. -/
inductive Op where
  | fromStrn (str : List ℕ) (ans : Answers)
  | buildStart (len : ℕ) (ans : Answer)
  /-- A caller stores a string in its buffer and calls qstr_build_end. -/
  | buildEnd (qPtr : ℕ) (str : List ℕ) (ans : Answer)

/-- What a call returns. -/
inductive Output where
  | qstr (q : ℕ)
  | buffer (qPtr : ℕ)
  | raised (bytes : ℕ)
deriving DecidableEq

/-- The output of a call. -/
def output (ok : ℕ→Output) : Except ℕ ℕ→Output
  | .ok q => ok q
  | .error bytes => .raised bytes

/-- One call. A caller ends only what it has begun. -/
def step (vm : Vm) : Op→Except Unit (Vm×Output)
  | .fromStrn str ans =>
    let r := qstrFromStrn vm str ans
    .ok (r.1,output .qstr r.2)
  | .buildStart len ans =>
    let r := qstrBuildStart vm len ans
    .ok (r.1,output .buffer r.2)
  | .buildEnd qPtr str ans =>
    if ⟨qPtr,qAlloc str.length⟩∈vm.buffers then
      let r := qstrBuildEnd {vm with
        memory := store vm.memory (qPtr+2+1) str
        buffers := vm.buffers.erase ⟨qPtr,qAlloc str.length⟩} qPtr ans
      .ok (r.1,output .qstr r.2)
    else .error ()

/-- The string of a call is shorter than 256 bytes. -/
def Short : Op→Prop
  | .fromStrn str _ => str.length<256
  | .buildStart len _ => len<256
  | .buildEnd _ str _ => str.length<256

/-- A call does not lose the chunk that it allocates. -/
def KeepsChunk (vm : Vm) : Op→Prop
  | .fromStrn str ans => ¬LosesChunk vm str ans
  | .buildStart _ _ => True
  | .buildEnd _ _ _ => True

/-- A call has interned a string and returned its qstr. -/
def Interned : Op×Output→List ℕ→ℕ→Prop
  | (.fromStrn str _,.qstr q),s,id => str=s∧q=id
  | (.buildEnd _ str _,.qstr q),s,id => str=s∧q=id
  | _,_,_ => False

/-- The bytes of the qstrs in RAM, by Q_GET_ALLOC. -/
def qstrBlocks (vm : Vm) : List Block :=
  (qstrsOf vm.pools).filterMap fun p =>
    p.addr.map fun q => ⟨q,qAlloc (qGetLength (peek vm.memory p))⟩

/-- What holds after calls. -/
structure Lawful (vm : Vm) (calls : List (Op×Output)) : Prop where
  /-- Two calls return the same qstr exactly for the same string. -/
  same : ∀ c∈calls,∀ d∈calls,∀ s t q r,Interned c s q → Interned d t r → (q=r↔s=t)
  denotes : ∀ c∈calls,∀ s q,Interned c s q → qstrData vm q=some s∧qstrLen vm q=some s.length∧
    qstrHash vm q=some (qstrComputeHash s)
  /-- The bytes of qstrs do not overlap. -/
  apart : (qstrBlocks vm).Pairwise Block.Apart
  inside : ∀ r∈qstrBlocks vm,∃ b∈vm.heap.blocks,r.Inside b

/-- The table holds the strings of a pool of distinct strings, which are short. -/
structure Holding (vm : Vm) (pool : Interning.Pool (List ℕ)) : Prop where
  /-- The strings are where they should be. -/
  inv : Inv vm pool.items
  /-- Their lengths fit into a byte. -/
  short : ∀ s∈pool.items,s.length<256

section Pools

variable {pool : Interning.Pool (List ℕ)}

/-- A call that interns a string returns its number, and the pool grows by the string. -/
theorem Interns.grow {str : List ℕ} {r : Vm×Except ℕ ℕ} (h : Interns pool.items str r)
    (hshort : ∀ s∈pool.items,s.length<256) (hstr : str.length<256) :
    ∃ pool',pool≤pool'∧Holding r.1 pool'∧
      ∀ q,r.2=.ok q → str∈pool'.items∧q=pool'.number str := by
  rcases h with ⟨n,herror,hinv⟩ | ⟨i,hid,hi,hinv⟩ | ⟨hnew,hid,hinv⟩
  · refine ⟨pool,le_refl pool,⟨hinv,hshort⟩,fun q hq => ?_⟩
    rw [herror] at hq
    cases hq
  · have hmem := mem_of_getElem? hi
    have hnumber := Interning.Pool.number_of_getElem? hi
    refine ⟨pool,le_refl pool,⟨hinv,hshort⟩,fun q hq => ⟨hmem,?_⟩⟩
    rw [hid] at hq
    cases hq
    exact hnumber.symm
  · have hitems : (pool.intern str).items=pool.items++[str] := by
      rw [Interning.Pool.intern,dif_neg hnew]
    have hlast : (pool.intern str).items[pool.items.length]?=some str := by
      rw [hitems,List.getElem?_append_right (le_refl _),Nat.sub_self]
      rfl
    have hmem := mem_of_getElem? hlast
    have hnumber := Interning.Pool.number_of_getElem? hlast
    refine ⟨pool.intern str,pool.le_intern str,⟨?_,?_⟩,fun q hq => ⟨hmem,?_⟩⟩
    · rw [hitems]
      exact hinv
    · rw [hitems]
      intro s hs
      rcases mem_append.mp hs with hold | hlast
      · exact hshort s hold
      · rw [mem_singleton.mp hlast]
        exact hstr
    · rw [hid] at hq
      cases hq
      exact hnumber.symm

/-- What is interned by a call whose output is that of a result. -/
theorem interned_output {op : Op} {r : Except ℕ ℕ} {str s : List ℕ} {q : ℕ}
    (h : Interned (op,output .qstr r) s q)
    (hop : (∃ ans,op=.fromStrn str ans)∨∃ p ans,op=.buildEnd p str ans) : str=s∧r=.ok q := by
  cases r with
  | error bytes =>
    rcases hop with ⟨ans,hop⟩ | ⟨p,ans,hop⟩
    · rw [hop] at h
      exact h.elim
    · rw [hop] at h
      exact h.elim
  | ok id =>
    rcases hop with ⟨ans,hop⟩ | ⟨p,ans,hop⟩
    · rw [hop] at h
      exact ⟨h.1,congrArg Except.ok h.2⟩
    · rw [hop] at h
      exact ⟨h.1,congrArg Except.ok h.2⟩

/-- One call keeps the numbers of all strings and returns the number of its own. -/
theorem step_holding (h : Holding vm pool) {op : Op} (hshort : Short op)
    (hkeep : KeepsChunk vm op) {out : Output} (hstep : step vm op=.ok (vm',out)) :
    ∃ pool',pool≤pool'∧Holding vm' pool'∧
      ∀ s q,Interned (op,out) s q → s∈pool'.items∧q=pool'.number s := by
  cases op with
  | fromStrn str ans =>
    cases hstep
    obtain ⟨pool',hle,hholding,hid⟩ :=
      (qstrFromStrn_interns h.inv h.short hkeep).grow h.short hshort
    refine ⟨pool',hle,hholding,fun s q hs => ?_⟩
    obtain ⟨heq,hq⟩ := interned_output hs (.inl ⟨ans,rfl⟩)
    rw [←heq]
    exact hid q hq
  | buildStart len ans =>
    cases hstep
    exact ⟨pool,le_refl pool,⟨qstrBuildStart_inv h.inv hshort ans,h.short⟩,
      fun s q hs => hs.elim⟩
  | buildEnd qPtr str ans =>
    rw [step] at hstep
    split at hstep
    case isFalse => cases hstep
    case isTrue hbuffer =>
      cases hstep
      obtain ⟨pool',hle,hholding,hid⟩ :=
        (qstrBuildEnd_interns h.inv h.short hshort hbuffer ans).grow h.short hshort
      refine ⟨pool',hle,hholding,fun s q hs => ?_⟩
      obtain ⟨heq,hq⟩ := interned_output hs (.inr ⟨qPtr,ans,rfl⟩)
      rw [←heq]
      exact hid q hq

/-- Calls keep the numbers of all strings and return those of their own. -/
theorem run_holding (ops : List Op) : ∀ {vm : Vm} {pool : Interning.Pool (List ℕ)},
    Holding vm pool → (∀ op∈ops,Short op) → Throughout step KeepsChunk vm ops →
    ∀ {vm' : Vm} {outs : List Output},run step vm ops=.ok (vm',outs) →
      ∃ pool',pool≤pool'∧Holding vm' pool'∧
        ∀ c∈ops.zip outs,∀ s q,Interned c s q → s∈pool'.items∧q=pool'.number s := by
  induction ops with
  | nil =>
    intro vm pool h _ _ vm' outs hrun
    cases hrun
    exact ⟨pool,le_refl pool,h,fun c hc => absurd hc not_mem_nil⟩
  | cons op ops ih =>
    intro vm pool h hshort hkeep vm' outs hrun
    obtain ⟨mid,out,outs',hstep,hrest,houts⟩ := run_cons_eq_ok.mp hrun
    obtain ⟨pool₁,hle₁,hholding₁,hid₁⟩ :=
      step_holding h (hshort op mem_cons_self) hkeep.1 hstep
    obtain ⟨pool₂,hle₂,hholding₂,hid₂⟩ := ih hholding₁
      (fun op' hop' => hshort op' (mem_cons_of_mem _ hop')) (hkeep.2 mid out hstep) hrest
    refine ⟨pool₂,le_trans hle₁ hle₂,hholding₂,fun c hc s q hs => ?_⟩
    rw [houts,zip_cons_cons] at hc
    rcases mem_cons.mp hc with hfirst | hlater
    · rw [hfirst] at hs
      obtain ⟨hmem,hq⟩ := hid₁ s q hs
      refine ⟨Interning.Pool.mem_of_le hle₂ hmem,?_⟩
      rw [Interning.Pool.number_eq_of_le hle₂ hmem]
      exact hq
    · exact hid₂ c hlater s q hs

end Pools

/-- The bytes of the qstrs, by the lengths that are stored with them. -/
theorem qstrBlocks_eq (h : Table vm strs) (hshort : ∀ s∈strs,s.length<256) :
    qstrBlocks vm=(entries vm strs).filterMap entryBlock := by
  have hfst : (entries vm strs).map Prod.fst=(qstrsOf vm.pools).tail :=
    map_fst_zip (le_of_eq h.length_tail)
  rw [qstrBlocks,h.qstrsOf_eq,←hfst,filterMap_cons_none rfl,filterMap_map]
  refine filterMap_congr fun e he => ?_
  have hlt := hshort e.2 (of_mem_zip he).2
  rw [Function.comp_apply,(h.held e he).length,mod_eq_of_lt hlt]
  rfl

/-- Where the table holds the strings that calls have interned, the calls were lawful. -/
theorem Holding.lawful {pool : Interning.Pool (List ℕ)} (h : Holding vm pool)
    {calls : List (Op×Output)}
    (hcalls : ∀ c∈calls,∀ s q,Interned c s q → s∈pool.items∧q=pool.number s) :
    Lawful vm calls := by
  have hblocks := qstrBlocks_eq h.inv.table h.short
  refine ⟨fun c hc d hd s t q r hs ht => ?_,fun c hc s q hs => ?_,?_,fun r hr => ?_⟩
  · obtain ⟨hmems,hq⟩ := hcalls c hc s q hs
    obtain ⟨hmemt,hr⟩ := hcalls d hd t r ht
    rw [hq,hr]
    constructor
    · intro hnumber
      have hitem := Interning.Pool.item_number hmems
      rw [hnumber,Interning.Pool.item_number hmemt] at hitem
      exact (Option.some.inj hitem).symm
    · exact fun heq => congrArg pool.number heq
  · obtain ⟨hmem,hq⟩ := hcalls c hc s q hs
    obtain ⟨i,hitem⟩ := List.getElem?_of_mem hmem
    obtain ⟨hhash,hlen,hdata⟩ := h.inv.table.read hitem
    rw [mod_eq_of_lt (h.short s hmem)] at hlen hdata
    rw [take_length] at hdata
    rw [hq,Interning.Pool.number_of_getElem? hitem]
    exact ⟨hdata,hlen,hhash⟩
  · rw [hblocks]
    exact (pairwise_append.mp h.inv.placed.apart).2.1
  · rw [hblocks] at hr
    obtain ⟨b,hb,hrb,_⟩ := h.inv.placed.inside r (mem_append_right _ hr)
    exact ⟨b,hb,hrb⟩

/-- At the start the table holds the strings in ROM. -/
theorem holding_qstrInit (rom : Rom) (memory : ℕ→ℕ) (heap : Heap) :
    Holding (qstrInit rom memory heap) ⟨rom.const++rom.frozen,rom.nodup⟩ := by
  obtain ⟨hnumbered,hqstrs⟩ := qstrsOf_qstrInit rom memory heap
  have hentries : ∀ e∈entries (qstrInit rom memory heap) (rom.const++rom.frozen),
      e.1=.rom (entry e.2) := by
    intro e he
    rw [entries,hqstrs,tail_cons] at he
    obtain ⟨i,hi⟩ := List.getElem?_of_mem he
    obtain ⟨hp,hs⟩ := List.getElem?_zip_eq_some.mp hi
    rw [List.getElem?_map,hs] at hp
    exact (Option.some.inj hp).symm
  have hnone : (entries (qstrInit rom memory heap) (rom.const++rom.frozen)).filterMap
      entryBlock=[] := by
    refine filterMap_eq_nil_iff.mpr fun e he => ?_
    rw [entryBlock,hentries e he]
    rfl
  have hstart : (qstrInit rom memory heap).pools.filterMap poolBlock=[]∧
      (qstrInit rom memory heap).buffers=[]∧(qstrInit rom memory heap).qstrLastChunk=none∧
      Roomy (qstrInit rom memory heap) := by
    have hconst : 10≤(mpQstrNull::rom.const.map fun s => Ptr.rom (entry s)).length := by
      rw [length_cons,length_map]
      exact rom.ten_le
    unfold qstrInit
    split
    case isTrue =>
      refine ⟨rfl,rfl,rfl,(by decide : 0<10),fun _ => hconst,fun pool hpool hhead => ?_⟩
      rw [mem_singleton.mp hpool] at hhead
      exact absurd rfl hhead
    case isFalse hfrozen =>
      refine ⟨rfl,rfl,rfl,length_pos_iff.mpr hfrozen,fun _ => ?_,fun pool hpool hhead => ?_⟩
      · exact le_of_eq (length_map _).symm
      · rcases mem_cons.mp hpool with hlast | hprev
        · rw [hlast] at hhead
          exact absurd rfl hhead
        · rw [mem_singleton.mp hprev] at hhead
          exact absurd rfl hhead
  obtain ⟨hpools,hbuffers,hchunk,hroomy⟩ := hstart
  have hregions : regions (qstrInit rom memory heap) (rom.const++rom.frozen)=[] := by
    rw [regions,hpools,hbuffers,hnone]
    rfl
  refine ⟨⟨⟨?_,?_,?_,?_,?_⟩,⟨hnumbered,?_,?_,?_⟩,hroomy,?_,?_⟩,rom.short⟩
  · rw [hregions]
    exact List.Pairwise.nil
  · rw [hregions]
    exact fun r hr => absurd hr not_mem_nil
  · rw [hregions]
    exact fun r hr => absurd hr not_mem_nil
  · rw [hbuffers]
    exact fun r hr => absurd hr not_mem_nil
  · intro c hc
    rw [hchunk] at hc
    cases hc
  · rw [hqstrs]
    rfl
  · rw [hqstrs,length_cons,length_map]
  · intro e he
    rw [hentries e he]
    exact holds_rom memory e.2
  · intro c hc
    rw [hchunk] at hc
    cases hc
  · rw [hbuffers]
    exact fun r hr => absurd hr not_mem_nil

/-- Calls with short strings are lawful, whatever the allocator answers, as long as no call
loses the chunk that it allocates. -/
theorem keepsChunk_lawful (rom : Rom) (memory : ℕ→ℕ) (heap : Heap) (ops : List Op)
    (hshort : ∀ op∈ops,Short op)
    (hkeep : Throughout step KeepsChunk (qstrInit rom memory heap) ops) (outs : List Output)
    (hrun : run step (qstrInit rom memory heap) ops=.ok (vm,outs)) :
    Lawful vm (ops.zip outs) := by
  obtain ⟨pool,_,hholding,hcalls⟩ :=
    run_holding ops (holding_qstrInit rom memory heap) hshort hkeep hrun
  exact hholding.lawful hcalls

/-- Whether a string is short can be computed. -/
instance : (op : Op)→Decidable (Short op)
  | .fromStrn str _ => inferInstanceAs (Decidable (str.length<256))
  | .buildStart len _ => inferInstanceAs (Decidable (len<256))
  | .buildEnd _ str _ => inferInstanceAs (Decidable (str.length<256))

/-- Ten generated strings and no frozen ones. -/
def tenLetters : Rom where
  const := [[],[65],[66],[67],[68],[69],[70],[71],[72],[73]]
  frozen := []
  ten_le := by decide
  nodup := by decide
  short := by decide

/-- An allocator that has memory only for a chunk, at one address. -/
def onlyChunk (head : ℕ) : Answers where
  grow := false
  shrink := false
  large := ⟨[],some head⟩
  exact := ⟨[],none⟩
  pool := ⟨[],none⟩

/-- Two callers intern the same string. The chunk is kept, as there is a pool for it. -/
theorem keepsChunk_lawful_twice : ∃ vm,
    Lawful vm ([Op.fromStrn [97] {onlyChunk 4096 with pool := ⟨[],some 8192⟩},
      .fromStrn [97] (onlyChunk 0)].zip [.qstr 11,.qstr 11]) := by
  refine ⟨_,keepsChunk_lawful tenLetters (fun _ => 0) .empty _ (by decide) ?_ _ rfl⟩
  refine (throughout_cons rfl).mpr ⟨?_,(throughout_cons rfl).mpr ⟨?_,trivial⟩⟩
  · rintro ⟨_,_,chunk,hchunk,hfails⟩
    cases hchunk
    exact absurd hfails (by decide)
  · rintro ⟨hfind,_⟩
    exact absurd hfind (by decide)

/-- A chunk is allocated and there is no memory for a pool. The next string is stored in the
same chunk, which nothing points to, and while its pool is allocated the chunk is collected.
The chunk of a third string is put at the same place. -/
def lostChunk : List Op :=
  [.fromStrn [97] (onlyChunk 4096),.fromStrn [98] {onlyChunk 0 with pool := ⟨[4096],some 8192⟩},
    .fromStrn (List.replicate 120 99) (onlyChunk 4096)]

/-- The second string is overwritten by the third one. -/
theorem not_lawful : ¬∀ (rom : Rom) (memory : ℕ→ℕ) (heap : Heap) (ops : List Op),
    (∀ op∈ops,Short op) → ∀ vm outs,run step (qstrInit rom memory heap) ops=.ok (vm,outs) →
      Lawful vm (ops.zip outs) := by
  intro h
  have hcheck : (run step (qstrInit tenLetters (fun _ => 0) .empty) lostChunk).toOption.map
      (fun r => (r.2,decide (qstrData r.1 11=some [98])))=
        some ([.raised 20,.qstr 11,.qstr 12],false) := by decide +kernel
  cases hrun : run step (qstrInit tenLetters (fun _ => 0) .empty) lostChunk with
  | error e =>
    rw [hrun] at hcheck
    cases hcheck
  | ok r =>
    rw [hrun] at hcheck
    obtain ⟨houts,hdata⟩ := Prod.mk.inj (Option.some.inj hcheck)
    have hlawful := h tenLetters (fun _ => 0) .empty lostChunk (by decide +kernel) r.1 r.2 hrun
    rw [houts] at hlawful
    have hmem : (Op.fromStrn [98] {onlyChunk 0 with pool := ⟨[4096],some 8192⟩},Output.qstr 11)∈
        lostChunk.zip [.raised 20,.qstr 11,.qstr 12] := .tail _ (.head _)
    exact of_decide_eq_false hdata (hlawful.denotes _ hmem [98] 11 ⟨rfl,rfl⟩).1

end MicroPython.QstrTable
