import MicroPython.GcHeap

/-!
# Allocation from the heap

Memory is allocated, freed and reallocated in blocks. An allocation may collect, before
it looks for free blocks when as much was allocated as the threshold says, and when it
does not find enough of them. What the memory is like then comes with the operation. The
pointer that is reallocated is on the stack of its caller, and so among the roots.
-/

namespace MicroPython.GcAlloc

open GcHeap

/-- What ends a run. -/
inductive Fault where
  /-- The allocation table is read or written outside its bounds. -/
  | table
  | assertion
  | collection (trouble : Trouble)
  deriving DecidableEq

/-- What an operation returns, and what happened in it. -/
structure Report where
  /-- The pointer that is returned. -/
  ptr : ℕ
  collected : Heap
  /-- They read behind the allocation table. -/
  outside : Bool

/-- An operation without a collection. -/
def done (s t : Heap) (ptr : ℕ) : Except Fault (Heap×Report) := .ok (t,⟨ptr,s,false⟩)

/-- The blocks for a number of bytes, as a `size_t`. -/
def numBlocks (nBytes : ℕ) : ℕ := (nBytes+bytesPerBlock-1)%sizeT/bytesPerBlock

/-- A loop that changes a number of blocks from one on. -/
def changeBlocks (f : Kind→Kind) : ℕ→ℕ→(ℕ→Kind)→ℕ→Kind
  | 0,_,table => table
  | n+1,block,table => changeBlocks f n (block+1) (Function.update table block (f (table block)))

/-! ## Allocating -/

/-- How a scan for free blocks ends. -/
inductive Scan where
  /-- With enough of them, at the last one, and their number. -/
  | found (i nFree : ℕ)
  /-- At the end of the table, with the number of free blocks there. -/
  | missing (nFree : ℕ)

/-- The scan of `gc_alloc`, of a number of blocks from one on, with `n_free`. -/
def scanTable (table : ℕ→Kind) (nBlocks : ℕ) : ℕ→ℕ→ℕ→Scan
  | 0,_,nFree => .missing nFree
  | n+1,i,nFree =>
    if table i=.free then
      if nBlocks≤nFree+1 then .found i (nFree+1) else scanTable table nBlocks n (i+1) (nFree+1)
    else scanTable table nBlocks n (i+1) 0

/-- The scan from `gc_last_free_atb_index` on. -/
def scanHeap (s : Heap) (nBlocks nFree : ℕ) : Scan :=
  scanTable s.table nBlocks (s.pool.blocks-s.lastFreeAtbIndex*blocksPerAtb)
    (s.lastFreeAtbIndex*blocksPerAtb) nFree

/-- The collection at the threshold. -/
def thresholdCollect (s : Heap) (e : Memory) : Except Trouble (Heap×Bool) :=
  if s.autoCollectEnabled=true∧s.allocThreshold ≤ s.allocAmount then gcCollect s e
  else .ok (s,false)

/-- The search of `gc_alloc`. `n_free` goes from the first scan to the second. -/
def search (s : Heap) (nBlocks : ℕ) (first retry : Memory) :
    Except Fault (Heap×Bool×Option (ℕ×ℕ)) :=
  match thresholdCollect s first with
  | .error t => .error (.collection t)
  | .ok (s,outside) =>
    match scanHeap s nBlocks 0 with
    | .found i nFree => .ok (s,outside,some (i,nFree))
    | .missing nFree =>
      if s.autoCollectEnabled=true then
        match gcCollect s retry with
        | .error t => .error (.collection t)
        | .ok (s,outside') =>
          match scanHeap s nBlocks nFree with
          | .found i nFree => .ok (s,outside||outside',some (i,nFree))
          | .missing _ => .ok (s,outside||outside',none)
      else .ok (s,outside,none)

/-- The end of `gc_alloc`, when blocks were found. -/
def take (s : Heap) (nBlocks i nFree : ℕ) (hasFinaliser : Bool) : Except Fault (Heap×ℕ) :=
  let startBlock := (i+sizeT-nFree+1)%sizeT
  if startBlock < s.pool.blocks then
    let table := Function.update s.table startBlock ((s.table startBlock).or .head)
    .ok ({s with
      table := changeBlocks (·.or .tail) (i-startBlock) (startBlock+1) table
      flags := if hasFinaliser=true then Function.update s.flags startBlock true else s.flags
      lastFreeAtbIndex := if nFree=1 then (i+1)/blocksPerAtb else s.lastFreeAtbIndex
      allocAmount := (s.allocAmount+nBlocks)%sizeT},s.pool.ptrFromBlock startBlock)
  else .error .table

/-- What is reported of blocks that were taken. -/
def report (s : Heap) (outside : Bool) : Except Fault (Heap×ℕ)→Except Fault (Heap×Report)
  | .error e => .error e
  | .ok (t,ptr) => .ok (t,⟨ptr,s,outside⟩)

/-- `gc_alloc` after the search. -/
def allocFound (nBlocks : ℕ) (hasFinaliser : Bool) :
    Heap×Bool×Option (ℕ×ℕ)→Except Fault (Heap×Report)
  | (s,outside,none) => .ok (s,⟨0,s,outside⟩)
  | (s,outside,some (i,nFree)) => report s outside (take s nBlocks i nFree hasFinaliser)

/-- `gc_alloc` -/
def gcAlloc (s : Heap) (nBytes : ℕ) (hasFinaliser : Bool) (first retry : Memory) :
    Except Fault (Heap×Report) :=
  if numBlocks nBytes=0 then done s s 0
  else if 0 < s.lockDepth then done s s 0
  else
    match search s (numBlocks nBytes) first retry with
    | .error e => .error e
    | .ok result => allocFound (numBlocks nBytes) hasFinaliser result

/-! ## Freeing -/

/-- `ATB_GET_KIND` within the allocation table. -/
def readKind (blocks : ℕ) (table : ℕ→Kind) (block : ℕ) : Except Fault Kind :=
  if block < blocks then .ok (table block) else .error .table

/-- The loop of `gc_free`, of at most a number of blocks from one on. -/
def freeChain (blocks : ℕ) : ℕ→ℕ→(ℕ→Kind)→Except Fault (ℕ→Kind)
  | 0,_,_ => .error .table
  | n+1,block,table =>
    let table := Function.update table block .free
    match readKind blocks table (block+1) with
    | .error e => .error e
    | .ok .tail => freeChain blocks n (block+1) table
    | .ok _ => .ok table

/-- The hint when a block gets free. -/
def Heap.lowerHint (s : Heap) (block : ℕ) : ℕ :=
  if block/blocksPerAtb < s.lastFreeAtbIndex then block/blocksPerAtb else s.lastFreeAtbIndex

/-- A pointer to the head of a chunk. -/
def IsChunk (s : Heap) (ptr : ℕ) : Prop :=
  s.pool.VerifyPtr ptr∧s.table (s.pool.blockFromPtr ptr)=.head

instance (s : Heap) (ptr : ℕ) : Decidable (IsChunk s ptr) := inferInstanceAs (Decidable (_∧_))

/-- `gc_free` -/
def gcFree (s : Heap) (ptr : ℕ) : Except Fault Heap :=
  if 0 < s.lockDepth then .ok s
  else if ptr=0 then .ok s
  else if IsChunk s ptr then
    let block := s.pool.blockFromPtr ptr
    match freeChain s.pool.blocks (s.pool.blocks-block) block s.table with
    | .error e => .error e
    | .ok table =>
      .ok {s with
        table := table
        flags := Function.update s.flags block false
        lastFreeAtbIndex := Heap.lowerHint s block}
  else .error .assertion

/-! ## Reallocating -/

/-- The count of `gc_realloc`, of a number of blocks from one on: those of the chunk and
the free ones behind it, as far as they are needed. -/
def countBlocks (table : ℕ→Kind) (newBlocks : ℕ) : ℕ→ℕ→ℕ→ℕ→ℕ×ℕ
  | 0,_,nBlocks,nFree => (nBlocks,nFree)
  | n+1,bl,nBlocks,nFree =>
    match table bl with
    | .tail => countBlocks table newBlocks n (bl+1) (nBlocks+1) nFree
    | .free =>
      if newBlocks≤nBlocks+(nFree+1) then (nBlocks,nFree+1)
      else countBlocks table newBlocks n (bl+1) nBlocks (nFree+1)
    | _ => (nBlocks,nFree)

/-- The loop that makes a chunk larger. -/
def growTail (blocks : ℕ) : ℕ→ℕ→(ℕ→Kind)→Except Fault (ℕ→Kind)
  | 0,_,table => .ok table
  | n+1,bl,table =>
    match readKind blocks table bl with
    | .error e => .error e
    | .ok .free => growTail blocks n (bl+1) (Function.update table bl ((table bl).or .tail))
    | .ok _ => .error .assertion

/-- The memory with one more root. -/
def Memory.withRoot (e : Memory) (ptr : ℕ) : Memory := {e with roots := ptr::e.roots}

/-- The move at the end of `gc_realloc`. -/
def moveChunk (s : Heap) (ptrIn nBytes : ℕ) (first retry : Memory) : Except Fault (Heap×Report) :=
  match gcAlloc s nBytes (s.flags (s.pool.blockFromPtr ptrIn))
      (Memory.withRoot first ptrIn) (Memory.withRoot retry ptrIn) with
  | .error e => .error e
  | .ok (s,out) =>
    if out.ptr=0 then .ok (s,out)
    else
      match gcFree s ptrIn with
      | .error e => .error e
      | .ok s => .ok (s,out)

/-- The expansion in place of `gc_realloc`. -/
def growChunk (s : Heap) (ptrIn newBlocks nBlocks : ℕ) : Except Fault (Heap×Report) :=
  match growTail s.pool.blocks (newBlocks-nBlocks) (s.pool.blockFromPtr ptrIn+nBlocks)
      s.table with
  | .error e => .error e
  | .ok table => done s {s with table := table} ptrIn

/-- `gc_realloc`, of the head of a chunk. -/
def reallocChunk (s : Heap) (ptrIn nBytes : ℕ) (allowMove : Bool) (first retry : Memory) :
    Except Fault (Heap×Report) :=
  let block := s.pool.blockFromPtr ptrIn
  let newBlocks := numBlocks nBytes
  let counts := countBlocks s.table newBlocks (s.pool.blocks-(block+1)) (block+1) 1 0
  let nBlocks := counts.1
  let nFree := counts.2
  if newBlocks=nBlocks then done s s ptrIn
  else if newBlocks < nBlocks then
    done s {s with
      table := changeBlocks (fun _ => .free) (nBlocks-newBlocks) (block+newBlocks) s.table
      lastFreeAtbIndex := Heap.lowerHint s (block+newBlocks)} ptrIn
  else if newBlocks≤nBlocks+nFree then growChunk s ptrIn newBlocks nBlocks
  else if allowMove=true then moveChunk s ptrIn nBytes first retry
  else done s s 0

/-- `gc_realloc` -/
def gcRealloc (s : Heap) (ptrIn nBytes : ℕ) (allowMove : Bool) (first retry : Memory) :
    Except Fault (Heap×Report) :=
  if ptrIn=0 then gcAlloc s nBytes false first retry
  else if nBytes=0 then
    match gcFree s ptrIn with
    | .error e => .error e
    | .ok t => done s t 0
  else if IsChunk s ptrIn then
    if 0 < s.lockDepth then done s s 0
    else reallocChunk s ptrIn nBytes allowMove first retry
  else done s s 0

/-! ## Operations -/

/-- An operation on the heap. -/
inductive Op where
  /-- `gc_alloc` -/
  | alloc (nBytes : ℕ) (short : nBytes < sizeT) (hasFinaliser : Bool) (first retry : Memory)
  /-- `gc_free` -/
  | free (ptr : ℕ)
  /-- `gc_realloc` -/
  | realloc (ptr nBytes : ℕ) (short : nBytes < sizeT) (allowMove : Bool) (first retry : Memory)
  /-- `gc_collect` -/
  | collect (e : Memory)
  /-- `gc_lock` -/
  | lock
  /-- `gc_unlock` -/
  | unlock
  /-- `gc_enable` and `gc_disable` -/
  | autoCollect (enabled : Bool)
  /-- `gc_threshold` -/
  | threshold (amount : ℕ)

/-- The step of an operation. -/
def step (s : Heap) : Op→Except Fault (Heap×Report)
  | .alloc nBytes _ hasFinaliser first retry => gcAlloc s nBytes hasFinaliser first retry
  | .free ptr =>
    match gcFree s ptr with
    | .error e => .error e
    | .ok t => done s t 0
  | .realloc ptr nBytes _ allowMove first retry =>
    gcRealloc s ptr nBytes allowMove first retry
  | .collect e =>
    match gcCollect s e with
    | .error t => .error (.collection t)
    | .ok (t,outside) => .ok (t,⟨0,t,outside⟩)
  | .lock => done s {s with lockDepth := s.lockDepth+1} 0
  | .unlock => done s {s with lockDepth := s.lockDepth-1} 0
  | .autoCollect enabled => done s {s with autoCollectEnabled := enabled} 0
  | .threshold amount => done s {s with allocThreshold := amount} 0

end MicroPython.GcAlloc
