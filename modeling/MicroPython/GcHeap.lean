import Mathlib.Algebra.Group.Nat.Defs
import MicroPython.Marking

/-!
# The garbage-collected heap

The pool is divided into blocks, and the allocation table says of each whether it is
free, the head or in the tail of a chunk, or a head that is marked. Heads may have a
finaliser flag. The finaliser table lies right behind the allocation table. Addresses
have 32 bits, a word has four bytes and a block four words. A finaliser runs while the
heap is locked, and changes neither table.
-/

namespace MicroPython.GcHeap

/-- What the allocation table says of a block. -/
inductive Kind where
  /-- `AT_FREE` -/
  | free
  /-- `AT_HEAD` -/
  | head
  /-- `AT_TAIL` -/
  | tail
  /-- `AT_MARK` -/
  | mark
  deriving DecidableEq

/-- The bits of two kinds together. -/
def Kind.or : Kind→Kind→Kind
  | .free,k => k
  | k,.free => k
  | .head,.head => .head
  | .tail,.tail => .tail
  | _,_ => .mark

/-- A kind without the bit of `AT_TAIL`. -/
def Kind.withoutTail : Kind→Kind
  | .free => .free
  | .head => .head
  | .tail => .free
  | .mark => .head

/-- The kind that two bits of the finaliser table look like. -/
def Kind.ofFlags : Bool→Bool→Kind
  | false,false => .free
  | true,false => .head
  | false,true => .tail
  | true,true => .mark

/-- `BYTES_PER_BLOCK` -/
def bytesPerBlock : ℕ := 16

/-- The words of a block. -/
def wordsPerBlock : ℕ := 4

/-- `BLOCKS_PER_ATB` -/
def blocksPerAtb : ℕ := 4

/-- The number of values of `size_t`. -/
def sizeT : ℕ := 2^32

/-- What `gc_init` computes of the place of the pool. -/
structure Pool where
  /-- `gc_alloc_table_byte_len` -/
  allocTableByteLen : ℕ
  /-- `gc_pool_start` -/
  poolStart : ℕ
  aligned : poolStart%bytesPerBlock=0
  /-- The pool is not at the null pointer. -/
  start_pos : 0 < poolStart
  /-- Blocks are far fewer than addresses. -/
  short : allocTableByteLen*blocksPerAtb < 2^26

/-- The number of blocks in the pool. -/
def Pool.blocks (p : Pool) : ℕ := p.allocTableByteLen*blocksPerAtb

/-- The heap. -/
structure Heap where
  pool : Pool
  table : ℕ→Kind
  /-- The finaliser table. -/
  flags : ℕ→Bool
  /-- `gc_last_free_atb_index` -/
  lastFreeAtbIndex : ℕ
  /-- `gc_lock_depth` -/
  lockDepth : UInt16
  /-- `gc_auto_collect_enabled` -/
  autoCollectEnabled : Bool
  /-- `gc_alloc_amount` -/
  allocAmount : ℕ
  /-- `gc_alloc_threshold` -/
  allocThreshold : ℕ

/-! ## Initialisation -/

/-- The memory that is given to `gc_init`. -/
structure Region where
  /-- `start` -/
  start : ℕ
  /-- `end` -/
  stop : ℕ
  /-- The memory is not at the null pointer. -/
  start_pos : 0 < start
  /-- It does not end before it starts when its end is aligned. -/
  ordered : start ≤ stop/bytesPerBlock*bytesPerBlock
  /-- It has addresses. -/
  short : stop < sizeT

/-- `total_byte_len` -/
def Region.totalByteLen (r : Region) : ℕ := r.stop/bytesPerBlock*bytesPerBlock-r.start

/-- The length of the allocation table: eight times the bytes, over eight for a byte of
it, four for its share of the finaliser table and 512 for its blocks. -/
def Region.allocTableByteLen (r : Region) : ℕ :=
  r.totalByteLen*8%sizeT/(8+8*blocksPerAtb/8+8*blocksPerAtb*bytesPerBlock)

/-- `gc_finaliser_table_byte_len` -/
def Region.finaliserTableByteLen (r : Region) : ℕ := (r.allocTableByteLen*blocksPerAtb+8-1)/8

/-- `gc_pool_start` -/
def Region.poolStart (r : Region) : ℕ :=
  r.stop/bytesPerBlock*bytesPerBlock-r.allocTableByteLen*blocksPerAtb*bytesPerBlock

/-- The assertion of `gc_init`: both tables are in front of the pool. -/
theorem Region.tables_fit (r : Region) :
    r.start+r.allocTableByteLen+r.finaliserTableByteLen ≤ r.poolStart := by
  have hordered := r.ordered
  have htotal : r.totalByteLen*8%sizeT ≤ r.totalByteLen*8 := Nat.mod_le _ _
  simp only [Region.poolStart,Region.finaliserTableByteLen,Region.allocTableByteLen,
    bytesPerBlock,blocksPerAtb,Region.totalByteLen] at *
  omega

/-- `gc_init`, of the place of the pool. -/
def Region.pool (r : Region) : Pool where
  allocTableByteLen := r.allocTableByteLen
  poolStart := r.poolStart
  aligned := by
    have hfit := r.tables_fit
    simp only [Region.poolStart,bytesPerBlock,blocksPerAtb] at *
    omega
  start_pos := Nat.lt_of_lt_of_le r.start_pos
    (Nat.le_trans (Nat.le_trans (Nat.le_add_right _ _) (Nat.le_add_right _ _)) r.tables_fit)
  short := by
    have hbytes : r.totalByteLen*8%sizeT < 2^32 := Nat.mod_lt _ (Nat.two_pow_pos 32)
    simp only [Region.allocTableByteLen,bytesPerBlock,blocksPerAtb]
    omega

/-- `gc_init` -/
def gcInit (r : Region) : Heap where
  pool := r.pool
  table := fun _ => .free
  flags := fun _ => false
  lastFreeAtbIndex := 0
  lockDepth := 0
  autoCollectEnabled := true
  allocAmount := 0
  allocThreshold := sizeT-1

/-- When there is room for a byte of the table and a block, both tables and the pool follow one
another up to the aligned end, and each table has an entry for every block. -/
theorem gcInit_layout {start stop : ℕ} (hstart : 0 < start) (hshort : stop < sizeT)
    (hroom : start+(1+bytesPerBlock) ≤ stop) : ∃ r : Region,r.start=start∧r.stop=stop∧
      start+r.pool.allocTableByteLen+r.finaliserTableByteLen ≤ r.pool.poolStart∧
      r.pool.poolStart+r.pool.blocks*bytesPerBlock=stop/bytesPerBlock*bytesPerBlock∧
      r.pool.blocks ≤ r.pool.allocTableByteLen*blocksPerAtb∧
      r.pool.blocks ≤ r.finaliserTableByteLen*8 := by
  have hordered : start ≤ stop/bytesPerBlock*bytesPerBlock := by
    simp only [bytesPerBlock] at *
    omega
  have hfit := Region.tables_fit ⟨start,stop,hstart,hordered,hshort⟩
  refine ⟨⟨start,stop,hstart,hordered,hshort⟩,rfl,rfl,hfit,?_,Nat.le_refl _,?_⟩
  · rw [Pool.blocks,Region.pool]
    simp only [Region.poolStart] at *
    omega
  · rw [Pool.blocks,Region.pool,Region.finaliserTableByteLen]
    simp only [blocksPerAtb]
    omega

/-- A pool in the memory from 14 to 94 ends at 80. -/
theorem gcInit_fourBlocks : ∃ r : Region,r.start=14∧r.stop=94∧
    r.pool.poolStart+r.pool.blocks*bytesPerBlock=80 := by
  obtain ⟨r,hstart,hstop,_,hpool,_⟩ := @gcInit_layout 14 94 (by decide) (by decide) (by decide)
  exact ⟨r,hstart,hstop,hpool⟩

/-! ## Pointers -/

/-- `VERIFY_PTR` -/
def Pool.VerifyPtr (p : Pool) (ptr : ℕ) : Prop :=
  ptr%bytesPerBlock=0∧p.poolStart≤ptr∧ptr < p.poolStart+p.blocks*bytesPerBlock

instance (p : Pool) (ptr : ℕ) : Decidable (p.VerifyPtr ptr) :=
  inferInstanceAs (Decidable (_∧_))

/-- `BLOCK_FROM_PTR` -/
def Pool.blockFromPtr (p : Pool) (ptr : ℕ) : ℕ := (ptr-p.poolStart)/bytesPerBlock

/-- `PTR_FROM_BLOCK` -/
def Pool.ptrFromBlock (p : Pool) (block : ℕ) : ℕ := block*bytesPerBlock+p.poolStart

theorem Pool.blockFromPtr_lt {p : Pool} {ptr : ℕ} (h : p.VerifyPtr ptr) :
    p.blockFromPtr ptr < p.blocks := by
  obtain ⟨_,hstart,hend⟩ := h
  rw [Pool.blockFromPtr]
  refine Nat.div_lt_of_lt_mul ?_
  rw [Nat.mul_comm]
  omega

theorem Pool.blockFromPtr_ptrFromBlock (p : Pool) (block : ℕ) :
    p.blockFromPtr (p.ptrFromBlock block)=block := by
  rw [Pool.blockFromPtr,Pool.ptrFromBlock,Nat.add_sub_cancel]
  exact Nat.mul_div_cancel _ (Nat.succ_pos 15)

theorem Pool.verifyPtr_ptrFromBlock {p : Pool} {block : ℕ} (h : block < p.blocks) :
    p.VerifyPtr (p.ptrFromBlock block) := by
  have haligned := p.aligned
  simp only [Pool.VerifyPtr,Pool.ptrFromBlock,bytesPerBlock] at *
  omega

/-! ## Marking -/

/-- The memory as a collection finds it. -/
structure Memory where
  /-- The words in the registers, the stack and the state that are taken as roots. -/
  roots : List ℕ
  /-- The words from the start of the pool on. -/
  words : ℕ→ℕ
  /-- The memory behind the finaliser table, with two bits at a time. -/
  behind : List Kind
  /-- `MICROPY_ALLOC_GC_STACK_SIZE` -/
  capacity : ℕ
  /-- There is room for a block. -/
  capacity_pos : 0 < capacity

/-- The entries of the finaliser table when it is read like the allocation table. -/
def Pool.flagEntries (p : Pool) : ℕ := (p.blocks+8-1)/8*4

/-- `ATB_GET_KIND`, which may read behind the allocation table. -/
def atbGetKind (p : Pool) (flags : ℕ→Bool) (behind : List Kind) (table : ℕ→Kind)
    (block : ℕ) : Kind :=
  if block < p.blocks then table block
  else if block < p.blocks+p.flagEntries then
    .ofFlags (flags (2*(block-p.blocks))) (flags (2*(block-p.blocks)+1))
  else behind.getD (block-p.blocks-p.flagEntries) .free

/-- The number of blocks of a tail, as far as a number of blocks. -/
def tailLength (kind : ℕ→Kind) : ℕ→ℕ→ℕ
  | 0,_ => 0
  | n+1,block => if kind block=.tail then tailLength kind n (block+1)+1 else 0

/-- What a collection works on. -/
structure MarkState where
  table : ℕ→Kind
  /-- `gc_stack` below `gc_sp`, from the top on. -/
  stack : List ℕ
  /-- `gc_stack_overflow` -/
  overflow : Bool
  /-- A kind was read behind the allocation table. -/
  outside : Bool

/-- Why a collection stops. -/
inductive Trouble where
  /-- It takes more steps than are allowed for. -/
  | steps
  | stack
  deriving DecidableEq

/-- `VERIFY_MARK_AND_PUSH` -/
def verifyMarkAndPush (p : Pool) (capacity : ℕ) (m : MarkState) (ptr : ℕ) : MarkState :=
  if p.VerifyPtr ptr then
    let block := p.blockFromPtr ptr
    if m.table block=.head then
      let m := {m with table := Function.update m.table block .mark}
      if m.stack.length < capacity then {m with stack := block::m.stack}
      else {m with overflow := true}
    else m
  else m

/-- `n_blocks` of `gc_drain_stack`. Reading stops at the end of memory. -/
def chainLength (s : Heap) (behind : List Kind) (table : ℕ→Kind) (block : ℕ) : ℕ :=
  1+tailLength (atbGetKind s.pool s.flags behind table)
    (s.pool.blocks+s.pool.flagEntries+behind.length) (block+1)

/-- The words of the blocks from one on. -/
def children (e : Memory) (block nBlocks : ℕ) : List ℕ :=
  (List.range (nBlocks*wordsPerBlock)).map fun i => e.words (block*wordsPerBlock+i)

/-- `gc_drain_stack`, within a number of steps. -/
def gcDrainStack (s : Heap) (e : Memory) : ℕ→MarkState→Except Trouble MarkState
  | 0,_ => .error .steps
  | n+1,m =>
    match m.stack with
    | [] => .ok m
    | block::stack =>
      let nBlocks := chainLength s e.behind m.table block
      let m := {m with
        stack := stack
        outside := m.outside||decide (s.pool.blocks≤block+nBlocks)}
      gcDrainStack s e n ((children e block nBlocks).foldl (verifyMarkAndPush s.pool e.capacity) m)

/-- The steps that are allowed for each loop. -/
def Heap.steps (s : Heap) : ℕ := s.pool.blocks+2

/-- `gc_collect_root`, of all the roots. -/
def gcCollectRoot (s : Heap) (e : Memory) : List ℕ→MarkState→Except Trouble MarkState
  | [],m => .ok m
  | ptr::ptrs,m =>
    match gcDrainStack s e s.steps (verifyMarkAndPush s.pool e.capacity m ptr) with
    | .error t => .error t
    | .ok m => gcCollectRoot s e ptrs m

/-- The scan of `gc_deal_with_stack_overflow`, of a number of blocks from one on. -/
def rescan (s : Heap) (e : Memory) : ℕ→ℕ→MarkState→Except Trouble MarkState
  | 0,_,m => .ok m
  | n+1,block,m =>
    if m.table block=.mark then
      if m.stack.length < e.capacity then
        match gcDrainStack s e s.steps {m with stack := block::m.stack} with
        | .error t => .error t
        | .ok m => rescan s e n (block+1) m
      else .error .stack
    else rescan s e n (block+1) m

/-- `gc_deal_with_stack_overflow`, within a number of steps. -/
def gcDealWithStackOverflow (s : Heap) (e : Memory) : ℕ→MarkState→Except Trouble MarkState
  | 0,_ => .error .steps
  | n+1,m =>
    if m.overflow=true then
      match rescan s e s.pool.blocks 0 {m with
        stack := []
        overflow := false} with
      | .error t => .error t
      | .ok m => gcDealWithStackOverflow s e n m
    else .ok m

/-- The marking of a collection. -/
def gcMark (s : Heap) (e : Memory) : Except Trouble MarkState :=
  match gcCollectRoot s e e.roots ⟨s.table,[],false,false⟩ with
  | .error t => .error t
  | .ok m => gcDealWithStackOverflow s e s.steps m

/-! ## Sweeping -/

/-- What `gc_sweep` changes. -/
structure SweepState where
  table : ℕ→Kind
  /-- The finaliser table. -/
  flags : ℕ→Bool
  /-- `free_tail` -/
  freeTail : Bool

/-- A block in `gc_sweep`. -/
def sweepBlock (m : SweepState) (block : ℕ) : SweepState :=
  match m.table block with
  | .free => m
  | .head =>
    {m with
      table := Function.update m.table block .free
      flags := if m.flags block=true then Function.update m.flags block false else m.flags
      freeTail := true}
  | .tail =>
    if m.freeTail=true then {m with table := Function.update m.table block .free} else m
  | .mark =>
    {m with
      table := Function.update m.table block (m.table block).withoutTail
      freeTail := false}

/-- `gc_sweep`, of a number of blocks from one on. -/
def gcSweep : ℕ→ℕ→SweepState→SweepState
  | 0,_,m => m
  | n+1,block,m => gcSweep n (block+1) (sweepBlock m block)

/-- A collection, and whether it read behind the allocation table. -/
def gcCollect (s : Heap) (e : Memory) : Except Trouble (Heap×Bool) :=
  match gcMark s e with
  | .error t => .error t
  | .ok m =>
    let swept := gcSweep s.pool.blocks 0 ⟨m.table,s.flags,false⟩
    .ok ({s with
      table := swept.table
      flags := swept.flags
      lastFreeAtbIndex := 0
      allocAmount := 0},m.outside)

end MicroPython.GcHeap
