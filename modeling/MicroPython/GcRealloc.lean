import MicroPython.BlockHeap
import MicroPython.GcTable

/-!
# Reallocating with the bytes of the chunks

A chunk is made smaller or larger where it is, or it is moved, and its bytes go with it. The
words that a collection finds in chunks are their bytes. The freeing of the chunk at the end of
the pool goes on in the finaliser table, which lies right behind the allocation table. Finalisers
that run in a collection are programs of their own and not part of it.
-/

namespace MicroPython.GcRealloc

open Nat Function List GcHeap GcChunks GcMarking GcReachable GcAlloc GcTable Marking
open BlockHeap (store load load_store store_store load_add length_load load_store_of_apart)

/-! ## Memory -/

/-- The bytes of memory by their addresses. -/
abbrev Bytes : Type := ℕ→UInt8

/-- A word of the pool, with its first byte as the lowest. -/
def wordAt (p : Pool) (bytes : Bytes) (i : ℕ) : ℕ :=
  (bytes (p.poolStart+4*i)).toNat+2^8*(bytes (p.poolStart+4*i+1)).toNat+
    2^16*(bytes (p.poolStart+4*i+2)).toNat+2^24*(bytes (p.poolStart+4*i+3)).toNat

/-- What collections find outside the pool. -/
structure Outside where
  /-- The words that the program still uses. -/
  live : List ℕ
  /-- Other words on the stack when the first collection takes place. -/
  first : List ℕ
  /-- Other words on the stack when the second collection takes place. -/
  retry : List ℕ
  /-- The memory behind the finaliser table, with two bits at a time. -/
  behind : List Kind
  /-- `MICROPY_ALLOC_GC_STACK_SIZE` -/
  capacity : ℕ
  /-- There is room for a block. -/
  capacity_pos : 0 < capacity

/-- What a collection finds, with some words outside the pool. -/
def Outside.memory (o : Outside) (p : Pool) (bytes : Bytes) (roots : List ℕ) : Memory :=
  ⟨roots,wordAt p bytes,o.behind,o.capacity,o.capacity_pos⟩

/-- What the first collection finds. -/
def Outside.firstMemory (o : Outside) (p : Pool) (bytes : Bytes) : Memory :=
  o.memory p bytes (o.live++o.first)

/-- What the second collection finds. -/
def Outside.retryMemory (o : Outside) (p : Pool) (bytes : Bytes) : Memory :=
  o.memory p bytes (o.live++o.retry)

/-- Zeros for a number of blocks. -/
def zeros (nBlocks : ℕ) : List UInt8 := List.replicate (nBlocks*bytesPerBlock) 0

/-! ## Freeing through the finaliser table -/

/-- `ATB_ANY_TO_FREE`, in the allocation table or in the finaliser table behind it. -/
def atbAnyToFree (p : Pool) (block : ℕ) (tables : (ℕ→Kind)×(ℕ→Bool)) :
    Except Fault ((ℕ→Kind)×(ℕ→Bool)) :=
  if block < p.blocks then .ok (Function.update tables.1 block .free,tables.2)
  else if block < p.blocks+p.flagEntries then
    .ok (tables.1,Function.update (Function.update tables.2 (2*(block-p.blocks)) false)
      (2*(block-p.blocks)+1) false)
  else .error .table

/-- The loop of `gc_free`, of at most a number of entries. -/
def freeLoop (p : Pool) (behind : List Kind) :
    ℕ→ℕ→(ℕ→Kind)×(ℕ→Bool)→Except Fault ((ℕ→Kind)×(ℕ→Bool))
  | 0,_,_ => .error .table
  | n+1,block,tables =>
    match atbAnyToFree p block tables with
    | .error e => .error e
    | .ok tables =>
      if atbGetKind p tables.2 behind tables.1 (block+1)=.tail then
        freeLoop p behind n (block+1) tables
      else .ok tables

/-- `gc_free` -/
def gcFreeThrough (s : Heap) (behind : List Kind) (ptr : ℕ) : Except Fault Heap :=
  if 0 < s.lockDepth then .ok s
  else if ptr=0 then .ok s
  else if IsChunk s ptr then
    let block := s.pool.blockFromPtr ptr
    match freeLoop s.pool behind (s.pool.blocks+s.pool.flagEntries+1) block
        (s.table,Function.update s.flags block false) with
    | .error e => .error e
    | .ok tables =>
      .ok {s with
        table := tables.1
        flags := tables.2
        lastFreeAtbIndex := Heap.lowerHint s block}
  else .error .assertion

/-! ## Reallocating -/

/-- The heap, what is reported and the bytes after an operation. -/
abbrev Result : Type := Except Fault (Heap×Report×Bytes)

/-- `gc_alloc`, which clears the blocks that it takes. -/
def gcAllocBytes (s : Heap) (bytes : Bytes) (nBytes : ℕ) (hasFinaliser : Bool)
    (first retry : Memory) : Result :=
  match gcAlloc s nBytes hasFinaliser first retry with
  | .error e => .error e
  | .ok (t,out) =>
    .ok (t,out,if out.ptr=0 then bytes else store bytes out.ptr (zeros (numBlocks nBytes)))

/-- The move at the end of `gc_realloc`, of a chunk with a number of blocks. -/
def moveBytes (s : Heap) (bytes : Bytes) (ptrIn nBlocks nBytes : ℕ) (o : Outside) : Result :=
  match gcAllocBytes s bytes nBytes (s.flags (s.pool.blockFromPtr ptrIn))
      (Memory.withRoot (o.firstMemory s.pool bytes) ptrIn)
      (Memory.withRoot (o.retryMemory s.pool bytes) ptrIn) with
  | .error e => .error e
  | .ok (t,out,bytes) =>
    if out.ptr=0 then .ok (t,out,bytes)
    else
      let bytes := store bytes out.ptr (load bytes ptrIn (nBlocks*bytesPerBlock))
      match gcFreeThrough t o.behind ptrIn with
      | .error e => .error e
      | .ok t => .ok (t,out,bytes)

/-- The expansion in place of `gc_realloc`, which clears the new blocks. -/
def growBytes (s : Heap) (bytes : Bytes) (ptrIn newBlocks nBlocks : ℕ) : Result :=
  match growChunk s ptrIn newBlocks nBlocks with
  | .error e => .error e
  | .ok (t,out) =>
    .ok (t,out,store bytes (ptrIn+nBlocks*bytesPerBlock) (zeros (newBlocks-nBlocks)))

/-- `gc_realloc`, of the head of a chunk. -/
def reallocBytes (s : Heap) (bytes : Bytes) (ptrIn nBytes : ℕ) (allowMove : Bool)
    (o : Outside) : Result :=
  let block := s.pool.blockFromPtr ptrIn
  let newBlocks := numBlocks nBytes
  let counts := countBlocks s.table newBlocks (s.pool.blocks-(block+1)) (block+1) 1 0
  let nBlocks := counts.1
  let nFree := counts.2
  if newBlocks=nBlocks then .ok (s,⟨ptrIn,s,false⟩,bytes)
  else if newBlocks < nBlocks then
    .ok ({s with
      table := changeBlocks (fun _ => .free) (nBlocks-newBlocks) (block+newBlocks) s.table
      lastFreeAtbIndex := Heap.lowerHint s (block+newBlocks)},⟨ptrIn,s,false⟩,bytes)
  else if newBlocks≤nBlocks+nFree then growBytes s bytes ptrIn newBlocks nBlocks
  else if allowMove=true then moveBytes s bytes ptrIn nBlocks nBytes o
  else .ok (s,⟨0,s,false⟩,bytes)

/-- `gc_realloc` -/
def gcReallocBytes (s : Heap) (bytes : Bytes) (ptrIn nBytes : ℕ) (allowMove : Bool)
    (o : Outside) : Result :=
  if ptrIn=0 then
    gcAllocBytes s bytes nBytes false (o.firstMemory s.pool bytes) (o.retryMemory s.pool bytes)
  else if nBytes=0 then
    match gcFreeThrough s o.behind ptrIn with
    | .error e => .error e
    | .ok t => .ok (t,⟨0,s,false⟩,bytes)
  else if IsChunk s ptrIn then
    if 0 < s.lockDepth then .ok (s,⟨0,s,false⟩,bytes)
    else reallocBytes s bytes ptrIn nBytes allowMove o
  else .ok (s,⟨0,s,false⟩,bytes)

/-! ## Live chunks -/

/-- A chunk that the program can reach, when it also holds a pointer. -/
def Live (s : Heap) (bytes : Bytes) (o : Outside) (ptr block : ℕ) : Prop :=
  Reachable (heapGraph s (o.memory s.pool bytes (ptr::o.live))) block

/-- A chunk stays as it is, with its flag and its bytes. -/
structure Untouched (s t : Heap) (bytes bytes' : Bytes) (block n : ℕ) : Prop where
  /-- Its entries stay. -/
  chunk : Chunk t.pool.blocks t.table block n
  flag : t.flags block=s.flags block
  bytes_eq : load bytes' (s.pool.ptrFromBlock block) (n*bytesPerBlock)=
    load bytes (s.pool.ptrFromBlock block) (n*bytesPerBlock)

/-- What is said of `gc_realloc` for a chunk with a number of blocks. Nothing is asked of the
chunk when no bytes are requested, which frees it. -/
structure Resizes (s : Heap) (bytes : Bytes) (ptr n nBytes : ℕ) (o : Outside) (t : Heap)
    (out : Report) (bytes' : Bytes) : Prop where
  wellFormed : WellFormed t
  others : ∀ block m,Chunk s.pool.blocks s.table block m → Live s bytes o ptr block →
    block≠s.pool.blockFromPtr ptr → Untouched s t bytes bytes' block m
  /-- What is returned is a chunk of at least the bytes requested, with the old bytes. -/
  resized : out.ptr≠0 → ∃ block m,out.ptr=s.pool.ptrFromBlock block∧
    Chunk t.pool.blocks t.table block m∧nBytes ≤ m*bytesPerBlock∧
    load bytes' out.ptr (min (n*bytesPerBlock) nBytes)=load bytes ptr (min (n*bytesPerBlock) nBytes)
  /-- When it fails the chunk stays as it is. -/
  failed : out.ptr=0 → nBytes≠0 → Untouched s t bytes bytes' (s.pool.blockFromPtr ptr) n

/-! ## Freeing -/

/-- The tables without the entries from one on up to another. -/
def clearedTables (p : Pool) (lo hi : ℕ) (tables : (ℕ→Kind)×(ℕ→Bool)) : (ℕ→Kind)×(ℕ→Bool) :=
  (fun b => if b < p.blocks∧lo≤b∧b < hi then .free else tables.1 b,
    fun b => if lo≤p.blocks+b/2∧p.blocks+b/2 < hi then false else tables.2 b)

variable {p : Pool} {behind : List Kind} {tables : (ℕ→Kind)×(ℕ→Bool)} {lo hi block n : ℕ}

/-- One entry is cleared. -/
theorem atbAnyToFree_eq (h : block < p.blocks+p.flagEntries) :
    atbAnyToFree p block tables=.ok (clearedTables p block (block+1) tables) := by
  rw [atbAnyToFree]
  by_cases hinside : block < p.blocks
  case pos =>
    rw [if_pos hinside]
    refine congrArg Except.ok (Prod.ext (funext fun b => ?_) (funext fun b => ?_))
    · dsimp only [clearedTables]
      by_cases hb : b=block
      · rw [hb,update_self,if_pos (by omega)]
      · rw [update_of_ne hb,if_neg (by omega)]
    · dsimp only [clearedTables]
      rw [if_neg (by omega)]
  case neg =>
    rw [if_neg hinside,if_pos h]
    refine congrArg Except.ok (Prod.ext (funext fun b => ?_) (funext fun b => ?_))
    · dsimp only [clearedTables]
      rw [if_neg (by omega)]
    · dsimp only [clearedTables]
      by_cases hodd : b=2*(block-p.blocks)+1
      · rw [hodd,update_self,if_pos (by omega)]
      · rw [update_of_ne hodd]
        by_cases heven : b=2*(block-p.blocks)
        · rw [heven,update_self,if_pos (by omega)]
        · rw [update_of_ne heven,if_neg (by omega)]

/-- Entries are cleared in two parts. -/
theorem clearedTables_clearedTables {mid : ℕ} (hlo : lo ≤ mid) (hhi : mid≤hi) :
    clearedTables p mid hi (clearedTables p lo mid tables)=clearedTables p lo hi tables := by
  refine Prod.ext (funext fun b => ?_) (funext fun b => ?_)
  · dsimp only [clearedTables]
    split
    · rw [if_pos (by omega)]
    · split
      · rw [if_pos (by omega)]
      · rw [if_neg (by omega)]
  · dsimp only [clearedTables]
    split
    · rw [if_pos (by omega)]
    · split
      · rw [if_pos (by omega)]
      · rw [if_neg (by omega)]

/-- The entries behind those that are cleared stay. -/
theorem atbGetKind_clearedTables {b : ℕ} (h : hi≤b) :
    atbGetKind p (clearedTables p lo hi tables).2 behind (clearedTables p lo hi tables).1 b=
      atbGetKind p tables.2 behind tables.1 b := by
  simp only [atbGetKind,clearedTables]
  by_cases hinside : b < p.blocks
  · rw [if_pos hinside,if_pos hinside,if_neg (by omega)]
  · rw [if_neg hinside,if_neg hinside]
    by_cases hflags : b < p.blocks+p.flagEntries
    · rw [if_pos hflags,if_pos hflags,if_neg (by omega),if_neg (by omega)]
    · rw [if_neg hflags,if_neg hflags]

/-- The loop clears the entries that look like a tail. -/
theorem freeLoop_ok (m : ℕ) : ∀ {block : ℕ} {tables : (ℕ→Kind)×(ℕ→Bool)},m < n →
    block+m < p.blocks+p.flagEntries →
    (∀ i,i < m → atbGetKind p tables.2 behind tables.1 (block+1+i)=.tail) →
    atbGetKind p tables.2 behind tables.1 (block+1+m)≠.tail →
      freeLoop p behind n block tables=.ok (clearedTables p block (block+m+1) tables) := by
  induction m generalizing n with
  | zero =>
    intro block tables hn hblock _ hend
    obtain ⟨n,rfl⟩ : ∃ k,n=k+1 := ⟨n-1,by omega⟩
    rw [freeLoop,atbAnyToFree_eq (by omega)]
    dsimp only
    rw [atbGetKind_clearedTables (Nat.le_refl _),if_neg hend]
  | succ m ih =>
    intro block tables hn hblock htail hend
    obtain ⟨n,rfl⟩ : ∃ k,n=k+1 := ⟨n-1,by omega⟩
    have hshift : ∀ i,block+1+1+i=block+1+(i+1) := fun i => by omega
    have hfirst := htail 0 (succ_pos m)
    have hsum : block+1+m+1=block+(m+1)+1 := by omega
    have hrest := @ih n (block+1) (clearedTables p block (block+1) tables) (by omega) (by omega)
      (fun i hi => by
        rw [atbGetKind_clearedTables (by omega),hshift]
        exact htail (i+1) (by omega))
      (by
        rw [atbGetKind_clearedTables (by omega),hshift]
        exact hend)
    rw [clearedTables_clearedTables (by omega) (by omega),hsum] at hrest
    rw [freeLoop,atbAnyToFree_eq (by omega)]
    dsimp only
    rw [atbGetKind_clearedTables (Nat.le_refl _),if_pos hfirst]
    exact hrest

/-- Behind the finaliser table nothing is cleared. -/
theorem freeLoop_error (n : ℕ) : ∀ {block : ℕ} {tables : (ℕ→Kind)×(ℕ→Bool)},
    block≤p.blocks+p.flagEntries →
    (∀ b,block < b → b≤p.blocks+p.flagEntries → atbGetKind p tables.2 behind tables.1 b=.tail) →
      freeLoop p behind n block tables=.error .table := by
  induction n with
  | zero => exact fun _ _ => rfl
  | succ n ih =>
    intro block tables hblock htail
    rw [freeLoop]
    by_cases hlast : block=p.blocks+p.flagEntries
    case pos =>
      have hwild : atbAnyToFree p block tables=.error .table := by
        rw [atbAnyToFree,if_neg (by omega),if_neg (by omega)]
      rw [hwild]
    case neg =>
      rw [atbAnyToFree_eq (by omega)]
      dsimp only
      rw [atbGetKind_clearedTables (Nat.le_refl _),
        if_pos (htail (block+1) (lt_succ_self _) (by omega))]
      refine ih (by omega) fun b hb hle => ?_
      rw [atbGetKind_clearedTables (by omega)]
      exact htail b (by omega) hle

/-- The blocks of a tail look like one, and the one behind it does not. -/
theorem tailLength_spec (kind : ℕ→Kind) (fuel : ℕ) : ∀ b,
    (∀ i,i < tailLength kind fuel b → kind (b+i)=.tail)∧
      (tailLength kind fuel b < fuel → kind (b+tailLength kind fuel b)≠.tail) := by
  induction fuel with
  | zero => exact fun b => ⟨fun i hi => absurd hi (not_lt_zero i),fun h => absurd h (by simp)⟩
  | succ fuel ih =>
    intro b
    rw [tailLength]
    by_cases htail : kind b=.tail
    case neg =>
      rw [if_neg htail]
      exact ⟨fun i hi => absurd hi (not_lt_zero i),fun _ => htail⟩
    case pos =>
      rw [if_pos htail]
      obtain ⟨hall,hend⟩ := ih (b+1)
      constructor
      · intro i hi
        cases i with
        | zero => exact htail
        | succ i =>
          have hnext := hall i (by omega)
          rwa [Nat.add_assoc,Nat.add_comm 1 i] at hnext
      · intro hlt
        have hnext := hend (by omega)
        rwa [Nat.add_assoc,Nat.add_comm 1 (tailLength kind fuel (b+1))] at hnext

/-- Where the loop of `gc_free` ends for the chunk of a block, once its flag is cleared. -/
def freeEnd (s : Heap) (behind : List Kind) (block : ℕ) : ℕ :=
  block+chainLength {s with flags := Function.update s.flags block false} behind s.table block

/-- A heap in which a chunk was freed, with entries up to one. -/
structure Freed (s t : Heap) (block n stop : ℕ) : Prop where
  /-- The pool stays where it is. -/
  pool : t.pool=s.pool
  table : t.table=resized s.table block n 0
  /-- Its flag is cleared, and those in the entries behind the allocation table. -/
  flags : ∀ b,t.flags b=if b=block∨s.pool.blocks+b/2 < stop then false else s.flags b

variable {s t : Heap} {ptr : ℕ}

theorem gcFreeThrough_locked (hlock : s.lockDepth≠0) (behind : List Kind) (ptr : ℕ) :
    gcFreeThrough s behind ptr=.ok s :=
  if_pos (UInt16.pos_iff_ne_zero.mpr hlock)

/-- A chunk is freed as long as this ends in one of the tables. -/
theorem gcFreeThrough_eq (hlock : s.lockDepth=0) (his : IsChunk s ptr)
    (hchunk : Chunk s.pool.blocks s.table (s.pool.blockFromPtr ptr) n) (behind : List Kind) :
    (freeEnd s behind (s.pool.blockFromPtr ptr) ≤ s.pool.blocks+s.pool.flagEntries∧
      ∃ t,gcFreeThrough s behind ptr=.ok t∧Freed s t (s.pool.blockFromPtr ptr) n
        (freeEnd s behind (s.pool.blockFromPtr ptr)))∨
    (¬freeEnd s behind (s.pool.blockFromPtr ptr) ≤ s.pool.blocks+s.pool.flagEntries∧
      gcFreeThrough s behind ptr=.error .table) := by
  obtain ⟨block,hblock⟩ : ∃ b,s.pool.blockFromPtr ptr=b := ⟨_,rfl⟩
  rw [hblock] at hchunk ⊢
  have hinside := hchunk.inside
  have hunlocked : ¬0 < s.lockDepth := by
    rw [hlock]
    exact (by decide)
  have hptr : ptr≠0 := Nat.ne_of_gt (Nat.lt_of_lt_of_le s.pool.start_pos his.1.2.1)
  obtain ⟨htail,hend⟩ := tailLength_spec
    (atbGetKind s.pool (Function.update s.flags block false) behind s.table)
    (s.pool.blocks+s.pool.flagEntries+behind.length) (block+1)
  generalize hm : tailLength (atbGetKind s.pool (Function.update s.flags block false) behind
    s.table) (s.pool.blocks+s.pool.flagEntries+behind.length) (block+1)=m
  have hstop : freeEnd s behind block=block+m+1 := by
    rw [freeEnd,chainLength,hm,Nat.add_comm 1 m]
    rfl
  have hfree : gcFreeThrough s behind ptr=
      match freeLoop s.pool behind (s.pool.blocks+s.pool.flagEntries+1) block
        (s.table,Function.update s.flags block false) with
      | .error e => .error e
      | .ok tables =>
        .ok {s with
          table := tables.1
          flags := tables.2
          lastFreeAtbIndex := Heap.lowerHint s block} := by
    rw [gcFreeThrough,if_neg hunlocked,if_neg hptr,if_pos his,hblock]
  rw [hm] at htail hend
  rw [hstop,hfree]
  by_cases hends : block+m+1 ≤ s.pool.blocks+s.pool.flagEntries
  case neg =>
    refine .inr ⟨hends,?_⟩
    rw [freeLoop_error _ (by omega) fun b hb hle => ?_]
    have hnow := htail (b-(block+1)) (by omega)
    rwa [Nat.add_sub_cancel' hb] at hnow
  case pos =>
    refine .inl ⟨hends,?_⟩
    rw [freeLoop_ok m (by omega) (by omega) htail (hend (by omega))]
    refine ⟨_,rfl,rfl,funext fun b => ?_,fun b => ?_⟩
    · -- the loop gets to the end of the chunk, and ends there within the pool
      have hle := @le_chainLength {s with flags := Function.update s.flags block false}
        block n hchunk behind
      have hsame := @chainLength_inside {s with flags := Function.update s.flags block false}
        block n hchunk
      rw [chainLength] at hle
      have hle' : n≤1+m := hm ▸ hle
      have hsame' : block+n < s.pool.blocks → 1+m=n := fun hlt => by
        have heq := hsame hlt behind
        rw [chainLength] at heq
        exact hm ▸ heq
      rw [resized_zero]
      dsimp only [clearedTables]
      by_cases hb : block≤b∧b < block+n
      · rw [if_pos hb,if_pos (by omega)]
      · rw [if_neg hb,if_neg]
        rintro ⟨hpool,hlow,hhigh⟩
        rcases Nat.lt_or_eq_of_le hinside with hlt | heq
        · omega
        · omega
    · dsimp only [clearedTables]
      by_cases hb : b=block
      · rw [hb,update_self,ite_self,if_pos (Or.inl rfl)]
      · rw [update_of_ne hb]
        by_cases hlow : s.pool.blocks+b/2 < block+m+1
        · rw [if_pos (by omega),if_pos (Or.inr hlow)]
        · rw [if_neg (by omega),if_neg (by omega)]

/-! ## What collections keep -/

/-- A heap in which the chunks of some heads are kept. -/
structure Retains (live : ℕ→Prop) (s t : Heap) : Prop where
  linked : Linked t.pool.blocks t.table
  /-- The pool stays where it is. -/
  pool : t.pool=s.pool
  lock : t.lockDepth=s.lockDepth
  /-- The chunks stay, with their flags. -/
  kept : Keeps s t live

variable {live : ℕ→Prop} {e e' first retry : Memory} {u : Heap} {nBlocks : ℕ}

/-- Nothing is done. -/
theorem Retains.refl (h : Linked s.pool.blocks s.table) : Retains live s s :=
  ⟨h,rfl,rfl,.refl s live⟩

/-- One thing is done after another. -/
theorem Retains.trans (h : Retains live s t) (h' : Retains live t u) : Retains live s u := by
  refine ⟨h'.linked,h'.pool.trans h.pool,h'.lock.trans h.lock,fun block n hchunk hlive => ?_⟩
  obtain ⟨hfirst,hflag⟩ := h.kept block n hchunk hlive
  obtain ⟨hsecond,hflag'⟩ := h'.kept block n hfirst hlive
  exact ⟨hsecond,hflag'.trans hflag⟩

/-- What is reachable is reachable with more roots. -/
theorem reachable_mono (hroots : ∀ word∈e.roots,word∈e'.roots) (hwords : e'.words=e.words)
    {block : ℕ} (h : Reachable (heapGraph s e) block) : Reachable (heapGraph s e') block := by
  induction h with
  | root hroot =>
    obtain ⟨word,hword,hpoints⟩ := hroot
    exact .root ⟨word,hroots word hword,hpoints⟩
  | edge _ hedge ih =>
    obtain ⟨n,hchunk,word,hword,hpoints⟩ := hedge
    refine .edge ih ⟨n,hchunk,word,?_,hpoints⟩
    rw [children,hwords]
    exact hword

/-- What is reachable stays reachable when its chunks are kept. -/
theorem Retains.reachable (h : Retains (Reachable (heapGraph s e)) s t) {block : ℕ}
    (hreach : Reachable (heapGraph s e) block) : Reachable (heapGraph t e) block := by
  have hpoints : ∀ {word block : ℕ},Reachable (heapGraph s e) block →
      PointsTo s word block → PointsTo t word block := by
    intro word block hreach hword
    obtain ⟨n,hchunk⟩ := reachable_chunk hreach
    obtain ⟨hptr,hblock,_⟩ := hword
    rw [PointsTo,h.pool]
    exact ⟨hptr,hblock,(h.kept block n hchunk hreach).1.head⟩
  induction hreach with
  | root hroot =>
    obtain ⟨word,hword,hpoint⟩ := id hroot
    exact .root ⟨word,hword,hpoints (.root hroot) hpoint⟩
  | edge hx hedge ih =>
    obtain ⟨n,hchunk,word,hword,hpoint⟩ := id hedge
    exact .edge ih ⟨n,(h.kept _ n hchunk hx).1,word,hword,hpoints (.edge hx hedge) hpoint⟩

theorem gcCollect_retains (h : Linked s.pool.blocks s.table)
    (hlive : ∀ block,live block → Reachable (heapGraph s e) block) :
    ∃ t outside,gcCollect s e=.ok (t,outside)∧Retains live s t := by
  obtain ⟨t,outside,hcollect,hkeeps,_⟩ := gcCollect_spec h e
  refine ⟨t,outside,hcollect,hkeeps.linked h,hkeeps.pool,hkeeps.settings.1,?_⟩
  intro block n hchunk hblock
  have hscanned := scanned_of_reachable (hlive block hblock)
  exact ⟨hkeeps.chunk h hchunk hscanned,hkeeps.flags block n hchunk hscanned⟩

theorem thresholdCollect_retains (h : Linked s.pool.blocks s.table)
    (hlive : ∀ block,live block → Reachable (heapGraph s e) block) :
    ∃ t outside,thresholdCollect s e=.ok (t,outside)∧Retains live s t := by
  by_cases hthreshold : s.autoCollectEnabled=true∧s.allocThreshold ≤ s.allocAmount
  case pos =>
    obtain ⟨t,outside,hcollect,hkeeps⟩ := gcCollect_retains h hlive
    exact ⟨t,outside,(if_pos hthreshold).trans hcollect,hkeeps⟩
  case neg => exact ⟨s,false,if_neg hthreshold,.refl h⟩

/-! ## Allocating -/

/-- The free blocks at the end of the pool and those at its start after a collection are not
taken for one run. -/
def Uncrossed (s : Heap) (nBlocks : ℕ) (first retry : Memory) : Prop :=
  ∀ s1 o1,thresholdCollect s first=.ok (s1,o1) → s1.autoCollectEnabled=true →
    NoRoom s1 nBlocks → ∀ s2 o2,gcCollect s1 retry=.ok (s2,o2) → ¬Crosses s1 s2 nBlocks

/-- A memory has the words of another, and its roots among others. -/
structure Extends (e e' : Memory) : Prop where
  roots : ∀ word∈e.roots,word∈e'.roots
  /-- The words in the pool are the same. -/
  words : e'.words=e.words

/-- A search keeps what is reachable. What it finds is free, unless it is a run that starts
before the pool. -/
theorem search_retains (h : Linked s.pool.blocks s.table) (hpos : 0 < nBlocks)
    (hfirst : Extends e first) (hretry : Extends e retry) :
    ∃ t outside found,search s nBlocks first retry=.ok (t,outside,found)∧
      Retains (Reachable (heapGraph s e)) s t∧
      ((Uncrossed s nBlocks first retry∧
          ∀ i nFree,found=some (i,nFree) → FreeRun t nBlocks i nFree)∨
        (¬Uncrossed s nBlocks first retry∧∃ i,found=some (i,nBlocks)∧i+1 < nBlocks)) := by
  obtain ⟨s1,o1,hthreshold,hkeeps1⟩ := @thresholdCollect_retains s
    (Reachable (heapGraph s e)) first h
    fun block hblock => reachable_mono hfirst.roots hfirst.words hblock
  have huncrossed : Uncrossed s nBlocks first retry↔(s1.autoCollectEnabled=true →
      NoRoom s1 nBlocks → ∀ s2 o2,gcCollect s1 retry=.ok (s2,o2) → ¬Crosses s1 s2 nBlocks) := by
    refine ⟨fun hall => hall s1 o1 hthreshold,fun hall s1' o1' h' => ?_⟩
    rw [hthreshold] at h'
    cases h'
    exact hall
  have hscan := scanHeap_spec s1 hpos
  rw [search,hthreshold,huncrossed]
  dsimp only
  cases hresult : scanHeap s1 nBlocks 0 with
  | found i nFree =>
    rw [hresult] at hscan
    obtain ⟨hrun,b,hb,hroom⟩ := freeRun_of_scanned hscan
    refine ⟨s1,o1,some (i,nFree),rfl,hkeeps1,.inl ⟨fun _ hnone => ?_,?_⟩⟩
    · exact absurd (hnone b hb) (Nat.not_lt.mpr hroom)
    · intro i' nFree' hsome
      cases hsome
      exact hrun
  | missing nFree =>
    rw [hresult] at hscan
    obtain ⟨hcount,hnone⟩ := hscan
    dsimp only
    by_cases hauto : s1.autoCollectEnabled=true
    case neg =>
      rw [if_neg hauto]
      exact ⟨s1,o1,none,rfl,hkeeps1,.inl ⟨fun hon => absurd hon hauto,fun _ _ h => by cases h⟩⟩
    case pos =>
      obtain ⟨s2,o2,hcollect,hkeeps2⟩ := @gcCollect_retains s1 (Reachable (heapGraph s e)) retry
        hkeeps1.linked
        fun block hblock => reachable_mono hretry.roots hretry.words (hkeeps1.reachable hblock)
      have hless : nFree < nBlocks := hcount ▸ hnone _ (Nat.le_refl _)
      have hcross : (s1.autoCollectEnabled=true → NoRoom s1 nBlocks →
          ∀ s2 o2,gcCollect s1 retry=.ok (s2,o2) → ¬Crosses s1 s2 nBlocks)↔
            ¬Crosses s1 s2 nBlocks := by
        refine ⟨fun hall => hall hauto hnone s2 o2 hcollect,fun hnot _ _ s2' o2' h' => ?_⟩
        rw [hcollect] at h'
        cases h'
        exact hnot
      rw [if_pos hauto,hcross,hcollect]
      dsimp only
      rcases secondScan_spec (gcCollect_hint hcollect) hcount hless with
        ⟨hyes,i,hfound,hlt⟩ | ⟨hno,⟨i,k,hfound,hrun,_⟩ | ⟨k,hmissing,_⟩⟩
      · rw [hfound]
        exact ⟨s2,o1||o2,_,rfl,hkeeps1.trans hkeeps2,.inr ⟨not_not_intro hyes,i,rfl,hlt⟩⟩
      · rw [hfound]
        refine ⟨s2,o1||o2,_,rfl,hkeeps1.trans hkeeps2,.inl ⟨hno,fun i' k' hsome => ?_⟩⟩
        cases hsome
        exact hrun
      · rw [hmissing]
        exact ⟨s2,o1||o2,none,rfl,hkeeps1.trans hkeeps2,.inl ⟨hno,fun _ _ h => by cases h⟩⟩

/-- A heap in which blocks were allocated, unless null is returned. -/
structure Placed (live : ℕ→Prop) (s t : Heap) (nBlocks : ℕ) (ptr : ℕ) : Prop where
  /-- What is reachable stays. -/
  retains : Retains live s t
  /-- There is a new chunk, which is none of those. -/
  fresh : ptr≠0 → ∃ block,ptr=s.pool.ptrFromBlock block∧Chunk t.pool.blocks t.table block nBlocks∧
      ∀ c m,Chunk s.pool.blocks s.table c m → live c → c≠block

/-- Free blocks are taken after a search. -/
theorem take_placed {i nFree : ℕ} (hkeeps : Retains live s t) (hrun : FreeRun t nBlocks i nFree)
    (hpos : 0 < nBlocks) (hasFinaliser : Bool) :
    ∃ u ptr,take t nBlocks i nFree hasFinaliser=.ok (u,ptr)∧Placed live s u nBlocks ptr := by
  obtain ⟨u,htake,hpool,hlock,htable,hflags⟩ := take_spec hrun hpos hasFinaliser
  have hresizable := hrun.resizable hkeeps.linked
  have hfree : t.table (i+1-nBlocks)=.free := by
    exact hrun.free (i+1-nBlocks) (Nat.le_refl _) (by omega)
  have hother : ∀ c m,Chunk t.pool.blocks t.table c m → c≠i+1-nBlocks := by
    intro c m hchunk hsame
    rw [←hsame,hchunk.head] at hfree
    cases hfree
  have hretains : Retains live t u := by
    refine ⟨?_,hpool,hlock,fun c m hchunk _ => ⟨?_,hflags c (hother c m hchunk)⟩⟩
    · rw [hpool,htable]
      exact hresizable.linked_resized
    · rw [hpool,htable]
      exact hresizable.keeps hchunk (.inr rfl)
  refine ⟨u,_,htake,hkeeps.trans hretains,fun _ => ⟨i+1-nBlocks,?_,?_,fun c m hchunk hlive => ?_⟩⟩
  · rw [hkeeps.pool]
  · rw [hpool,htable]
    exact hresizable.chunk_resized hpos
  · exact hother c m (hkeeps.kept c m hchunk hlive).1

/-- An allocation keeps what is reachable, unless it takes a run that starts before the
pool. -/
theorem gcAlloc_placed {nBytes : ℕ} (h : Linked s.pool.blocks s.table)
    (hpos : numBlocks nBytes≠0) (hlock : s.lockDepth=0) (hfirst : Extends e first)
    (hretry : Extends e retry) (hasFinaliser : Bool) :
    (Uncrossed s (numBlocks nBytes) first retry∧
      ∃ t out,gcAlloc s nBytes hasFinaliser first retry=.ok (t,out)∧
        Placed (Reachable (heapGraph s e)) s t (numBlocks nBytes) out.ptr)∨
    (¬Uncrossed s (numBlocks nBytes) first retry∧
      gcAlloc s nBytes hasFinaliser first retry=.error .table) := by
  obtain ⟨t,outside,found,hsearch,hkeeps,hfound⟩ :=
    search_retains h (Nat.pos_of_ne_zero hpos) hfirst hretry
  rw [gcAlloc_search rfl hpos hlock hsearch]
  have hshort : numBlocks nBytes < 2^28 := by
    have hvalue : sizeT=2^32 := rfl
    have hbytes : bytesPerBlock=16 := rfl
    rw [numBlocks,hvalue,hbytes]
    omega
  rcases hfound with ⟨huncrossed,hrun⟩ | ⟨hcrosses,i,rfl,hlt⟩
  · refine .inl ⟨huncrossed,?_⟩
    cases found with
    | none => exact ⟨t,⟨0,t,outside⟩,rfl,hkeeps,fun hne => absurd rfl hne⟩
    | some p =>
      obtain ⟨u,ptr,htake,hplaced⟩ := take_placed hkeeps (hrun p.1 p.2 rfl)
        (Nat.pos_of_ne_zero hpos) hasFinaliser
      rw [allocFound,htake,report]
      exact ⟨u,⟨ptr,t,outside⟩,rfl,hplaced⟩
  · refine .inr ⟨hcrosses,?_⟩
    rw [allocFound,take_wild hlt hshort,report]

/-! ## Blocks and their bytes -/

/-- Chunks of different heads do not overlap. -/
theorem chunk_apart {blocks : ℕ} {table : ℕ→Kind} {c m : ℕ} (h : Chunk blocks table block n)
    (h' : Chunk blocks table c m) (hne : c≠block) : block+n ≤ c∨c+m≤block := by
  have hpos := h.pos
  have hpos' := h'.pos
  by_contra hnot
  exact hne (@Chunk.eq_of_mem blocks table block n c m (max block c) h h' (by omega)
    (by omega)).1.symm

theorem length_zeros (nBlocks : ℕ) : (zeros nBlocks).length=nBlocks*bytesPerBlock :=
  length_replicate

variable {bytes bytes' : Bytes}

theorem load_blocks (p : Pool) (bytes : Bytes) {xs : List UInt8} {a k c m : ℕ}
    (hlength : xs.length≤k*bytesPerBlock) (h : a+k ≤ c∨c+m≤a) :
    load (store bytes (p.ptrFromBlock a) xs) (p.ptrFromBlock c) (m*bytesPerBlock)=
      load bytes (p.ptrFromBlock c) (m*bytesPerBlock) := by
  refine load_store_of_apart ?_
  simp only [BlockHeap.Block.Apart,Pool.ptrFromBlock,bytesPerBlock] at *
  omega

/-- Where bytes are equal fewer of them are. -/
theorem load_le {a b k m : ℕ} (h : load bytes a m=load bytes' b m) (hle : k ≤ m) :
    load bytes a k=load bytes' b k := by
  obtain ⟨d,rfl⟩ := Nat.exists_eq_add_of_le hle
  rw [load_add,load_add] at h
  exact (append_inj h (by rw [length_load,length_load])).1

/-! ## Live chunks -/

variable {nBytes m : ℕ} {o : Outside} {out : Report} {allowMove : Bool}

theorem live_self (his : IsChunk s ptr) : Live s bytes o ptr (s.pool.blockFromPtr ptr) :=
  .root ⟨ptr,mem_cons_self,his.1,rfl,his.2⟩

/-- Nothing happens to a chunk. -/
theorem Untouched.refl (h : Chunk s.pool.blocks s.table block n) :
    Untouched s s bytes bytes block n :=
  ⟨h,rfl,rfl⟩

theorem resizes_nothing (h : WellFormed s)
    (hchunk : Chunk s.pool.blocks s.table (s.pool.blockFromPtr ptr) n) :
    Resizes s bytes ptr n nBytes o s ⟨0,s,false⟩ bytes :=
  ⟨h,fun _ _ hother _ _ => .refl hother,fun hne => absurd rfl hne,fun _ _ => .refl hchunk⟩

/-- A chunk beside one that is freed stays, except for a flag that is cleared. -/
theorem Freed.other {stop c : ℕ} (h : Freed s t block n stop)
    (hlinked : Linked s.pool.blocks s.table) (hchunk : Chunk s.pool.blocks s.table block n)
    (hother : Chunk s.pool.blocks s.table c m) (hne : c≠block) :
    Chunk t.pool.blocks t.table c m∧
      (t.flags c=s.flags c↔(s.flags c=true → stop ≤ s.pool.blocks+c/2)) := by
  have hresizable := resizable_shrink hlinked hchunk (zero_le n)
  constructor
  · rw [h.pool,h.table]
    exact hresizable.keeps hother (.inl hne)
  · rw [h.flags c]
    by_cases hlow : s.pool.blocks+c/2 < stop
    · rw [if_pos (Or.inr hlow)]
      cases s.flags c with
      | false => simp
      | true => simpa using hlow
    · rw [if_neg (not_or.mpr ⟨hne,hlow⟩)]
      exact iff_of_true rfl fun _ => Nat.le_of_not_lt hlow

theorem Freed.linked {stop : ℕ} (h : Freed s t block n stop)
    (hlinked : Linked s.pool.blocks s.table) (hchunk : Chunk s.pool.blocks s.table block n) :
    Linked t.pool.blocks t.table := by
  rw [h.pool,h.table]
  exact (resizable_shrink hlinked hchunk (zero_le n)).linked_resized

/-! ## Keeping the place -/

/-- The blocks that a chunk needs behind it are free. -/
def InPlace (s : Heap) (ptr n nBlocks : ℕ) : Prop :=
  ∀ b,s.pool.blockFromPtr ptr+n≤b → b < s.pool.blockFromPtr ptr+nBlocks →
    b < s.pool.blocks∧s.table b=.free

/-- A chunk that keeps its place, with the bytes of new blocks. -/
theorem reallocBytes_inPlace (h : Linked s.pool.blocks s.table)
    (hchunk : Chunk s.pool.blocks s.table (s.pool.blockFromPtr ptr) n)
    (hplace : InPlace s ptr n (numBlocks nBytes)) (bytes : Bytes) (allowMove : Bool)
    (o : Outside) : ∃ t bytes',
      reallocBytes s bytes ptr nBytes allowMove o=.ok (t,⟨ptr,s,false⟩,bytes')∧
      Changed s t (s.pool.blockFromPtr ptr) n (numBlocks nBytes)∧
      (bytes'=bytes∨n < numBlocks nBytes∧
        bytes'=store bytes (ptr+n*bytesPerBlock) (zeros (numBlocks nBytes-n))) := by
  obtain ⟨t,hrealloc,hchanged⟩ := reallocChunk_inPlace h hchunk rfl hplace allowMove
    (o.firstMemory s.pool bytes) (o.retryMemory s.pool bytes)
  obtain ⟨nFree,hcount,hroom⟩ := countBlocks_spec h hchunk (numBlocks nBytes)
  rw [reallocChunk] at hrealloc
  rw [reallocBytes]
  simp only [hcount] at hrealloc ⊢
  by_cases heq : numBlocks nBytes=n
  case pos =>
    rw [if_pos heq] at hrealloc ⊢
    cases hrealloc
    exact ⟨s,bytes,rfl,hchanged,.inl rfl⟩
  case neg =>
    rw [if_neg heq] at hrealloc ⊢
    by_cases hless : numBlocks nBytes < n
    case pos =>
      rw [if_pos hless] at hrealloc ⊢
      cases hrealloc
      exact ⟨_,bytes,rfl,hchanged,.inl rfl⟩
    case neg =>
      rw [if_neg hless,if_pos (hroom.mpr hplace)] at hrealloc ⊢
      rw [growBytes,hrealloc]
      exact ⟨t,_,rfl,hchanged,.inr ⟨by omega,rfl⟩⟩

/-- A chunk that does not is moved if that is allowed. -/
theorem reallocBytes_moves (h : Linked s.pool.blocks s.table)
    (hchunk : Chunk s.pool.blocks s.table (s.pool.blockFromPtr ptr) n)
    (hplace : ¬InPlace s ptr n (numBlocks nBytes)) (bytes : Bytes) (allowMove : Bool)
    (o : Outside) : n < numBlocks nBytes∧reallocBytes s bytes ptr nBytes allowMove o=
      if allowMove=true then moveBytes s bytes ptr n nBytes o
      else .ok (s,⟨0,s,false⟩,bytes) := by
  have hmore : n < numBlocks nBytes := by
    by_contra hle
    exact hplace fun b hb hlt => by omega
  obtain ⟨nFree,hcount,hroom⟩ := countBlocks_spec h hchunk (numBlocks nBytes)
  refine ⟨hmore,?_⟩
  rw [reallocBytes]
  simp only [hcount]
  rw [if_neg (Nat.ne_of_gt hmore),if_neg (by omega),if_neg fun henough => hplace (hroom.mp henough)]

/-- A chunk that keeps its place has its bytes, and all others stay. -/
theorem resizes_inPlace (h : WellFormed s) (his : IsChunk s ptr)
    (hchunk : Chunk s.pool.blocks s.table (s.pool.blockFromPtr ptr) n)
    (hshort : nBytes < sizeT) (hpos : numBlocks nBytes≠0)
    (hplace : InPlace s ptr n (numBlocks nBytes))
    (hchanged : Changed s t (s.pool.blockFromPtr ptr) n (numBlocks nBytes))
    (hbytes : bytes'=bytes∨n < numBlocks nBytes∧
      bytes'=store bytes (ptr+n*bytesPerBlock) (zeros (numBlocks nBytes-n))) :
    Resizes s bytes ptr n nBytes o t ⟨ptr,s,false⟩ bytes' := by
  have hlinked := wellFormed_iff.mp h
  have hptr := ptrFromBlock_blockFromPtr his.1
  have hnull : ptr≠0 := Nat.ne_of_gt (Nat.lt_of_lt_of_le s.pool.start_pos his.1.2.1)
  have hresizable : Resizable s.pool.blocks s.table (s.pool.blockFromPtr ptr) n
      (numBlocks nBytes) := ⟨hlinked,fun _ => hchunk,hplace⟩
  have hnew : Chunk t.pool.blocks t.table (s.pool.blockFromPtr ptr) (numBlocks nBytes) := by
    rw [hchanged.pool,hchanged.table]
    exact hresizable.chunk_resized (Nat.pos_of_ne_zero hpos)
  -- what is stored lies behind the old chunk, in the new one
  have hstored : bytes'=bytes∨bytes'=store bytes (s.pool.ptrFromBlock
      (s.pool.blockFromPtr ptr+n)) (zeros (numBlocks nBytes-n)) := by
    refine hbytes.imp id fun hstore => ?_
    have hbehind : s.pool.ptrFromBlock (s.pool.blockFromPtr ptr+n)=ptr+n*bytesPerBlock := by
      rw [Pool.ptrFromBlock,Nat.add_mul] at *
      omega
    rw [hbehind]
    exact hstore.2
  have hloads : ∀ c k,c+k ≤ s.pool.blockFromPtr ptr+n∨
      s.pool.blockFromPtr ptr+max n (numBlocks nBytes) ≤ c →
      load bytes' (s.pool.ptrFromBlock c) (k*bytesPerBlock)=
        load bytes (s.pool.ptrFromBlock c) (k*bytesPerBlock) := by
    intro c k hapart
    rcases hstored with hsame | hstore
    · rw [hsame]
    · rw [hstore]
      refine load_blocks s.pool bytes (Nat.le_of_eq (length_zeros _)) ?_
      omega
  refine ⟨wellFormed_iff.mpr (hchanged.linked hresizable),fun c m hother _ hne => ?_,
    fun _ => ⟨_,_,hptr.symm,hnew,(numBlocks_spec hshort hpos).1,?_⟩,
    fun hzero _ => absurd hzero hnull⟩
  · obtain ⟨hstays,hflag⟩ := hchanged.keeps hresizable c m hother (Ne.symm hne)
    refine ⟨hstays,hflag,hloads c m ?_⟩
    have hold := chunk_apart hchunk hother hne
    have hnow := chunk_apart hnew hstays hne
    omega
  · have hall := hloads (s.pool.blockFromPtr ptr) n (.inl (Nat.le_refl _))
    rw [hptr] at hall
    exact load_le hall (Nat.min_le_left _ _)

/-- When the number of blocks overflows the chunk is freed, and its pointer is returned. -/
theorem not_resizes_wrapped (his : IsChunk s ptr)
    (hchunk : Chunk s.pool.blocks s.table (s.pool.blockFromPtr ptr) n)
    (hpos : numBlocks nBytes=0)
    (hchanged : Changed s t (s.pool.blockFromPtr ptr) n (numBlocks nBytes)) :
    ¬Resizes s bytes ptr n nBytes o t ⟨ptr,s,false⟩ bytes' := by
  intro hresizes
  have hnull : ptr≠0 := Nat.ne_of_gt (Nat.lt_of_lt_of_le s.pool.start_pos his.1.2.1)
  obtain ⟨block,m,hptr,hnew,_⟩ := hresizes.resized hnull
  have hblock : s.pool.blockFromPtr ptr=block := by
    have hsame := Pool.blockFromPtr_ptrFromBlock s.pool block
    rwa [←hptr] at hsame
  have hn := hchunk.pos
  have hhead := hnew.head
  rw [hchanged.table,hpos,resized_zero,←hblock,if_pos (by omega)] at hhead
  cases hhead

/-! ## Moving -/

/-- A chunk can be freed without the flag of a live one. -/
def Freeable (live : ℕ→Prop) (s : Heap) (behind : List Kind) (block : ℕ) : Prop :=
  freeEnd s behind block ≤ s.pool.blocks+s.pool.flagEntries∧
    ∀ c,live c → c≠block → s.flags c=true → freeEnd s behind block ≤ s.pool.blocks+c/2

/-- A chunk can be moved: the blocks that are taken are free, and then it can be freed. -/
def Movable (s : Heap) (bytes : Bytes) (ptr nBytes : ℕ) (o : Outside) : Prop :=
  let first := Memory.withRoot (o.firstMemory s.pool bytes) ptr
  let retry := Memory.withRoot (o.retryMemory s.pool bytes) ptr
  Uncrossed s (numBlocks nBytes) first retry∧
    ∀ t out,gcAlloc s nBytes (s.flags (s.pool.blockFromPtr ptr)) first retry=.ok (t,out) →
      out.ptr≠0 → Freeable (Live s bytes o ptr) t o.behind (s.pool.blockFromPtr ptr)

/-- What is live with a pointer on the stack of `gc_realloc` is so in a collection. -/
theorem extends_withRoot (s : Heap) (bytes : Bytes) (o : Outside) (ptr : ℕ) (others : List ℕ) :
    Extends (o.memory s.pool bytes (ptr::o.live))
      (Memory.withRoot (o.memory s.pool bytes (o.live++others)) ptr) := by
  refine ⟨fun word hword => ?_,rfl⟩
  rcases mem_cons.mp hword with hsame | hlive
  · exact hsame ▸ mem_cons_self
  · exact mem_cons_of_mem _ (mem_append_left _ hlive)

/-- The bytes of a chunk are copied to new blocks, and those of other chunks stay. -/
theorem copied (p : Pool) (bytes : Bytes) {a nBlocks block n : ℕ} (hle : n≤nBlocks)
    (hapart : a+nBlocks≤block∨block+n≤a) {copy : Bytes}
    (hcopy : copy=store (store bytes (p.ptrFromBlock a) (zeros nBlocks)) (p.ptrFromBlock a)
      (load (store bytes (p.ptrFromBlock a) (zeros nBlocks)) (p.ptrFromBlock block)
        (n*bytesPerBlock))) :
    load copy (p.ptrFromBlock a) (n*bytesPerBlock)=
      load bytes (p.ptrFromBlock block) (n*bytesPerBlock)∧
      ∀ c m,a+nBlocks ≤ c∨c+m≤a → load copy (p.ptrFromBlock c) (m*bytesPerBlock)=
        load bytes (p.ptrFromBlock c) (m*bytesPerBlock) := by
  have hzeros : ∀ c m,a+nBlocks ≤ c∨c+m≤a →
      load (store bytes (p.ptrFromBlock a) (zeros nBlocks)) (p.ptrFromBlock c)
        (m*bytesPerBlock)=load bytes (p.ptrFromBlock c) (m*bytesPerBlock) :=
    fun c m hc => load_blocks p bytes (Nat.le_of_eq (length_zeros nBlocks)) hc
  subst hcopy
  rw [hzeros block n hapart]
  constructor
  · have hload := @load_store UInt8 (store bytes (p.ptrFromBlock a) (zeros nBlocks))
      (p.ptrFromBlock a) (load bytes (p.ptrFromBlock block) (n*bytesPerBlock))
    rwa [length_load] at hload
  · intro c m hc
    rw [load_blocks p _ ?_ hc,hzeros c m hc]
    rw [length_load]
    exact mul_le_mul_right _ hle

/-- A chunk was moved and freed in a heap as an allocation leaves it. -/
theorem resizes_moved_iff {t1 t2 : Heap} {stop : ℕ} (his : IsChunk s ptr)
    (hchunk : Chunk s.pool.blocks s.table (s.pool.blockFromPtr ptr) n)
    (hshort : nBytes < sizeT) (hmore : n < numBlocks nBytes)
    (hplaced : Placed (Live s bytes o ptr) s t1 (numBlocks nBytes) out.ptr) (hnull : out.ptr≠0)
    (hfreed : Freed t1 t2 (s.pool.blockFromPtr ptr) n stop)
    (hbytes : bytes'=store (store bytes out.ptr (zeros (numBlocks nBytes))) out.ptr
      (load (store bytes out.ptr (zeros (numBlocks nBytes))) ptr (n*bytesPerBlock))) :
    Resizes s bytes ptr n nBytes o t2 out bytes'↔
      ∀ c,Live s bytes o ptr c → c≠s.pool.blockFromPtr ptr → t1.flags c=true →
        stop≤t1.pool.blocks+c/2 := by
  obtain ⟨hretains,hfresh⟩ := hplaced
  obtain ⟨a,ha,hnew,hothers⟩ := hfresh hnull
  have hptr := ptrFromBlock_blockFromPtr his.1
  have hself := hretains.kept _ n hchunk (live_self his)
  have hne := hothers _ n hchunk (live_self his)
  rw [ha,←hptr,hptr] at hbytes
  obtain ⟨hcopy,hrest⟩ := @copied s.pool bytes a (numBlocks nBytes) (s.pool.blockFromPtr ptr) n
    (Nat.le_of_lt hmore) (chunk_apart hnew hself.1 hne) bytes' (by rw [hptr]; exact hbytes)
  rw [hptr] at hcopy
  have hother : ∀ c m,Chunk s.pool.blocks s.table c m → Live s bytes o ptr c →
      c≠s.pool.blockFromPtr ptr → Chunk t2.pool.blocks t2.table c m∧
        (t2.flags c=s.flags c↔(t1.flags c=true → stop≤t1.pool.blocks+c/2)) := by
    intro c m hc hlive hne
    obtain ⟨hstays,hflag⟩ := hretains.kept c m hc hlive
    obtain ⟨hstays',hflag'⟩ := hfreed.other hretains.linked hself.1 hstays hne
    rw [hflag] at hflag'
    exact ⟨hstays',hflag.symm ▸ hflag'⟩
  constructor
  · intro hresizes c hlive hne
    obtain ⟨m,hc⟩ := reachable_chunk hlive
    exact (hother c m hc hlive hne).2.mp (hresizes.others c m hc hlive hne).flag
  · intro hflags
    refine ⟨wellFormed_iff.mpr (hfreed.linked hretains.linked hself.1),?_,fun _ => ?_,
      fun hzero _ => absurd hzero hnull⟩
    · intro c m hc hlive hne
      obtain ⟨hstays,hflag⟩ := hother c m hc hlive hne
      refine ⟨hstays,hflag.mpr (hflags c hlive hne),hrest c m ?_⟩
      exact chunk_apart hnew (hretains.kept c m hc hlive).1 (hothers c m hc hlive)
    · refine ⟨a,numBlocks nBytes,ha,?_,(numBlocks_spec hshort (by omega)).1,?_⟩
      · exact (hfreed.other hretains.linked hself.1 hnew (Ne.symm hne)).1
      · rw [ha]
        exact load_le hcopy (Nat.min_le_left _ _)

/-- A move does what is said of it exactly when the chunk can be moved. -/
theorem moveBytes_resizes_iff (h : WellFormed s) (his : IsChunk s ptr)
    (hchunk : Chunk s.pool.blocks s.table (s.pool.blockFromPtr ptr) n)
    (hshort : nBytes < sizeT) (hmore : n < numBlocks nBytes) (hlock : s.lockDepth=0) :
    (∃ t out bytes',moveBytes s bytes ptr n nBytes o=.ok (t,out,bytes')∧
      Resizes s bytes ptr n nBytes o t out bytes')↔Movable s bytes ptr nBytes o := by
  have hlinked := wellFormed_iff.mp h
  have hpos : numBlocks nBytes≠0 := by omega
  have halloc := gcAlloc_placed hlinked hpos hlock (extends_withRoot s bytes o ptr o.first)
    (extends_withRoot s bytes o ptr o.retry) (s.flags (s.pool.blockFromPtr ptr))
  rw [moveBytes,gcAllocBytes,Movable]
  rcases halloc with ⟨huncrossed,t1,out,halloc,hplaced⟩ | ⟨hcrosses,halloc⟩
  case inr =>
    have hfault : gcAlloc s nBytes (s.flags (s.pool.blockFromPtr ptr))
      (Memory.withRoot (o.firstMemory s.pool bytes) ptr)
      (Memory.withRoot (o.retryMemory s.pool bytes) ptr)=.error .table := halloc
    rw [hfault]
    exact iff_of_false (fun ⟨_,_,_,hmove,_⟩ => nomatch hmove) fun hmovable => hcrosses hmovable.1
  case inl =>
    have hfound : gcAlloc s nBytes (s.flags (s.pool.blockFromPtr ptr))
      (Memory.withRoot (o.firstMemory s.pool bytes) ptr)
      (Memory.withRoot (o.retryMemory s.pool bytes) ptr)=.ok (t1,out) := halloc
    rw [hfound]
    dsimp only
    have hmovable : (∀ t out',(Except.ok (t1,out) : Except Fault (Heap×Report))=.ok (t,out') →
        out'.ptr≠0 → Freeable (Live s bytes o ptr) t o.behind (s.pool.blockFromPtr ptr))↔
          (out.ptr≠0 → Freeable (Live s bytes o ptr) t1 o.behind (s.pool.blockFromPtr ptr)) := by
      refine ⟨fun hall => hall t1 out rfl,fun hone t out' hsame => ?_⟩
      cases hsame
      exact hone
    rw [hmovable]
    have hself := hplaced.retains.kept _ n hchunk (live_self his)
    by_cases hnull : out.ptr=0
    case pos =>
      rw [if_pos hnull,if_pos hnull]
      refine iff_of_true ⟨t1,out,bytes,rfl,wellFormed_iff.mpr hplaced.retains.linked,?_,?_,?_⟩
        ⟨huncrossed,fun hne => absurd hnull hne⟩
      · intro c m hc hlive _
        obtain ⟨hstays,hflag⟩ := hplaced.retains.kept c m hc hlive
        exact ⟨hstays,hflag,rfl⟩
      · exact fun hne => absurd hnull hne
      · exact fun _ _ => ⟨hself.1,hself.2,rfl⟩
    case neg =>
      rw [if_neg hnull,if_neg hnull]
      have hblock : t1.pool.blockFromPtr ptr=s.pool.blockFromPtr ptr := by
        rw [hplaced.retains.pool]
      have his1 : IsChunk t1 ptr := by
        refine ⟨?_,?_⟩
        · rw [hplaced.retains.pool]
          exact his.1
        · rw [hblock]
          exact hself.1.head
      have hfree := gcFreeThrough_eq (hplaced.retains.lock.trans hlock) his1
        (by rw [hblock]; exact hself.1) o.behind
      rw [hblock] at hfree
      rcases hfree with ⟨hends,t2,hfree,hfreed⟩ | ⟨hwild,hfree⟩
      · rw [hfree]
        have hiff := resizes_moved_iff his hchunk hshort hmore hplaced hnull hfreed rfl
        constructor
        · rintro ⟨t,out',bytes',hmove,hresizes⟩
          cases hmove
          exact ⟨huncrossed,fun _ => ⟨hends,hiff.mp hresizes⟩⟩
        · rintro ⟨_,hfreeable⟩
          exact ⟨t2,out,_,rfl,hiff.mpr (hfreeable hnull).2⟩
      · rw [hfree]
        refine iff_of_false (fun ⟨_,_,_,hmove,_⟩ => nomatch hmove) ?_
        exact fun hmovable => hwild (hmovable.2 hnull).1

/-! ## Reallocations -/

/-- The conditions for `gc_realloc` of a chunk with a number of blocks: the number of blocks
requested does not overflow, and a chunk that does not keep its place can be moved. -/
def SoundRealloc (s : Heap) (bytes : Bytes) (ptr n nBytes : ℕ) (allowMove : Bool)
    (o : Outside) : Prop :=
  s.lockDepth=0 →
    if nBytes=0 then Freeable (Live s bytes o ptr) s o.behind (s.pool.blockFromPtr ptr)
    else numBlocks nBytes≠0∧
      (allowMove=true → ¬InPlace s ptr n (numBlocks nBytes) → Movable s bytes ptr nBytes o)

theorem gcReallocBytes_eq (his : IsChunk s ptr) (hlock : s.lockDepth=0) (hsize : nBytes≠0)
    (bytes : Bytes) (allowMove : Bool) (o : Outside) :
    gcReallocBytes s bytes ptr nBytes allowMove o=reallocBytes s bytes ptr nBytes allowMove o := by
  have hnull : ptr≠0 := Nat.ne_of_gt (Nat.lt_of_lt_of_le s.pool.start_pos his.1.2.1)
  have hunlocked : ¬0 < s.lockDepth := by
    rw [hlock]
    exact (by decide)
  rw [gcReallocBytes,if_neg hnull,if_neg hsize,if_pos his,if_neg hunlocked]

theorem gcReallocBytes_zero (his : IsChunk s ptr) (bytes : Bytes) (allowMove : Bool)
    (o : Outside) : gcReallocBytes s bytes ptr 0 allowMove o=
      match gcFreeThrough s o.behind ptr with
      | .error e => .error e
      | .ok t => .ok (t,⟨0,s,false⟩,bytes) := by
  have hnull : ptr≠0 := Nat.ne_of_gt (Nat.lt_of_lt_of_le s.pool.start_pos his.1.2.1)
  rw [gcReallocBytes,if_neg hnull,if_pos rfl]

/-- Freeing a chunk leaves the others exactly when it can be freed. -/
theorem freeBytes_resizes_iff (h : WellFormed s) (his : IsChunk s ptr)
    (hchunk : Chunk s.pool.blocks s.table (s.pool.blockFromPtr ptr) n) (hlock : s.lockDepth=0)
    (bytes : Bytes) (allowMove : Bool) (o : Outside) :
    (∃ t out bytes',gcReallocBytes s bytes ptr 0 allowMove o=.ok (t,out,bytes')∧
      Resizes s bytes ptr n 0 o t out bytes')↔
        Freeable (Live s bytes o ptr) s o.behind (s.pool.blockFromPtr ptr) := by
  have hlinked := wellFormed_iff.mp h
  rw [gcReallocBytes_zero his]
  rcases gcFreeThrough_eq hlock his hchunk o.behind with ⟨hends,t,hfree,hfreed⟩ | ⟨hwild,hfree⟩
  · rw [hfree]
    constructor
    · rintro ⟨t',out,bytes',hrealloc,hresizes⟩
      cases hrealloc
      refine ⟨hends,fun c hlive hne => ?_⟩
      obtain ⟨m,hc⟩ := reachable_chunk hlive
      exact (hfreed.other hlinked hchunk hc hne).2.mp (hresizes.others c m hc hlive hne).flag
    · rintro ⟨_,hflags⟩
      refine ⟨t,_,bytes,rfl,wellFormed_iff.mpr (hfreed.linked hlinked hchunk),?_,?_,?_⟩
      · intro c m hc hlive hne
        obtain ⟨hstays,hflag⟩ := hfreed.other hlinked hchunk hc hne
        exact ⟨hstays,hflag.mpr (hflags c hlive hne),rfl⟩
      · exact fun hne => absurd rfl hne
      · exact fun _ hsize => absurd rfl hsize
  · rw [hfree]
    exact iff_of_false (fun ⟨_,_,_,hrealloc,_⟩ => nomatch hrealloc) fun hends => hwild hends.1

/-- For a chunk of a well-formed heap, `gc_realloc` returns a chunk of at least the bytes
requested with the old bytes, leaves the other live chunks as they are and the chunk intact
when it fails, exactly under its conditions. -/
theorem gcRealloc_resizes_iff (h : WellFormed s) (his : IsChunk s ptr)
    (hchunk : Chunk s.pool.blocks s.table (s.pool.blockFromPtr ptr) n)
    (hshort : nBytes < sizeT) (bytes : Bytes) (allowMove : Bool) (o : Outside) :
    (∃ t out bytes',gcReallocBytes s bytes ptr nBytes allowMove o=.ok (t,out,bytes')∧
      Resizes s bytes ptr n nBytes o t out bytes')↔
        SoundRealloc s bytes ptr n nBytes allowMove o := by
  have hlinked := wellFormed_iff.mp h
  rw [SoundRealloc]
  by_cases hlock : s.lockDepth=0
  case neg =>
    refine iff_of_true ⟨s,⟨0,s,false⟩,bytes,?_,resizes_nothing h hchunk⟩
      fun hzero => absurd hzero hlock
    by_cases hsize : nBytes=0
    case pos =>
      rw [hsize,gcReallocBytes_zero his,gcFreeThrough_locked hlock]
    case neg =>
      have hnull : ptr≠0 := Nat.ne_of_gt (Nat.lt_of_lt_of_le s.pool.start_pos his.1.2.1)
      rw [gcReallocBytes,if_neg hnull,if_neg hsize,if_pos his,
        if_pos (UInt16.pos_iff_ne_zero.mpr hlock)]
  case pos =>
    rw [forall_prop_of_true hlock]
    by_cases hsize : nBytes=0
    case pos =>
      subst hsize
      rw [if_pos rfl]
      exact freeBytes_resizes_iff h his hchunk hlock bytes allowMove o
    case neg =>
      rw [if_neg hsize,gcReallocBytes_eq his hlock hsize]
      by_cases hplace : InPlace s ptr n (numBlocks nBytes)
      case pos =>
        obtain ⟨t,bytes',hrealloc,hchanged,hbytes⟩ :=
          reallocBytes_inPlace hlinked hchunk hplace bytes allowMove o
        rw [hrealloc]
        constructor
        · rintro ⟨t',out,bytes'',hsame,hresizes⟩
          cases hsame
          refine ⟨fun hpos => ?_,fun _ hnot => absurd hplace hnot⟩
          exact not_resizes_wrapped his hchunk hpos hchanged hresizes
        · rintro ⟨hpos,_⟩
          exact ⟨t,_,bytes',rfl,resizes_inPlace h his hchunk hshort hpos hplace hchanged hbytes⟩
      case neg =>
        obtain ⟨hmore,hrealloc⟩ := reallocBytes_moves hlinked hchunk hplace bytes allowMove o
        have hpos : numBlocks nBytes≠0 := by omega
        rw [hrealloc,and_iff_right hpos]
        by_cases hallowed : allowMove=true
        case pos =>
          rw [if_pos hallowed,forall_prop_of_true hallowed,forall_prop_of_true hplace]
          exact moveBytes_resizes_iff h his hchunk hshort hmore hlock
        case neg =>
          rw [if_neg hallowed]
          exact iff_of_true ⟨s,_,bytes,rfl,resizes_nothing h hchunk⟩
            fun hmove => absurd hmove hallowed

/-- A heap of four blocks, of which the first is a chunk. -/
def oneChunk : Heap :=
  {gcInit fourBlocks with table := Function.update (fun _ => .free) 0 .head}

/-- Nothing outside the pool. -/
def nothing : Outside := ⟨[],[],[],[],64,Nat.succ_pos _⟩

theorem oneChunk_chunk :
    Chunk oneChunk.pool.blocks oneChunk.table (oneChunk.pool.blockFromPtr 16) 1 := by
  have hblock : oneChunk.pool.blockFromPtr 16=0 := by decide
  rw [hblock]
  refine ⟨by decide,by decide,rfl,fun i hi hlt => by omega,fun _ => ?_⟩
  exact (by decide : oneChunk.table (0+1)≠.tail)

theorem oneChunk_wellFormed : WellFormed oneChunk := by
  have hblocks : oneChunk.pool.blocks=4 := by decide
  rw [wellFormed_iff,hblocks]
  have hkinds : ∀ b,b < 4 → oneChunk.table b≠.mark∧oneChunk.table b≠.tail := by decide
  refine ⟨fun b hb => (hkinds b hb).1,fun hpos => (hkinds 0 hpos).2,fun b hb htail => ?_⟩
  exact absurd htail (hkinds (b+1) hb).2

/-- It grows to 20 bytes where it is. -/
theorem oneChunk_grows : ∃ t out bytes',
    gcReallocBytes oneChunk (fun _ => 7) 16 20 true nothing=.ok (t,out,bytes')∧
      Resizes oneChunk (fun _ => 7) 16 1 20 nothing t out bytes' := by
  refine (gcRealloc_resizes_iff oneChunk_wellFormed (by decide) oneChunk_chunk (by decide)
    (fun _ => 7) true nothing).mpr fun _ => ?_
  rw [if_neg (by decide)]
  refine ⟨by decide,fun _ hplace => absurd (fun b hb hlt => ?_) hplace⟩
  have hsame : b=1 := by
    have hblock : oneChunk.pool.blockFromPtr 16=0 := by decide
    have hblocks : numBlocks 20=2 := by decide
    omega
  subst hsame
  exact (by decide)

/-- When 4294967295 bytes are requested the chunk is freed, and its pointer is returned. -/
theorem newBlocks_wrap : WellFormed oneChunk∧IsChunk oneChunk 16∧¬∃ t out bytes',
    gcReallocBytes oneChunk (fun _ => 7) 16 4294967295 true nothing=.ok (t,out,bytes')∧
      Resizes oneChunk (fun _ => 7) 16 1 4294967295 nothing t out bytes' := by
  refine ⟨oneChunk_wellFormed,by decide,?_⟩
  have hplace : InPlace oneChunk 16 1 (numBlocks 4294967295) := by
    intro b hb hlt
    have hblocks : numBlocks 4294967295=0 := by decide
    omega
  obtain ⟨t,bytes',hrealloc,hchanged,_⟩ := reallocBytes_inPlace
    (wellFormed_iff.mp oneChunk_wellFormed) oneChunk_chunk hplace (fun _ => 7) true nothing
  rw [gcReallocBytes_eq (by decide) rfl (by decide),hrealloc]
  rintro ⟨t',out,bytes'',hsame,hresizes⟩
  cases hsame
  exact not_resizes_wrapped (by decide) oneChunk_chunk (by decide) hchanged hresizes

end MicroPython.GcRealloc
