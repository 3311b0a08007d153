import MicroPython.GcAlloc
import MicroPython.GcReachable
import MicroPython.InputMachine

/-!
# What allocation does to the table

The table stays well formed and the other chunks stay as they are, exactly as long as no
chunk at the end of the pool is freed, moved or reached by a collection in an allocation,
and the free blocks at both ends of the pool are not taken for one run after such a
collection.
-/

namespace MicroPython.GcTable

open Nat Function GcHeap GcChunks GcReachable GcAlloc Marking InputMachine

/-! ## Well-formed tables -/

/-- The table is well formed. -/
structure WellFormed (s : Heap) : Prop where
  unmarked : ∀ b,b < s.pool.blocks → s.table b≠.mark
  /-- A block of a tail has a head before it in its chain. -/
  tails : ∀ b,b < s.pool.blocks → s.table b=.tail →
    ∃ block n,Chunk s.pool.blocks s.table block n∧block < b∧b < block+n
  disjoint : ∀ block n block' n' b,Chunk s.pool.blocks s.table block n →
    Chunk s.pool.blocks s.table block' n' → block≤b∧b < block+n →
      block'≤b∧b < block'+n' → block=block'∧n=n'
  inside : ∀ block n,Chunk s.pool.blocks s.table block n →
    s.pool.poolStart ≤ s.pool.ptrFromBlock block∧
      s.pool.ptrFromBlock block+n*bytesPerBlock ≤ s.pool.poolStart+s.pool.blocks*bytesPerBlock

variable {s t : Heap}

/-- A table is well formed when it is linked. -/
theorem wellFormed_iff : WellFormed s↔Linked s.pool.blocks s.table := by
  constructor
  · intro h
    refine ⟨h.unmarked,?_,?_⟩
    · intro hpos htail
      obtain ⟨block,n,_,hlt,_⟩ := h.tails 0 hpos htail
      exact absurd hlt (not_lt_zero _)
    · intro b hb htail hfree
      obtain ⟨block,n,hchunk,hlt,hlt'⟩ := h.tails (b+1) hb htail
      rw [hchunk.kind (le_of_lt_succ hlt) (by omega)] at hfree
      split at hfree <;> cases hfree
  · intro h
    refine ⟨h.unmarked,fun b hb htail => h.exists_owner hb htail,?_,?_⟩
    · intro block n block' n' b hchunk hchunk' hb hb'
      exact hchunk.eq_of_mem hchunk' hb hb'
    · intro block n hchunk
      have hinside := hchunk.inside
      simp only [Pool.ptrFromBlock,bytesPerBlock]
      omega

/-- Chunks stay, with their entries and their flags. -/
def Keeps (s t : Heap) (p : ℕ→Prop) : Prop :=
  ∀ block n,Chunk s.pool.blocks s.table block n → p block →
    Chunk t.pool.blocks t.table block n∧t.flags block=s.flags block

/-- A chunk of free blocks with a number of bytes is allocated. -/
def Allocated (s t : Heap) (nBytes ptr : ℕ) : Prop :=
  ∃ block n,ptr=s.pool.ptrFromBlock block∧Chunk t.pool.blocks t.table block n∧
    nBytes≤n*bytesPerBlock∧∀ b,block≤b → b < block+n → s.table b=.free

/-! ## Claims about a step -/

/-- A pointer that is given back is one to a chunk. -/
def Promised (s : Heap) : Op→Prop
  | .free ptr => ptr=0∨IsChunk s ptr
  | .realloc ptr nBytes _ _ _ _ => nBytes=0 → ptr=0∨IsChunk s ptr
  | _ => True

/-- What an operation does to the heap as it is after the collections in it. -/
def Effect (op : Op) (t : Heap) (out : Report) : Prop :=
  match op with
  | .alloc nBytes _ _ _ _ =>
    out.outside=false∧Keeps out.collected t (fun _ => True)∧
      (out.ptr≠0 → Allocated out.collected t nBytes out.ptr)
  | .free ptr => Keeps out.collected t fun block => ptr≠out.collected.pool.ptrFromBlock block
  | .realloc ptr _ _ _ _ _ =>
    out.outside=false∧Keeps out.collected t fun block => ptr≠out.collected.pool.ptrFromBlock block
  | _ => True

/-- An operation keeps the table well formed, has its effect on the chunks and reads and
writes the table only inside its bounds. -/
def Faithful (s : Heap) (op : Op) : Prop :=
  Promised s op → ∃ t out,step s op=.ok (t,out)∧WellFormed t∧Effect op t out

/-- The number of free blocks right before one, back to the one where a scan starts. -/
def freeBefore (table : ℕ→Kind) (start : ℕ) : ℕ→ℕ
  | 0 => 0
  | b+1 => if start≤b∧table b=.free then freeBefore table start b+1 else 0

/-- A scan from the hint on does not find a number of free blocks. -/
def NoRoom (s : Heap) (nBlocks : ℕ) : Prop :=
  ∀ b,b ≤ s.pool.blocks → freeBefore s.table (s.lastFreeAtbIndex*blocksPerAtb) b < nBlocks

/-- The free blocks at the end of a heap and those at the start of it after a collection
are a number of blocks together. -/
def Crosses (s t : Heap) (nBlocks : ℕ) : Prop :=
  let atEnd := freeBefore s.table (s.lastFreeAtbIndex*blocksPerAtb) s.pool.blocks
  0 < atEnd∧nBlocks-atEnd≤t.pool.blocks∧∀ b,b < nBlocks-atEnd → t.table b=.free

/-- An allocation of a number of blocks does not go wrong: what it collects does not
include a chunk that is reachable at the end of the pool, and the free blocks at both
ends are not taken for one run. -/
def AllocSound (s : Heap) (nBlocks : ℕ) (first retry : Memory) : Prop :=
  (s.autoCollectEnabled=true∧s.allocThreshold ≤ s.allocAmount → ¬EndReachable s first)∧
    ∀ s1 o1,thresholdCollect s first=.ok (s1,o1) → s1.autoCollectEnabled=true →
      NoRoom s1 nBlocks → ¬EndReachable s1 retry∧
        ∀ s2 o2,gcCollect s1 retry=.ok (s2,o2) → ¬Crosses s1 s2 nBlocks

/-- An allocation of a number of blocks finds them. -/
def Finds (s : Heap) (nBlocks : ℕ) (first retry : Memory) : Prop :=
  ∃ s1 o1,thresholdCollect s first=.ok (s1,o1)∧(¬NoRoom s1 nBlocks∨s1.autoCollectEnabled=true∧
      ∃ s2 o2,gcCollect s1 retry=.ok (s2,o2)∧¬NoRoom s2 nBlocks)

/-- The conditions for `gc_alloc`. -/
def SoundAlloc (s : Heap) (nBytes : ℕ) (first retry : Memory) : Prop :=
  s.lockDepth=0 → numBlocks nBytes≠0 → AllocSound s (numBlocks nBytes) first retry

/-- The conditions for `gc_free`: the chunk is not the one at the end of the pool. -/
def SoundFree (s : Heap) (ptr : ℕ) : Prop :=
  s.lockDepth=0 → ∀ n,Chunk s.pool.blocks s.table (s.pool.blockFromPtr ptr) n →
    s.pool.blockFromPtr ptr+n≠s.pool.blocks

/-- The conditions for a chunk that has to be moved. -/
def SoundMove (s : Heap) (ptr nBytes : ℕ) (first retry : Memory) : Prop :=
  s.lockDepth=0 → ∀ n,Chunk s.pool.blocks s.table (s.pool.blockFromPtr ptr) n →
    n < numBlocks nBytes →
    (¬∀ b,s.pool.blockFromPtr ptr+n≤b → b < s.pool.blockFromPtr ptr+numBlocks nBytes →
      b < s.pool.blocks∧s.table b=.free) →
    AllocSound s (numBlocks nBytes) (Memory.withRoot first ptr) (Memory.withRoot retry ptr)∧
      (Finds s (numBlocks nBytes) (Memory.withRoot first ptr) (Memory.withRoot retry ptr) →
        s.pool.blockFromPtr ptr+n≠s.pool.blocks)

/-- The conditions under which a step is faithful. -/
def Sound (s : Heap) (op : Op) : Prop :=
  Promised s op →
    match op with
    | .alloc nBytes _ _ first retry => SoundAlloc s nBytes first retry
    | .free ptr => ptr≠0 → SoundFree s ptr
    | .realloc ptr nBytes _ allowMove first retry =>
      if ptr=0 then SoundAlloc s nBytes first retry
      else if nBytes=0 then SoundFree s ptr
      else IsChunk s ptr → allowMove=true → SoundMove s ptr nBytes first retry
    | _ => True

/-! ## Scanning -/

variable {table : ℕ→Kind} {start nBlocks : ℕ}

/-- The free blocks before a block are free, from where the scan starts on. -/
theorem freeBefore_free (b : ℕ) : freeBefore table start b≤b∧
    ∀ j,b-freeBefore table start b≤j → j < b → start≤j∧table j=.free := by
  induction b with
  | zero => exact ⟨Nat.le_refl 0,fun j _ hj => absurd hj (not_lt_zero j)⟩
  | succ b ih =>
    rw [freeBefore]
    split
    case isFalse => exact ⟨zero_le _,fun j hj hlt => absurd hlt (Nat.not_lt.mpr hj)⟩
    case isTrue hfree =>
      refine ⟨succ_le_succ ih.1,fun j hj hlt => ?_⟩
      rcases Nat.lt_or_eq_of_le (Nat.le_of_lt_succ hlt) with hlt' | heq
      · exact ih.2 j (by omega) hlt'
      · exact heq ▸ hfree

theorem freeBefore_start {b : ℕ} (hb : b ≤ start) : freeBefore table start b=0 := by
  cases b with
  | zero => rfl
  | succ b =>
    rw [freeBefore,if_neg fun h => ?_]
    omega

theorem freeBefore_all (b : ℕ) (h : ∀ j,j < b → table j=.free) : freeBefore table 0 b=b := by
  induction b with
  | zero => rfl
  | succ b ih =>
    rw [freeBefore,if_pos ⟨zero_le b,h b (lt_succ_self b)⟩,ih fun j hj => h j (lt_succ_of_lt hj)]

/-- How a scan ends that counts the free blocks right. -/
def Scanned (table : ℕ→Kind) (blocks start nBlocks : ℕ) : Scan→Prop
  | .found i nFree => nFree=nBlocks∧i < blocks∧freeBefore table start (i+1)=nFree
  | .missing nFree => nFree=freeBefore table start blocks∧
      ∀ b,b≤blocks → freeBefore table start b < nBlocks

/-- A scan with the right number of free blocks to start with. -/
theorem scanTable_spec {blocks : ℕ} (n : ℕ) : ∀ {i : ℕ},i+n=blocks → start ≤ i →
    (∀ b,b ≤ i → freeBefore table start b < nBlocks) → Scanned table blocks start nBlocks
        (scanTable table nBlocks n i (freeBefore table start i)) := by
  induction n with
  | zero =>
    intro i hi _ hless
    rw [Nat.add_zero] at hi
    subst hi
    exact ⟨rfl,hless⟩
  | succ n ih =>
    intro i hi hstart hless
    have hnow := hless i (Nat.le_refl i)
    rw [scanTable]
    by_cases hfree : table i=.free
    case neg =>
      have hnext : freeBefore table start (i+1)=0 := by
        rw [freeBefore,if_neg fun h => hfree h.2]
      rw [if_neg hfree,←hnext]
      refine ih (by omega) (le_succ_of_le hstart) fun b hb => ?_
      rcases Nat.lt_or_eq_of_le hb with hlt | heq
      · exact hless b (le_of_lt_succ hlt)
      · rw [heq,hnext]
        exact Nat.lt_of_le_of_lt (zero_le _) hnow
    case pos =>
      have hnext : freeBefore table start (i+1)=freeBefore table start i+1 := by
        rw [freeBefore,if_pos ⟨hstart,hfree⟩]
      rw [if_pos hfree]
      split
      case isTrue henough => exact ⟨by omega,by omega,hnext⟩
      case isFalse hmore =>
        rw [←hnext]
        refine ih (by omega) (Nat.le_succ_of_le hstart) fun b hb => ?_
        rcases Nat.lt_or_eq_of_le hb with hlt | heq
        · exact hless b (Nat.le_of_lt_succ hlt)
        · rw [heq]
          omega

/-- A scan of the heap. -/
theorem scanHeap_spec (s : Heap) (hpos : 0 < nBlocks) :
    Scanned s.table s.pool.blocks (s.lastFreeAtbIndex*blocksPerAtb) nBlocks
      (scanHeap s nBlocks 0) := by
  rw [scanHeap]
  rcases Nat.le_total (s.lastFreeAtbIndex*blocksPerAtb) s.pool.blocks with hle | hle
  · have hscan := @scanTable_spec s.table (s.lastFreeAtbIndex*blocksPerAtb) nBlocks
      s.pool.blocks (s.pool.blocks-s.lastFreeAtbIndex*blocksPerAtb)
      (s.lastFreeAtbIndex*blocksPerAtb) (by omega) (Nat.le_refl _) (by
        intro b hb
        rw [freeBefore_start hb]
        exact hpos)
    rw [freeBefore_start (Nat.le_refl _)] at hscan
    exact hscan
  · rw [Nat.sub_eq_zero_of_le hle]
    refine ⟨(freeBefore_start hle).symm,fun b hb => ?_⟩
    rw [freeBefore_start (Nat.le_trans hb hle)]
    exact hpos

/-- A scan from the first block on that starts with another number of free blocks. -/
theorem scanTable_carry {blocks nFree : ℕ} (n : ℕ) : ∀ {i : ℕ},i+n=blocks →
    (∀ b,b < i → table b=.free) → nFree+i < nBlocks →
      (nBlocks-nFree≤blocks∧(∀ b,b < nBlocks-nFree → table b=.free)∧
        scanTable table nBlocks n i (nFree+i)=.found (nBlocks-nFree-1) nBlocks)∨
      (¬(nBlocks-nFree≤blocks∧∀ b,b < nBlocks-nFree → table b=.free)∧
        ((∃ k,scanTable table nBlocks n i (nFree+i)=.missing k∧
            ∀ b,b≤blocks → freeBefore table 0 b < nBlocks)∨
          Scanned table blocks 0 nBlocks (scanTable table nBlocks n i (nFree+i)))) := by
  induction n with
  | zero =>
    intro i hi hfree hless
    refine .inr ⟨fun hcross => by omega,.inl ⟨nFree+i,rfl,fun b hb => ?_⟩⟩
    have hle := (@freeBefore_free table 0 b).1
    omega
  | succ n ih =>
    intro i hi hbefore hless
    rw [scanTable]
    by_cases hfree : table i=.free
    case neg =>
      have hnext : freeBefore table 0 (i+1)=0 := by
        rw [freeBefore,if_neg fun h => hfree h.2]
      have hscan := @scanTable_spec table 0 nBlocks blocks n (i+1) (by omega) (Nat.zero_le _)
        fun b hb => by
          rcases Nat.lt_or_eq_of_le hb with hlt | heq
          · have hle := (@freeBefore_free table 0 b).1
            omega
          · rw [heq,hnext]
            omega
      rw [hnext] at hscan
      rw [if_neg hfree]
      exact .inr ⟨fun hcross => hfree (hcross.2 i (by omega)),.inr hscan⟩
    case pos =>
      have hall : ∀ b,b < i+1 → table b=.free := by
        intro b hb
        rcases Nat.lt_or_eq_of_le (Nat.le_of_lt_succ hb) with hlt | heq
        · exact hbefore b hlt
        · exact heq ▸ hfree
      rw [if_pos hfree]
      split
      case isTrue henough =>
        have hlength : nBlocks-nFree=i+1 := by omega
        have hcount : nFree+i+1=nBlocks := by omega
        refine .inl ⟨by omega,hlength ▸ hall,?_⟩
        rw [hlength,hcount]
        rfl
      case isFalse hmore => exact ih (by omega) hall (by omega)

/-! ## Collections in an allocation -/

/-- A heap after collections that have some roots in common. -/
structure Survives (roots : ℕ→Prop) (s t : Heap) : Prop where
  linked : Linked t.pool.blocks t.table
  /-- The pool stays where it is. -/
  pool : t.pool=s.pool
  lock : t.lockDepth=s.lockDepth
  /-- So is the switch. -/
  auto : t.autoCollectEnabled=s.autoCollectEnabled
  kept : ∀ block n,Chunk s.pool.blocks s.table block n → roots (s.pool.ptrFromBlock block) →
    Chunk t.pool.blocks t.table block n

variable {e first retry : Memory} {roots roots' : ℕ→Prop} {s1 : Heap}

/-- Nothing was collected. -/
theorem Survives.refl (h : Linked s.pool.blocks s.table) : Survives roots s s :=
  ⟨h,rfl,rfl,rfl,fun _ _ hchunk _ => hchunk⟩

/-- One collection comes after another. -/
theorem Survives.trans (h : Survives roots s s1) (h' : Survives roots' s1 t) :
    Survives (fun ptr => roots ptr∧roots' ptr) s t := by
  refine ⟨h'.linked,h'.pool.trans h.pool,h'.lock.trans h.lock,h'.auto.trans h.auto,?_⟩
  intro block n hchunk hroots
  have hpool : s1.pool.ptrFromBlock block=s.pool.ptrFromBlock block := by rw [h.pool]
  exact h'.kept block n (h.kept block n hchunk hroots.1) (hpool.symm ▸ hroots.2)

/-- A collection starts the search at the first block again. -/
theorem gcCollect_hint {outside : Bool} (h : gcCollect s e=.ok (t,outside)) :
    t.lastFreeAtbIndex=0 := by
  rw [gcCollect] at h
  split at h
  case h_1 => cases h
  case h_2 =>
    cases h
    rfl

theorem gcCollect_survives (h : Linked s.pool.blocks s.table) (e : Memory) :
    ∃ t outside,gcCollect s e=.ok (t,outside)∧Survives (·∈e.roots) s t∧
      (outside=true↔EndReachable s e) := by
  obtain ⟨t,outside,hcollect,hkeeps,houtside⟩ := gcCollect_spec h e
  refine ⟨t,outside,hcollect,?_,houtside.trans end_scanned_iff⟩
  refine ⟨hkeeps.linked h,hkeeps.pool,hkeeps.settings.1,hkeeps.settings.2.1,?_⟩
  intro block n hchunk hroot
  have hinside := hchunk.inside
  have hpos := hchunk.pos
  refine hkeeps.chunk h hchunk (.root ⟨s.pool.ptrFromBlock block,hroot,?_⟩)
  exact ⟨Pool.verifyPtr_ptrFromBlock (by omega),Pool.blockFromPtr_ptrFromBlock _ _,hchunk.head⟩

theorem thresholdCollect_survives (h : Linked s.pool.blocks s.table) (e : Memory) :
    ∃ t outside,thresholdCollect s e=.ok (t,outside)∧Survives (·∈e.roots) s t∧
      (outside=true↔(s.autoCollectEnabled=true∧s.allocThreshold ≤ s.allocAmount)∧
        EndReachable s e) := by
  by_cases hthreshold : s.autoCollectEnabled=true∧s.allocThreshold ≤ s.allocAmount
  case pos =>
    obtain ⟨t,outside,hcollect,hsurvives,houtside⟩ := gcCollect_survives h e
    refine ⟨t,outside,(if_pos hthreshold).trans hcollect,hsurvives,?_⟩
    rw [houtside,and_iff_right hthreshold]
  case neg =>
    refine ⟨s,false,if_neg hthreshold,.refl h,?_⟩
    exact iff_of_false Bool.noConfusion fun hboth => hthreshold hboth.1

/-- The conditions of an allocation, after the collection at the threshold. -/
theorem allocSound_iff {o1 : Bool} (h : thresholdCollect s first=.ok (s1,o1))
    (ho : o1=true↔(s.autoCollectEnabled=true∧s.allocThreshold ≤ s.allocAmount)∧
      EndReachable s first) (nBlocks : ℕ) :
    AllocSound s nBlocks first retry↔o1=false∧(s1.autoCollectEnabled=true →
      NoRoom s1 nBlocks → ¬EndReachable s1 retry∧
        ∀ s2 o2,gcCollect s1 retry=.ok (s2,o2) → ¬Crosses s1 s2 nBlocks) := by
  rw [AllocSound]
  refine and_congr ?_ ?_
  · rw [←Bool.not_eq_true,ho]
    exact ⟨fun hnot hboth => hnot hboth.1 hboth.2,fun hnot hthr hend => hnot ⟨hthr,hend⟩⟩
  · constructor
    · exact fun hall => hall s1 o1 h
    · intro hall s1' o1' h'
      rw [h] at h'
      cases h'
      exact hall

/-- Whether an allocation finds blocks, after the collection at the threshold. -/
theorem finds_iff {o1 : Bool} (h : thresholdCollect s first=.ok (s1,o1)) (nBlocks : ℕ) :
    Finds s nBlocks first retry↔¬NoRoom s1 nBlocks∨s1.autoCollectEnabled=true∧
      ∃ s2 o2,gcCollect s1 retry=.ok (s2,o2)∧¬NoRoom s2 nBlocks := by
  constructor
  · rintro ⟨s1',o1',h',hfinds⟩
    rw [h] at h'
    cases h'
    exact hfinds
  · exact fun hfinds => ⟨s1,o1,h,hfinds⟩

/-- What a search found: free blocks up to one. -/
structure FreeRun (s : Heap) (nBlocks i nFree : ℕ) : Prop where
  /-- It is as many as needed. -/
  count : nFree=nBlocks
  inside : i < s.pool.blocks
  /-- The first one is in the pool. -/
  enough : nBlocks ≤ i+1
  free : ∀ b,i+1-nBlocks≤b → b ≤ i → s.table b=.free

variable {i nFree : ℕ}

theorem freeRun_of_scanned (h : Scanned s.table s.pool.blocks start nBlocks (.found i nFree)) :
    FreeRun s nBlocks i nFree∧∃ b,b ≤ s.pool.blocks∧nBlocks≤freeBefore s.table start b := by
  obtain ⟨hcount,hinside,hbefore⟩ := h
  have hfree := @freeBefore_free s.table start (i+1)
  rw [hbefore,hcount] at hfree
  refine ⟨⟨hcount,hinside,hfree.1,fun b hb hle => ?_⟩,i+1,hinside,?_⟩
  · exact (hfree.2 b hb (lt_succ_of_le hle)).2
  · exact Nat.le_of_eq (hbefore.trans hcount).symm

/-- The scan after a collection starts with the free blocks at the end of the heap. -/
theorem secondScan_spec (hhint : t.lastFreeAtbIndex=0)
    (hcount : nFree=freeBefore s.table (s.lastFreeAtbIndex*blocksPerAtb) s.pool.blocks)
    (hless : nFree < nBlocks) :
    Crosses s t nBlocks∧(∃ i,scanHeap t nBlocks nFree=.found i nBlocks∧i+1 < nBlocks)∨
      ¬Crosses s t nBlocks∧
        ((∃ i k,scanHeap t nBlocks nFree=.found i k∧FreeRun t nBlocks i k∧¬NoRoom t nBlocks)∨
          ∃ k,scanHeap t nBlocks nFree=.missing k∧NoRoom t nBlocks) := by
  have hcarry := @scanTable_carry t.table nBlocks t.pool.blocks nFree t.pool.blocks 0
    (Nat.zero_add _) (fun b hb => absurd hb (not_lt_zero b)) hless
  have hscan : scanHeap t nBlocks nFree=scanTable t.table nBlocks t.pool.blocks 0 (nFree+0) := by
    rw [scanHeap,hhint]
    rfl
  have hroom : NoRoom t nBlocks↔
      ∀ b,b≤t.pool.blocks → freeBefore t.table 0 b < nBlocks := by
    rw [NoRoom,hhint]
    exact Iff.rfl
  have hcrosses : Crosses s t nBlocks↔0 < nFree∧nBlocks-nFree≤t.pool.blocks∧
      ∀ b,b < nBlocks-nFree → t.table b=.free := by
    rw [Crosses,←hcount]
  rw [hscan]
  rcases hcarry with ⟨hle,hfree,hfound⟩ | ⟨hnot,hrest⟩
  · rcases Nat.eq_zero_or_pos nFree with hzero | hpos
    · subst hzero
      refine .inr ⟨fun hc => absurd (hcrosses.mp hc).1 (Nat.lt_irrefl 0),.inl ?_⟩
      refine ⟨_,_,hfound,⟨rfl,by omega,by omega,fun b _ hb => hfree b (by omega)⟩,?_⟩
      intro hnone
      have hall := @freeBefore_all t.table nBlocks fun b hb => hfree b hb
      have hlt := hroom.mp hnone nBlocks hle
      omega
    · exact .inl ⟨hcrosses.mpr ⟨hpos,hle,hfree⟩,_,hfound,by omega⟩
  · refine .inr ⟨fun hc => hnot (hcrosses.mp hc).2,?_⟩
    rcases hrest with ⟨k,hmissing,hnone⟩ | hscanned
    · exact .inr ⟨k,hmissing,hroom.mpr hnone⟩
    · cases hresult : scanTable t.table nBlocks t.pool.blocks 0 (nFree+0) with
      | found i k =>
        rw [hresult] at hscanned
        obtain ⟨hrun,b,hb,henough⟩ := freeRun_of_scanned hscanned
        refine .inl ⟨i,k,rfl,hrun,fun hnone => ?_⟩
        exact absurd (hroom.mp hnone b hb) (Nat.not_lt.mpr henough)
      | missing k =>
        rw [hresult] at hscanned
        exact .inr ⟨k,rfl,hroom.mpr hscanned.2⟩

/-- How a search ends. -/
structure Searched (s : Heap) (nBlocks : ℕ) (first retry : Memory) (t : Heap)
    (outside : Bool) (found : Option (ℕ×ℕ)) : Prop where
  /-- The heap is as collections leave it. -/
  survives : Survives (fun ptr => ptr∈first.roots∧ptr∈retry.roots) s t
  /-- Under the conditions what is found is free. -/
  sound : AllocSound s nBlocks first retry → outside=false∧
    (found.isSome=true↔Finds s nBlocks first retry)∧
    ∀ i nFree,found=some (i,nFree) → FreeRun t nBlocks i nFree
  /-- Otherwise it was read behind the table, or the run starts before the pool. -/
  unsound : ¬AllocSound s nBlocks first retry →
    outside=true∨∃ i,found=some (i,nBlocks)∧i+1 < nBlocks

/-- The search of `gc_alloc`. -/
theorem search_spec (h : Linked s.pool.blocks s.table) (hpos : 0 < nBlocks)
    (first retry : Memory) : ∃ t outside found,search s nBlocks first retry=.ok (t,outside,found)∧
        Searched s nBlocks first retry t outside found := by
  obtain ⟨s1,o1,hthreshold,hsurvives1,ho1⟩ := thresholdCollect_survives h first
  have hsound := @allocSound_iff s first retry s1 o1 hthreshold ho1 nBlocks
  have hfinds := @finds_iff s first retry s1 o1 hthreshold nBlocks
  have hweak : Survives (fun ptr => ptr∈first.roots∧ptr∈retry.roots) s s1 :=
    ⟨hsurvives1.linked,hsurvives1.pool,hsurvives1.lock,hsurvives1.auto,
      fun block n hchunk hroots => hsurvives1.kept block n hchunk hroots.1⟩
  have hscan := scanHeap_spec s1 hpos
  rw [search,hthreshold]
  dsimp only
  cases hresult : scanHeap s1 nBlocks 0 with
  | found i nFree =>
    rw [hresult] at hscan
    obtain ⟨hrun,b,hb,hroom⟩ := freeRun_of_scanned hscan
    have hno : ¬NoRoom s1 nBlocks := fun hnone => absurd (hnone b hb) (Nat.not_lt.mpr hroom)
    refine ⟨s1,o1,some (i,nFree),rfl,hweak,fun hs => ⟨(hsound.mp hs).1,?_,?_⟩,fun hs => ?_⟩
    · exact iff_of_true rfl (hfinds.mpr (.inl hno))
    · intro i' nFree' hsome
      cases hsome
      exact hrun
    · rw [hsound] at hs
      refine .inl ((Bool.not_eq_false _).mp fun hfalse => hs ⟨hfalse,fun _ hnone => ?_⟩)
      exact absurd hnone hno
  | missing nFree =>
    rw [hresult] at hscan
    obtain ⟨hcount,hnone⟩ := hscan
    dsimp only
    by_cases hauto : s1.autoCollectEnabled=true
    case neg =>
      rw [if_neg hauto]
      refine ⟨s1,o1,none,rfl,hweak,fun hs => ⟨(hsound.mp hs).1,?_,fun _ _ hsome => ?_⟩,
        fun hs => ?_⟩
      · refine iff_of_false Bool.noConfusion fun hf => ?_
        rcases hfinds.mp hf with hroom | ⟨hon,_⟩
        · exact hroom hnone
        · exact hauto hon
      · cases hsome
      · rw [hsound] at hs
        refine .inl ((Bool.not_eq_false _).mp fun hfalse => hs ⟨hfalse,fun hon => ?_⟩)
        exact absurd hon hauto
    case pos =>
      obtain ⟨s2,o2,hcollect,hsurvives2,ho2⟩ := gcCollect_survives hsurvives1.linked retry
      have hhint := gcCollect_hint hcollect
      have hboth := hsurvives1.trans hsurvives2
      have hless : nFree < nBlocks := hcount ▸ hnone _ (Nat.le_refl _)
      have houtside : AllocSound s nBlocks first retry↔(o1||o2)=false∧¬Crosses s1 s2 nBlocks := by
        rw [hsound,Bool.or_eq_false_iff,and_assoc]
        refine and_congr_right fun _ => ?_
        constructor
        · intro hrest
          obtain ⟨hend,hcross⟩ := hrest hauto hnone
          exact ⟨(Bool.not_eq_true _).mp fun htrue => hend (ho2.mp htrue),hcross s2 o2 hcollect⟩
        · rintro ⟨hfalse,hcross⟩ _ _
          refine ⟨fun hend => ?_,fun s2' o2' hcollect' => ?_⟩
          · rw [ho2.mpr hend] at hfalse
            cases hfalse
          · rw [hcollect] at hcollect'
            cases hcollect'
            exact hcross
      have hfinds' : Finds s nBlocks first retry↔¬NoRoom s2 nBlocks := by
        rw [hfinds]
        constructor
        · rintro (hroom | ⟨_,s2',o2',hcollect',hroom⟩)
          · exact absurd hnone hroom
          · rw [hcollect] at hcollect'
            cases hcollect'
            exact hroom
        · exact fun hroom => .inr ⟨hauto,s2,o2,hcollect,hroom⟩
      rw [if_pos hauto,hcollect]
      dsimp only
      rcases secondScan_spec hhint hcount hless with ⟨hcross,i,hfound,hlt⟩ | ⟨hcross,hrest⟩
      · rw [hfound]
        refine ⟨s2,o1||o2,_,rfl,hboth,fun hs => ?_,fun _ => .inr ⟨i,rfl,hlt⟩⟩
        exact absurd hcross (houtside.mp hs).2
      · have hout : ¬AllocSound s nBlocks first retry → (o1||o2)=true := fun hs =>
          (Bool.not_eq_false _).mp fun hfalse => hs (houtside.mpr ⟨hfalse,hcross⟩)
        rcases hrest with ⟨i,k,hfound,hrun,hroom⟩ | ⟨k,hmissing,hnone2⟩
        · rw [hfound]
          refine ⟨s2,o1||o2,_,rfl,hboth,fun hs => ⟨(houtside.mp hs).1,?_,?_⟩,
            fun hs => .inl (hout hs)⟩
          · exact iff_of_true rfl (hfinds'.mpr hroom)
          · intro i' k' hsome
            cases hsome
            exact hrun
        · rw [hmissing]
          refine ⟨s2,o1||o2,none,rfl,hboth,fun hs => ⟨(houtside.mp hs).1,?_,?_⟩,
            fun hs => .inl (hout hs)⟩
          · exact iff_of_false Bool.noConfusion fun hf => hfinds'.mp hf hnone2
          · intro _ _ hsome
            cases hsome

/-! ## Allocating -/

/-- A loop changes the blocks from one on. -/
theorem changeBlocks_apply (f : Kind→Kind) (n : ℕ) : ∀ (lo : ℕ) (table : ℕ→Kind) (b : ℕ),
    changeBlocks f n lo table b=if lo≤b∧b < lo+n then f (table b) else table b := by
  induction n with
  | zero =>
    intro lo table b
    rw [changeBlocks,if_neg (by omega)]
  | succ n ih =>
    intro lo table b
    rw [changeBlocks,ih]
    by_cases hb : b=lo
    case pos =>
      subst hb
      rw [if_neg (by omega),if_pos (by omega),update_self]
    case neg =>
      rw [update_of_ne hb]
      by_cases hin : lo+1≤b∧b < lo+1+n
      case pos => rw [if_pos hin,if_pos (by omega)]
      case neg => rw [if_neg hin,if_neg (by omega)]

/-- Free blocks are taken. -/
theorem take_spec (h : FreeRun s nBlocks i nFree) (hpos : 0 < nBlocks) (hasFinaliser : Bool) :
    ∃ t,take s nBlocks i nFree hasFinaliser=.ok (t,s.pool.ptrFromBlock (i+1-nBlocks))∧
      t.pool=s.pool∧t.lockDepth=s.lockDepth∧
      t.table=resized s.table (i+1-nBlocks) 0 nBlocks∧
      ∀ b,b≠i+1-nBlocks → t.flags b=s.flags b := by
  obtain ⟨hcount,hinside,henough,hfree⟩ := h
  have hshort : s.pool.blocks < 2^26 := s.pool.short
  have hstart : (i+sizeT-nFree+1)%sizeT=i+1-nBlocks := by
    have hvalue : sizeT=2^32 := rfl
    rw [hcount,hvalue]
    omega
  have hstart_lt : i+1-nBlocks < s.pool.blocks := by omega
  rw [take]
  simp only [hstart,if_pos hstart_lt]
  refine ⟨_,rfl,rfl,rfl,?_,fun b hb => ?_⟩
  · funext b
    show changeBlocks _ _ _ _ b=_
    rw [changeBlocks_apply,resized]
    by_cases hb : b=i+1-nBlocks
    case pos =>
      have hkind := hfree b (by omega) (by omega)
      rw [if_neg (by omega),if_pos (by omega),if_pos hb,hb,update_self,←hb,hkind]
      rfl
    case neg =>
      rw [update_of_ne hb]
      by_cases hin : i+1-nBlocks≤b∧b < i+1-nBlocks+nBlocks
      case pos =>
        have hkind := hfree b (by omega) (by omega)
        rw [if_pos (by omega),if_pos hin,if_neg hb,hkind]
        rfl
      case neg => rw [if_neg (by omega),if_neg hin,if_neg (by omega)]
  · split
    · exact update_of_ne hb _ _
    · rfl

/-- A run that starts before the pool is written far outside the table. -/
theorem take_wild (h : i+1 < nBlocks) (hshort : nBlocks < 2^28)
    (hasFinaliser : Bool) : take s nBlocks i nBlocks hasFinaliser=.error .table := by
  have hpool : s.pool.blocks < 2^26 := s.pool.short
  have hvalue : sizeT=2^32 := rfl
  have hwild : ¬(i+sizeT-nBlocks+1)%sizeT < s.pool.blocks := by
    rw [hvalue]
    omega
  rw [take]
  simp only [if_neg hwild]

theorem numBlocks_spec {nBytes : ℕ} (hshort : nBytes < sizeT) (hpos : numBlocks nBytes≠0) :
    nBytes≤numBlocks nBytes*bytesPerBlock∧numBlocks nBytes < 2^28 := by
  have hvalue : sizeT=2^32 := rfl
  rw [hvalue] at hshort
  simp only [numBlocks,bytesPerBlock,hvalue] at *
  omega

theorem FreeRun.resizable (h : FreeRun s nBlocks i nFree) (hlinked : Linked s.pool.blocks s.table) :
    Resizable s.pool.blocks s.table (i+1-nBlocks) 0 nBlocks := by
  obtain ⟨_,hinside,henough,hfree⟩ := h
  refine ⟨hlinked,fun hpos => absurd hpos (Nat.lt_irrefl 0),fun b hb hlt => ?_⟩
  exact ⟨by omega,hfree b (by omega) (by omega)⟩

/-- An allocation that goes right. -/
structure AllocOk (s : Heap) (nBytes nBlocks : ℕ) (first retry : Memory) (t : Heap)
    (out : Report) : Prop where
  /-- Nothing was read behind the table. -/
  outside : out.outside=false
  /-- The collections left the heap as they do. -/
  survives : Survives (fun ptr => ptr∈first.roots∧ptr∈retry.roots) s out.collected
  linked : Linked t.pool.blocks t.table
  /-- The pool stays where it is. -/
  pool : t.pool=s.pool
  lock : t.lockDepth=s.lockDepth
  /-- The chunks stay. -/
  keeps : Keeps out.collected t fun _ => True
  /-- A chunk is allocated unless null is returned. -/
  allocated : out.ptr≠0 → Allocated out.collected t nBytes out.ptr
  found : out.ptr≠0↔Finds s nBlocks first retry

/-- Chunks stay when nothing changes. -/
theorem Keeps.refl (s : Heap) (p : ℕ→Prop) : Keeps s s p :=
  fun _ _ hchunk _ => ⟨hchunk,rfl⟩

theorem gcAlloc_search {nBytes : ℕ} (hblocks : numBlocks nBytes=nBlocks) (hpos : nBlocks≠0)
    (hlock : s.lockDepth=0) {result : Heap×Bool×Option (ℕ×ℕ)}
    (hsearch : search s nBlocks first retry=.ok result) (hasFinaliser : Bool) :
    gcAlloc s nBytes hasFinaliser first retry=allocFound nBlocks hasFinaliser result := by
  have hunlocked : ¬0 < s.lockDepth := by
    rw [hlock]
    exact (by decide)
  rw [gcAlloc,hblocks,if_neg hpos,if_neg hunlocked,hsearch]

/-- Under the conditions an allocation goes right. -/
theorem gcAlloc_ok (h : Linked s.pool.blocks s.table) {nBytes : ℕ} (hshort : nBytes < sizeT)
    (hblocks : numBlocks nBytes=nBlocks) (hpos : nBlocks≠0) (hlock : s.lockDepth=0)
    (hs : AllocSound s nBlocks first retry) (hasFinaliser : Bool) :
    ∃ t out,gcAlloc s nBytes hasFinaliser first retry=.ok (t,out)∧
      AllocOk s nBytes nBlocks first retry t out := by
  obtain ⟨s',outside,found,hsearch,hsearched⟩ :=
    search_spec h (Nat.pos_of_ne_zero hpos) first retry
  obtain ⟨houtside,hfinds,hrun⟩ := hsearched.sound hs
  have hsurvives := hsearched.survives
  have hspec := numBlocks_spec hshort (by rw [hblocks]; exact hpos)
  rw [hblocks] at hspec
  clear hshort
  rw [gcAlloc_search hblocks hpos hlock hsearch]
  cases found with
  | none =>
    refine ⟨s',⟨0,s',outside⟩,rfl,houtside,hsurvives,hsurvives.linked,hsurvives.pool,
      hsurvives.lock,.refl s' _,fun hne => absurd rfl hne,?_⟩
    exact iff_of_false (fun hne => hne rfl) fun hf => Bool.noConfusion (hfinds.mpr hf)
  | some p =>
    obtain ⟨i,nFree⟩ := p
    have hfree := hrun i nFree rfl
    obtain ⟨t,htake,hpool,htlock,htable,hflags⟩ :=
      take_spec hfree (Nat.pos_of_ne_zero hpos) hasFinaliser
    have hresizable := hfree.resizable hsurvives.linked
    rw [allocFound,htake,report]
    have hptr : s'.pool.ptrFromBlock (i+1-nBlocks)≠0 := by
      have hstart := s'.pool.start_pos
      rw [Pool.ptrFromBlock]
      omega
    refine ⟨t,_,rfl,houtside,hsurvives,?_,hpool.trans hsurvives.pool,
      htlock.trans hsurvives.lock,?_,fun _ => ?_,iff_of_true hptr (hfinds.mp rfl)⟩
    · rw [hpool,htable]
      exact hresizable.linked_resized
    · intro block n hchunk _
      refine ⟨?_,hflags block fun hsame => ?_⟩
      · rw [hpool,htable]
        exact hresizable.keeps hchunk (.inr rfl)
      · have hkind := hfree.free block (by omega) (by
          have henough := hfree.enough
          omega)
        rw [hchunk.head] at hkind
        cases hkind
    · refine ⟨i+1-nBlocks,nBlocks,rfl,?_,hspec.1,fun b hb hlt => ?_⟩
      · rw [hpool,htable]
        exact hresizable.chunk_resized (Nat.pos_of_ne_zero hpos)
      · have henough := hfree.enough
        exact hfree.free b hb (by omega)

/-- Otherwise it reads or writes outside the table. -/
theorem gcAlloc_bad (h : Linked s.pool.blocks s.table) {nBytes : ℕ} (hshort : nBytes < sizeT)
    (hblocks : numBlocks nBytes=nBlocks) (hpos : nBlocks≠0) (hlock : s.lockDepth=0)
    (hs : ¬AllocSound s nBlocks first retry) (hasFinaliser : Bool) :
    ∀ t out,gcAlloc s nBytes hasFinaliser first retry=.ok (t,out) → out.outside=true := by
  obtain ⟨s',outside,found,hsearch,hsearched⟩ :=
    search_spec h (Nat.pos_of_ne_zero hpos) first retry
  have hspec := numBlocks_spec hshort (by rw [hblocks]; exact hpos)
  rw [hblocks] at hspec
  clear hshort
  intro t out halloc
  rw [gcAlloc_search hblocks hpos hlock hsearch] at halloc
  clear hblocks
  rcases hsearched.unsound hs with htrue | ⟨i,hfound,hlt⟩
  · cases found with
    | none =>
      cases halloc
      exact htrue
    | some p =>
      obtain ⟨i,nFree⟩ := p
      cases htake : take s' nBlocks i nFree hasFinaliser with
      | error fault =>
        rw [allocFound,htake,report] at halloc
        cases halloc
      | ok taken =>
        rw [allocFound,htake,report] at halloc
        cases halloc
        exact htrue
  · rw [hfound,allocFound,take_wild hlt hspec.2,report] at halloc
    cases halloc

/-- Without blocks to allocate, or when the heap is locked, nothing is done. -/
theorem gcAlloc_none {nBytes : ℕ} (h : numBlocks nBytes=0∨s.lockDepth≠0)
    (hasFinaliser : Bool) : gcAlloc s nBytes hasFinaliser first retry=done s s 0 := by
  rw [gcAlloc]
  split
  case isTrue => rfl
  case isFalse hpos =>
    refine if_pos ?_
    have hne := h.resolve_left hpos
    exact UInt16.pos_iff_ne_zero.mpr hne

/-! ## Freeing -/

variable {blocks block n : ℕ}

/-- A chunk gets no blocks. -/
theorem resized_zero (table : ℕ→Kind) (block n b : ℕ) :
    resized table block n 0 b=if block≤b∧b < block+n then .free else table b := by
  rw [resized,if_neg (by omega)]

/-- A chunk that ends before the pool does is freed. -/
theorem freeChain_ok (n : ℕ) : ∀ {fuel block : ℕ} {table : ℕ→Kind},n < fuel →
    block+(n+1) < blocks → (∀ i,0 < i → i < n+1 → table (block+i)=.tail) →
    table (block+(n+1))≠.tail →
      freeChain blocks fuel block table=.ok (resized table block (n+1) 0) := by
  induction n with
  | zero =>
    intro fuel block table hfuel hinside _ hend
    obtain ⟨fuel,rfl⟩ : ∃ k,fuel=k+1 := ⟨fuel-1,by omega⟩
    have hread : readKind blocks (Function.update table block .free) (block+1)=
        .ok (table (block+1)) := by
      rw [readKind,if_pos hinside,update_of_ne (by omega)]
    have htable : Function.update table block .free=resized table block 1 0 := by
      funext b
      rw [resized_zero]
      by_cases hb : b=block
      · rw [if_pos (by omega),hb,update_self]
      · rw [if_neg (by omega),update_of_ne hb]
    rw [freeChain]
    simp only [hread]
    cases hkind : table (block+1) with
    | tail => exact absurd hkind hend
    | free => exact congrArg Except.ok htable
    | head => exact congrArg Except.ok htable
    | mark => exact congrArg Except.ok htable
  | succ n ih =>
    intro fuel block table hfuel hinside htail hend
    obtain ⟨fuel,rfl⟩ : ∃ k,fuel=k+1 := ⟨fuel-1,by omega⟩
    have hread : readKind blocks (Function.update table block .free) (block+1)=.ok .tail := by
      rw [readKind,if_pos (by omega),update_of_ne (by omega)]
      exact congrArg Except.ok (htail 1 Nat.one_pos (by omega))
    have hshift : ∀ i,block+1+i=block+(i+1) := fun i => by omega
    have hrest := @ih fuel (block+1) (Function.update table block .free) (by omega) (by omega)
      (fun i hi hlt => by
        rw [hshift,update_of_ne (by omega)]
        exact htail (i+1) (succ_pos i) (by omega))
      (by
        rw [hshift,update_of_ne (by omega)]
        exact hend)
    rw [freeChain]
    simp only [hread]
    rw [hrest]
    refine congrArg Except.ok (funext fun b => ?_)
    rw [resized_zero,resized_zero]
    by_cases hb : b=block
    · rw [if_neg (by omega),if_pos (by omega),hb,update_self]
    · rw [update_of_ne hb]
      by_cases hin : block+1≤b∧b < block+1+(n+1)
      · rw [if_pos hin,if_pos (by omega)]
      · rw [if_neg hin,if_neg (by omega)]

/-- Freeing the chunk at the end of the pool reads behind the table. -/
theorem freeChain_end (n : ℕ) : ∀ {fuel block : ℕ} {table : ℕ→Kind},
    block+(n+1)=blocks → (∀ i,0 < i → i < n+1 → table (block+i)=.tail) →
      freeChain blocks fuel block table=.error .table := by
  induction n with
  | zero =>
    intro fuel block table hend _
    cases fuel with
    | zero => rfl
    | succ fuel =>
      have hread : readKind blocks (Function.update table block .free) (block+1)=
          .error .table := if_neg (by omega)
      rw [freeChain]
      simp only [hread]
  | succ n ih =>
    intro fuel block table hend htail
    cases fuel with
    | zero => rfl
    | succ fuel =>
      have hread : readKind blocks (Function.update table block .free) (block+1)= .ok .tail := by
        rw [readKind,if_pos (by omega),Function.update_of_ne (by omega)]
        exact congrArg Except.ok (htail 1 Nat.one_pos (by omega))
      rw [freeChain]
      simp only [hread]
      refine ih (by omega) fun i hi hlt => ?_
      rw [update_of_ne (by omega),Nat.add_assoc,Nat.add_comm 1 i]
      exact htail (i+1) (succ_pos i) (by omega)

/-- A heap in which the chunk of a pointer was given another number of blocks. -/
structure Changed (s t : Heap) (block n n' : ℕ) : Prop where
  /-- The pool stays where it is. -/
  pool : t.pool=s.pool
  lock : t.lockDepth=s.lockDepth
  table : t.table=resized s.table block n n'
  /-- The other flags stay. -/
  flags : ∀ b,b≠block → t.flags b=s.flags b

variable {n' : ℕ}

theorem Changed.linked (h : Changed s t block n n')
    (hr : Resizable s.pool.blocks s.table block n n') : Linked t.pool.blocks t.table := by
  rw [h.pool,h.table]
  exact hr.linked_resized

theorem Changed.keeps (h : Changed s t block n n')
    (hr : Resizable s.pool.blocks s.table block n n') : Keeps s t (block≠·) := by
  intro c m hchunk hother
  rw [h.pool,h.table]
  exact ⟨hr.keeps hchunk (.inl (Ne.symm hother)),h.flags c (Ne.symm hother)⟩

theorem resizable_shrink (h : Linked s.pool.blocks s.table)
    (hchunk : Chunk s.pool.blocks s.table block n) (hle : n'≤n) :
    Resizable s.pool.blocks s.table block n n' :=
  ⟨h,fun _ => hchunk,fun b hb hlt => by omega⟩

/-- A chunk that does not end with the pool is freed. -/
theorem gcFree_ok {ptr : ℕ} (hptr : ptr≠0) (hlock : s.lockDepth=0) (his : IsChunk s ptr)
    (hchunk : Chunk s.pool.blocks s.table (s.pool.blockFromPtr ptr) n)
    (hend : s.pool.blockFromPtr ptr+n≠s.pool.blocks) :
    ∃ t,gcFree s ptr=.ok t∧Changed s t (s.pool.blockFromPtr ptr) n 0 := by
  have hinside := hchunk.inside
  obtain ⟨k,rfl⟩ : ∃ k,n=k+1 := ⟨n-1,by have hpos := hchunk.pos; omega⟩
  have hfree := @freeChain_ok s.pool.blocks k
    (s.pool.blocks-s.pool.blockFromPtr ptr) (s.pool.blockFromPtr ptr) s.table (by omega)
    (by omega) hchunk.tail (hchunk.ends (by omega))
  have hunlocked : ¬0 < s.lockDepth := by
    rw [hlock]
    exact (by decide)
  refine ⟨{s with
    table := resized s.table (s.pool.blockFromPtr ptr) (k+1) 0
    flags := Function.update s.flags (s.pool.blockFromPtr ptr) false
    lastFreeAtbIndex := Heap.lowerHint s (s.pool.blockFromPtr ptr)},?_,rfl,rfl,rfl,
    fun b hb => update_of_ne hb _ _⟩
  rw [gcFree,if_neg hunlocked,if_neg hptr,if_pos his]
  simp only [hfree]

theorem gcFree_end {ptr : ℕ} (hptr : ptr≠0) (hlock : s.lockDepth=0) (his : IsChunk s ptr)
    (hchunk : Chunk s.pool.blocks s.table (s.pool.blockFromPtr ptr) n)
    (hend : s.pool.blockFromPtr ptr+n=s.pool.blocks) : gcFree s ptr=.error .table := by
  obtain ⟨k,rfl⟩ : ∃ k,n=k+1 := ⟨n-1,by have hpos := hchunk.pos; omega⟩
  have hfree := @freeChain_end s.pool.blocks k
    (s.pool.blocks-s.pool.blockFromPtr ptr) (s.pool.blockFromPtr ptr) s.table hend hchunk.tail
  have hunlocked : ¬0 < s.lockDepth := by
    rw [hlock]
    exact (by decide)
  rw [gcFree,if_neg hunlocked,if_neg hptr,if_pos his]
  simp only [hfree]

theorem gcFree_none {ptr : ℕ} (h : ptr=0∨s.lockDepth≠0) : gcFree s ptr=.ok s := by
  rw [gcFree]
  split
  case isTrue => rfl
  case isFalse hunlocked =>
    refine if_pos (h.resolve_right fun hlocked => hunlocked ?_)
    exact UInt16.pos_iff_ne_zero.mpr hlocked

/-! ## Reallocating -/

/-- The blocks of a chunk are counted. -/
theorem countBlocks_tail (newBlocks k : ℕ) : ∀ {rest bl nBlocks : ℕ},
    (∀ i,i < k → table (bl+i)=.tail) → countBlocks table newBlocks (k+rest) bl nBlocks 0=
        countBlocks table newBlocks rest (bl+k) (nBlocks+k) 0 := by
  induction k with
  | zero =>
    intro rest bl nBlocks _
    rw [Nat.zero_add]
    rfl
  | succ k ih =>
    intro rest bl nBlocks htail
    have hsum : k+1+rest=k+rest+1 := by omega
    have hfirst : table bl=.tail := htail 0 (succ_pos k)
    rw [hsum,countBlocks]
    simp only [hfirst]
    rw [ih fun i hi => by
      rw [Nat.add_assoc,Nat.add_comm 1 i]
      exact htail (i+1) (succ_lt_succ hi)]
    rw [Nat.add_assoc bl,Nat.add_comm 1 k,Nat.add_assoc nBlocks,Nat.add_comm 1 k]

/-- The free blocks behind a chunk are counted, until they are enough. -/
theorem countBlocks_free (h : Linked blocks table) {newBlocks m : ℕ} (n : ℕ) : ∀ {f : ℕ},
    block+m+f+n=blocks → (∀ i,i < f → table (block+m+i)=.free) →
    (block+m+f < blocks → table (block+m+f)≠.tail) →
      ∃ nFree,countBlocks table newBlocks n (block+m+f) m f=(m,nFree)∧
        (∀ i,i < nFree → block+m+i < blocks∧table (block+m+i)=.free)∧
        (newBlocks ≤ m+nFree∨¬(block+m+nFree < blocks∧table (block+m+nFree)=.free)) := by
  induction n with
  | zero =>
    intro f hblocks hfree _
    refine ⟨f,rfl,fun i hi => ⟨by omega,hfree i hi⟩,.inr fun hnext => ?_⟩
    omega
  | succ n ih =>
    intro f hblocks hfree hend
    have hnext := hend (by omega)
    have hall : ∀ i,i < f → block+m+i < blocks∧table (block+m+i)=.free :=
      fun i hi => ⟨by omega,hfree i hi⟩
    rw [countBlocks]
    cases hkind : table (block+m+f) with
    | tail => exact absurd hkind hnext
    | head =>
      refine ⟨f,rfl,hall,.inr fun hboth => ?_⟩
      rw [hkind] at hboth
      cases hboth.2
    | mark =>
      refine ⟨f,rfl,hall,.inr fun hboth => ?_⟩
      rw [hkind] at hboth
      cases hboth.2
    | free =>
      have hall' : ∀ i,i < f+1 → table (block+m+i)=.free := by
        intro i hi
        rcases Nat.lt_or_eq_of_le (Nat.le_of_lt_succ hi) with hlt | heq
        · exact hfree i hlt
        · exact heq ▸ hkind
      dsimp only
      split
      case isTrue henough =>
        exact ⟨f+1,rfl,fun i hi => ⟨by omega,hall' i hi⟩,.inl henough⟩
      case isFalse =>
        have hsucc : block+m+f+1=block+m+(f+1) := by omega
        rw [hsucc]
        refine ih (by omega) hall' fun hlt htail => ?_
        exact h.follows (block+m+f) (by omega) (hsucc ▸ htail) hkind

/-- The count of a chunk: its blocks, and the free ones behind it when they are enough. -/
theorem countBlocks_spec (h : Linked blocks table) (hchunk : Chunk blocks table block n)
    (newBlocks : ℕ) : ∃ nFree,
      countBlocks table newBlocks (blocks-(block+1)) (block+1) 1 0=(n,nFree)∧
        (newBlocks≤n+nFree↔∀ b,block+n≤b → b < block+newBlocks → b < blocks∧table b=.free) := by
  have hpos := hchunk.pos
  have hinside := hchunk.inside
  have htail := @countBlocks_tail table newBlocks (n-1) (blocks-(block+n)) (block+1) 1
    fun i hi => by
      rw [Nat.add_assoc,Nat.add_comm 1 i]
      exact hchunk.tail (i+1) (Nat.succ_pos i) (by omega)
  have hsum : n-1+(blocks-(block+n))=blocks-(block+1) := by omega
  have hend : block+1+(n-1)=block+n+0 := by omega
  have hlength : 1+(n-1)=n := by omega
  rw [hsum,hend,hlength] at htail
  obtain ⟨nFree,hcount,hfree,hstop⟩ := @countBlocks_free table blocks block h newBlocks n
    (blocks-(block+n)) 0 (by omega) (fun i hi => absurd hi (not_lt_zero i)) hchunk.ends
  refine ⟨nFree,htail.trans hcount,?_⟩
  constructor
  · intro henough b hb hlt
    have hnow := hfree (b-(block+n)) (by omega)
    rw [Nat.add_sub_cancel' hb] at hnow
    exact hnow
  · intro hroom
    rcases hstop with henough | hnot
    · exact henough
    · by_contra hmore
      exact hnot (hroom (block+n+nFree) (by omega) (by omega))

/-- A chunk grows into free blocks. -/
theorem growTail_ok (k : ℕ) : ∀ {bl : ℕ} {table : ℕ→Kind},
    (∀ b,bl≤b → b < bl+k → b < blocks∧table b=.free) → growTail blocks k bl table=
        .ok (fun b => if bl≤b∧b < bl+k then .tail else table b) := by
  induction k with
  | zero =>
    intro bl table _
    refine congrArg Except.ok (funext fun b => ?_)
    rw [if_neg (by omega)]
  | succ k ih =>
    intro bl table hfree
    obtain ⟨hinside,hkind⟩ := hfree bl (Nat.le_refl bl) (by omega)
    have hread : readKind blocks table bl=.ok .free := by
      rw [readKind,if_pos hinside,hkind]
    have hrest := @ih (bl+1) (Function.update table bl .tail) fun b hb hlt => by
      rw [update_of_ne (by omega)]
      exact hfree b (by omega) (by omega)
    rw [growTail]
    simp only [hread,hkind]
    refine hrest.trans (congrArg Except.ok (funext fun b => ?_))
    by_cases hb : b=bl
    · rw [if_neg (by omega),if_pos (by omega),hb,update_self]
    · rw [update_of_ne hb]
      by_cases hin : bl+1≤b∧b < bl+1+k
      · rw [if_pos hin,if_pos (by omega)]
      · rw [if_neg hin,if_neg (by omega)]

variable {ptr nBytes : ℕ} {allowMove : Bool}

theorem ptrFromBlock_blockFromPtr (h : s.pool.VerifyPtr ptr) :
    s.pool.ptrFromBlock (s.pool.blockFromPtr ptr)=ptr := by
  obtain ⟨haligned,hstart,_⟩ := h
  have hpool := s.pool.aligned
  simp only [Pool.ptrFromBlock,Pool.blockFromPtr,bytesPerBlock] at *
  omega

/-- Fewer chunks stay, too. -/
theorem Keeps.imp {p q : ℕ→Prop} (h : Keeps s t p) (hpq : ∀ b,q b → p b) : Keeps s t q :=
  fun block n hchunk hq => h block n hchunk (hpq block hq)

section

variable (h : Linked s.pool.blocks s.table)
  (hchunk : Chunk s.pool.blocks s.table (s.pool.blockFromPtr ptr) n)
  (hblocks : numBlocks nBytes=nBlocks)
include h hchunk hblocks

/-- What is reallocated when the count is known. -/
theorem reallocChunk_eq (allowMove : Bool) (first retry : Memory) :
    ∃ nFree,(nBlocks≤n+nFree↔∀ b,s.pool.blockFromPtr ptr+n≤b →
        b < s.pool.blockFromPtr ptr+nBlocks → b < s.pool.blocks∧s.table b=.free)∧
      reallocChunk s ptr nBytes allowMove first retry=
        if nBlocks=n then done s s ptr
        else if nBlocks < n then
          done s {s with
            table := changeBlocks (fun _ => .free) (n-nBlocks)
              (s.pool.blockFromPtr ptr+nBlocks) s.table
            lastFreeAtbIndex := Heap.lowerHint s (s.pool.blockFromPtr ptr+nBlocks)} ptr
        else if nBlocks≤n+nFree then growChunk s ptr nBlocks n
        else if allowMove=true then moveChunk s ptr nBytes first retry
        else done s s 0 := by
  obtain ⟨nFree,hcount,hroom⟩ := countBlocks_spec h hchunk nBlocks
  refine ⟨nFree,hroom,?_⟩
  rw [reallocChunk,hblocks]
  simp only [hcount]

/-- A chunk that keeps its place gets its new number of blocks. -/
theorem reallocChunk_inPlace
    (hplace : ∀ b,s.pool.blockFromPtr ptr+n≤b → b < s.pool.blockFromPtr ptr+nBlocks →
      b < s.pool.blocks∧s.table b=.free) (allowMove : Bool) (first retry : Memory) :
    ∃ t,reallocChunk s ptr nBytes allowMove first retry=.ok (t,⟨ptr,s,false⟩)∧
      Changed s t (s.pool.blockFromPtr ptr) n nBlocks := by
  obtain ⟨nFree,hroom,hrealloc⟩ := reallocChunk_eq h hchunk hblocks allowMove first retry
  rw [hrealloc]
  clear hrealloc hblocks
  rcases Nat.lt_trichotomy nBlocks n with hless | heq | hmore
  · rw [if_neg (Nat.ne_of_lt hless),if_pos hless]
    refine ⟨_,rfl,rfl,rfl,funext fun b => ?_,fun _ _ => rfl⟩
    dsimp only
    rw [changeBlocks_apply,resized]
    by_cases hnew : s.pool.blockFromPtr ptr≤b∧b < s.pool.blockFromPtr ptr+nBlocks
    · rw [if_neg (by omega),if_pos hnew]
      exact hchunk.kind hnew.1 (by omega)
    · by_cases hold : s.pool.blockFromPtr ptr≤b∧b < s.pool.blockFromPtr ptr+n
      · rw [if_pos (by omega),if_neg hnew,if_pos hold]
      · rw [if_neg (by omega),if_neg hnew,if_neg hold]
  · rw [if_pos heq]
    refine ⟨s,rfl,rfl,rfl,funext fun b => ?_,fun _ _ => rfl⟩
    rw [resized,heq]
    by_cases hnew : s.pool.blockFromPtr ptr≤b∧b < s.pool.blockFromPtr ptr+n
    · rw [if_pos hnew]
      exact hchunk.kind hnew.1 hnew.2
    · rw [if_neg hnew,if_neg hnew]
  · have hsum : s.pool.blockFromPtr ptr+n+(nBlocks-n)=s.pool.blockFromPtr ptr+nBlocks := by
      omega
    have hgrow := @growTail_ok s.pool.blocks (nBlocks-n) (s.pool.blockFromPtr ptr+n) s.table
      fun b hb hlt => hplace b hb (by omega)
    rw [if_neg (Nat.ne_of_gt hmore),if_neg (by omega),if_pos (hroom.mpr hplace),growChunk]
    simp only [hgrow,hsum]
    refine ⟨_,rfl,rfl,rfl,funext fun b => ?_,fun _ _ => rfl⟩
    dsimp only
    rw [resized]
    by_cases hnew : s.pool.blockFromPtr ptr≤b∧b < s.pool.blockFromPtr ptr+nBlocks
    · rw [if_pos hnew]
      by_cases hold : b < s.pool.blockFromPtr ptr+n
      · rw [if_neg (by omega)]
        exact hchunk.kind hnew.1 hold
      · have hpos := hchunk.pos
        rw [if_pos (by omega),if_neg (by omega)]
    · rw [if_neg (by omega),if_neg hnew,if_neg (by omega)]

theorem reallocChunk_moves (hmore : n < nBlocks)
    (hplace : ¬∀ b,s.pool.blockFromPtr ptr+n≤b → b < s.pool.blockFromPtr ptr+nBlocks →
      b < s.pool.blocks∧s.table b=.free) (allowMove : Bool) (first retry : Memory) :
    reallocChunk s ptr nBytes allowMove first retry=
      if allowMove=true then moveChunk s ptr nBytes first retry else done s s 0 := by
  obtain ⟨nFree,hroom,hrealloc⟩ := reallocChunk_eq h hchunk hblocks allowMove first retry
  rw [hrealloc,if_neg (Nat.ne_of_gt hmore),if_neg (by omega),
    if_neg fun henough => hplace (hroom.mp henough)]

end

/-- The chunk that is moved stays while another is allocated. -/
theorem AllocOk.still {out : Report}
    (hok : AllocOk s nBytes nBlocks (Memory.withRoot first ptr) (Memory.withRoot retry ptr)
      t out) (his : IsChunk s ptr)
    (hchunk : Chunk s.pool.blocks s.table (s.pool.blockFromPtr ptr) n) :
    t.pool.blockFromPtr ptr=s.pool.blockFromPtr ptr∧IsChunk t ptr∧
      Chunk t.pool.blocks t.table (t.pool.blockFromPtr ptr) n := by
  have hroots : s.pool.ptrFromBlock (s.pool.blockFromPtr ptr)∈(Memory.withRoot first ptr).roots∧
      s.pool.ptrFromBlock (s.pool.blockFromPtr ptr)∈(Memory.withRoot retry ptr).roots := by
    rw [ptrFromBlock_blockFromPtr his.1]
    exact ⟨List.mem_cons_self,List.mem_cons_self⟩
  have hblock : t.pool.blockFromPtr ptr=s.pool.blockFromPtr ptr := by rw [hok.pool]
  have hstays := (hok.keeps _ n (hok.survives.kept _ n hchunk hroots) trivial).1
  rw [←hblock] at hstays
  refine ⟨hblock,⟨?_,hstays.head⟩,hstays⟩
  rw [hok.pool]
  exact his.1

section

variable (h : Linked s.pool.blocks s.table) (hshort : nBytes < sizeT) (his : IsChunk s ptr)
  (hlock : s.lockDepth=0) (hptr : ptr≠0)
  (hchunk : Chunk s.pool.blocks s.table (s.pool.blockFromPtr ptr) n)
  (hblocks : numBlocks nBytes=nBlocks) (hmore : n < nBlocks)
include h hshort his hlock hptr hchunk hblocks hmore

/-- A chunk is moved. -/
theorem moveChunk_ok
    (hs : AllocSound s nBlocks (Memory.withRoot first ptr) (Memory.withRoot retry ptr))
    (hend : Finds s nBlocks (Memory.withRoot first ptr) (Memory.withRoot retry ptr) →
      s.pool.blockFromPtr ptr+n≠s.pool.blocks) :
    ∃ t out,moveChunk s ptr nBytes first retry=.ok (t,out)∧out.outside=false∧
      Linked t.pool.blocks t.table∧
      Keeps out.collected t fun block => ptr≠out.collected.pool.ptrFromBlock block := by
  have hpos : nBlocks≠0 := Nat.ne_of_gt (Nat.lt_of_le_of_lt (zero_le n) hmore)
  obtain ⟨t1,out,halloc,hok⟩ := gcAlloc_ok h hshort hblocks hpos hlock hs
    (s.flags (s.pool.blockFromPtr ptr))
  obtain ⟨hblock,his1,hstays⟩ := hok.still his hchunk
  rw [moveChunk,halloc]
  dsimp only
  by_cases hnull : out.ptr=0
  case pos =>
    rw [if_pos hnull]
    exact ⟨t1,out,rfl,hok.outside,hok.linked,hok.keeps.imp fun _ _ => trivial⟩
  case neg =>
    rw [if_neg hnull]
    obtain ⟨t,hfree,hchanged⟩ := gcFree_ok hptr (hok.lock.trans hlock) his1 hstays (by
      rw [hblock,hok.pool]
      exact hend (hok.found.mp hnull))
    have hresizable := resizable_shrink hok.linked hstays (zero_le n)
    rw [hfree]
    refine ⟨t,out,rfl,hok.outside,hchanged.linked hresizable,fun c m hc hother => ?_⟩
    have hfirst := hok.keeps c m hc trivial
    have hsecond := hchanged.keeps hresizable c m hfirst.1 fun hsame => by
      have hpool : out.collected.pool=s.pool := hok.survives.pool
      rw [hpool,←hsame,hblock,ptrFromBlock_blockFromPtr his.1] at hother
      exact hother rfl
    exact ⟨hsecond.1,hsecond.2.trans hfirst.2⟩

/-- Otherwise it is read or written outside the table. -/
theorem moveChunk_bad
    (hbad : ¬(AllocSound s nBlocks (Memory.withRoot first ptr) (Memory.withRoot retry ptr)∧
      (Finds s nBlocks (Memory.withRoot first ptr) (Memory.withRoot retry ptr) →
        s.pool.blockFromPtr ptr+n≠s.pool.blocks))) :
    ∀ t out,moveChunk s ptr nBytes first retry=.ok (t,out) → out.outside=true := by
  have hpos : nBlocks≠0 := Nat.ne_of_gt (Nat.lt_of_le_of_lt (Nat.zero_le n) hmore)
  intro t out hmove
  rw [moveChunk] at hmove
  by_cases hs : AllocSound s nBlocks (Memory.withRoot first ptr) (Memory.withRoot retry ptr)
  case neg =>
    have halways := gcAlloc_bad h hshort hblocks hpos hlock hs (s.flags (s.pool.blockFromPtr ptr))
    cases halloc : gcAlloc s nBytes (s.flags (s.pool.blockFromPtr ptr))
        (Memory.withRoot first ptr) (Memory.withRoot retry ptr) with
    | error fault =>
      clear hblocks
      simp only [halloc] at hmove
      cases hmove
    | ok result =>
      obtain ⟨t1,out1⟩ := result
      have hout := halways t1 out1 halloc
      clear hblocks
      simp only [halloc] at hmove
      split at hmove
      · cases hmove
        exact hout
      · split at hmove
        · cases hmove
        · cases hmove
          exact hout
  case pos =>
    obtain ⟨t1,out1,halloc,hok⟩ := gcAlloc_ok h hshort hblocks hpos hlock hs
      (s.flags (s.pool.blockFromPtr ptr))
    clear hblocks
    have hlast : Finds s nBlocks (Memory.withRoot first ptr) (Memory.withRoot retry ptr)∧
        s.pool.blockFromPtr ptr+n=s.pool.blocks := by
      by_contra hnot
      exact hbad ⟨hs,fun hfinds hsame => hnot ⟨hfinds,hsame⟩⟩
    have hnull := hok.found.mpr hlast.1
    obtain ⟨hblock,his1,hstays⟩ := hok.still his hchunk
    have hfree := gcFree_end hptr (hok.lock.trans hlock) his1 hstays (by
      rw [hblock,hok.pool]
      exact hlast.2)
    simp only [halloc,if_neg hnull,hfree] at hmove
    cases hmove

end

/-! ## Steps -/

/-- An allocation under its conditions. -/
theorem gcAlloc_sound (h : Linked s.pool.blocks s.table) (hshort : nBytes < sizeT)
    (hs : SoundAlloc s nBytes first retry) (hasFinaliser : Bool) :
    ∃ t out,gcAlloc s nBytes hasFinaliser first retry=.ok (t,out)∧WellFormed t∧
      out.outside=false∧Keeps out.collected t (fun _ => True)∧
        (out.ptr≠0 → Allocated out.collected t nBytes out.ptr) := by
  by_cases hnone : numBlocks nBytes=0∨s.lockDepth≠0
  case pos =>
    exact ⟨s,⟨0,s,false⟩,gcAlloc_none hnone hasFinaliser,wellFormed_iff.mpr h,rfl,.refl s _,
      fun hne => absurd rfl hne⟩
  case neg =>
    rw [not_or,not_not] at hnone
    obtain ⟨t,out,halloc,hok⟩ :=
      gcAlloc_ok h hshort rfl hnone.1 hnone.2 (hs hnone.2 hnone.1) hasFinaliser
    exact ⟨t,out,halloc,wellFormed_iff.mpr hok.linked,hok.outside,hok.keeps,hok.allocated⟩

theorem gcAlloc_unsound (h : Linked s.pool.blocks s.table) (hshort : nBytes < sizeT)
    (hs : ¬SoundAlloc s nBytes first retry) (hasFinaliser : Bool) :
    ∀ t out,gcAlloc s nBytes hasFinaliser first retry=.ok (t,out) → out.outside=true := by
  rw [SoundAlloc,Classical.not_imp,Classical.not_imp] at hs
  exact gcAlloc_bad h hshort rfl hs.2.1 hs.1 hs.2.2 hasFinaliser

/-- A free under its conditions. -/
theorem gcFree_sound (h : Linked s.pool.blocks s.table) (hptr : ptr=0∨IsChunk s ptr)
    (hs : ptr≠0 → SoundFree s ptr) : ∃ t,gcFree s ptr=.ok t∧WellFormed t∧
      Keeps s t fun block => ptr≠s.pool.ptrFromBlock block := by
  by_cases hnone : ptr=0∨s.lockDepth≠0
  case pos => exact ⟨s,gcFree_none hnone,wellFormed_iff.mpr h,.refl s _⟩
  case neg =>
    rw [not_or,not_not] at hnone
    have his := hptr.resolve_left hnone.1
    obtain ⟨n,hchunk⟩ := exists_chunk (Pool.blockFromPtr_lt his.1) his.2
    obtain ⟨t,hfree,hchanged⟩ :=
      gcFree_ok hnone.1 hnone.2 his hchunk (hs hnone.1 hnone.2 n hchunk)
    have hresizable := resizable_shrink h hchunk (zero_le n)
    refine ⟨t,hfree,wellFormed_iff.mpr (hchanged.linked hresizable),?_⟩
    refine (hchanged.keeps hresizable).imp fun block hother hsame => ?_
    rw [←hsame,ptrFromBlock_blockFromPtr his.1] at hother
    exact hother rfl

theorem gcFree_unsound (hptr : ptr≠0) (his : IsChunk s ptr) (hs : ¬SoundFree s ptr) :
    gcFree s ptr=.error .table := by
  rw [SoundFree,Classical.not_imp] at hs
  obtain ⟨hlock,hlast⟩ := hs
  by_contra hfree
  refine hlast fun n hchunk hend => hfree ?_
  exact gcFree_end hptr hlock his hchunk hend

section

variable (h : Linked s.pool.blocks s.table)
include h

/-- A reallocation of a chunk under its conditions. -/
theorem reallocChunk_sound (hshort : nBytes < sizeT)
    (his : IsChunk s ptr) (hlock : s.lockDepth=0) (hptr : ptr≠0) (allowMove : Bool)
    (hs : allowMove=true → SoundMove s ptr nBytes first retry) :
    ∃ t out,reallocChunk s ptr nBytes allowMove first retry=.ok (t,out)∧WellFormed t∧
      out.outside=false∧
      Keeps out.collected t fun block => ptr≠out.collected.pool.ptrFromBlock block := by
  obtain ⟨n,hchunk⟩ := exists_chunk (Pool.blockFromPtr_lt his.1) his.2
  generalize hblocks : numBlocks nBytes=nBlocks
  by_cases hplace : ∀ b,s.pool.blockFromPtr ptr+n≤b → b < s.pool.blockFromPtr ptr+nBlocks →
      b < s.pool.blocks∧s.table b=.free
  case pos =>
    obtain ⟨t,hrealloc,hchanged⟩ :=
      reallocChunk_inPlace h hchunk hblocks hplace allowMove first retry
    have hresizable : Resizable s.pool.blocks s.table (s.pool.blockFromPtr ptr) n nBlocks :=
      ⟨h,fun _ => hchunk,hplace⟩
    refine ⟨t,_,hrealloc,wellFormed_iff.mpr (hchanged.linked hresizable),rfl,?_⟩
    refine (hchanged.keeps hresizable).imp fun block hother hsame => ?_
    rw [←hsame,ptrFromBlock_blockFromPtr his.1] at hother
    exact hother rfl
  case neg =>
    have hmore : n < nBlocks := by
      by_contra hle
      exact hplace fun b hb hlt => by omega
    have hmoves := reallocChunk_moves h hchunk hblocks hmore hplace allowMove first retry
    by_cases hallowed : allowMove=true
    case neg =>
      rw [if_neg hallowed] at hmoves
      exact ⟨s,⟨0,s,false⟩,hmoves,wellFormed_iff.mpr h,rfl,.refl s _⟩
    case pos =>
      rw [if_pos hallowed] at hmoves
      have hsound := hs hallowed hlock n hchunk
      rw [hblocks] at hsound
      obtain ⟨halloc,hend⟩ := hsound hmore hplace
      obtain ⟨t,out,hmove,houtside,hlinked,hkeeps⟩ :=
        moveChunk_ok h hshort his hlock hptr hchunk hblocks hmore halloc hend
      exact ⟨t,out,hmoves.trans hmove,wellFormed_iff.mpr hlinked,houtside,hkeeps⟩

/-- A reallocation of a chunk otherwise. -/
theorem reallocChunk_unsound (hshort : nBytes < sizeT)
    (his : IsChunk s ptr) (hptr : ptr≠0)
    (hs : ¬SoundMove s ptr nBytes first retry) : s.lockDepth=0∧
    ∀ t out,reallocChunk s ptr nBytes true first retry=.ok (t,out) → out.outside=true := by
  rw [SoundMove,Classical.not_imp] at hs
  obtain ⟨hlock,hs⟩ := hs
  refine ⟨hlock,fun t out hrealloc => ?_⟩
  by_contra hnot
  refine hs fun n hchunk hmore hplace => ?_
  by_contra hbad
  have hmoves := reallocChunk_moves h hchunk rfl hmore hplace true first retry
  rw [if_pos rfl] at hmoves
  rw [hmoves] at hrealloc
  exact hnot (moveChunk_bad h hshort his hlock hptr hchunk rfl hmore hbad t out hrealloc)

/-- A step is faithful as described when pointers are given back that are promised. -/
theorem promised_faithful_iff {op : Op}
    (hp : Promised s op) : Faithful s op↔Sound s op := by
  have hlinked := wellFormed_iff.mpr h
  cases op with
  | alloc nBytes short hasFinaliser first retry =>
    constructor
    · intro hfaithful _
      obtain ⟨t,out,halloc,_,houtside,_⟩ := hfaithful hp
      by_contra hs
      have hwrong := gcAlloc_unsound h short hs hasFinaliser t out halloc
      rw [houtside] at hwrong
      cases hwrong
    · intro hs _
      obtain ⟨t,out,halloc,hwell,heffect⟩ := gcAlloc_sound h short (hs hp) hasFinaliser
      exact ⟨t,out,halloc,hwell,heffect⟩
  | free ptr =>
    constructor
    · intro hfaithful _ hptr
      by_contra hs
      obtain ⟨t,out,hfree,_⟩ := hfaithful hp
      rw [step,gcFree_unsound hptr (hp.resolve_left hptr) hs] at hfree
      cases hfree
    · intro hs _
      obtain ⟨t,hfree,hwell,hkeeps⟩ := gcFree_sound h hp (hs hp)
      refine ⟨t,⟨0,s,false⟩,?_,hwell,hkeeps⟩
      rw [step,hfree]
      rfl
  | realloc ptr nBytes short allowMove first retry =>
    by_cases hnull : ptr=0
    case pos =>
      subst hnull
      have hstep : step s (.realloc 0 nBytes short allowMove first retry)=
          gcAlloc s nBytes false first retry := rfl
      constructor
      · intro hfaithful _
        obtain ⟨t,out,halloc,_,houtside,_⟩ := hfaithful hp
        show SoundAlloc s nBytes first retry
        by_contra hs
        rw [hstep] at halloc
        have hwrong := gcAlloc_unsound h short hs false t out halloc
        rw [houtside] at hwrong
        cases hwrong
      · intro hs _
        obtain ⟨t,out,halloc,hwell,houtside,hkeeps,_⟩ := gcAlloc_sound h short (hs hp) false
        exact ⟨t,out,hstep.trans halloc,hwell,houtside,hkeeps.imp fun _ _ => trivial⟩
    case neg =>
      have hsound : Sound s (.realloc ptr nBytes short allowMove first retry)↔
          if nBytes=0 then SoundFree s ptr
          else IsChunk s ptr → allowMove=true → SoundMove s ptr nBytes first retry := by
        rw [Sound]
        simp only [if_neg hnull]
        exact ⟨fun hs => hs hp,fun hs _ => hs⟩
      have hstep : step s (.realloc ptr nBytes short allowMove first retry)=
          gcRealloc s ptr nBytes allowMove first retry := rfl
      rw [hsound]
      by_cases hzero : nBytes=0
      case pos =>
        rw [if_pos hzero]
        have his := (hp hzero).resolve_left hnull
        constructor
        · intro hfaithful
          by_contra hs
          obtain ⟨t,out,hrealloc,_⟩ := hfaithful hp
          rw [hstep,gcRealloc,if_neg hnull,if_pos hzero,gcFree_unsound hnull his hs] at hrealloc
          cases hrealloc
        · intro hs _
          obtain ⟨t,hfree,hwell,hkeeps⟩ := gcFree_sound h (.inr his) fun _ => hs
          refine ⟨t,⟨0,s,false⟩,?_,hwell,rfl,hkeeps⟩
          rw [hstep,gcRealloc,if_neg hnull,if_pos hzero,hfree]
          rfl
      case neg =>
        rw [if_neg hzero]
        by_cases hgood : IsChunk s ptr∧s.lockDepth=0
        case neg =>
          have hnone : gcRealloc s ptr nBytes allowMove first retry=done s s 0 := by
            rw [gcRealloc,if_neg hnull,if_neg hzero]
            split
            case isFalse => rfl
            case isTrue his =>
              exact if_pos (UInt16.pos_iff_ne_zero.mpr fun hlock => hgood ⟨his,hlock⟩)
          refine iff_of_true (fun _ => ⟨s,⟨0,s,false⟩,hnone,hlinked,rfl,.refl s _⟩) ?_
          exact fun his _ hlock => absurd ⟨his,hlock⟩ hgood
        case pos =>
          obtain ⟨his,hlock⟩ := hgood
          have hunlocked : ¬0 < s.lockDepth := by
            rw [hlock]
            exact (by decide)
          have hchunk : gcRealloc s ptr nBytes allowMove first retry=
              reallocChunk s ptr nBytes allowMove first retry := by
            rw [gcRealloc,if_neg hnull,if_neg hzero,if_pos his,if_neg hunlocked]
          constructor
          · intro hfaithful _ hmove
            by_contra hs
            obtain ⟨t,out,hrealloc,_,houtside,_⟩ := hfaithful hp
            rw [hstep,hchunk,hmove] at hrealloc
            have hwrong := (reallocChunk_unsound h short his hnull hs).2 t out hrealloc
            rw [houtside] at hwrong
            cases hwrong
          · intro hs _
            obtain ⟨t,out,hrealloc,hwell,heffect⟩ :=
              reallocChunk_sound h short his hlock hnull allowMove (hs his)
            exact ⟨t,out,hstep.trans (hchunk.trans hrealloc),hwell,heffect⟩
  | collect e =>
    obtain ⟨t,outside,hcollect,hsurvives,_⟩ := gcCollect_survives h e
    refine iff_of_true (fun _ => ?_) fun _ => trivial
    refine ⟨t,⟨0,t,outside⟩,?_,wellFormed_iff.mpr hsurvives.linked,trivial⟩
    rw [step,hcollect]
  | lock => exact iff_of_true (fun _ => ⟨_,_,rfl,wellFormed_iff.mpr h,trivial⟩) fun _ => trivial
  | unlock =>
    exact iff_of_true (fun _ => ⟨_,_,rfl,wellFormed_iff.mpr h,trivial⟩) fun _ => trivial
  | autoCollect enabled =>
    exact iff_of_true (fun _ => ⟨_,_,rfl,wellFormed_iff.mpr h,trivial⟩) fun _ => trivial
  | threshold amount =>
    exact iff_of_true (fun _ => ⟨_,_,rfl,wellFormed_iff.mpr h,trivial⟩) fun _ => trivial

theorem step_faithful_iff (op : Op) :
    Faithful s op↔Sound s op := by
  by_cases hp : Promised s op
  case pos => exact promised_faithful_iff h hp
  case neg => exact iff_of_true (fun hp' => absurd hp' hp) fun hp' => absurd hp' hp

end

/-- A pointer that is not promised stops a free, or is not used. -/
theorem gcFree_unpromised (h : ¬(ptr=0∨IsChunk s ptr)) (hfree : gcFree s ptr=.ok t) : t=s := by
  rw [not_or] at h
  rw [gcFree,if_neg h.1,if_neg h.2] at hfree
  split at hfree
  · cases hfree
    rfl
  · cases hfree

/-- A faithful step keeps the table linked. -/
theorem linked_step {op : Op} {out : Report} (h : Linked s.pool.blocks s.table)
    (hfaithful : Faithful s op) (hstep : step s op=.ok (t,out)) :
    Linked t.pool.blocks t.table := by
  by_cases hp : Promised s op
  case pos =>
    obtain ⟨t',out',hstep',hwell,_⟩ := hfaithful hp
    rw [hstep] at hstep'
    cases hstep'
    exact wellFormed_iff.mp hwell
  case neg =>
    cases op with
    | free ptr =>
      rw [step] at hstep
      cases hfree : gcFree s ptr with
      | error fault =>
        rw [hfree] at hstep
        cases hstep
      | ok t' =>
        rw [hfree] at hstep
        cases hstep
        rw [gcFree_unpromised hp hfree]
        exact h
    | realloc ptr nBytes short allowMove first retry =>
      rw [Promised,Classical.not_imp] at hp
      obtain ⟨hzero,hwild⟩ := hp
      have hnull : ptr≠0 := fun hzero => hwild (.inl hzero)
      have hrealloc : gcRealloc s ptr nBytes allowMove first retry=.ok (t,out) := hstep
      rw [gcRealloc,if_neg hnull,if_pos hzero] at hrealloc
      cases hfree : gcFree s ptr with
      | error fault =>
        rw [hfree] at hrealloc
        cases hrealloc
      | ok t' =>
        rw [hfree] at hrealloc
        cases hrealloc
        rw [gcFree_unpromised hwild hfree]
        exact h
    | _ => exact absurd trivial hp

/-! ## Runs -/

/-- A heap after `gc_init` is well formed. -/
theorem gcInit_linked (r : Region) : Linked (gcInit r).pool.blocks (gcInit r).table :=
  ⟨fun _ _ => Kind.noConfusion,fun _ => Kind.noConfusion,fun _ _ h => Kind.noConfusion h⟩

/-- From `gc_init` on, every step of a run is faithful exactly when every step meets the
conditions. -/
theorem heapFaithful_iff (r : Region) (ops : List Op) :
    Throughout step Faithful (gcInit r) ops↔Throughout step Sound (gcInit r) ops :=
  @throughout_congr _ _ _ _ step (fun s => Linked s.pool.blocks s.table) Faithful Sound
    (fun _ _ _ _ h hfaithful hstep => linked_step h hfaithful hstep)
    (fun _ op h => step_faithful_iff h op) ops (gcInit r) (gcInit_linked r)

/-- 66 bytes, which give a pool of four blocks. -/
def fourBlocks : Region := ⟨14,80,by decide,by decide,by decide⟩

/-- A byte is allocated and not kept, and then 64 bytes. The three blocks at the end are
free when the second allocation collects. -/
def underrun : List Op :=
  let nothing : Memory := ⟨[],fun _ => 0,[],64,by decide⟩
  [.alloc 1 (by decide) false nothing nothing,.alloc 64 (by decide) false nothing nothing]

/-- A run stops outside the table. -/
def stopsOutside {α : Type} : Except Fault α→Bool
  | .error .table => true
  | _ => false

/-- The first block is free then, too, and is taken for the last of four: the head is
written three blocks before the pool. -/
theorem nFree_carriedOver : stopsOutside (run step (gcInit fourBlocks) underrun)=true∧
      ¬Throughout step Faithful (gcInit fourBlocks) underrun := by
  have hfault : stopsOutside (run step (gcInit fourBlocks) underrun)=true := by
    decide +kernel
  refine ⟨hfault,?_⟩
  rintro ⟨hfirst,hrest⟩
  obtain ⟨t1,out1,hstep1,_⟩ := hfirst trivial
  obtain ⟨hsecond,_⟩ := hrest t1 out1 hstep1
  obtain ⟨t2,out2,hstep2,_⟩ := hsecond trivial
  have hrun : run step (gcInit fourBlocks) underrun=.ok (t2,[out1,out2]) := by
    simp only [underrun,run,hstep1,hstep2]
  rw [hrun] at hfault
  cases hfault

end MicroPython.GcTable
