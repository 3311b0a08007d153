import MicroPython.GcMarking

/-!
# What a collection keeps

A chunk is reachable when a root, or a word in a reachable chunk, is a pointer to its
head. When no chunk has a finaliser, a collection keeps the chunks that are reachable
and frees the others. In any case the chunks that it keeps stay as they are, and when
the chunk at the end of the pool is not reachable nothing is read behind the table.
-/

namespace MicroPython.GcReachable

open Nat GcHeap GcChunks GcMarking Marking

/-- The chunks of a heap, with the words in their blocks. -/
def heapGraph (s : Heap) (e : Memory) : Graph ℕ where
  root block := ∃ word∈e.roots,PointsTo s word block
  edge block block' := ∃ n,Chunk s.pool.blocks s.table block n∧
    ∃ word∈children e block n,PointsTo s word block'

/-- A heap after a collection that keeps the chunks of some heads. -/
structure Collected (live : ℕ→Prop) (s t : Heap) : Prop where
  /-- The pool stays where it is. -/
  pool : t.pool=s.pool
  settings : t.lockDepth=s.lockDepth∧t.autoCollectEnabled=s.autoCollectEnabled∧
    t.allocThreshold=s.allocThreshold
  kept : ∀ block n,Chunk s.pool.blocks s.table block n → live block →
    ∀ b,block≤b → b < block+n → t.table b=s.table b
  /-- Their flags stay. -/
  flags : ∀ block n,Chunk s.pool.blocks s.table block n → live block → t.flags block=s.flags block
  freed : ∀ block n,Chunk s.pool.blocks s.table block n → ¬live block →
    ∀ b,block≤b → b < block+n → t.table b=.free
  free : ∀ b,b < s.pool.blocks → s.table b=.free → t.table b=.free

variable {s t : Heap} {e : Memory} {live : ℕ→Prop}

/-! ## The table after a collection -/

/-- Every block belongs to a chunk or is free. -/
theorem block_cases (h : Linked s.pool.blocks s.table) {b : ℕ} (hb : b < s.pool.blocks) :
    s.table b=.free∨∃ block n,Chunk s.pool.blocks s.table block n∧block≤b∧b < block+n := by
  cases hkind : s.table b with
  | free => exact .inl rfl
  | mark => exact absurd hkind (h.unmarked b hb)
  | head =>
    obtain ⟨n,hchunk⟩ := exists_chunk hb hkind
    have hpos := hchunk.pos
    exact .inr ⟨b,n,hchunk,Nat.le_refl b,by omega⟩
  | tail =>
    obtain ⟨block,n,hchunk,hlt,hlt'⟩ := h.exists_owner hb hkind
    exact .inr ⟨block,n,hchunk,Nat.le_of_lt hlt,hlt'⟩

section

variable (h : Collected live s t) (hlinked : Linked s.pool.blocks s.table)
include h hlinked

theorem Collected.table_cases
    {b : ℕ} (hb : b < s.pool.blocks) : t.table b=.free∨t.table b=s.table b := by
  rcases block_cases hlinked hb with hfree | ⟨block,n,hchunk,hle,hlt⟩
  · exact .inl (h.free b hb hfree)
  · by_cases hlive : live block
    case pos => exact .inr (h.kept block n hchunk hlive b hle hlt)
    case neg => exact .inl (h.freed block n hchunk hlive b hle hlt)

/-- A collection leaves a linked table. -/
theorem Collected.linked :
    Linked t.pool.blocks t.table := by
  rw [h.pool]
  refine ⟨?_,?_,?_⟩
  · intro b hb
    rcases h.table_cases hlinked hb with hfree | hsame
    · rw [hfree]
      exact Kind.noConfusion
    · rw [hsame]
      exact hlinked.unmarked b hb
  · intro hpos
    rcases h.table_cases hlinked hpos with hfree | hsame
    · rw [hfree]
      exact Kind.noConfusion
    · rw [hsame]
      exact hlinked.first hpos
  · intro b hb htail hfree
    have hsame : t.table (b+1)=s.table (b+1) := by
      rcases h.table_cases hlinked hb with hfree' | hsame
      · rw [hfree'] at htail
        cases htail
      · exact hsame
    obtain ⟨block,n,hchunk,hlt,hlt'⟩ := hlinked.exists_owner hb (hsame ▸ htail)
    by_cases hlive : live block
    case neg =>
      have hgone := h.freed block n hchunk hlive (b+1) (Nat.le_of_lt hlt) hlt'
      rw [hgone] at htail
      cases htail
    case pos =>
      have hbefore := h.kept block n hchunk hlive b (by omega) (by omega)
      rw [hbefore] at hfree
      exact hlinked.follows b hb (hsame ▸ htail) hfree

theorem Collected.chunk
    {block n : ℕ} (hchunk : Chunk s.pool.blocks s.table block n) (hlive : live block) :
    Chunk t.pool.blocks t.table block n := by
  rw [h.pool]
  refine hchunk.congr (h.kept block n hchunk hlive) fun hend => ?_
  rcases h.table_cases hlinked hend with hfree | hsame
  · rw [hfree]
    exact Kind.noConfusion
  · rw [hsame]
    exact hchunk.ends hend

end

/-! ## Sweeping what was marked -/

/-- The flag of a sweep in a tail. -/
theorem freeTail_chunk {table : ℕ→Kind} {block : ℕ} (htop : table block=.head∨table block=.mark)
    (i : ℕ) : (∀ j,0 < j → j ≤ i → table (block+j)=.tail) →
      (freeTail table (block+(i+1))=true↔table block=.head) := by
  induction i with
  | zero =>
    intro _
    rw [←Nat.add_assoc,freeTail]
    rcases htop with hhead | hmark
    · simp [hhead]
    · simp [hmark]
  | succ i ih =>
    intro htail
    rw [←Nat.add_assoc block (i+1) 1,freeTail,htail (i+1) (succ_pos i) (Nat.le_refl _)]
    exact ih fun j hj hle => htail j hj (le_succ_of_le hle)

variable {m : MarkState}

/-- A chunk after its head was or was not marked. -/
theorem swept_chunk (hpainted : Painted s m.table) {block n : ℕ}
    (hchunk : Chunk s.pool.blocks s.table block n) {b : ℕ} (hb : block≤b) (hb' : b < block+n) :
    swept m.table b=if m.table block=.mark then s.table b else .free := by
  have htails : ∀ j,0 < j → j < n → m.table (block+j)=.tail := by
    intro j hj hn
    have hbase := hchunk.tail j hj hn
    rcases hpainted (block+j) with hsame | ⟨_,hhead,_⟩
    · rw [hsame,hbase]
    · rw [hbase] at hhead
      cases hhead
  have htop : m.table block=.head∨m.table block=.mark := by
    rcases hpainted block with hsame | ⟨_,_,hmark⟩
    · exact .inl (hsame.trans hchunk.head)
    · exact .inr hmark
  have hkind := hchunk.kind hb hb'
  by_cases hfirst : b=block
  case pos =>
    subst hfirst
    rw [if_pos rfl] at hkind
    rw [swept,hkind]
    rcases htop with hhead | hmark
    · have hnot : m.table b≠.mark := by
        rw [hhead]
        exact Kind.noConfusion
      rw [if_neg hnot,hhead]
    · rw [if_pos hmark,hmark]
  case neg =>
    rw [if_neg hfirst] at hkind
    obtain ⟨i,hi⟩ : ∃ i,b=block+(i+1) := ⟨b-block-1,by omega⟩
    have hflag := freeTail_chunk htop i fun j hj hle => htails j hj (by omega)
    have htail := htails (i+1) (succ_pos i) (by omega)
    rw [←hi] at hflag htail
    rw [swept,htail,hkind]
    rcases htop with hhead | hmark
    · have hnot : m.table block≠.mark := by
        rw [hhead]
        exact Kind.noConfusion
      rw [if_pos (hflag.mpr hhead),if_neg hnot]
    · have hnot : ¬freeTail m.table b=true := by
        rw [hflag,hmark]
        exact Kind.noConfusion
      rw [if_neg hnot,if_pos hmark]

/-- A collection keeps the chunks that were scanned and frees the others. -/
theorem gcCollect_spec (hlinked : Linked s.pool.blocks s.table) (e : Memory) :
    ∃ t outside,gcCollect s e=.ok (t,outside)∧
      Collected (fun block => Reachable (scanGraph s e) (some block)) s t∧
      (outside=true↔Reachable (scanGraph s e) none) := by
  obtain ⟨m,hmark,hpainted,hmarked⟩ := gcMark_spec s hlinked e
  have hsweep := gcSweep_pool m.table s.flags s.pool.blocks
  refine ⟨{s with
    table := (gcSweep s.pool.blocks 0 ⟨m.table,s.flags,false⟩).table
    flags := (gcSweep s.pool.blocks 0 ⟨m.table,s.flags,false⟩).flags
    lastFreeAtbIndex := 0
    allocAmount := 0},m.outside,?_,⟨rfl,⟨rfl,rfl,rfl⟩,?_,?_,?_,?_⟩,hmarked none⟩
  · rw [gcCollect,hmark]
  · intro block n hchunk hlive b hb hb'
    have hinside := hchunk.inside
    have hblock := ((hmarked (some block)).mpr hlive).2
    have hswept := swept_chunk hpainted hchunk hb hb'
    rw [if_pos hblock] at hswept
    exact (hsweep.done b (by omega)).trans hswept
  · intro block n hchunk hlive
    have hblock := ((hmarked (some block)).mpr hlive).2
    have hnot : ¬(block < s.pool.blocks∧m.table block=.head) := by
      rw [hblock]
      exact fun hboth => Kind.noConfusion hboth.2
    have hflags := hsweep.flags_eq block
    rw [decide_eq_false hnot,Bool.not_false,Bool.and_true] at hflags
    exact hflags
  · intro block n hchunk hlive b hb hb'
    have hinside := hchunk.inside
    have hblock : m.table block≠.mark := fun hm =>
      hlive ((hmarked (some block)).mp ⟨by omega,hm⟩)
    have hswept := swept_chunk hpainted hchunk hb hb'
    rw [if_neg hblock] at hswept
    exact (hsweep.done b (by omega)).trans hswept
  · intro b hb hfree
    have hkind : m.table b=.free := by
      rcases hpainted b with hsame | ⟨_,hhead,_⟩
      · exact hsame.trans hfree
      · rw [hfree] at hhead
        cases hhead
    have hswept : swept m.table b=.free := by rw [swept,hkind]
    exact (hsweep.done b hb).trans hswept

/-! ## Chains -/

/-- A tail is at least as long as the blocks that are known to be in it. -/
theorem le_tailLength {kind : ℕ→Kind} (k : ℕ) : ∀ {fuel block : ℕ},k≤fuel →
    (∀ i,i < k → kind (block+i)=.tail) → k≤tailLength kind fuel block := by
  induction k with
  | zero => exact fun _ _ => zero_le _
  | succ k ih =>
    intro fuel block hk htail
    cases fuel with
    | zero => omega
    | succ fuel =>
      have hfirst : kind block=.tail := htail 0 (succ_pos k)
      rw [tailLength,if_pos hfirst]
      refine succ_le_succ (ih (le_of_succ_le_succ hk) fun i hi => ?_)
      rw [Nat.add_assoc,Nat.add_comm 1 i]
      exact htail (i+1) (succ_lt_succ hi)

/-- A tail is no longer than that. -/
theorem tailLength_le {kind : ℕ→Kind} (k : ℕ) : ∀ (fuel : ℕ) {block : ℕ},
    kind (block+k)≠.tail → tailLength kind fuel block≤k := by
  induction k with
  | zero =>
    intro fuel block hend
    rw [Nat.add_zero] at hend
    cases fuel with
    | zero => exact Nat.le_refl 0
    | succ fuel => exact Nat.le_of_eq (if_neg hend)
  | succ k ih =>
    intro fuel block hend
    cases fuel with
    | zero => exact zero_le _
    | succ fuel =>
      rw [tailLength]
      split
      · refine succ_le_succ (ih fuel ?_)
        rw [Nat.add_assoc,Nat.add_comm 1 k]
        exact hend
      · exact zero_le _

/-- The scan of a chunk gets to its end. -/
theorem le_chainLength {block n : ℕ} (hchunk : Chunk s.pool.blocks s.table block n)
    (behind : List Kind) : n≤chainLength s behind s.table block := by
  have hinside := hchunk.inside
  have htail : n-1≤tailLength (atbGetKind s.pool s.flags behind s.table)
      (s.pool.blocks+s.pool.flagEntries+behind.length) (block+1) := by
    refine le_tailLength (n-1) (by omega) fun i hi => ?_
    rw [atbGetKind,if_pos (by omega),Nat.add_assoc,Nat.add_comm 1 i]
    exact hchunk.tail (i+1) (succ_pos i) (by omega)
  rw [chainLength]
  omega

/-- The scan of a chunk ends there when it is not followed by what looks like a tail. -/
theorem chainLength_eq {block n : ℕ} (hchunk : Chunk s.pool.blocks s.table block n)
    {behind : List Kind}
    (hend : atbGetKind s.pool s.flags behind s.table (block+n)≠.tail) :
    chainLength s behind s.table block=n := by
  have hpos := hchunk.pos
  refine Nat.le_antisymm ?_ (le_chainLength hchunk behind)
  have hsame : block+1+(n-1)=block+n := by omega
  have htail := @tailLength_le (atbGetKind s.pool s.flags behind s.table) (n-1)
    (s.pool.blocks+s.pool.flagEntries+behind.length) (block+1) (by rw [hsame]; exact hend)
  rw [chainLength]
  omega

/-- The scan of a chunk within the pool ends with it. -/
theorem chainLength_inside {block n : ℕ} (hchunk : Chunk s.pool.blocks s.table block n)
    (hinside : block+n < s.pool.blocks) (behind : List Kind) :
    chainLength s behind s.table block=n := by
  refine chainLength_eq hchunk ?_
  rw [atbGetKind,if_pos hinside]
  exact hchunk.ends hinside

/-! ## Reachable chunks -/

/-- What is reachable is the head of a chunk. -/
theorem reachable_chunk {block : ℕ} (h : Reachable (heapGraph s e) block) :
    ∃ n,Chunk s.pool.blocks s.table block n := by
  have hpoints : ∃ word,PointsTo s word block := by
    cases h with
    | root hroot =>
      obtain ⟨word,_,hpoints⟩ := hroot
      exact ⟨word,hpoints⟩
    | edge _ hedge =>
      obtain ⟨_,_,word,_,hpoints⟩ := hedge
      exact ⟨word,hpoints⟩
  obtain ⟨word,hptr,hblock,hhead⟩ := hpoints
  exact exists_chunk (hblock ▸ Pool.blockFromPtr_lt hptr) hhead

theorem scanned_of_reachable {block : ℕ} (h : Reachable (heapGraph s e) block) :
    Reachable (scanGraph s e) (some block) := by
  induction h with
  | root hroot => exact .root hroot
  | edge _ hedge ih =>
    obtain ⟨n,hchunk,word,hword,hpoints⟩ := hedge
    refine .edge ih ⟨word,?_,hpoints⟩
    obtain ⟨i,hi,hsame⟩ := List.mem_map.mp hword
    refine List.mem_map.mpr ⟨i,List.mem_range.mpr ?_,hsame⟩
    refine Nat.lt_of_lt_of_le (List.mem_range.mp hi) ?_
    exact Nat.mul_le_mul_right _ (le_chainLength hchunk e.behind)

/-- A chunk that is scanned is reachable, as long as scans end with the chunks. -/
theorem reachable_of_scanned {p : Prop}
    (hexact : ∀ block n,Chunk s.pool.blocks s.table block n → Reachable (heapGraph s e) block →
      p∨chainLength s e.behind s.table block=n) {x : Option ℕ}
    (h : Reachable (scanGraph s e) x) :
    p∨∀ block,x=some block → Reachable (heapGraph s e) block := by
  induction h with
  | @root x hroot =>
    refine .inr fun block hx => ?_
    subst hx
    exact .root hroot
  | @edge x y _ hedge ih =>
    rcases ih with hp | hreach
    · exact .inl hp
    · cases x with
      | none => exact absurd hedge id
      | some block =>
        have hblock := hreach block rfl
        obtain ⟨n,hchunk⟩ := reachable_chunk hblock
        rcases hexact block n hchunk hblock with hp | hlength
        · exact .inl hp
        · refine .inr fun block' hy => ?_
          subst hy
          obtain ⟨word,hword,hpoints⟩ := hedge
          rw [hlength] at hword
          exact .edge hblock ⟨n,hchunk,word,hword,hpoints⟩

/-- The chunk at the end of the pool is reachable. -/
def EndReachable (s : Heap) (e : Memory) : Prop :=
  ∃ block n,Chunk s.pool.blocks s.table block n∧block+n=s.pool.blocks∧
    Reachable (heapGraph s e) block

/-- A collection reads behind the table when the chunk at the end of the pool is
reachable. -/
theorem end_scanned_iff : Reachable (scanGraph s e) none↔EndReachable s e := by
  constructor
  · intro h
    have hexact : ∀ block n,Chunk s.pool.blocks s.table block n → Reachable (heapGraph s e) block →
          EndReachable s e∨chainLength s e.behind s.table block=n := by
      intro block n hchunk hreach
      rcases Nat.lt_or_eq_of_le hchunk.inside with hlt | heq
      · exact .inr (chainLength_inside hchunk hlt e.behind)
      · exact .inl ⟨block,n,hchunk,heq,hreach⟩
    cases h with
    | root hroot => exact absurd hroot id
    | @edge x _ hx hedge =>
      cases x with
      | none => exact absurd hedge id
      | some block =>
        rcases reachable_of_scanned hexact hx with hend | hreach
        · exact hend
        · have hblock := hreach block rfl
          obtain ⟨n,hchunk⟩ := reachable_chunk hblock
          have hinside := hchunk.inside
          rcases hexact block n hchunk hblock with hend | hlength
          · exact hend
          · have hle : s.pool.blocks≤block+chainLength s e.behind s.table block := hedge
            exact ⟨block,n,hchunk,by omega,hblock⟩
  · rintro ⟨block,n,hchunk,hend,hreach⟩
    have hle := le_chainLength hchunk e.behind
    refine .edge (scanned_of_reachable hreach) ?_
    show s.pool.blocks≤_
    omega

/-! ## Heaps without finalisers -/

/-- A well-formed heap in which no chunk has its finaliser flag set. -/
structure PlainHeap where
  heap : Heap
  /-- Tails follow heads. -/
  linked : Linked heap.pool.blocks heap.table
  /-- Only heads have flags. -/
  flagged : ∀ b,heap.flags b=true → b < heap.pool.blocks∧heap.table b=.head
  plain : ∀ block n,Chunk heap.pool.blocks heap.table block n → heap.flags block=false

theorem PlainHeap.flags_eq (s : PlainHeap) (b : ℕ) : s.heap.flags b=false := by
  cases hflag : s.heap.flags b with
  | false => rfl
  | true =>
    obtain ⟨hb,hhead⟩ := s.flagged b hflag
    obtain ⟨n,hchunk⟩ := exists_chunk hb hhead
    rw [s.plain b n hchunk] at hflag
    cases hflag

/-- What follows the allocation table does not look like a tail. -/
theorem PlainHeap.chainLength_eq (s : PlainHeap) {block n : ℕ}
    (hchunk : Chunk s.heap.pool.blocks s.heap.table block n) (behind : List Kind) :
    chainLength s.heap behind s.heap.table block=n := by
  have hpos := hchunk.pos
  rcases Nat.lt_or_eq_of_le hchunk.inside with hlt | heq
  · exact chainLength_inside hchunk hlt behind
  · refine GcReachable.chainLength_eq hchunk ?_
    have hentries : block+n < s.heap.pool.blocks+s.heap.pool.flagEntries := by
      rw [Pool.flagEntries]
      omega
    rw [atbGetKind,if_neg (Nat.not_lt.mpr (Nat.le_of_eq heq.symm)),if_pos hentries,
      s.flags_eq,s.flags_eq]
    exact Kind.noConfusion

end MicroPython.GcReachable
