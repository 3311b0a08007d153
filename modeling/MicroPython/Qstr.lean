import Mathlib.Data.Nat.Bitwise
import MicroPython.BlockHeap

/-!
# Interned strings

The table of py/qstr.c. A qstr is an index into a chain of pools, of which the first
ones are in ROM. The bytes of a string, with its hash and its length in front, are packed
into a chunk that is shared with other strings. All of this is on the heap, and each call
of the allocator has an answer of its own.
-/

namespace MicroPython.Qstr

open Nat List BlockHeap

/-- The djb2 hash, of which two bytes are kept. No hash is zero. -/
def qstrComputeHash (data : List ℕ) : ℕ :=
  let hash := data.foldl (fun hash c => (hash<<<5+hash)%2^32 ^^^ c) 5381 &&& 0xffff
  if hash=0 then hash+1 else hash

/-- Where the data of a qstr is. -/
inductive Ptr where
  /-- A string literal, with its bytes. -/
  | rom (bytes : List ℕ)
  | ram (addr : ℕ)
deriving DecidableEq

/-- The address, if there is one. -/
def Ptr.addr : Ptr→Option ℕ
  | rom _ => none
  | ram q => some q

/-- The bytes behind a pointer. -/
def peek (memory : ℕ→ℕ) : Ptr→ℕ→ℕ
  | .rom bytes,i => bytes.getD i 0
  | .ram q,i => memory (q+i)

/-- Q_GET_HASH, with two bytes in the hash. -/
def qGetHash (q : ℕ→ℕ) : ℕ := q 0 ||| q 1<<<8

/-- Q_GET_LENGTH, with one byte in the length. -/
def qGetLength (q : ℕ→ℕ) : ℕ := q 2

/-- Bytes from Q_GET_DATA on. -/
def qGetData (q : ℕ→ℕ) (n : ℕ) : List ℕ := load q 3 n

/-- Q_GET_ALLOC of a string of a length. -/
def qAlloc (len : ℕ) : ℕ := 2+1+len+1

/-- Q_SET_HASH. -/
def qSetHash (memory : ℕ→ℕ) (q hash : ℕ) : ℕ→ℕ := store memory q [hash%256,hash>>>8%256]

/-- Q_SET_LENGTH. The length is stored as a byte. -/
def qSetLength (memory : ℕ→ℕ) (q len : ℕ) : ℕ→ℕ := store memory (q+2) [len%256]

/-- The bytes of a qstr, as makeqstrdata.py writes them into a literal. -/
def entry (str : List ℕ) : List ℕ :=
  [qstrComputeHash str%256,qstrComputeHash str>>>8%256,str.length%256]++str++[0]

/-- One pool of the chain. -/
structure QstrPool where
  /-- The block of the pool. Pools in ROM have none. -/
  head : Option ℕ
  /-- How many qstrs are in the pools before this one. -/
  totalPrevLen : ℕ
  /-- How many pointers fit. -/
  alloc : ℕ
  /-- The pointers that are used. -/
  qstrs : List Ptr

/-- sizeof(qstr_pool_t) and the pointers. -/
def poolBytes (alloc : ℕ) : ℕ := 16+4*alloc

/-- The state that qstr.c works on. -/
structure Vm where
  lastPool : QstrPool
  /-- The pools before it, the newest first. -/
  prev : List QstrPool
  /-- The chunk that strings are stored in. -/
  qstrLastChunk : Option ℕ
  /-- The size of the chunk. -/
  qstrLastAlloc : ℕ
  /-- How much of the chunk is used. -/
  qstrLastUsed : ℕ
  /-- The bytes of RAM. -/
  memory : ℕ→ℕ
  /-- The blocks of the allocator. -/
  heap : Heap
  /-- The strings that callers are building. -/
  buffers : List Block

/-- The chain of pools from last_pool on. -/
def Vm.pools (vm : Vm) : List QstrPool := vm.lastPool::vm.prev

/-- The qstrs of a chain of pools in the order of their numbers. -/
def qstrsOf : List QstrPool→List Ptr
  | [] => []
  | pool::prev => qstrsOf prev++pool.qstrs

/-- The blocks that the collector finds: the pools, the blocks that begin where a pool
points to, and what callers and the running function hold. It does not look at
qstr_last_chunk, which is not among the root pointers of mp_state_vm_t. -/
def Vm.live (vm : Vm) (locals : List ℕ) : List ℕ :=
  vm.pools.filterMap QstrPool.head++(qstrsOf vm.pools).filterMap Ptr.addr++
    vm.buffers.map Block.head++locals

/-- The bytes of a qstr in a chain of pools. -/
def findQstrIn : List QstrPool→ℕ→Option Ptr
  | [],_ => none
  | pool::prev,q =>
    if q≥pool.totalPrevLen then pool.qstrs[q-pool.totalPrevLen]? else findQstrIn prev q

/-- The bytes of a qstr. -/
def findQstr (vm : Vm) (q : ℕ) : Option Ptr := findQstrIn vm.pools q

/-- The test of qstr_find_strn. -/
def Matches (memory : ℕ→ℕ) (str : List ℕ) (p : Ptr) : Prop :=
  qGetHash (peek memory p)=qstrComputeHash str∧qGetLength (peek memory p)=str.length∧
    qGetData (peek memory p) str.length=str

/-- Whether a qstr is the one looked for can be computed. -/
instance (memory : ℕ→ℕ) (str : List ℕ) (p : Ptr) : Decidable (Matches memory str p) :=
  inferInstanceAs (Decidable (_∧_∧_))

/-- The qstr of a string in a chain of pools, or zero. -/
def findStrnIn (memory : ℕ→ℕ) (str : List ℕ) : List QstrPool→ℕ
  | [] => 0
  | pool::prev =>
    match pool.qstrs.findIdx? fun p => decide (Matches memory str p) with
    | some i => pool.totalPrevLen+i
    | none => findStrnIn memory str prev

/-- The qstr of a string, or zero. -/
def qstrFindStrn (vm : Vm) (str : List ℕ) : ℕ := findStrnIn vm.memory str vm.pools

/-- The end of qstr_add: a pointer is put into the last pool, which has room. -/
def append (vm : Vm) (qPtr : ℕ) : Vm×Except ℕ ℕ :=
  ({vm with lastPool := {vm.lastPool with qstrs := vm.lastPool.qstrs++[.ram qPtr]}},
    .ok (vm.lastPool.totalPrevLen+(vm.lastPool.qstrs.length+1)-1))

/-- A qstr is added. A full pool is followed by one of twice its size. Where there is no
memory for it, the error has the argument of m_malloc_fail. -/
def qstrAdd (vm : Vm) (qPtr : ℕ) (ans : Answer) : Vm×Except ℕ ℕ :=
  if vm.lastPool.qstrs.length≥vm.lastPool.alloc then
    let alloc := vm.lastPool.alloc*2
    match vm.heap.alloc (vm.live [qPtr]) ans (poolBytes alloc) with
    | (heap,none) => ({vm with heap := heap},.error alloc)
    | (heap,some pool) =>
      append {vm with
        heap := heap
        lastPool := {
          head := some pool
          totalPrevLen := vm.lastPool.totalPrevLen+vm.lastPool.qstrs.length
          alloc := alloc
          qstrs := []}
        prev := vm.lastPool::vm.prev} qPtr
  else append vm qPtr

/-- The answers of the allocator in one call of qstr_from_strn. -/
structure Answers where
  /-- Whether the chunk can grow. -/
  grow : Bool
  /-- Whether the chunk can shrink. -/
  shrink : Bool
  /-- The answer for a chunk of the preferred size. -/
  large : Answer
  /-- The answer for a chunk of the size needed. -/
  exact : Answer
  pool : Answer

/-- The first part of qstr_from_strn: a chunk without room grows where it is, or shrinks
to what is used and is given up. -/
def growChunk (vm : Vm) (nBytes : ℕ) (ans : Answers) : Vm :=
  match vm.qstrLastChunk with
  | none => vm
  | some chunk =>
    if vm.qstrLastUsed+nBytes>vm.qstrLastAlloc then
      let newP := if ans.grow then vm.heap.resize chunk (vm.qstrLastAlloc+nBytes) else none
      match newP with
      | none =>
        let shrunk := if ans.shrink then vm.heap.resize chunk vm.qstrLastUsed else none
        {vm with
          heap := shrunk.getD vm.heap
          qstrLastChunk := none}
      | some heap =>
        {vm with
          heap := heap
          qstrLastAlloc := vm.qstrLastAlloc+nBytes}
    else vm

/-- The size of a new chunk, which is MICROPY_ALLOC_QSTR_CHUNK_INIT where this is enough. -/
def chunkSize (nBytes : ℕ) : ℕ := if nBytes<128 then 128 else nBytes

/-- The second part of qstr_from_strn: without a chunk a new one is allocated. The chunk
is still missing where there is no memory. -/
def newChunk (vm : Vm) (nBytes : ℕ) (ans : Answers) : Vm :=
  match vm.qstrLastChunk with
  | some _ => vm
  | none =>
    match vm.heap.alloc (vm.live []) ans.large (chunkSize nBytes) with
    | (heap,some chunk) =>
      {vm with
        heap := heap
        qstrLastChunk := some chunk
        qstrLastAlloc := chunkSize nBytes
        qstrLastUsed := 0}
    | (heap,none) =>
      match heap.alloc (vm.live []) ans.exact nBytes with
      | (heap,some chunk) =>
        {vm with
          heap := heap
          qstrLastChunk := some chunk
          qstrLastAlloc := nBytes
          qstrLastUsed := 0}
      | (heap,none) => {vm with heap := heap}

/-- The third part of qstr_from_strn: the bytes of the string are stored in the chunk. -/
def storeString (vm : Vm) (qPtr : ℕ) (str : List ℕ) : Vm :=
  let memory := qSetHash vm.memory qPtr (qstrComputeHash str)
  let memory := qSetLength memory qPtr str.length
  let memory := store memory (qPtr+2+1) str
  let memory := store memory (qPtr+2+1+str.length) [0]
  {vm with
    qstrLastUsed := vm.qstrLastUsed+qAlloc str.length
    memory := memory}

/-- The qstr of a string, which is added if there is none. The error is the number of
bytes that could not be allocated. -/
def qstrFromStrn (vm : Vm) (str : List ℕ) (ans : Answers) : Vm×Except ℕ ℕ :=
  let q := qstrFindStrn vm str
  if q=0 then
    let nBytes := qAlloc str.length
    let vm := newChunk (growChunk vm nBytes ans) nBytes ans
    match vm.qstrLastChunk with
    | none => (vm,.error nBytes)
    | some chunk =>
      let qPtr := chunk+vm.qstrLastUsed
      qstrAdd (storeString vm qPtr str) qPtr ans.pool
  else (vm,.ok q)

/-- A caller begins a string of a length and gets the buffer for it. -/
def qstrBuildStart (vm : Vm) (len : ℕ) (ans : Answer) : Vm×Except ℕ ℕ :=
  match vm.heap.alloc (vm.live []) ans (qAlloc len) with
  | (heap,none) => ({vm with heap := heap},.error (qAlloc len))
  | (heap,some qPtr) =>
    ({vm with
      heap := heap
      memory := qSetLength vm.memory qPtr len
      buffers := ⟨qPtr,qAlloc len⟩::vm.buffers},.ok qPtr)

/-- The buffer of a caller, who has stored the string in it, becomes a qstr, or is freed
where there is one already. -/
def qstrBuildEnd (vm : Vm) (qPtr : ℕ) (ans : Answer) : Vm×Except ℕ ℕ :=
  let len := qGetLength (peek vm.memory (.ram qPtr))
  let data := qGetData (peek vm.memory (.ram qPtr)) len
  let q := qstrFindStrn vm data
  if q=0 then
    let memory := qSetHash vm.memory qPtr (qstrComputeHash data)
    let memory := store memory (qPtr+2+1+len) [0]
    qstrAdd {vm with memory := memory} qPtr ans
  else ({vm with heap := vm.heap.free qPtr},.ok q)

/-- The hash of a qstr. -/
def qstrHash (vm : Vm) (q : ℕ) : Option ℕ :=
  (findQstr vm q).map fun qd => qGetHash (peek vm.memory qd)

/-- The length of a qstr. -/
def qstrLen (vm : Vm) (q : ℕ) : Option ℕ :=
  (findQstr vm q).map fun qd => qGetLength (peek vm.memory qd)

/-- The bytes of a qstr, as many as its length says. -/
def qstrData (vm : Vm) (q : ℕ) : Option (List ℕ) :=
  (findQstr vm q).map fun qd => qGetData (peek vm.memory qd) (qGetLength (peek vm.memory qd))

/-- The strings that are in ROM: those of the generated table of qstr.c after
MP_QSTR_NULL, and those of MICROPY_QSTR_EXTRA_POOL, if there is one. -/
structure Rom where
  /-- The strings of mp_qstr_const_pool. -/
  const : List (List ℕ)
  /-- The strings of the frozen pool. -/
  frozen : List (List ℕ)
  /-- The comment at mp_qstr_const_pool: its alloc must be at most its len. -/
  ten_le : 10≤const.length+1
  /-- No string is generated twice. -/
  nodup : (const++frozen).Nodup
  /-- The generator checks the lengths. -/
  short : ∀ s∈const++frozen,s.length<256

/-- MP_QSTR_NULL, whose hash is zero. -/
def mpQstrNull : Ptr := .rom [0,0,0,0]

/-- mp_qstr_const_pool. -/
def mpQstrConstPool (rom : Rom) : QstrPool where
  head := none
  totalPrevLen := 0
  alloc := 10
  qstrs := mpQstrNull::rom.const.map fun s => .rom (entry s)

/-- The pool that mpy-tool.py generates. -/
def mpQstrFrozenConstPool (rom : Rom) : QstrPool where
  head := none
  totalPrevLen := rom.const.length+1
  alloc := rom.frozen.length
  qstrs := rom.frozen.map fun s => .rom (entry s)

/-- qstr_init, with whatever is in RAM. -/
def qstrInit (rom : Rom) (memory : ℕ→ℕ) (heap : Heap) : Vm :=
  let vm : Vm := {
    lastPool := mpQstrConstPool rom
    prev := []
    qstrLastChunk := none
    qstrLastAlloc := 0
    qstrLastUsed := 0
    memory := memory
    heap := heap
    buffers := []}
  if rom.frozen=[] then vm
  else {vm with
    lastPool := mpQstrFrozenConstPool rom
    prev := [mpQstrConstPool rom]}

/-- A hash fits into two bytes. -/
theorem qstrComputeHash_lt (data : List ℕ) : qstrComputeHash data<65536 := by
  unfold qstrComputeHash
  generalize data.foldl _ 5381=hash
  have hmask : hash &&& 0xffff<65536 := lt_succ_of_le and_le_right
  dsimp only
  split
  · omega
  · exact hmask

theorem qstrComputeHash_ne_zero (data : List ℕ) : qstrComputeHash data≠0 := by
  unfold qstrComputeHash
  generalize data.foldl _ 5381=hash
  dsimp only
  split
  case isTrue h => omega
  case isFalse h => exact h

/-- Two bytes of a number. -/
theorem bytes_or {n : ℕ} (h : n<65536) : n%256|||(n>>>8%256)<<<8=n := by
  have hhigh : n>>>8%256=n/256 := by
    rw [shiftRight_eq_div_pow]
    omega
  have hlow : n%256<2^8 := mod_lt n (by decide)
  rw [hhigh,Nat.or_comm,←Nat.shiftLeft_add_eq_or_of_lt hlow,Nat.shiftLeft_eq]
  omega

/-- The size of the bytes of a qstr. -/
@[simp]
theorem length_entry (str : List ℕ) : (entry str).length=qAlloc str.length := by
  rw [entry,length_append,length_append,qAlloc]
  rfl

/-- The bytes at a pointer are those of a string. -/
def Holds (memory : ℕ→ℕ) (p : Ptr) (str : List ℕ) : Prop :=
  load (peek memory p) 0 (qAlloc str.length)=entry str

variable {memory memory' : ℕ→ℕ} {p : Ptr} {str : List ℕ}

/-- The bytes of a literal do not depend on the memory. -/
theorem holds_rom (memory : ℕ→ℕ) (str : List ℕ) : Holds memory (.rom (entry str)) str := by
  refine ext_getElem ?_ fun i hi hi' => ?_
  · rw [length_load,length_entry]
  · refine Option.some.inj ?_
    rw [←List.getElem?_eq_getElem hi,length_load] at *
    rw [getElem?_load hi,zero_add,peek,getD_eq_getElem _ _ hi']

/-- The bytes at an address. -/
theorem holds_ram {q : ℕ} :
    Holds memory (.ram q) str↔load memory q (qAlloc str.length)=entry str := by
  have hload : load (peek memory (.ram q)) 0 (qAlloc str.length)=
      load memory q (qAlloc str.length) := by
    refine map_congr_left fun i _ => ?_
    rw [peek,zero_add]
  rw [Holds,hload]

section

variable (h : Holds memory p str)
include h

theorem Holds.byte {i b : ℕ} (hb : (entry str)[i]?=some b) :
    peek memory p i=b := by
  have hi : i<qAlloc str.length := by
    rw [←length_entry]
    exact (List.getElem?_eq_some_iff.mp hb).1
  have hload := @getElem?_load _ (peek memory p) 0 _ _ hi
  rw [show load (peek memory p) 0 (qAlloc str.length)=entry str from h,hb,zero_add] at hload
  exact (Option.some.inj hload).symm

theorem Holds.hash : qGetHash (peek memory p)=qstrComputeHash str := by
  rw [qGetHash,h.byte (i := 0) rfl,h.byte (i := 1) rfl]
  exact bytes_or (qstrComputeHash_lt str)

theorem Holds.length : qGetLength (peek memory p)=str.length%256 :=
  h.byte rfl

/-- The bytes after hash and length. -/
theorem Holds.data {n : ℕ} (hn : n ≤ str.length) :
    qGetData (peek memory p) n=str.take n := by
  refine ext_getElem? fun i => ?_
  by_cases hi : i<n
  · have hlt : i < str.length := by omega
    have hbyte : peek memory p (3+i)=str[i] := by
      refine h.byte ?_
      rw [add_comm,entry,append_assoc,List.getElem?_append_right (le_add_left 3 i)]
      exact (List.getElem?_append_left hlt).trans (List.getElem?_eq_getElem hlt)
    rw [qGetData,getElem?_load hi,hbyte,List.getElem?_take_of_lt hi,List.getElem?_eq_getElem hlt]
  · rw [List.getElem?_eq_none,List.getElem?_eq_none]
    · rw [length_take]
      omega
    · rw [qGetData,length_load]
      omega

/-- What the test of qstr_find_strn says about a string that was stored. -/
theorem Holds.matches_iff (find : List ℕ) :
    Matches memory find p↔qstrComputeHash str=qstrComputeHash find∧
      str.length%256=find.length∧str.take find.length=find := by
  rw [Matches,h.hash,h.length]
  refine and_congr_right fun _ => and_congr_right fun hlen => ?_
  have hle : find.length ≤ str.length := by
    omega
  rw [h.data hle]

/-- A short string is found where it was stored, and no other. -/
theorem Holds.matches_iff_eq (hstr : str.length<256)
    (find : List ℕ) : Matches memory find p↔str=find := by
  rw [h.matches_iff,mod_eq_of_lt hstr]
  constructor
  · rintro ⟨_,hlen,htake⟩
    rw [←hlen,take_length] at htake
    exact htake
  · intro heq
    rw [heq]
    exact ⟨rfl,rfl,take_length⟩

/-- A string of 256 bytes is never found. -/
theorem Holds.not_matches {find : List ℕ} (hfind : 256≤find.length) :
    ¬Matches memory find p := by
  rw [h.matches_iff]
  rintro ⟨_,hlen,_⟩
  omega

end

/-- The null qstr is never found, as its hash is zero. -/
theorem not_matches_mpQstrNull (memory : ℕ→ℕ) (find : List ℕ) :
    ¬Matches memory find mpQstrNull := by
  rintro ⟨hhash,_⟩
  have hzero : qGetHash (peek memory mpQstrNull)=0 := show (0:ℕ)|||0<<<8=0 by decide
  rw [hzero] at hhash
  exact qstrComputeHash_ne_zero find hhash.symm

/-- The pools know how many qstrs are before them. -/
def Numbered : List QstrPool→Prop
  | [] => True
  | pool::prev => pool.totalPrevLen=(qstrsOf prev).length∧Numbered prev

theorem findQstrIn_eq {pools : List QstrPool} (h : Numbered pools) (q : ℕ) :
    findQstrIn pools q=(qstrsOf pools)[q]? := by
  induction pools with
  | nil => rfl
  | cons pool prev ih =>
    rw [findQstrIn,qstrsOf,h.1]
    by_cases hq : (qstrsOf prev).length≤q
    · rw [if_pos hq,List.getElem?_append_right hq]
    · rw [if_neg hq,ih h.2,List.getElem?_append_left (Nat.lt_of_not_le hq)]

/-- What the search for a string finds is a qstr that passes the test. -/
theorem findStrnIn_eq {pools : List QstrPool} (h : Numbered pools) (str : List ℕ) :
    (findStrnIn memory str pools=0∧
        ∀ p∈qstrsOf pools,¬Matches memory str p)∨
      ∃ p,(qstrsOf pools)[findStrnIn memory str pools]?=some p∧Matches memory str p := by
  induction pools with
  | nil => exact .inl ⟨rfl,fun p hp => absurd hp not_mem_nil⟩
  | cons pool prev ih =>
    rw [findStrnIn]
    cases hfind : pool.qstrs.findIdx? (fun p => decide (Matches memory str p)) with
    | some i =>
      obtain ⟨hi,hmatch,_⟩ := List.findIdx?_eq_some_iff_getElem.mp hfind
      refine .inr ⟨pool.qstrs[i],?_,decide_eq_true_iff.mp hmatch⟩
      rw [qstrsOf,h.1,List.getElem?_append_right (Nat.le_add_right _ i),Nat.add_sub_cancel_left]
      exact List.getElem?_eq_getElem hi
    | none =>
      have hnone := List.findIdx?_eq_none_iff.mp hfind
      rcases ih h.2 with ⟨hzero,hprev⟩ | ⟨p,hp,hmatch⟩
      · refine .inl ⟨hzero,fun p hp => ?_⟩
        rw [qstrsOf] at hp
        rcases mem_append.mp hp with hold | hnew
        · exact hprev p hold
        · exact of_decide_eq_false (hnone p hnew)
      · refine .inr ⟨p,?_,hmatch⟩
        have hlt := (List.getElem?_eq_some_iff.mp hp).1
        rw [qstrsOf,List.getElem?_append_left hlt]
        exact hp

/-- A qstr is put behind all others. -/
theorem qstrsOf_append (pool : QstrPool) (prev : List QstrPool) (p : Ptr) :
    qstrsOf ({pool with qstrs := pool.qstrs++[p]}::prev)=qstrsOf (pool::prev)++[p] := by
  rw [qstrsOf,qstrsOf,append_assoc]

/-- The pools in ROM hold MP_QSTR_NULL and the generated strings. -/
theorem qstrsOf_qstrInit (rom : Rom) (memory : ℕ→ℕ) (heap : Heap) :
    Numbered (qstrInit rom memory heap).pools∧qstrsOf (qstrInit rom memory heap).pools=
        mpQstrNull::(rom.const++rom.frozen).map fun s => .rom (entry s) := by
  unfold qstrInit
  split
  case isTrue h =>
    refine ⟨⟨rfl,trivial⟩,?_⟩
    rw [h,append_nil]
    rfl
  case isFalse h =>
    refine ⟨⟨?_,rfl,trivial⟩,?_⟩
    · show rom.const.length+1=([]++mpQstrNull::rom.const.map fun s => .rom (entry s)).length
      rw [nil_append,length_cons,length_map]
    · rw [map_append]
      rfl

end MicroPython.Qstr
