import Mathlib.Data.Nat.Bitwise
import MicroPython.InputMachine

/-!
# Ring buffers

A queue of bytes lies in a buffer from one place on and around its end. One slot stays free, so
that a full buffer differs from an empty one. The buffer of the interpreter compares its indices
with its size, and the one of the board masks them.
-/

namespace MicroPython.RingBuffers

open List InputMachine

/-- What can be done with a queue of bytes. -/
inductive Op where
  | put (v : UInt8)
  | get

/-- A queue that holds a number of bytes at most. What cannot be done gives -1. -/
def fifoStep (capacity : ℕ) (q : List UInt8) : Op→Except Unit (List UInt8×ℤ)
  | .put v => .ok (if q.length=capacity then (q,-1) else (q++[v],0))
  | .get =>
    match q with
    | [] => .ok ([],-1)
    | v::q => .ok (q,v.toNat)

/-! ## The buffer of the interpreter -/

/-- `ringbuf_t` -/
structure Ringbuf where
  /-- `buf` -/
  buf : List UInt8
  /-- `size` -/
  size : UInt16
  /-- `iget` -/
  iget : UInt16
  /-- `iput` -/
  iput : UInt16

/-- `ringbuf_alloc`, with what the memory holds. -/
def ringbufAlloc (buf : List UInt8) (sz : UInt16) : Ringbuf := ⟨buf,sz,0,0⟩

/-- `ringbuf_get`. It is a fault to read outside the buffer. -/
def ringbufGet (r : Ringbuf) : Except Unit (Ringbuf×ℤ) :=
  if r.iget=r.iput then .ok (r,-1)
  else
    match r.buf[r.iget.toNat]? with
    | none => .error ()
    | some v => .ok ({r with iget := if r.size ≤ r.iget+1 then 0 else r.iget+1},v.toNat)

/-- `ringbuf_put`. It is a fault to write outside the buffer. -/
def ringbufPut (r : Ringbuf) (v : UInt8) : Except Unit (Ringbuf×ℤ) :=
  let iputNew : UInt32 :=
    if r.size.toUInt32 ≤ r.iput.toUInt32+1 then 0 else r.iput.toUInt32+1
  if iputNew=r.iget.toUInt32 then .ok (r,-1)
  else if r.iput.toNat<r.buf.length then
    .ok ({r with buf := r.buf.set r.iput.toNat v,iput := iputNew.toUInt16},0)
  else .error ()

/-- A call of one of the two. -/
def ringbufStep (r : Ringbuf) : Op→Except Unit (Ringbuf×ℤ)
  | .put v => ringbufPut r v
  | .get => ringbufGet r

/-! ## The buffer of the board -/

/-- `codey_ring_buf_t` -/
structure CodeyRingBuf where
  /-- `size`, less one -/
  size : UInt32
  /-- `iput` -/
  iput : UInt32
  /-- `iget` -/
  iget : UInt32
  /-- `buf` -/
  buf : List UInt8

/-- `RING_BUF_INIT` -/
def ringBufInit (b : List UInt8) (s : ℕ) : CodeyRingBuf := ⟨UInt32.ofNat (s-1),0,0,b⟩

/-- `RING_BUF_IS_FULL` -/
def ringBufIsFull (r : CodeyRingBuf) : Bool := (r.iput+1)&&&r.size==r.iget

/-- `RING_BUF_IS_EMPTY` -/
def ringBufIsEmpty (r : CodeyRingBuf) : Bool := r.iput==r.iget

/-- `codey_ring_buf_get`. It is a fault to read outside the buffer. -/
def codeyRingBufGet (r : CodeyRingBuf) : Except Unit (CodeyRingBuf×ℤ) :=
  match r.buf[r.iget.toNat]? with
  | none => .error ()
  | some v => .ok ({r with iget := (r.iget+1)&&&r.size},v.toNat)

/-- `codey_ring_buf_put`. It is a fault to write outside the buffer. -/
def codeyRingBufPut (r : CodeyRingBuf) (v : UInt8) : Except Unit (CodeyRingBuf×ℤ) :=
  if r.iput.toNat<r.buf.length then
    .ok ({r with buf := r.buf.set r.iput.toNat v,iput := (r.iput+1)&&&r.size},0)
  else .error ()

/-- A call of one of the two, when the buffer is not full or empty. -/
def codeyStep (r : CodeyRingBuf) : Op→Except Unit (CodeyRingBuf×ℤ)
  | .put v => if ringBufIsFull r=true then .ok (r,-1) else codeyRingBufPut r v
  | .get => if ringBufIsEmpty r=true then .ok (r,-1) else codeyRingBufGet r

/-! ## Queues in a buffer -/

/-- A place behind another one, around the end of a buffer. -/
def place (size i : ℕ) : ℕ := if i<size then i else i-size

/-- A queue lies in a buffer from one index up to the other. -/
structure Queued (cells : List UInt8) (iget iput : ℕ) (q : List UInt8) : Prop where
  /-- The first index is in the buffer. -/
  inside : iget<cells.length
  /-- A slot is free. -/
  room : q.length<cells.length
  /-- The second index is behind the bytes of the queue. -/
  next : iput=place cells.length (iget+q.length)
  /-- They lie in order. -/
  held : ∀ i<q.length,cells[place cells.length (iget+i)]?=q[i]?

variable {cells q : List UInt8} {iget iput : ℕ}

/-- A byte is put behind the queue. -/
theorem Queued.put (h : Queued cells iget iput q) (v : UInt8) : iput<cells.length∧
    (place cells.length (iput+1)=iget↔q.length=cells.length-1)∧
    (q.length≠cells.length-1 →
      Queued (cells.set iput v) iget (place cells.length (iput+1)) (q++[v])) := by
  obtain ⟨hinside,hroom,rfl,hheld⟩ := h
  refine ⟨?_,?_,fun hmore => ⟨?_,?_,?_,fun i hi => ?_⟩⟩
  · rw [place]; split <;> omega
  · simp only [place]; split_ifs <;> omega
  · rw [length_set]; exact hinside
  · rw [length_set,length_append,length_singleton]; omega
  · rw [length_set,length_append,length_singleton]
    simp only [place]
    split_ifs <;> omega
  · rw [length_append,length_singleton] at hi
    rw [length_set]
    by_cases hlast : i=q.length
    · subst hlast
      rw [getElem?_set_self (by rw [place]; split <;> omega)]
      simp
    · rw [getElem?_set_ne (by simp only [place]; split_ifs <;> omega),hheld i (by omega),
        getElem?_append_left (by omega)]

/-- The first byte of the queue is taken. -/
theorem Queued.get (h : Queued cells iget iput q) : (iget=iput↔q=[])∧∀ v rest,q=v::rest →
    cells[iget]?=some v∧Queued cells (place cells.length (iget+1)) iput rest := by
  obtain ⟨hinside,hroom,rfl,hheld⟩ := h
  refine ⟨?_,?_⟩
  · rw [←length_eq_zero_iff,place]
    split <;> omega
  · rintro v rest rfl
    rw [length_cons] at hroom
    refine ⟨?_,?_,by omega,?_,fun i hi => ?_⟩
    · have hfirst := hheld 0 (Nat.succ_pos _)
      rw [Nat.add_zero,place,if_pos hinside] at hfirst
      exact hfirst
    · rw [place]; split <;> omega
    · rw [length_cons]
      simp only [place]
      split_ifs <;> omega
    · have hnext := hheld (i+1) (Nat.succ_lt_succ hi)
      rw [getElem?_cons_succ] at hnext
      rw [←hnext]
      congr 1
      simp only [place]
      split_ifs <;> omega

/-! ## Both buffers are queues -/

/-- The next index of the interpreter's buffer. -/
theorem iputNew_toNat {size i : UInt16} (h : i.toNat<size.toNat) :
    (if size.toUInt32 ≤ i.toUInt32+1 then 0 else i.toUInt32+1 : UInt32).toNat=
      place size.toNat (i.toNat+1) := by
  have hsize := size.toNat_lt
  have hnext : (i.toUInt32+1).toNat=i.toNat+1 := by
    rw [UInt32.toNat_add,UInt16.toNat_toUInt32]
    exact Nat.mod_eq_of_lt (by simp; omega)
  simp only [UInt32.le_iff_toNat_le,UInt16.toNat_toUInt32,hnext,place]
  split_ifs
  · omega
  · rw [UInt32.toNat_zero]; omega
  · exact hnext
  · omega

/-- The next index as 16 bits. -/
theorem igetNew_toNat {size i : UInt16} (h : i.toNat<size.toNat) :
    (if size ≤ i+1 then 0 else i+1 : UInt16).toNat=place size.toNat (i.toNat+1) := by
  have hsize := size.toNat_lt
  have hnext : (i+1).toNat=i.toNat+1 := by
    rw [UInt16.toNat_add]
    exact Nat.mod_eq_of_lt (by simp; omega)
  simp only [UInt16.le_iff_toNat_le,hnext,place]
  split_ifs
  · omega
  · rw [UInt16.toNat_zero]; omega
  · exact hnext
  · omega

/-- A queue lies in the interpreter's buffer. -/
def RingbufHolds (size : UInt16) (r : Ringbuf) (q : List UInt8) : Prop :=
  r.size=size∧r.buf.length=size.toNat∧Queued r.buf r.iget.toNat r.iput.toNat q

/-- A call on the interpreter's buffer is one on a queue. -/
theorem ringbufStep_fifo {size : UInt16} (r : Ringbuf) (q : List UInt8) (op : Op)
    (h : RingbufHolds size r q) : ∃ r' q' o,ringbufStep r op=.ok (r',o)∧
      fifoStep (size.toNat-1) q op=.ok (q',o)∧RingbufHolds size r' q' := by
  obtain ⟨rfl,hlen,hq⟩ := h
  have hinside := hq.inside
  have hsize := r.size.toNat_lt
  rw [hlen] at hinside
  cases op with
  | put v =>
    obtain ⟨hput,hfull,hqueued⟩ := hq.put v
    rw [hlen] at hput hfull hqueued
    have hnew := iputNew_toNat hput
    simp only [ringbufStep,ringbufPut,fifoStep,←UInt32.toNat_inj,hnew,UInt16.toNat_toUInt32,hfull]
    by_cases hroom : q.length=r.size.toNat-1
    · exact ⟨r,q,-1,by rw [if_pos hroom],by rw [if_pos hroom],rfl,hlen,hq⟩
    · simp only [if_neg hroom,if_pos (hlen ▸ hput)]
      refine ⟨_,_,_,rfl,rfl,rfl,by rw [length_set,hlen],?_⟩
      dsimp only
      rw [UInt32.toNat_toUInt16,hnew,Nat.mod_eq_of_lt (by rw [place]; split <;> omega)]
      exact hqueued hroom
  | get =>
    obtain ⟨hempty,htake⟩ := hq.get
    simp only [ringbufStep,ringbufGet,←UInt16.toNat_inj,hempty]
    cases q with
    | nil => exact ⟨r,[],-1,by rw [if_pos rfl],rfl,rfl,hlen,hq⟩
    | cons v rest =>
      obtain ⟨hfirst,hrest⟩ := htake v rest rfl
      simp only [if_neg (cons_ne_nil v rest),hfirst]
      refine ⟨_,_,_,rfl,rfl,rfl,hlen,?_⟩
      dsimp only
      rw [igetNew_toNat hinside,←hlen]
      exact hrest

/-- The next index of the board's buffer. -/
theorem masked_toNat {k : ℕ} (hk : k ≤ 32) {i : UInt32} (h : i.toNat<2^k) :
    ((i+1)&&&UInt32.ofNat (2^k-1)).toNat=place (2^k) (i.toNat+1) := by
  have hle : 2^k ≤ 2^32 := Nat.pow_le_pow_right (by decide) hk
  have hpos := Nat.two_pow_pos k
  rw [UInt32.toNat_and,UInt32.toNat_add,UInt32.toNat_ofNat_of_lt' (by
    rw [UInt32.size]; omega),Nat.and_two_pow_sub_one_eq_mod,
    Nat.mod_mod_of_dvd _ (Nat.pow_dvd_pow 2 hk),UInt32.toNat_one,place]
  split
  case isTrue hlt => exact Nat.mod_eq_of_lt hlt
  case isFalse hge =>
    rw [show i.toNat+1=2^k by omega,Nat.mod_self,Nat.sub_self]

/-- A queue lies in the board's buffer. -/
def CodeyHolds (k : ℕ) (r : CodeyRingBuf) (q : List UInt8) : Prop :=
  r.size=UInt32.ofNat (2^k-1)∧r.buf.length=2^k∧Queued r.buf r.iget.toNat r.iput.toNat q

/-- A guarded call on the board's buffer is one on a queue, and the guards are right. -/
theorem codeyStep_fifo {k : ℕ} (hk : k ≤ 32) (r : CodeyRingBuf) (q : List UInt8) (op : Op)
    (h : CodeyHolds k r q) :
    ((ringBufIsFull r=true↔q.length=2^k-1)∧(ringBufIsEmpty r=true↔q=[]))∧
      ∃ r' q' o,codeyStep r op=.ok (r',o)∧fifoStep (2^k-1) q op=.ok (q',o)∧CodeyHolds k r' q' := by
  obtain ⟨hsize,hlen,hq⟩ := h
  have hinside := hq.inside
  rw [hlen] at hinside
  obtain ⟨hput,hfull,_⟩ := hq.put 0
  rw [hlen] at hput hfull
  have hisFull : ringBufIsFull r=true↔q.length=2^k-1 := by
    rw [ringBufIsFull,beq_iff_eq,←UInt32.toNat_inj,hsize,masked_toNat hk hput,hfull]
  have hisEmpty : ringBufIsEmpty r=true↔q=[] := by
    rw [ringBufIsEmpty,beq_iff_eq,←UInt32.toNat_inj,eq_comm,hq.get.1]
  refine ⟨⟨hisFull,hisEmpty⟩,?_⟩
  cases op with
  | put v =>
    have hqueued := (hq.put v).2.2
    simp only [codeyStep,codeyRingBufPut,fifoStep,hisFull]
    by_cases hroom : q.length=2^k-1
    · exact ⟨r,q,-1,by rw [if_pos hroom],by rw [if_pos hroom],hsize,hlen,hq⟩
    · simp only [if_neg hroom,if_pos (hlen ▸ hput)]
      refine ⟨_,_,_,rfl,rfl,hsize,by rw [length_set,hlen],?_⟩
      dsimp only
      rw [hsize,masked_toNat hk hput,←hlen]
      exact hqueued (hlen ▸ hroom)
  | get =>
    simp only [codeyStep,codeyRingBufGet,hisEmpty]
    cases q with
    | nil => exact ⟨r,[],-1,by rw [if_pos rfl],rfl,hsize,hlen,hq⟩
    | cons v rest =>
      obtain ⟨hfirst,hrest⟩ := hq.get.2 v rest rfl
      simp only [if_neg (cons_ne_nil v rest),hfirst]
      refine ⟨_,_,_,rfl,rfl,hsize,hlen,?_⟩
      dsimp only
      rw [hsize,masked_toNat hk hinside,←hlen]
      exact hrest

/-- A new buffer holds nothing. -/
theorem queued_nil (hpos : 0<cells.length) : Queued cells 0 0 [] :=
  ⟨hpos,hpos,by rw [place,length_nil,if_pos hpos],fun i hi => absurd hi (Nat.not_lt_zero i)⟩

/-- Over every sequence of calls both buffers give what a queue gives that holds one byte less than
their size, and the guards of the board's buffer tell when it is full and when it is empty. -/
theorem ringBuffers_fifo (buf : List UInt8) (ops : List Op) :
    (∀ size : UInt16,0<size → buf.length=size.toNat → ∃ r q os,
      run ringbufStep (ringbufAlloc buf size) ops=.ok (r,os)∧
        run (fifoStep (size.toNat-1)) [] ops=.ok (q,os))∧
      ∀ k ≤ 32,buf.length=2^k → ∃ r q os,run codeyStep (ringBufInit buf (2^k)) ops=.ok (r,os)∧
          run (fifoStep (2^k-1)) [] ops=.ok (q,os)∧
            (ringBufIsFull r=true↔q.length=2^k-1)∧(ringBufIsEmpty r=true↔q=[]) := by
  refine ⟨fun size hpos hlen => ?_,fun k hk hlen => ?_⟩
  · have hnew : RingbufHolds size (ringbufAlloc buf size) [] :=
      ⟨rfl,hlen,queued_nil (hlen ▸ hpos)⟩
    obtain ⟨r,q,os,hr,hq,_⟩ := run_refines ringbufStep_fifo hnew ops
    exact ⟨r,q,os,hr,hq⟩
  · have hnew : CodeyHolds k (ringBufInit buf (2^k)) [] :=
      ⟨rfl,hlen,queued_nil (hlen ▸ Nat.two_pow_pos k)⟩
    obtain ⟨r,q,os,hr,hq,h⟩ := run_refines (fun r q op h => (codeyStep_fifo hk r q op h).2) hnew ops
    exact ⟨r,q,os,hr,hq,(codeyStep_fifo hk r q .get h).1⟩

/-- A buffer of two bytes holds one. -/
theorem ringBuffers_two : ∃ r q os,
    run ringbufStep (ringbufAlloc [0,0] 2) [.put 7,.put 8,.get,.get]=.ok (r,os)∧
      run (fifoStep 1) [] [.put 7,.put 8,.get,.get]=.ok (q,os) :=
  (ringBuffers_fifo [0,0] [.put 7,.put 8,.get,.get]).1 2 (by decide) rfl

end MicroPython.RingBuffers
