import MicroPython.InputMachine
import MicroPython.RingHistory

/-!
# The buffer of received infrared codes

`codey_rmt_board.c` keeps the codes that come in a ring of 128 cells, with the index of the
next cell and the number of codes, which has eight bits.
-/

namespace MicroPython.IrBuffer

open Nat InputMachine RingHistory

/-- `RMT_REC_DATA_BUFFER_LEN` -/
def rmtRecDataBufferLen : ℕ := 128

/-- `CHAR_STRING_END` -/
def charStringEnd : UInt8 := 0x0A

/-- `codey_rmt_board_receive_item_t` -/
structure ReceiveItem where
  /-- `addr_a` -/
  address : UInt16
  /-- `cmd_a` -/
  command : UInt16
  deriving DecidableEq

/-- `cmd_b[0]`, the low byte of a command. -/
def ReceiveItem.cmdB0 (item : ReceiveItem) : UInt8 := item.command.toUInt8

/-- `codey_rmt_board_receive_data_buffer_t` -/
structure ReceiveDataBuffer where
  /-- `index`, the next cell to be written. -/
  index : UInt8
  /-- `buffer_over_flag` -/
  bufferOverFlag : Bool
  /-- `data_receive_num` -/
  dataReceiveNum : UInt8
  /-- `data_latest` -/
  dataLatest : ReceiveItem
  /-- `data_history` -/
  dataHistory : Vector ReceiveItem rmtRecDataBufferLen

/-- An index outside of `data_history`. -/
inductive Fault where
  | dataHistory
  deriving DecidableEq

/-- `data_history[i]` -/
def ReceiveDataBuffer.read (b : ReceiveDataBuffer) (i : ℤ) : Except Fault ReceiveItem :=
  if h : 0 ≤ i∧i < rmtRecDataBufferLen then .ok (b.dataHistory.get ⟨i.toNat,by omega⟩)
  else .error .dataHistory

/-- Some items to be pushed, the number of which has eight bits. -/
structure Batch where
  items : List ReceiveItem
  /-- `size` -/
  length_lt : items.length < 256

/-- The loop of the push. -/
def pushLoop (index : UInt8) (history : Vector ReceiveItem rmtRecDataBufferLen) :
    List ReceiveItem→Except Fault (UInt8×Vector ReceiveItem rmtRecDataBufferLen)
  | [] => .ok (index,history)
  | item::items =>
    if h : index.toNat < rmtRecDataBufferLen then
      pushLoop ((index+1)%128) (history.set index.toNat item h) items
    else .error .dataHistory

/-- `codey_rmt_board_receive_data_buffer_push_t` -/
def ReceiveDataBuffer.push (b : ReceiveDataBuffer) (batch : Batch) :
    Except Fault ReceiveDataBuffer :=
  if batch.items.length=0 then .ok b
  else do
    let (index,history) ← pushLoop b.index b.dataHistory batch.items
    let num := b.dataReceiveNum+.ofNat batch.items.length
    .ok {
      dataLatest := batch.items.getLastD b.dataLatest
      dataHistory := history
      index := index
      dataReceiveNum := num
      bufferOverFlag := if num.toNat > rmtRecDataBufferLen then true else b.bufferOverFlag}

/-- The index before one, around the ring. -/
def before (index : UInt8) : UInt8 := if index=0 then 128-1 else index-1

/-- The loop of the get, over a number of items. -/
def getLoop (b : ReceiveDataBuffer) : ℕ→UInt8→Except Fault (List ReceiveItem)
  | 0,_ => .ok []
  | n+1,index => do
    let item ← b.read index.toNat
    let items ← getLoop b n (before index)
    .ok (item::items)

/-- The number of items that can be taken out. -/
def ReceiveDataBuffer.dataNum (b : ReceiveDataBuffer) : ℕ :=
  if b.dataReceiveNum.toNat > rmtRecDataBufferLen then rmtRecDataBufferLen
  else b.dataReceiveNum.toNat

/-- `codey_rmt_board_receive_data_buffer_get_t`: the items that are stored, for which the
callers have memory. -/
def ReceiveDataBuffer.get (b : ReceiveDataBuffer) : Except Fault (List ReceiveItem) :=
  if b.dataReceiveNum=0 then .ok [] else getLoop b b.dataNum (before b.index)

/-- `codey_rmt_board_receive_data_buffer_clear_t` -/
def ReceiveDataBuffer.clear (b : ReceiveDataBuffer) : ReceiveDataBuffer :=
  {b with
    dataReceiveNum := 0
    index := 0
    bufferOverFlag := false}

/-- `codey_rmt_board_receive_data_buffer_pop_t` -/
def ReceiveDataBuffer.pop (b : ReceiveDataBuffer) :
    Except Fault (ReceiveDataBuffer×List ReceiveItem) :=
  if b.dataReceiveNum=0 then .ok (b,[])
  else do
    let items ← getLoop b b.dataNum (before b.index)
    .ok (b.clear,items)

/-- `codey_rmt_board_received_a_string`. The index is not taken around the ring. -/
def ReceiveDataBuffer.receivedAString (b : ReceiveDataBuffer) : Except Fault Bool :=
  if b.dataReceiveNum.toNat < 2 then .ok false
  else do
    let item ← b.read ((b.index.toNat : ℤ)-1)
    .ok (item.cmdB0==charStringEnd)

/-- The loop over `len_count`, with the number of items left: the items stored and the length
when an end was found. -/
def latestLoop (b : ReceiveDataBuffer) (lenCount : ℕ) :
    ℕ→UInt8→Except Fault (List ReceiveItem×Option ℕ)
  | 0,_ => .ok ([],none)
  | n+1,index => do
    let item ← b.read index.toNat
    if lenCount≠0∧item.cmdB0=charStringEnd then .ok ([],some lenCount)
    else do
      let (items,stringLen) ← latestLoop b (lenCount+1) n (before index)
      .ok (item::items,stringLen)

/-- `codey_rmt_board_receive_get_latest_string_t`: the items stored and `string_len`. -/
def ReceiveDataBuffer.getLatestString (b : ReceiveDataBuffer) : Except Fault (List ReceiveItem×ℕ) :=
  if b.dataReceiveNum=0 then .ok ([],0)
  else do
    let (items,stringLen) ← latestLoop b 0 b.dataNum (before b.index)
    .ok (items,stringLen.getD b.dataReceiveNum.toNat)

/-- The operations of the buffer. -/
inductive Op where
  | push (batch : Batch)
  | get
  /-- The codes are read and forgotten. -/
  | pop
  | clear
  /-- It is asked whether a string has come to its end. -/
  | receivedAString
  | getLatestString

/-- What the operations return. -/
inductive Output where
  | none
  | items (items : List ReceiveItem)
  | answer (answer : Bool)
  | string (items : List ReceiveItem) (stringLen : ℕ)

/-- An operation on the buffer. -/
def step (b : ReceiveDataBuffer) : Op→Except Fault (ReceiveDataBuffer×Output)
  | .push batch => do
    let b ← b.push batch
    .ok (b,.none)
  | .get => do
    let items ← b.get
    .ok (b,.items items)
  | .pop => do
    let (b,items) ← b.pop
    .ok (b,.items items)
  | .clear => .ok (b.clear,.none)
  | .receivedAString => do
    let answer ← b.receivedAString
    .ok (b,.answer answer)
  | .getLatestString => do
    let (items,stringLen) ← b.getLatestString
    .ok (b,.string items stringLen)

/-- The codes since the buffer was emptied, the latest first, after an operation. -/
def logged (log : List ReceiveItem) : Op→List ReceiveItem
  | .push batch => batch.items.reverse++log
  | .pop => []
  | .clear => []
  | .get => log
  | .receivedAString => log
  | .getLatestString => log

/-- Every get returns the latest codes, as many as there are cells. -/
def GetsLatest (log : List ReceiveItem) : List Op→List Output→Prop
  | op::ops,o::os =>
    (op=.get → o=.items (log.take rmtRecDataBufferLen))∧GetsLatest (logged log op) ops os
  | _,_ => True

/-- What the number of codes has to be at an operation. -/
def NumFits (n : ℕ) : Op→Prop
  | .get => n < rmtRecDataBufferLen∨rmtRecDataBufferLen≤n%256
  | .receivedAString => n%256≠rmtRecDataBufferLen
  | _ => True

instance (n : ℕ) (op : Op) : Decidable (NumFits n op) := by
  cases op <;> unfold NumFits <;> infer_instance

/-- It is so at each of some operations. -/
def NumsFit (log : List ReceiveItem) : List Op→Prop
  | [] => True
  | op::ops => NumFits log.length op∧NumsFit (logged log op) ops

/-- Whether it is so can be told. -/
def numsFitDecidable : (log : List ReceiveItem)→(ops : List Op)→Decidable (NumsFit log ops)
  | _,[] => isTrue trivial
  | log,op::ops =>
    @instDecidableAnd _ _ _ (numsFitDecidable (logged log op) ops)

instance (log : List ReceiveItem) (ops : List Op) : Decidable (NumsFit log ops) :=
  numsFitDecidable log ops

section Steps

variable {b : ReceiveDataBuffer} {log : List ReceiveItem}

/-- The buffer holds the codes of a log. -/
structure Logs (b : ReceiveDataBuffer) (log : List ReceiveItem) : Prop where
  /-- The next cell goes around the ring. -/
  index : b.index.toNat=log.length%rmtRecDataBufferLen
  /-- The number has eight bits. -/
  num : b.dataReceiveNum.toNat=log.length%256
  /-- The cells hold the latest codes. -/
  holds : Holds b.dataHistory.toList log

/-- An empty buffer. -/
theorem logs_nil (hindex : b.index=0) (hnum : b.dataReceiveNum=0) : Logs b [] :=
  ⟨by rw [hindex]; rfl,by rw [hnum]; rfl,holds_nil _⟩

/-- The cells. -/
theorem length_history (b : ReceiveDataBuffer) :
    b.dataHistory.toList.length=rmtRecDataBufferLen := Vector.length_toList

theorem read_of_lt {i : ℕ} (h : i < rmtRecDataBufferLen) :
    ∃ item,b.read i=.ok item∧b.dataHistory.toList[i]?=some item := by
  refine ⟨b.dataHistory.get ⟨i,h⟩,?_,?_⟩
  · rw [ReceiveDataBuffer.read,dif_pos ⟨Int.natCast_nonneg i,Int.ofNat_lt.mpr h⟩]
    rfl
  · rw [List.getElem?_eq_getElem (by rw [length_history]; exact h)]
    rfl

/-- The index before one in the ring. -/
theorem before_toNat {index : UInt8} :
    (before index).toNat=if index.toNat=0 then rmtRecDataBufferLen-1 else index.toNat-1 := by
  rw [before]
  cases Decidable.em (index=0) with
  | inl hzero =>
    rw [if_pos hzero,if_pos (by rw [hzero]; rfl)]
    rfl
  | inr hne =>
    have hpos : index.toNat≠0 := fun h => hne (UInt8.toNat_inj.mp h)
    have hle : (1 : UInt8) ≤ index := by
      rw [UInt8.le_iff_toNat_le]
      exact Nat.pos_of_ne_zero hpos
    rw [if_neg hne,if_neg hpos,UInt8.toNat_sub_of_le _ _ hle]
    rfl

theorem before_lt {index : UInt8} (h : index.toNat < rmtRecDataBufferLen) :
    (before index).toNat < rmtRecDataBufferLen := by
  rw [before_toNat]
  change index.toNat < 128 at h
  change _ < 128
  split
  case isTrue => decide
  case isFalse => omega

/-- Pushed items join the log. -/
theorem pushLoop_logs (items : List ReceiveItem) : ∀ {index : UInt8}
    {history : Vector ReceiveItem rmtRecDataBufferLen} {log : List ReceiveItem},
    index.toNat=log.length%rmtRecDataBufferLen → Holds history.toList log →
    ∃ index' history',pushLoop index history items=.ok (index',history')∧
      index'.toNat=(items.reverse++log).length%rmtRecDataBufferLen∧
      Holds history'.toList (items.reverse++log) := by
  induction items with
  | nil => exact fun hindex hholds => ⟨_,_,rfl,hindex,hholds⟩
  | cons item items ih =>
    intro index history log hindex hholds
    have hlt : index.toNat < rmtRecDataBufferLen := by
      rw [hindex]
      exact mod_lt _ (by decide)
    have hnext : ((index+1)%128).toNat=(item::log).length%rmtRecDataBufferLen := by
      rw [UInt8.toNat_mod,UInt8.toNat_add,List.length_cons]
      change (index.toNat+1)%256%128=(log.length+1)%128
      change index.toNat=log.length%128 at hindex
      omega
    have hpush : Holds (history.set index.toNat item hlt).toList (item::log) := by
      have hlog := holds_push hholds item
      rw [Vector.length_toList,←hindex] at hlog
      rw [Vector.toList_set]
      exact hlog
    obtain ⟨index',history',hloop,hindex',hholds'⟩ := ih hnext hpush
    refine ⟨index',history',?_,?_,?_⟩
    · rw [pushLoop,dif_pos hlt,hloop]
    · rw [List.reverse_cons,List.append_assoc]
      exact hindex'
    · rw [List.reverse_cons,List.append_assoc]
      exact hholds'

section

variable (h : Logs b log)
include h

/-- A push adds codes to the log. -/
theorem push_logs (batch : Batch) :
    ∃ b',b.push batch=.ok b'∧Logs b' (batch.items.reverse++log) := by
  rw [ReceiveDataBuffer.push]
  split
  case isTrue hnil =>
    rw [List.length_eq_zero_iff.mp hnil]
    exact ⟨b,rfl,h⟩
  case isFalse =>
    obtain ⟨index,history,hloop,hindex,hholds⟩ := pushLoop_logs batch.items h.index h.holds
    rw [hloop]
    refine ⟨_,rfl,hindex,?_,hholds⟩
    have hnum := h.num
    have hsize : (UInt8.ofNat batch.items.length).toNat=batch.items.length :=
      mod_eq_of_lt batch.length_lt
    rw [UInt8.toNat_add,hsize,List.length_append,List.length_reverse]
    omega

/-- A walk back through the codes. -/
theorem getLoop_logs (n : ℕ) : ∀ {i : ℕ} {index : UInt8},
    i+n≤log.length → i+n ≤ rmtRecDataBufferLen →
    (n≠0 → index.toNat=place rmtRecDataBufferLen log.length i) →
    getLoop b n index=.ok ((log.drop i).take n) := by
  induction n with
  | zero =>
    intro i index _ _ _
    rw [List.take_zero]
    rfl
  | succ n ih =>
    intro i index hlen hcap hindex
    have hplace := hindex (succ_ne_zero n)
    have hlt : index.toNat < rmtRecDataBufferLen := by
      rw [hplace]
      exact mod_lt _ (by decide)
    obtain ⟨item,hread,hcell⟩ := read_of_lt (b := b) hlt
    have hlog := h.holds i (by omega) (by rw [length_history]; omega)
    rw [length_history,←hplace,hcell,List.getElem?_eq_getElem (by omega)] at hlog
    have hbefore : n≠0 → (before index).toNat=place rmtRecDataBufferLen log.length (i+1) := by
      intro hn
      have hnext : i+1 < log.length := by omega
      rw [before_toNat,hplace,place_succ (by decide) hnext]
    have hrest := ih (by omega) (by omega) hbefore
    rw [getLoop,hread]
    have hi : i < log.length := by omega
    rw [hrest,@List.drop_eq_getElem_cons _ i log hi,List.take_succ_cons,←Option.some.inj hlog]
    rfl

/-- The number of items to be taken out. -/
theorem dataNum_eq : b.dataNum=min (log.length%256) 128 := by
  rw [ReceiveDataBuffer.dataNum,h.num]
  change (if log.length%256 > 128 then 128 else log.length%256)=_
  split
  case isTrue => omega
  case isFalse => omega

/-- The walk goes through as many of the latest codes as are counted. -/
theorem getLoop_latest :
    getLoop b b.dataNum (before b.index)=.ok (log.take b.dataNum) := by
  have hdata := dataNum_eq h
  have hcap : 0+b.dataNum≤128 := by omega
  have hloop := @getLoop_logs b log h b.dataNum 0 (before b.index) (by omega) hcap fun hn => by
    rw [before_toNat,h.index]
    exact (place_zero (by decide) (by omega)).symm
  rw [List.drop_zero] at hloop
  exact hloop

theorem get_latest : b.get=.ok (log.take b.dataNum) := by
  rw [ReceiveDataBuffer.get]
  split
  case isTrue hzero =>
    rw [ReceiveDataBuffer.dataNum,hzero]
    rfl
  case isFalse => exact getLoop_latest h

/-- These are all that there are cells for when the count has not gone around. -/
theorem take_dataNum_iff :
    log.take b.dataNum=log.take rmtRecDataBufferLen↔NumFits log.length .get := by
  rw [dataNum_eq h]
  change _=log.take 128↔log.length < 128∨128≤log.length%256
  constructor
  · intro heq
    have hlength := congrArg List.length heq
    rw [List.length_take,List.length_take] at hlength
    omega
  · rintro (hlt | hle)
    · rw [List.take_of_length_le (by omega),List.take_of_length_le (by omega)]
    · rw [show min (log.length%256) 128=128 by omega]

/-- A pop forgets the codes. -/
theorem pop_logs : ∃ b',b.pop=.ok (b',log.take b.dataNum)∧Logs b' [] := by
  rw [ReceiveDataBuffer.pop]
  split
  case isTrue hzero =>
    have hindex : b.index=0 := by
      have hnum := h.num
      have hindex := h.index
      rw [hzero] at hnum
      change 0=log.length%256 at hnum
      change _=log.length%128 at hindex
      exact UInt8.toNat_inj.mp (by
        change b.index.toNat=0
        omega)
    refine ⟨b,?_,logs_nil hindex hzero⟩
    rw [ReceiveDataBuffer.dataNum,hzero]
    rfl
  case isFalse =>
    rw [getLoop_latest h]
    exact ⟨b.clear,rfl,logs_nil rfl rfl⟩

/-- The end of a string is looked for inside of the cells, unless the count is that of the
cells and the next cell the first. -/
theorem receivedAString_iff :
    (∃ answer,b.receivedAString=.ok answer)↔NumFits log.length .receivedAString := by
  have hnum := h.num
  have hindex := h.index
  change _=log.length%128 at hindex
  change _↔log.length%256≠128
  rw [ReceiveDataBuffer.receivedAString]
  split
  case isTrue hfew => exact iff_of_true ⟨false,rfl⟩ (by omega)
  case isFalse hmany =>
    cases Decidable.em (log.length%256=128) with
    | inl hwrap =>
      refine iff_of_false (fun ⟨answer,hanswer⟩ => ?_) (fun hne => hne hwrap)
      rw [ReceiveDataBuffer.read,dif_neg (by omega)] at hanswer
      cases hanswer
    | inr hne =>
      refine iff_of_true ?_ hne
      rw [ReceiveDataBuffer.read,dif_pos ⟨by omega,by
        change _ < (128 : ℤ)
        omega⟩]
      exact ⟨_,rfl⟩

end

/-- The latest string is read inside of the cells. -/
theorem latestLoop_ok (n : ℕ) : ∀ {lenCount : ℕ} {index : UInt8},
    index.toNat < rmtRecDataBufferLen → ∃ r,latestLoop b lenCount n index=.ok r := by
  induction n with
  | zero => exact fun _ => ⟨_,rfl⟩
  | succ n ih =>
    intro lenCount index hlt
    obtain ⟨item,hread,_⟩ := read_of_lt (b := b) hlt
    obtain ⟨⟨items,stringLen⟩,hloop⟩ := @ih (lenCount+1) (before index) (before_lt hlt)
    rw [latestLoop,hread]
    simp only [bind,Except.bind]
    split
    case isTrue => exact ⟨_,rfl⟩
    case isFalse =>
      rw [hloop]
      exact ⟨_,rfl⟩

/-- So is the whole of it. -/
theorem getLatestString_ok (h : Logs b log) : ∃ r,b.getLatestString=.ok r := by
  rw [ReceiveDataBuffer.getLatestString]
  split
  case isTrue => exact ⟨_,rfl⟩
  case isFalse =>
    have hlt : b.index.toNat < rmtRecDataBufferLen := by
      rw [h.index]
      exact mod_lt _ (by decide)
    obtain ⟨⟨items,stringLen⟩,hloop⟩ := @latestLoop_ok b b.dataNum 0 _ (before_lt hlt)
    rw [hloop]
    exact ⟨_,rfl⟩

/-- An operation does what it should exactly when the number of codes fits, and then the
buffer holds the codes of the log. -/
theorem step_logs (h : Logs b log) (op : Op) : (NumFits log.length op → ∃ b' o,step b op=.ok (b',o)∧
      (op=.get → o=.items (log.take rmtRecDataBufferLen))∧Logs b' (logged log op))∧
    (∀ b' o,step b op=.ok (b',o) → (op=.get → o=.items (log.take rmtRecDataBufferLen)) →
      NumFits log.length op) := by
  cases op with
  | push batch =>
    obtain ⟨b',hpush,hlogs⟩ := push_logs h batch
    refine ⟨fun _ => ⟨b',.none,?_,nofun,hlogs⟩,fun _ _ _ _ => trivial⟩
    rw [step,hpush]
    rfl
  | get =>
    have hstep : step b .get=.ok (b,.items (log.take b.dataNum)) := by
      rw [step,get_latest h]
      rfl
    constructor
    · intro hfits
      refine ⟨b,_,hstep,fun _ => ?_,h⟩
      rw [(take_dataNum_iff h).mpr hfits]
    · intro b' o hok hlatest
      rw [hstep] at hok
      cases hok
      exact (take_dataNum_iff h).mp (Output.items.inj (hlatest rfl))
  | pop =>
    obtain ⟨b',hpop,hlogs⟩ := pop_logs h
    refine ⟨fun _ => ⟨b',.items (log.take b.dataNum),?_,nofun,hlogs⟩,fun _ _ _ _ => trivial⟩
    rw [step,hpop]
    rfl
  | clear => exact ⟨fun _ => ⟨b.clear,.none,rfl,nofun,logs_nil rfl rfl⟩,fun _ _ _ _ => trivial⟩
  | receivedAString =>
    constructor
    · intro hfits
      obtain ⟨answer,hanswer⟩ := (receivedAString_iff h).mpr hfits
      refine ⟨b,.answer answer,?_,nofun,h⟩
      rw [step,hanswer]
      rfl
    · intro b' o hok _
      refine (receivedAString_iff h).mp ?_
      cases hanswer : b.receivedAString with
      | ok answer => exact ⟨answer,rfl⟩
      | error e =>
        rw [step,hanswer] at hok
        cases hok
  | getLatestString =>
    obtain ⟨⟨items,stringLen⟩,hstring⟩ := getLatestString_ok h
    refine ⟨fun _ => ⟨b,.string items stringLen,?_,nofun,h⟩,fun _ _ _ _ => trivial⟩
    rw [step,hstring]
    rfl

/-- Every get of a run returns the latest codes and nothing is read outside of the cells,
exactly when the numbers of codes fit. -/
theorem run_logs (ops : List Op) : ∀ {b : ReceiveDataBuffer} {log : List ReceiveItem},Logs b log →
    ((∃ b' os,run step b ops=.ok (b',os)∧GetsLatest log ops os)↔NumsFit log ops) := by
  induction ops with
  | nil => exact fun _ => iff_of_true ⟨_,_,rfl,trivial⟩ trivial
  | cons op ops ih =>
    intro b log h
    have hop := step_logs h op
    constructor
    · rintro ⟨b'',os,hrun,hlatest⟩
      obtain ⟨b',o,os,hstep,hrest,rfl⟩ := run_cons_eq_ok.mp hrun
      have hfits := hop.2 b' o hstep hlatest.1
      obtain ⟨c,o',hstep',_,hlogs⟩ := hop.1 hfits
      rw [hstep] at hstep'
      cases hstep'
      exact ⟨hfits,(ih hlogs).mp ⟨b'',os,hrest,hlatest.2⟩⟩
    · rintro ⟨hfits,hrest⟩
      obtain ⟨b',o,hstep,hget,hlogs⟩ := hop.1 hfits
      obtain ⟨b'',os,hrun,hlatest⟩ := (ih hlogs).mpr hrest
      exact ⟨b'',o::os,run_cons_eq_ok.mpr ⟨b',o,os,hstep,hrun,rfl⟩,hget,hlatest⟩

end Steps

/-- From an empty buffer on, every get returns the latest codes, as many as there are cells,
and nothing is read outside of the cells, exactly when there are fewer codes than cells or the
count modulo 256 is not below the number of cells at each get, and the count modulo 256 is not
the number of cells when the end of a string is looked for. -/
theorem receiveDataBuffer_latest (b : ReceiveDataBuffer) (hindex : b.index=0)
    (hnum : b.dataReceiveNum=0) (ops : List Op) :
    (∃ b' os,run step b ops=.ok (b',os)∧GetsLatest [] ops os)↔NumsFit [] ops :=
  run_logs ops (logs_nil hindex hnum)

/-- A buffer as `codey_rmt_board_receive_data_buffer_init_t` leaves it, with zeros in it. -/
def emptyBuffer : ReceiveDataBuffer := ⟨0,false,0,⟨0,0⟩,.replicate _ ⟨0,0⟩⟩

/-- A code pushed. -/
def pushOne (command : UInt16) : Op :=
  .push ⟨[⟨0,command⟩],by rw [List.length_singleton]; decide⟩

/-- Two codes, which are read and forgotten. -/
theorem receiveDataBuffer_latest_two :
    ∃ b' os,run step emptyBuffer [pushOne 1,pushOne 2,.get,.receivedAString,.pop,.get]=.ok (b',os)∧
      GetsLatest [] [pushOne 1,pushOne 2,.get,.receivedAString,.pop,.get] os :=
  (receiveDataBuffer_latest emptyBuffer rfl rfl _).mpr
    ⟨trivial,trivial,by decide,by decide,trivial,by decide,trivial⟩

/-- After 256 codes a get returns none of them, and after 128 codes the end of a string is
looked for before the first cell. -/
theorem receiveDataBuffer_wraps :
    (¬∃ b' os,run step emptyBuffer (List.replicate 256 (pushOne 1)++[.get])=.ok (b',os)∧
      GetsLatest [] (List.replicate 256 (pushOne 1)++[.get]) os)∧
    (run step emptyBuffer (List.replicate 128 (pushOne 1)++[.receivedAString])).isOk=false :=
  ⟨fun h => absurd ((run_logs _ (logs_nil rfl rfl)).mp h) (by decide +kernel),by decide +kernel⟩

end MicroPython.IrBuffer
