import Mathlib.Algebra.Group.Nat.Defs
import MicroPython.InputMachine

/-!
# Frames of the file receiver

`codey_neurons_ftp_pump_char` takes frames apart that have the layout of `build_rsp`. It puts
the second byte of a length in with a weight of 255, and counts the data with eight bits.
What `malloc` answers comes with each byte.
-/

namespace MicroPython.FtpFrames

open Nat UInt8 List InputMachine

/-- `HEADER` -/
def header : UInt8 := 0xF3

/-- `END` -/
def frameEnd : UInt8 := 0xF4

/-- `SRV_ID` -/
def srvId : UInt8 := 0x5E

/-- `CMD_ID_HEAD` -/
def cmdIdHead : UInt8 := 0x01

/-- `CMD_ID_STATUS` -/
def cmdIdStatus : UInt8 := 0xf0

/-- `is_valid_cmd` -/
def isValidCmd (cmdId : UInt8) : Bool := cmdIdHead ≤ cmdId&&cmdId ≤ cmdIdStatus

/-- The states of `codey_neurons_ftp_pump_char`. -/
inductive PumpState where
  /-- `HEAD_S` -/
  | headS
  /-- `DEV_ID_S` -/
  | devIdS
  /-- `SRV_ID_S` -/
  | srvIdS
  /-- `CMD_ID_S` -/
  | cmdIdS
  /-- `CMD_LEN_1_S` -/
  | cmdLen1S
  /-- `CMD_LEN_2_S` -/
  | cmdLen2S
  /-- `DATA_S` -/
  | dataS
  /-- `CHECK_S` -/
  | checkS
  /-- `END_S` -/
  | endS
  deriving DecidableEq

/-- A byte is stored past the end of the memory that was allocated. -/
inductive Fault where
  /-- In `recv_data`. -/
  | recvData
  deriving DecidableEq

/-- Memory of a size. -/
structure Memory where
  size : ℕ
  bytes : ℕ→UInt8

/-- A byte stored. -/
def Memory.store (m : Memory) (i : ℕ) (c : UInt8) : Except Fault Memory :=
  if i < m.size then .ok ⟨m.size,Function.update m.bytes i c⟩ else .error .recvData

/-- A byte that arrives. -/
structure Arrival where
  /-- The byte. -/
  c : UInt8
  /-- What is in the memory that `malloc` finds, when it is called at this byte. -/
  malloc : Option (ℕ→UInt8)

/-- The static variables of `codey_neurons_ftp_pump_char`. -/
structure Pump where
  /-- `state` -/
  state : PumpState
  /-- `dev_id` -/
  devId : UInt8
  /-- `cmd_id` -/
  cmdId : UInt8
  /-- `cmd_len` -/
  cmdLen : UInt16
  /-- `recv_cnt` -/
  recvCnt : UInt8
  /-- `check_sum` -/
  checkSum : UInt8
  /-- `recv_data` -/
  recvData : Memory

/-- The variables at the start, with no memory. -/
def Pump.initial : Pump := ⟨.headS,0,0,0,0,0,⟨0,fun _ => 0⟩⟩

/-- A call of `codey_neurons_ftp_parse`, to which the device answers with the status. -/
structure Call where
  /-- The device that the answer names. -/
  devId : UInt8
  /-- `cmd_id` -/
  cmdId : UInt8
  /-- The bytes of `cmd_data`, of which there are `cmd_len`. -/
  cmdData : List UInt8
  deriving DecidableEq

/-- What `codey_neurons_ftp_pump_char` does at a byte. -/
structure Output where
  /-- The value returned, which is not set at the end of a frame. -/
  ret : Option UInt8
  call : Option Call

/-- A value returned, and no call. -/
def returns (ret : UInt8) : Output := ⟨some ret,none⟩

/-- `codey_neurons_ftp_pump_char` -/
def Pump.pumpChar (p : Pump) (a : Arrival) : Except Fault (Pump×Output) :=
  match p.state with
  | .headS =>
    if header=a.c then .ok ({p with state := .devIdS},returns 1) else .ok (p,returns 0)
  | .devIdS =>
    .ok ({p with
      checkSum := a.c
      devId := a.c
      state := .srvIdS},returns 1)
  | .srvIdS =>
    if srvId=a.c then
      .ok ({p with
        checkSum := p.checkSum+a.c
        state := .cmdIdS},returns 1)
    else .ok ({p with state := .headS},returns 0)
  | .cmdIdS =>
    let p := {p with checkSum := p.checkSum+a.c}
    if isValidCmd a.c then
      .ok ({p with
        cmdId := a.c
        state := .cmdLen1S},returns 1)
    else .ok ({p with state := .headS},returns 0)
  | .cmdLen1S =>
    .ok ({p with
      checkSum := p.checkSum+a.c
      cmdLen := a.c.toUInt16
      state := .cmdLen2S},returns 1)
  | .cmdLen2S =>
    let cmdLen := p.cmdLen+a.c.toUInt16*0xFF
    let p := {p with
      checkSum := p.checkSum+a.c
      cmdLen := cmdLen
      recvCnt := 0}
    match a.malloc with
    | some bytes =>
      .ok ({p with
        recvData := ⟨cmdLen.toNat,bytes⟩
        state := .dataS},returns 1)
    | none => .ok ({p with state := .headS},returns 0)
  | .dataS => do
    let recvData ← p.recvData.store p.recvCnt.toNat a.c
    let recvCnt := p.recvCnt+1
    .ok ({p with
      checkSum := p.checkSum+a.c
      recvData := recvData
      recvCnt := recvCnt
      state := if recvCnt.toUInt16=p.cmdLen then .checkS else .dataS},returns 1)
  | .checkS =>
    if p.checkSum=a.c then .ok ({p with state := .endS},returns 1)
    else .ok ({p with state := .headS},returns 0)
  | .endS =>
    let data := (List.range p.recvCnt.toNat).map p.recvData.bytes
    .ok ({p with state := .headS},
      if frameEnd=a.c then ⟨none,some ⟨p.devId,p.cmdId,data⟩⟩ else returns 0)

/-- The bytes of a frame that are added up. -/
def body (devId cmdId : UInt8) (data : List UInt8) : List UInt8 :=
  devId::srvId::cmdId::UInt8.ofNat (data.length&&&0xff):: UInt8.ofNat (data.length>>>8&&&0xff)::data

/-- A frame with the layout of `build_rsp`. -/
def frame (devId cmdId : UInt8) (data : List UInt8) : List UInt8 :=
  header::body devId cmdId data++[(body devId cmdId data).foldl (·+·) 0,frameEnd]

/-- `build_rsp`, for data of which there are few. -/
def buildRsp (devId : UInt8) (data : List UInt8) : List UInt8 := frame devId cmdIdStatus data

/-- The answer to a call, with the status that it returns. -/
def Call.rsp (call : Call) (status : UInt8) : List UInt8 := buildRsp call.devId [status]

/-- The calls among outputs. -/
def calls (outputs : List Output) : List Call := outputs.filterMap Output.call

/-- The bytes received so far. -/
def Pump.received (p : Pump) : List UInt8 := (List.range p.recvCnt.toNat).map p.recvData.bytes

section Frame

/-- The bytes received so far, and one more. -/
theorem range_update (bytes : ℕ→UInt8) (n : ℕ) (c : UInt8) :
    (List.range (n+1)).map (Function.update bytes n c)=(List.range n).map bytes++[c] := by
  rw [range_succ,map_append,map_singleton,Function.update_self]
  congr 1
  refine map_congr_left fun i hi => Function.update_of_ne ?_ _ _
  exact Nat.ne_of_lt (mem_range.mp hi)

/-- Without a head byte nothing changes. -/
theorem run_garbage {p : Pump} (h : p.state=.headS) {arrivals : List Arrival}
    (hgarbage : ∀ a∈arrivals,a.c≠header) :
    run Pump.pumpChar p arrivals=.ok (p,List.replicate arrivals.length (returns 0)) := by
  induction arrivals with
  | nil => rfl
  | cons a arrivals ih =>
    have hstep : p.pumpChar a=.ok (p,returns 0) := by
      rw [Pump.pumpChar,h]
      exact if_neg (Ne.symm (hgarbage a mem_cons_self))
    have hrest := ih fun b hb => hgarbage b (mem_cons_of_mem _ hb)
    exact run_cons_eq_ok.mpr ⟨p,_,_,hstep,hrest,rfl⟩

theorem calls_replicate (n : ℕ) (ret : UInt8) : calls (List.replicate n (returns ret))=[] := by
  rw [calls,filterMap_replicate_of_none rfl]

/-- The head of a frame up to the second byte of the length, which goes on to the data when
there is memory. -/
theorem run_head {p : Pump} (h : p.state=.headS) {devId cmdId low high : UInt8}
    (hvalid : isValidCmd cmdId=true) (m₁ m₂ m₃ m₄ m₅ malloc : Option (ℕ→UInt8)) :
    ∃ q,run Pump.pumpChar p [⟨header,m₁⟩,⟨devId,m₂⟩,⟨srvId,m₃⟩,⟨cmdId,m₄⟩,⟨low,m₅⟩,⟨high,malloc⟩]=
          .ok (q,List.replicate 5 (returns 1)++[returns (if malloc.isSome then 1 else 0)])∧
      match malloc with
      | none => q.state=.headS
      | some bytes => q.state=.dataS∧q.devId=devId∧q.cmdId=cmdId∧
        q.cmdLen=low.toUInt16+high.toUInt16*0xFF∧q.recvCnt=0∧
        q.checkSum=devId+srvId+cmdId+low+high∧q.recvData=⟨q.cmdLen.toNat,bytes⟩ := by
  obtain ⟨state,d,c,cmdLen,recvCnt,checkSum,recvData⟩ := p
  cases h
  cases malloc with
  | none =>
    refine ⟨⟨.headS,devId,cmdId,low.toUInt16+high.toUInt16*0xFF,0,
      devId+srvId+cmdId+low+high,recvData⟩,?_,rfl⟩
    simp only [run,Pump.pumpChar,if_true,hvalid]
    rfl
  | some bytes =>
    refine ⟨⟨.dataS,devId,cmdId,low.toUInt16+high.toUInt16*0xFF,0,
      devId+srvId+cmdId+low+high,⟨_,bytes⟩⟩,?_,rfl,rfl,rfl,rfl,rfl,rfl,rfl⟩
    simp only [run,Pump.pumpChar,if_true,hvalid]
    rfl

theorem pumpChar_data {p : Pump} (h : p.state=.dataS)
    (hlt : p.recvCnt.toNat < p.recvData.size) (a : Arrival) :
    p.pumpChar a=.ok ({p with
      checkSum := p.checkSum+a.c
      recvData := ⟨p.recvData.size,Function.update p.recvData.bytes p.recvCnt.toNat a.c⟩
      recvCnt := p.recvCnt+1
      state := if (p.recvCnt+1).toUInt16=p.cmdLen then .checkS else .dataS},returns 1) := by
  rw [Pump.pumpChar,h]
  rw [Memory.store,if_pos hlt]
  rfl

/-- The data of a frame, as long as they can be counted. -/
theorem run_data (arrivals : List Arrival) : ∀ p : Pump,p.state=.dataS → arrivals≠[] →
    p.recvCnt.toNat+arrivals.length=p.cmdLen.toNat → p.cmdLen.toNat < 256 →
    p.recvData.size=p.cmdLen.toNat →
    ∃ q,run Pump.pumpChar p arrivals=.ok (q,List.replicate arrivals.length (returns 1))∧
      q.state=.checkS∧q.devId=p.devId∧q.cmdId=p.cmdId∧
      q.checkSum=(arrivals.map Arrival.c).foldl (·+·) p.checkSum∧
      q.received=p.received++arrivals.map Arrival.c := by
  induction arrivals with
  | nil => exact fun _ _ h => absurd rfl h
  | cons a arrivals ih =>
    intro p hdata _ hlen hlt hsize
    rw [length_cons] at hlen
    have hstep := pumpChar_data hdata (by omega) a
    have hcnt : (p.recvCnt+1).toNat=p.recvCnt.toNat+1 := by
      rw [UInt8.toNat_add]
      exact mod_eq_of_lt (by
        change p.recvCnt.toNat+1 < 256
        omega)
    have hfull : (p.recvCnt+1).toUInt16=p.cmdLen↔p.recvCnt.toNat+1=p.cmdLen.toNat := by
      rw [←UInt16.toNat_inj,toNat_toUInt16,hcnt]
    obtain ⟨q,hq⟩ : ∃ q : Pump,{p with
      checkSum := p.checkSum+a.c
      recvData := ⟨p.recvData.size,Function.update p.recvData.bytes p.recvCnt.toNat a.c⟩
      recvCnt := p.recvCnt+1
      state := if (p.recvCnt+1).toUInt16=p.cmdLen then .checkS else .dataS}=q := ⟨_,rfl⟩
    rw [hq] at hstep
    have hreceived : q.received=p.received++[a.c] := by
      rw [←hq,Pump.received,Pump.received]
      rw [hcnt]
      exact range_update _ _ _
    cases arrivals with
    | nil =>
      refine ⟨q,run_cons_eq_ok.mpr ⟨q,_,[],hstep,rfl,rfl⟩,?_,?_,?_,?_,hreceived⟩
      · rw [←hq]
        exact if_pos (hfull.mpr (by simpa using hlen))
      · rw [←hq]
      · rw [←hq]
      · rw [←hq]
        rfl
    | cons b arrivals =>
      have hstate : q.state=.dataS := by
        rw [←hq]
        exact if_neg fun heq => by
          have hend := hfull.mp heq
          rw [length_cons] at hlen
          omega
      have hqcnt : q.recvCnt.toNat=p.recvCnt.toNat+1 := by
        rw [←hq]
        exact hcnt
      have hqlen : q.cmdLen=p.cmdLen := by rw [←hq]
      have hqsize : q.recvData.size=p.recvData.size := by rw [←hq]
      obtain ⟨r,hrun,hrs,hrdev,hrcmd,hrcheck,hrreceived⟩ := ih q hstate (cons_ne_nil _ _)
        (by rw [hqcnt,hqlen]; omega) (by rw [hqlen]; exact hlt) (by rw [hqsize,hqlen,hsize])
      refine ⟨r,run_cons_eq_ok.mpr ⟨q,_,_,hstep,hrun,rfl⟩,hrs,?_,?_,?_,?_⟩
      · rw [hrdev,←hq]
      · rw [hrcmd,←hq]
      · rw [hrcheck,←hq]
        rfl
      · rw [hrreceived,hreceived,append_assoc]
        rfl

/-- Behind the data comes the checksum. -/
theorem pumpChar_check {p : Pump} (h : p.state=.checkS) (a : Arrival) (ha : p.checkSum=a.c) :
    p.pumpChar a=.ok ({p with state := .endS},returns 1) := by
  rw [Pump.pumpChar,h]
  exact if_pos ha

/-- At the end the data are handed over. -/
theorem pumpChar_end {p : Pump} (h : p.state=.endS) (m : Option (ℕ→UInt8)) :
    p.pumpChar ⟨frameEnd,m⟩=
      .ok ({p with state := .headS},⟨none,some ⟨p.devId,p.cmdId,p.received⟩⟩) := by
  rw [Pump.pumpChar,h]
  rfl

end Frame

section Lengths

/-- How many bytes of a frame have come. -/
def Pump.used (p : Pump) : ℕ :=
  match p.state with
  | .headS => 0
  | .devIdS => 1
  | .srvIdS => 2
  | .cmdIdS => 3
  | .cmdLen1S => 4
  | .cmdLen2S => 5
  | .dataS => 6+p.recvCnt.toNat
  | .checkS => 6+p.recvCnt.toNat
  | .endS => 7+p.recvCnt.toNat

theorem returns_call (ret : UInt8) {p : Call→Prop} :
    ∀ call,(returns ret).call=some call → p call := fun _ h => nomatch h

/-- A byte makes at most one more. A call is made with what has been received, when seven
other bytes have come. -/
theorem pumpChar_used {p q : Pump} {a : Arrival} {o : Output} (h : p.pumpChar a=.ok (q,o)) :
    q.used≤p.used+1∧∀ call,o.call=some call → call.cmdData=p.received∧p.used=7+p.recvCnt.toNat := by
  rw [Pump.pumpChar] at h
  cases hstate : p.state with
  | headS =>
    simp only [hstate] at h
    split at h <;> cases h
    · exact ⟨le_add_left _ _,returns_call 1⟩
    · exact ⟨le_succ _,returns_call 0⟩
  | devIdS =>
    simp only [hstate] at h
    cases h
    exact ⟨by simp only [Pump.used,hstate]; omega,returns_call 1⟩
  | srvIdS =>
    simp only [hstate] at h
    split at h <;> cases h
    · exact ⟨by simp only [Pump.used,hstate]; omega,returns_call 1⟩
    · exact ⟨zero_le _,returns_call 0⟩
  | cmdIdS =>
    simp only [hstate] at h
    split at h <;> cases h
    · exact ⟨by simp only [Pump.used,hstate]; omega,returns_call 1⟩
    · exact ⟨zero_le _,returns_call 0⟩
  | cmdLen1S =>
    simp only [hstate] at h
    cases h
    exact ⟨by simp only [Pump.used,hstate]; omega,returns_call 1⟩
  | cmdLen2S =>
    simp only [hstate] at h
    split at h <;> cases h
    · exact ⟨by simp only [Pump.used,hstate,UInt8.toNat_zero]; omega,returns_call 1⟩
    · exact ⟨zero_le _,returns_call 0⟩
  | dataS =>
    have hcnt : (p.recvCnt+1).toNat≤p.recvCnt.toNat+1 := by
      rw [UInt8.toNat_add]
      exact mod_le _ _
    simp only [hstate] at h
    rw [Memory.store] at h
    split at h <;> cases h
    refine ⟨?_,returns_call 1⟩
    cases Decidable.em ((p.recvCnt+1).toUInt16=p.cmdLen) with
    | inl hfull =>
      simp only [Pump.used,hstate,if_pos hfull]
      omega
    | inr hfull =>
      simp only [Pump.used,hstate,if_neg hfull]
      omega
  | checkS =>
    simp only [hstate] at h
    split at h <;> cases h
    · exact ⟨by simp only [Pump.used,hstate]; omega,returns_call 1⟩
    · exact ⟨zero_le _,returns_call 0⟩
  | endS =>
    simp only [hstate] at h
    cases h
    refine ⟨zero_le _,fun call hcall => ?_⟩
    split at hcall <;> cases hcall
    exact ⟨rfl,by simp only [Pump.used,hstate]⟩

/-- In a run a call has fewer than 256 bytes of data, and there are eight more bytes in its
frame. -/
theorem run_calls {arrivals : List Arrival} : ∀ {p q : Pump} {os : List Output},
    run Pump.pumpChar p arrivals=.ok (q,os) → ∀ call∈calls os,
      call.cmdData.length < 256∧call.cmdData.length+8≤p.used+arrivals.length := by
  induction arrivals with
  | nil =>
    intro p q os h call hcall
    cases h
    cases hcall
  | cons a arrivals ih =>
    intro p q os h call hcall
    obtain ⟨m,o,os',hstep,hrest,rfl⟩ := run_cons_eq_ok.mp h
    rw [length_cons]
    have hused := pumpChar_used hstep
    rw [calls,mem_filterMap] at hcall
    obtain ⟨o',hmem,hcall⟩ := hcall
    rcases mem_cons.mp hmem with rfl | hmem
    · obtain ⟨hdata,hlen⟩ := hused.2 call hcall
      have hlt := p.recvCnt.toNat_lt
      rw [hdata,Pump.received,length_map,length_range]
      exact ⟨hlt,by omega⟩
    · obtain ⟨hlt,hle⟩ := ih hrest call (mem_filterMap.mpr ⟨o',hmem,hcall⟩)
      exact ⟨hlt,by omega⟩

end Lengths

/-- The whole of some arrivals makes one call, the one told. -/
def Hands (p : Pump) (arrivals : List Arrival) (call : Call) : Prop :=
  ∃ q os,run Pump.pumpChar p arrivals=.ok (q,os)∧calls os=[call]

/-- What `malloc` finds at one of the arrivals. -/
def mallocAt (arrivals : List Arrival) (n : ℕ) : Option (ℕ→UInt8) :=
  arrivals[n]?.bind Arrival.malloc

section Hands

/-- The calls of two runs in a row. -/
theorem calls_append (os ps : List Output) : calls (os++ps)=calls os++calls ps :=
  filterMap_append

variable {arrivals : List Arrival}

/-- A call of 256 bytes is never made. -/
theorem not_hands_of_length {p : Pump} {call : Call}
    (h : 256≤call.cmdData.length) : ¬Hands p arrivals call := by
  rintro ⟨q,os,hrun,hcalls⟩
  have hlt := (run_calls hrun call (by rw [hcalls]; exact mem_singleton_self _)).1
  omega

/-- The first of some arrivals. -/
theorem map_c_cons {c : UInt8} {cs : List UInt8} (h : arrivals.map Arrival.c=c::cs) :
    ∃ m rest,arrivals=⟨c,m⟩::rest∧rest.map Arrival.c=cs := by
  obtain ⟨⟨_,m⟩,rest,harrivals,rfl,hrest⟩ := map_eq_cons_iff.mp h
  exact ⟨m,rest,harrivals,hrest⟩

/-- The arrivals of a frame behind garbage. -/
theorem arrivals_split {garbage payload : List UInt8}
    {devId cmdId : UInt8} (h : arrivals.map Arrival.c=garbage++frame devId cmdId payload) :
    ∃ before data m₁ m₂ m₃ m₄ m₅ malloc m₇ m₈,before.map Arrival.c=garbage∧
      data.map Arrival.c=payload∧
      arrivals=before++([⟨header,m₁⟩,⟨devId,m₂⟩,⟨srvId,m₃⟩,⟨cmdId,m₄⟩,
        ⟨UInt8.ofNat (payload.length&&&0xff),m₅⟩,
        ⟨UInt8.ofNat (payload.length>>>8&&&0xff),malloc⟩]++
        (data++[⟨(body devId cmdId payload).foldl (·+·) 0,m₇⟩,⟨frameEnd,m₈⟩]))∧
      mallocAt arrivals (garbage.length+5)=malloc := by
  obtain ⟨before,rest,harrivals,hbefore,h₀⟩ := map_eq_append_iff.mp h
  rw [frame,body] at h₀
  obtain ⟨m₁,_,hrest,h₁⟩ := map_c_cons h₀
  obtain ⟨m₂,_,rfl,h₂⟩ := map_c_cons h₁
  obtain ⟨m₃,_,rfl,h₃⟩ := map_c_cons h₂
  obtain ⟨m₄,_,rfl,h₄⟩ := map_c_cons h₃
  obtain ⟨m₅,_,rfl,h₅⟩ := map_c_cons h₄
  obtain ⟨malloc,_,rfl,h₆⟩ := map_c_cons h₅
  obtain ⟨data,_,rfl,hdata,h₇⟩ := map_eq_append_iff.mp h₆
  obtain ⟨m₇,_,rfl,h₈⟩ := map_c_cons h₇
  obtain ⟨m₈,_,rfl,h₉⟩ := map_c_cons h₈
  cases map_eq_nil_iff.mp h₉
  rw [hrest] at harrivals
  refine ⟨before,data,m₁,m₂,m₃,m₄,m₅,malloc,m₇,m₈,hbefore,hdata,harrivals,?_⟩
  rw [harrivals,mallocAt,←hbefore,length_map,
    List.getElem?_append_right (Nat.le_add_right _ _),Nat.add_sub_cancel_left]
  rfl

/-- The checksum of a frame. -/
theorem body_sum (devId cmdId : UInt8) (data : List UInt8) : (body devId cmdId data).foldl (·+·) 0=
      data.foldl (·+·) (devId+srvId+cmdId+UInt8.ofNat (data.length&&&0xff)+
        UInt8.ofNat (data.length>>>8&&&0xff)) := by
  rw [body,foldl_cons,foldl_cons,foldl_cons,foldl_cons,foldl_cons,UInt8.zero_add]

/-- A length below 256 is read as it was written. -/
theorem read_length {n : ℕ} (h : n < 256) :
    ((UInt8.ofNat (n&&&0xff)).toUInt16+(UInt8.ofNat (n>>>8&&&0xff)).toUInt16*0xFF).toNat=n := by
  have hlow : n&&&0xff=n := by
    have hmod := and_two_pow_sub_one_eq_mod n 8
    rw [mod_eq_of_lt h] at hmod
    exact hmod
  have hhigh : n>>>8=0 := by
    rw [shiftRight_eq_div_pow]
    exact div_eq_of_lt h
  rw [hlow,hhigh]
  change ((UInt8.ofNat n).toUInt16+0*0xFF).toNat=n
  rw [UInt16.zero_mul,UInt16.add_zero,toNat_toUInt16]
  exact toNat_ofNat_of_lt h

variable {p : Pump} {garbage payload : List UInt8} {devId cmdId : UInt8}

/-- The end of a frame behind garbage hands its data over and the bytes before it nothing, when
there are fewer than 256 and memory for them. -/
theorem run_frame (h : p.state=.headS) (hgarbage : header∉garbage)
    (hvalid : isValidCmd cmdId=true) (hpayload : payload≠[]) (hlt : payload.length < 256)
    (harrivals : arrivals.map Arrival.c=garbage++frame devId cmdId payload)
    (hmalloc : (mallocAt arrivals (garbage.length+5)).isSome) :
    ∃ init last q os,arrivals=init++[last]∧run Pump.pumpChar p init=.ok (q,os)∧calls os=[]∧
      q.pumpChar last=.ok ({q with state := .headS},⟨none,some ⟨devId,cmdId,payload⟩⟩) := by
  obtain ⟨before,data,m₁,m₂,m₃,m₄,m₅,malloc,m₇,m₈,hbefore,hdata,rfl,hmallocAt⟩ :=
    arrivals_split harrivals
  obtain ⟨bytes,rfl⟩ := Option.isSome_iff_exists.mp (hmallocAt ▸ hmalloc)
  have hfirst := @run_garbage p h before fun a ha heq =>
    hgarbage (hbefore ▸ heq ▸ mem_map_of_mem ha)
  obtain ⟨q,hhead,hdataS,hdev,hcmd,hcmdLen,hcnt,hcheck,hmemory⟩ := @run_head p h devId cmdId
    (UInt8.ofNat (payload.length&&&0xff)) (UInt8.ofNat (payload.length>>>8&&&0xff)) hvalid
    m₁ m₂ m₃ m₄ m₅ (some bytes)
  have hlen : data.length=payload.length := by rw [←hdata,length_map]
  have hlength : q.cmdLen.toNat=data.length := by rw [hcmdLen,read_length hlt,hlen]
  obtain ⟨r,hrun,hrs,hrdev,hrcmd,hrcheck,hreceived⟩ := run_data data q hdataS
    (fun hnil => hpayload (by rw [←hdata,hnil]; rfl))
    (by rw [hcnt,hlength]; exact Nat.zero_add _) (by omega) (by rw [hmemory])
  have hsum : r.checkSum=(body devId cmdId payload).foldl (·+·) 0 := by
    rw [hrcheck,hdata,hcheck,body_sum]
  have hpayload : r.received=payload := by
    rw [hreceived,Pump.received,hcnt,hdata]
    rfl
  have hcall : (⟨r.devId,r.cmdId,r.received⟩ : Call)=⟨devId,cmdId,payload⟩ := by
    rw [hpayload,hrdev,hrcmd,hdev,hcmd]
  have hcheckStep := run_cons_eq_ok.mpr ⟨_,_,[],
    pumpChar_check hrs ⟨(body devId cmdId payload).foldl (·+·) 0,m₇⟩ hsum,run_nil _,rfl⟩
  refine ⟨_,⟨frameEnd,m₈⟩,_,_,?_,run_append hfirst (run_append hhead (run_append hrun hcheckStep)),
    ?_,?_⟩
  · simp only [append_assoc,cons_append,nil_append]
  · simp only [calls_append,calls_replicate]
    rfl
  · rw [←hcall]
    exact pumpChar_end rfl m₈

/-- A frame behind garbage hands its data over, when there are fewer than 256 and memory for
them; otherwise no call is made with as many. -/
theorem frame_hands (h : p.state=.headS) (hgarbage : header∉garbage)
    (hvalid : isValidCmd cmdId=true) (hpayload : payload≠[])
    (harrivals : arrivals.map Arrival.c=garbage++frame devId cmdId payload) :
    Hands p arrivals ⟨devId,cmdId,payload⟩↔
      payload.length < 256∧(mallocAt arrivals (garbage.length+5)).isSome := by
  refine ⟨fun hhands => ?_,fun ⟨hlt,hmalloc⟩ => ?_⟩
  · have hlt := Nat.not_le.mp fun hge => not_hands_of_length hge hhands
    obtain ⟨before,data,m₁,m₂,m₃,m₄,m₅,malloc,m₇,m₈,hbefore,hdata,rfl,hmalloc⟩ :=
      arrivals_split harrivals
    rw [hmalloc]
    cases malloc with
    | some bytes => exact ⟨hlt,rfl⟩
    | none =>
      obtain ⟨r,os,hrun,hcalls⟩ := hhands
      have hfirst := @run_garbage p h before fun a ha heq =>
        hgarbage (hbefore ▸ heq ▸ mem_map_of_mem ha)
      obtain ⟨q,hhead,hq⟩ := @run_head p h devId cmdId (UInt8.ofNat (payload.length&&&0xff))
        (UInt8.ofNat (payload.length>>>8&&&0xff)) hvalid m₁ m₂ m₃ m₄ m₅ none
      obtain ⟨⟨r',rest⟩,hrest⟩ := (succeeds_append hhead).mp ((succeeds_append hfirst).mp ⟨_,hrun⟩)
      have hwhole := run_append hfirst (run_append hhead hrest)
      have hos := (Prod.mk.inj (Except.ok.inj (hrun.symm.trans hwhole))).2
      have hrestCalls : calls rest=[⟨devId,cmdId,payload⟩] := by
        rw [hos,calls_append,calls_replicate,calls_append] at hcalls
        exact hcalls
      have hused : q.used=0 := by rw [Pump.used,hq]
      have hle := (run_calls hrest ⟨devId,cmdId,payload⟩ (by
        rw [hrestCalls]
        exact mem_singleton_self _)).2
      rw [hused,length_append,length_cons,length_singleton,←hdata,length_map] at hle
      omega
  · obtain ⟨init,last,q,os,rfl,hrun,hcalls,hlast⟩ :=
      run_frame h hgarbage hvalid hpayload hlt harrivals hmalloc
    refine ⟨_,_,run_append hrun (run_cons_eq_ok.mpr ⟨_,_,[],hlast,rfl,rfl⟩),?_⟩
    rw [calls_append,hcalls]
    rfl

end Hands

/-- The second byte of a length that is zero, with memory found for no bytes. -/
def Announces (p : Pump) (a : Arrival) : Prop :=
  p.state=.cmdLen2S∧p.cmdLen=0∧a.c=0∧a.malloc≠none

section Stores

/-- Before a length is complete it is a byte. While there are data to come, there is memory
for the next. -/
structure Pump.Room (p : Pump) : Prop where
  /-- The first byte of a length. -/
  low : p.state=.cmdLen2S → p.cmdLen.toNat < 256
  size : p.state=.dataS → p.recvData.size=p.cmdLen.toNat
  next : p.state=.dataS → p.recvCnt.toNat < p.cmdLen.toNat

variable {p : Pump}

theorem room_of_state (s : PumpState) (h : p.state=s) (hlen : s≠.cmdLen2S)
    (hdata : s≠.dataS) : p.Room := by
  subst h
  exact ⟨fun h => absurd h hlen,fun h => absurd h hdata,fun h => absurd h hdata⟩

/-- At the start there are no data. -/
theorem initial_room : Pump.initial.Room := room_of_state .headS rfl nofun nofun

/-- A length is zero when both of its bytes are. -/
theorem announced_pos {cmdLen : UInt16} (h : cmdLen.toNat < 256) {c : UInt8}
    (hzero : ¬(cmdLen=0∧c=0)) : 0 < (cmdLen+c.toUInt16*0xFF).toNat := by
  have hc := c.toNat_lt
  have hvalue : (cmdLen+c.toUInt16*0xFF).toNat=cmdLen.toNat+c.toNat*255 := by
    rw [UInt16.toNat_add,UInt16.toNat_mul,toNat_toUInt16]
    change (cmdLen.toNat+c.toNat*255%65536)%65536=_
    omega
  rw [hvalue]
  refine Nat.pos_of_ne_zero fun heq => hzero ⟨?_,?_⟩
  · exact UInt16.toNat_inj.mp (by rw [show cmdLen.toNat=0 by omega]; rfl)
  · exact UInt8.toNat_inj.mp (by rw [show c.toNat=0 by omega]; rfl)

/-- A byte is taken, and there is room for the next when no length of zero gets memory. -/
theorem pumpChar_room (h : p.Room) (a : Arrival) :
    ∃ q o,p.pumpChar a=.ok (q,o)∧(¬Announces p a → q.Room) := by
  cases hstate : p.state with
  | headS =>
    cases Decidable.em (header=a.c) with
    | inl heq =>
      exact ⟨_,_,by rw [Pump.pumpChar,hstate]; exact if_pos heq,
        fun _ => room_of_state .devIdS rfl nofun nofun⟩
    | inr hne =>
      exact ⟨p,_,by rw [Pump.pumpChar,hstate]; exact if_neg hne,fun _ => h⟩
  | devIdS => exact ⟨_,_,by rw [Pump.pumpChar,hstate],fun _ => room_of_state .srvIdS rfl nofun nofun⟩
  | srvIdS =>
    cases Decidable.em (srvId=a.c) with
    | inl heq =>
      exact ⟨_,_,by rw [Pump.pumpChar,hstate]; exact if_pos heq,
        fun _ => room_of_state .cmdIdS rfl nofun nofun⟩
    | inr hne =>
      exact ⟨_,_,by rw [Pump.pumpChar,hstate]; exact if_neg hne,
        fun _ => room_of_state .headS rfl nofun nofun⟩
  | cmdIdS =>
    cases Decidable.em (isValidCmd a.c=true) with
    | inl heq =>
      exact ⟨_,_,by rw [Pump.pumpChar,hstate]; exact if_pos heq,
        fun _ => room_of_state .cmdLen1S rfl nofun nofun⟩
    | inr hne =>
      exact ⟨_,_,by rw [Pump.pumpChar,hstate]; exact if_neg hne,
        fun _ => room_of_state .headS rfl nofun nofun⟩
  | cmdLen1S =>
    have hne : PumpState.cmdLen2S≠.dataS := nofun
    refine ⟨_,_,by rw [Pump.pumpChar,hstate],fun _ => ⟨fun _ => ?_,fun h => absurd h hne,
      fun h => absurd h hne⟩⟩
    rw [toNat_toUInt16]
    exact a.c.toNat_lt
  | cmdLen2S =>
    obtain ⟨c,malloc⟩ := a
    cases malloc with
    | none => exact ⟨_,_,by rw [Pump.pumpChar,hstate],fun _ => room_of_state .headS rfl nofun nofun⟩
    | some bytes =>
      have hne : PumpState.dataS≠.cmdLen2S := nofun
      refine ⟨_,_,by rw [Pump.pumpChar,hstate],
        fun hzero => ⟨fun h => absurd h hne,fun _ => rfl,fun _ => ?_⟩⟩
      exact announced_pos (h.low hstate) fun hz => hzero ⟨hstate,hz.1,hz.2,nofun⟩
  | dataS =>
    have hnext := h.next hstate
    refine ⟨_,_,pumpChar_data hstate (by rw [h.size hstate]; exact hnext) a,fun _ => ?_⟩
    have hcnt : (p.recvCnt+1).toNat≤p.recvCnt.toNat+1 := by
      rw [UInt8.toNat_add]
      exact mod_le _ _
    cases Decidable.em ((p.recvCnt+1).toUInt16=p.cmdLen) with
    | inl hfull =>
      rw [if_pos hfull]
      exact room_of_state .checkS rfl nofun nofun
    | inr hfull =>
      rw [if_neg hfull]
      have hdata : PumpState.dataS≠.cmdLen2S := nofun
      refine ⟨fun h => absurd h hdata,fun _ => h.size hstate,fun _ => ?_⟩
      have hne : (p.recvCnt+1).toNat≠p.cmdLen.toNat := fun heq =>
        hfull (UInt16.toNat_inj.mp (by rw [toNat_toUInt16,heq]))
      exact Nat.lt_of_le_of_ne (by dsimp only; omega) hne
  | checkS =>
    cases Decidable.em (p.checkSum=a.c) with
    | inl heq =>
      exact ⟨_,_,by rw [Pump.pumpChar,hstate]; exact if_pos heq,
        fun _ => room_of_state .endS rfl nofun nofun⟩
    | inr hne =>
      exact ⟨_,_,by rw [Pump.pumpChar,hstate]; exact if_neg hne,
        fun _ => room_of_state .headS rfl nofun nofun⟩
  | endS => exact ⟨_,_,by rw [Pump.pumpChar,hstate],fun _ => room_of_state .headS rfl nofun nofun⟩

/-- When a length of zero gets memory, the next byte is stored past its end. -/
theorem announces_overrun {a : Arrival} (h : Announces p a) (b : Arrival)
    (after : List Arrival) : ¬Succeeds Pump.pumpChar p (a::b::after) := by
  obtain ⟨hstate,hlen,hc,hmalloc⟩ := h
  obtain ⟨bytes,hbytes⟩ := Option.ne_none_iff_exists'.mp hmalloc
  have hzero : (p.cmdLen+a.c.toUInt16*0xFF).toNat=0 := by
    rw [hlen,hc]
    decide
  obtain ⟨q,hstep,hdata,hsize⟩ : ∃ q,p.pumpChar a=.ok (q,returns 1)∧q.state=.dataS∧
      q.recvData.size=0 := by
    rw [Pump.pumpChar,hstate]
    simp only [hbytes]
    exact ⟨_,rfl,rfl,hzero⟩
  have hstore : q.pumpChar b=.error .recvData := by
    rw [Pump.pumpChar,hdata]
    change (q.recvData.store q.recvCnt.toNat b.c >>= fun recvData => _)=_
    rw [Memory.store,if_neg (by omega)]
    rfl
  rw [succeeds_cons hstep]
  exact not_succeeds_cons hstore

/-- The bytes are all stored inside of the memory exactly when no byte follows a length of
zero that gets memory. -/
theorem stores_iff {arrivals : List Arrival} : ∀ {p : Pump},p.Room →
    (Succeeds Pump.pumpChar p arrivals↔∀ before a b after,arrivals=before++a::b::after →
      ∀ q os,run Pump.pumpChar p before=.ok (q,os) → ¬Announces q a) := by
  intro p hroom
  constructor
  · rintro hall before a b after rfl q os hrun hannounces
    exact announces_overrun hannounces b after ((succeeds_append hrun).mp hall)
  · intro hnone
    induction arrivals generalizing p with
    | nil => exact succeeds_nil p
    | cons a arrivals ih =>
      obtain ⟨q,o,hstep,hq⟩ := pumpChar_room hroom a
      rw [succeeds_cons hstep]
      cases arrivals with
      | nil => exact succeeds_nil q
      | cons b arrivals =>
        refine ih (hq (hnone [] a b arrivals rfl p [] rfl)) ?_
        intro before c d after hsplit r os hrun
        exact hnone (a::before) c d after (by rw [hsplit]; rfl) r (o::os)
          (run_cons_eq_ok.mpr ⟨q,o,os,hstep,hrun,rfl⟩)

end Stores

/-- A frame behind garbage without a head byte hands its data over exactly when there are
fewer than 256 of them and memory for them is found. The bytes of a stream are all stored
inside of the memory exactly when no byte follows a length of zero for which memory is
found. -/
theorem pumpChar_frames (p : Pump) (arrivals : List Arrival) (garbage payload : List UInt8)
    (devId cmdId : UInt8) :
    (p.state=.headS → header∉garbage → isValidCmd cmdId=true → payload≠[] → payload.length < 2^16 →
      arrivals.map Arrival.c=garbage++frame devId cmdId payload →
      (Hands p arrivals ⟨devId,cmdId,payload⟩↔
        payload.length < 256∧(mallocAt arrivals (garbage.length+5)).isSome))∧
    (Succeeds Pump.pumpChar .initial arrivals↔
      ∀ before a b after,arrivals=before++a::b::after →
        ∀ q os,run Pump.pumpChar .initial before=.ok (q,os) → ¬Announces q a) :=
  ⟨fun h hgarbage hvalid hpayload _ harrivals =>
    frame_hands h hgarbage hvalid hpayload harrivals,stores_iff initial_room⟩

/-- The bytes of a frame for which `malloc` finds memory at every byte. -/
def arrivalsOf (bytes : List UInt8) : List Arrival := bytes.map fun c => ⟨c,some fun _ => 0⟩

/-- A byte of data behind a byte of garbage. -/
theorem pumpChar_frames_garbage : Hands .initial (arrivalsOf (0::frame 1 2 [7])) ⟨1,2,[7]⟩ :=
  ((pumpChar_frames .initial (arrivalsOf (0::frame 1 2 [7])) [0] [7] 1 2).1 rfl (by decide) rfl
    (by decide) (by decide) (by decide)).mpr ⟨by decide,rfl⟩

/-- The data of 256 zeros are not handed over, and the byte behind a length of zero is stored
past the end of the memory. -/
theorem longPayload_not_handed :
    ¬Hands .initial (arrivalsOf (frame 0 cmdIdHead (List.replicate 256 0)))
      ⟨0,cmdIdHead,List.replicate 256 0⟩∧
    run Pump.pumpChar .initial (arrivalsOf (frame 0 cmdIdHead []))=.error .recvData :=
  ⟨not_hands_of_length (Nat.le_of_eq List.length_replicate.symm),rfl⟩

end MicroPython.FtpFrames
