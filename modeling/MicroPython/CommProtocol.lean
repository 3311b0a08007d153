import MicroPython.InputMachine

/-!
# The F3 communication protocol

Each channel of the robot has a state machine that takes one byte at a time and
collects frames: a header with its check, a 16-bit length, the data with their
checksum and an end. The first data byte is the id of a protocol, whose handler
gets the others. The handlers and the FF 55 protocol, which see the same bytes,
are parameters, as is the allocator. Arrays are indexed with a check; an index
out of bounds is a fault.
-/

namespace MicroPython.CommProtocol

/-- `FRAME_HEADER` -/
def frameHeader : UInt8 := 0xF3

/-- `FRAME_END` -/
def frameEnd : UInt8 := 0xF4

/-- `FRAME_DATA_MAX_LEN` -/
def frameDataMaxLen : ℕ := 256+128

/-- `COMM_CHN_NUM`, after `BLE_DATA_TAG`, `UART0_DATA_TAG` and `UART1_DATA_TAG`. -/
def commChnNum : ℕ := 3

/-- `protocol_id_t` without `PROTOCOL_NUM`. -/
inductive Protocol where
  /-- `NEU_FTP_ID`, `codey_neurons_ftp` -/
  | neuFtp
  /-- `SUPER_VAR_ID`, `codey_super_var` -/
  | superVar
  /-- `MSG_BCAST_ID`, `codey_message_recv` -/
  | msgBcast
  /-- `SENSOR_REPORT_ID`, `codey_sensor_report_request` -/
  | sensorReport
  /-- `GET_MAC_ID`, `codey_get_mac` -/
  | getMac
  /-- `GET_FIRMWARE`, `codey_comm_get_firmware` -/
  | getFirmware
  /-- `DTR_REQ`, `codey_dtr_req` -/
  | dtrReq
  /-- `READY_NOTIFY`, `codey_ready` -/
  | readyNotify
  /-- `GET_CHN`, `codey_get_chn` -/
  | getChn
  /-- `PRODUCT_TEST`, `codey_product_test_request` -/
  | productTest
  /-- `BAUDRATE_SETTING`, `codey_comm_baudrate_setting` -/
  | baudrateSetting
  /-- `GET_FILESYS`, `codey_get_filesys` -/
  | getFilesys
  deriving DecidableEq

/-- `s_protocol_tab` -/
def protocolTab : List (Option Protocol) :=
  [none,some .neuFtp,some .superVar,some .msgBcast,some .sensorReport,some .getMac,
    some .getFirmware,some .dtrReq,some .readyNotify,some .getChn,some .productTest,
    some .baudrateSetting,some .getFilesys]

/-- `PROTOCOL_NUM` -/
def protocolNum : ℕ := 13

/-- The number of a protocol. -/
def Protocol.id (p : Protocol) : UInt8 := (protocolTab.idxOf (some p)).toUInt8

/-- `fsm_state_t` -/
inductive FsmState where
  /-- `S_HEAD` -/
  | sHead
  /-- `S_HEAD_CHECK` -/
  | sHeadCheck
  /-- `S_LEN1` -/
  | sLen1
  /-- `S_LEN2` -/
  | sLen2
  /-- `S_DATA` -/
  | sData
  /-- `S_CHECK` -/
  | sCheck
  /-- `S_END` -/
  | sEnd
  deriving DecidableEq

/-- `fsm_t` -/
structure Fsm where
  s : FsmState
  recvHeadCheck : UInt8
  calcHeadCheck : UInt8
  len : UInt16
  /-- The index at which data are written. -/
  recvLen : UInt16
  check : UInt8
  data : Vector UInt8 frameDataMaxLen

/-- An index outside its array. -/
inductive Fault where
  /-- In `s_fsm_tab`. -/
  | fsmTab
  /-- In `data` of a state machine. -/
  | data
  /-- In `s_protocol_tab`. -/
  | protocolTab
  deriving DecidableEq

/-- The call of a handler, with the protocol id that the reply gets. -/
structure Call where
  protocol : Protocol
  id : UInt8
  /-- The data after the id. -/
  data : List UInt8

/-- `codey_get_protocol_by_id` -/
def codeyGetProtocolById (id : UInt8) : Except Fault (Option Protocol) :=
  if protocolNum < id.toNat then .ok none
  else
    match protocolTab[id.toNat]? with
    | some pf => .ok pf
    | none => .error .protocolTab

/-- The `switch` of `codey_comm_protocol_pump_char`: the state machine of a channel
gets a byte, and perhaps calls a handler. -/
def Fsm.pump (p : Fsm) (c : UInt8) : Except Fault (Fsm×Option Call) :=
  match p.s with
  | .sHead =>
    if frameHeader=c then
      .ok ({p with
        len := 0
        recvHeadCheck := 0
        calcHeadCheck := frameHeader
        recvLen := 0
        check := 0
        s := .sHeadCheck},none)
    else .ok (p,none)
  | .sHeadCheck => .ok ({p with recvHeadCheck := c,s := .sLen1},none)
  | .sLen1 =>
    .ok ({p with calcHeadCheck := p.calcHeadCheck+c,len := p.len+c.toUInt16,s := .sLen2},none)
  | .sLen2 =>
    let calcHeadCheck := p.calcHeadCheck+c
    .ok ({p with
      calcHeadCheck := calcHeadCheck
      len := p.len+c.toUInt16*256
      s := if p.recvHeadCheck=calcHeadCheck then .sData else .sHead},none)
  | .sData =>
    if h : p.recvLen.toNat < frameDataMaxLen then
      .ok ({p with
        check := p.check+c
        data := p.data.set p.recvLen.toNat c h
        recvLen := p.recvLen+1
        s := if p.recvLen+1=p.len then .sCheck else .sData},none)
    else .error .data
  | .sCheck => .ok ({p with s := if p.check=c then .sEnd else .sHead},none)
  | .sEnd =>
    if frameEnd=c then
      let id := p.data.toList.headD 0
      match codeyGetProtocolById id with
      | .error e => .error e
      | .ok none => .ok ({p with s := .sHead},none)
      | .ok (some protocol) =>
        .ok ({p with s := .sHead},
          some ⟨protocol,id,(p.data.toList.drop 1).take (p.len.toNat-1)⟩)
    else .ok ({p with s := .sHead},none)

/-- `codey_calc_add_check_sum` -/
def codeyCalcAddCheckSum (data : List UInt8) : UInt8 := data.foldl (·+·) 0

/-- `codey_comm_build_frame`, when the buffer could be allocated or not, for data
with which `pos` stays within its sixteen bits. -/
def codeyCommBuildFrame (allocated : Bool) (protocolId : UInt8) (data : List UInt8) : List UInt8 :=
  if allocated then
    let len1 := (data.length+1).toUInt8
    let len2 := ((data.length+1)>>>8).toUInt8
    [frameHeader,frameHeader+len1+len2,len1,len2,protocolId]++data++
      [codeyCalcAddCheckSum data+protocolId,frameEnd]
  else []

/-- What the protocol calls. `W` is the rest of the machine. -/
structure Handlers (W : Type) where
  protocol : Protocol→ℕ→List UInt8→W→List UInt8×W
  /-- `codey_ff_55_protocol_pump_char` on a channel: the reply. -/
  ff55 : ℕ→UInt8→W→List UInt8×W
  /-- Whether `pvPortMalloc` has room for that many bytes. -/
  pvPortMalloc : ℕ→W→Bool

/-- The state of the protocol and of the rest of the machine. -/
structure State (W : Type) where
  /-- `s_fsm_tab` -/
  fsmTab : Vector Fsm commChnNum
  /-- The rest. -/
  world : W

variable {W : Type}

/-- The reply to a byte after which the state machine calls a handler or not. -/
def reply (H : Handlers W) (chnTag : ℕ) (c : UInt8) (call : Option Call) (w : W) : List UInt8×W :=
  let r := match call with
    | none => ([],w)
    | some call =>
      let out := H.protocol call.protocol chnTag call.data w
      if out.1=[] then out
      else
        (codeyCommBuildFrame (H.pvPortMalloc (out.1.length+7) out.2) call.id out.1,out.2)
  if r.1=[] then H.ff55 chnTag c r.2 else r

/-- `codey_comm_protocol_pump_char` with buffers for the reply: the state, the reply
and the call of a handler. A channel tag that the guard keeps out leaves the
reply's buffers as they are. -/
def codeyCommProtocolPumpChar (H : Handlers W) (st : State W) (input : ℕ×UInt8) :
    Except Fault (State W×(Option (List UInt8)×Option Call)) :=
  if commChnNum < input.1 then .ok (st,none,none)
  else if h : input.1 < commChnNum then
    match (st.fsmTab.get ⟨input.1,h⟩).pump input.2 with
    | .error e => .error e
    | .ok (fsm,call) =>
      let r := reply H input.1 input.2 call st.world
      .ok (⟨st.fsmTab.set input.1 fsm h,r.2⟩,some r.1,call)
  else .error .fsmTab

/-- The state machines at the start of the program. -/
def Fsm.initial : Fsm := ⟨.sHead,0,0,0,0,0,Vector.replicate frameDataMaxLen 0⟩

/-- The protocol at the start of the program. -/
def State.initial (w : W) : State W := ⟨Vector.replicate commChnNum Fsm.initial,w⟩

/-- The payload write index, the index of the state machine and the index into the
protocol table stay in bounds for all the bytes. -/
def InBounds (H : Handlers W) (w : W) (stream : List (ℕ×UInt8)) : Prop :=
  InputMachine.Succeeds (codeyCommProtocolPumpChar H) (State.initial w) stream

end MicroPython.CommProtocol
