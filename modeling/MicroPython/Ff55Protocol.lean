import MicroPython.CommProtocol

/-!
# The FF 55 protocol

The bytes of a channel that the F3 protocol does not answer also go to a second
state machine. It waits for the bytes `FF` and `55`, takes a length, an index, a
mode and a command, and looks the command up in a table. None of the table's
commands has further data, so that the state that would collect them is never
reached and the index into the data stays in place.
-/

namespace MicroPython.Ff55Protocol

/-- `FW_FRAME_HEADER_1` -/
def fwFrameHeader1 : UInt8 := 0xFF

/-- `FW_FRAME_HEADER_2` -/
def fwFrameHeader2 : UInt8 := 0x55

/-- `FW_MAX_DATA_LEN` -/
def fwMaxDataLen : ℕ := 0xF0

/-- `FW_MODE_READ` -/
def fwModeRead : UInt8 := 0x01

/-- `FW_CMD_FIRMWARE_ID` -/
def fwCmdFirmwareId : UInt8 := 0x00

/-- `FW_CMD_GET_CHN_ID` -/
def fwCmdGetChnId : UInt8 := 0xF0

/-- `fw_fsm_state_t` -/
inductive FwFsmState where
  /-- `S_FW_HEAD_1` -/
  | sFwHead1
  /-- `S_FW_HEAD_2` -/
  | sFwHead2
  /-- `S_FW_LEN` -/
  | sFwLen
  /-- `S_FW_INDEX` -/
  | sFwIndex
  /-- `S_FW_MODE` -/
  | sFwMode
  /-- `S_FW_CMD` -/
  | sFwCmd
  /-- `S_FW_DATA` -/
  | sFwData
  /-- `S_FW_END` -/
  | sFwEnd
  deriving DecidableEq

/-- The functions of `s_fw_cmd_tab`. -/
inductive FwFunction where
  /-- `codey_fw_read_firmware_version` -/
  | readFirmwareVersion
  /-- `codey_fw_read_commu_chn` -/
  | readCommuChn
  deriving DecidableEq

/-- `fw_cmd_elem_t` -/
structure FwCmdElem where
  cmdMode : UInt8
  /-- The command. -/
  cmdId : UInt8
  /-- How many data are expected. -/
  expLen : UInt8
  cmdExe : Option FwFunction

/-- `s_fw_cmd_tab`, whose third element is not initialised, hence zero. -/
def fwCmdTab : List FwCmdElem :=
  [⟨fwModeRead,fwCmdFirmwareId,0,some .readFirmwareVersion⟩,
    ⟨fwModeRead,fwCmdGetChnId,0,some .readCommuChn⟩,⟨0,0,0,none⟩]

/-- `codey_cmd_elem_mode_id` -/
def codeyCmdElemModeId (cmdMode cmdId : UInt8) : Option FwCmdElem :=
  fwCmdTab.find? fun e => cmdId==e.cmdId&&cmdMode==e.cmdMode

/-- `fw_fsm_t` -/
structure FwFsm where
  s : FwFsmState
  /-- The index at which data are written. -/
  recvLen : UInt8
  len : UInt8
  index : UInt8
  mode : UInt8
  /-- The command. -/
  cmd : UInt8
  /-- The index, the mode, the command and further data. -/
  data : Vector UInt8 fwMaxDataLen

/-- An index outside its array. -/
inductive FwFault where
  /-- In `s_fw_fsm_tab`. -/
  | fwFsmTab
  /-- In `data` of a state machine. -/
  | data
  deriving DecidableEq

/-- The call of a function of the table. -/
structure FwCall where
  function : FwFunction
  data : List UInt8

/-- `data[recv_len++] = c` -/
def FwFsm.put (p : FwFsm) (c : UInt8) : Except FwFault FwFsm :=
  if h : p.recvLen.toNat < fwMaxDataLen then
    .ok {p with
      data := p.data.set p.recvLen.toNat c h
      recvLen := p.recvLen+1}
  else .error .data

/-- The call of the function of a table element, if it has one. -/
def FwFsm.exe (p : FwFsm) (e : FwCmdElem) : Option FwCall :=
  e.cmdExe.map fun f => ⟨f,p.data.toList.take p.recvLen.toNat⟩

/-- The state machine after `data[recv_len++] = c` in `S_FW_CMD`. -/
def FwFsm.commanded (p : FwFsm) : FwFsm×Option FwCall :=
  match codeyCmdElemModeId p.mode p.cmd with
  | some e =>
    if e.expLen≠0 then ({p with s := .sFwData},none)
    else ({p with s := .sFwHead1},p.exe e)
  | none => ({p with s := .sFwHead1},none)

/-- The state machine after `data[recv_len++] = c` in `S_FW_DATA`. -/
def FwFsm.collected (p : FwFsm) : FwFsm×Option FwCall :=
  if p.recvLen=p.len then
    ({p with s := .sFwHead1},(codeyCmdElemModeId p.mode p.cmd).bind p.exe)
  else (p,none)

/-- The `switch` of `codey_ff_55_protocol_pump_char`: the state machine of a channel
gets a byte, and perhaps calls a function. -/
def FwFsm.pump (p : FwFsm) (c : UInt8) : Except FwFault (FwFsm×Option FwCall) :=
  match p.s with
  | .sFwHead1 => .ok (if fwFrameHeader1=c then {p with s := .sFwHead2} else p,none)
  | .sFwHead2 => .ok (if fwFrameHeader2=c then {p with s := .sFwLen} else p,none)
  | .sFwLen => .ok ({p with
      len := c
      recvLen := 0
      s := .sFwIndex},none)
  | .sFwIndex =>
    match {p with index := c}.put c with
    | .error e => .error e
    | .ok p => .ok ({p with s := .sFwMode},none)
  | .sFwMode =>
    match {p with mode := c}.put c with
    | .error e => .error e
    | .ok p => .ok ({p with s := .sFwCmd},none)
  | .sFwCmd =>
    match {p with cmd := c}.put c with
    | .error e => .error e
    | .ok p => .ok p.commanded
  | .sFwData =>
    match p.put c with
    | .error e => .error e
    | .ok p => .ok p.collected
  | .sFwEnd => .ok (p,none)

/-- The state machines at the start of the program. -/
def FwFsm.initial : FwFsm := ⟨.sFwHead1,0,0,0,0,0,Vector.replicate fwMaxDataLen 0⟩

/-- The state of the protocol and of the rest of the machine. -/
structure FwState (W : Type) where
  /-- `s_fw_fsm_tab` -/
  fwFsmTab : Vector FwFsm CommProtocol.commChnNum
  /-- The rest. -/
  world : W

/-- The functions of the table on a channel: the reply. -/
def FwFunctions (W : Type) := FwFunction→ℕ→List UInt8→W→List UInt8×W

/-- The reply to a byte after which the state machine calls a function or not. -/
def fwReply {W : Type} (F : FwFunctions W) (chnTag : ℕ) (call : Option FwCall) (w : W) :
    List UInt8×W :=
  match call with
  | none => ([],w)
  | some call => F call.function chnTag call.data w

/-- `codey_ff_55_protocol_pump_char` with buffers for the reply: the state, the reply
and the call of a function. A channel tag that the guard keeps out leaves the
reply's buffers as they are. -/
def codeyFf55ProtocolPumpChar {W : Type} (F : FwFunctions W) (st : FwState W)
    (input : ℕ×UInt8) : Except FwFault (FwState W×(Option (List UInt8)×Option FwCall)) :=
  if CommProtocol.commChnNum < input.1 then .ok (st,none,none)
  else if h : input.1 < CommProtocol.commChnNum then
    match (st.fwFsmTab.get ⟨input.1,h⟩).pump input.2 with
    | .error e => .error e
    | .ok (fsm,call) =>
      let r := fwReply F input.1 call st.world
      .ok (⟨st.fwFsmTab.set input.1 fsm h,r.2⟩,some r.1,call)
  else .error .fwFsmTab

/-! ## The index stays in place -/

/-- The index into the data is where the state says, and no data are collected. -/
def FwFsm.InPlace (p : FwFsm) : Prop :=
  match p.s with
  | .sFwIndex => p.recvLen=0
  | .sFwMode => p.recvLen=1
  | .sFwCmd => p.recvLen=2
  | .sFwData => False
  | .sFwHead1 | .sFwHead2 | .sFwLen | .sFwEnd => True

theorem put_ok (p : FwFsm) (c : UInt8) (h : p.recvLen.toNat < fwMaxDataLen) :
    ∃ q,p.put c=.ok q∧q.recvLen=p.recvLen+1 :=
  ⟨_,dif_pos h,rfl⟩

/-- No command of the table expects data. -/
theorem expLen_eq_zero {cmdMode cmdId : UInt8} {e : FwCmdElem}
    (h : codeyCmdElemModeId cmdMode cmdId=some e) : e.expLen=0 := by
  have hmem := List.mem_of_find?_eq_some h
  have hall : ∀ e∈fwCmdTab,e.expLen=0 := by
    intro e he
    simp only [fwCmdTab,List.mem_cons,List.not_mem_nil,or_false] at he
    obtain rfl|rfl|rfl := he <;> rfl
  exact hall e hmem

/-- After the command the machine looks for a header again. -/
theorem commanded_s (p : FwFsm) : p.commanded.1.s=.sFwHead1 := by
  rw [FwFsm.commanded]
  cases hfind : codeyCmdElemModeId p.mode p.cmd with
  | none => rfl
  | some e =>
    have hzero := expLen_eq_zero hfind
    simp only [hzero,ne_eq,not_true_eq_false,if_false]

/-- A byte finds its place in the data and the index stays in place. -/
theorem pump_inPlace {p : FwFsm} (h : p.InPlace) (c : UInt8) :
    ∃ r,p.pump c=.ok r∧r.1.InPlace := by
  obtain ⟨s,recvLen,len,index,mode,cmd,data⟩ := p
  have hplace : ∀ n : UInt8,n≤2 → n.toNat < fwMaxDataLen := by
    intro n hn
    have hle := UInt8.le_iff_toNat_le.mp hn
    exact Nat.lt_of_le_of_lt hle (by decide)
  cases s with
  | sFwHead1 =>
    refine ⟨_,rfl,?_⟩
    split <;> trivial
  | sFwHead2 =>
    refine ⟨_,rfl,?_⟩
    dsimp only
    split <;> trivial
  | sFwLen => exact ⟨_,rfl,rfl⟩
  | sFwIndex =>
    have hzero : recvLen=0 := h
    obtain ⟨q,hput,hlen⟩ := put_ok ⟨.sFwIndex,recvLen,len,c,mode,cmd,data⟩ c
      (hplace recvLen (by rw [hzero]; decide))
    refine ⟨_,by rw [FwFsm.pump,hput],?_⟩
    rw [FwFsm.InPlace,hlen,hzero]
    rfl
  | sFwMode =>
    have hone : recvLen=1 := h
    obtain ⟨q,hput,hlen⟩ := put_ok ⟨.sFwMode,recvLen,len,index,c,cmd,data⟩ c
      (hplace recvLen (by rw [hone]; decide))
    refine ⟨_,by rw [FwFsm.pump,hput],?_⟩
    rw [FwFsm.InPlace,hlen,hone]
    rfl
  | sFwCmd =>
    have htwo : recvLen=2 := h
    obtain ⟨q,hput,hlen⟩ := put_ok ⟨.sFwCmd,recvLen,len,index,mode,c,data⟩ c
      (hplace recvLen (by rw [htwo]; decide))
    refine ⟨_,by rw [FwFsm.pump,hput],?_⟩
    rw [FwFsm.InPlace,commanded_s]
    trivial
  | sFwData => exact h.elim
  | sFwEnd => exact ⟨_,rfl,trivial⟩

end MicroPython.Ff55Protocol
