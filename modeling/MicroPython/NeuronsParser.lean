import MicroPython.NeuronsNodes

/-!
# Packages from the blocks

Packages with a right checksum are parsed, and heart packages are sent between
them. An answer to a heart package is a new node at the device id it has, and a
response is copied into the buffer of its node from the offset of the respond
table on. Neither the id nor the number of bytes is compared with what there is
room for.
-/

namespace MicroPython.NeuronsParser

open NeuronsProtocol NeuronsCommands NeuronsNodes InputMachine

/-- `CTL_SYSTEM_COMMAND_MIN` -/
def ctlSystemCommandMin : UInt8 := 0x10

/-- `CTL_SYSTEM_COMMAND_MAX` -/
def ctlSystemCommandMax : UInt8 := 0x15

/-- A package with a right checksum. -/
structure ValidPackage where
  package : Package
  /-- Its bytes are in `data`. -/
  within : package.dataInIndex≤packageSize
  /-- `neurons_package_check_sum_t` -/
  checkSum : neuronsPackageCheckSumT package=true

/-- A byte of `cmd_package_info.data`. -/
def ValidPackage.byte (p : ValidPackage) (i : Fin packageSize) : UInt8 := p.package.data.get i

/-- `device_id` -/
def ValidPackage.deviceId (p : ValidPackage) : UInt8 := p.byte ⟨1,by decide⟩

/-- `service_id`, the type of a block. -/
def ValidPackage.serviceId (p : ValidPackage) : UInt8 := p.byte ⟨2,by decide⟩

/-- The byte after, the sub-type of a block. -/
def ValidPackage.subServiceId (p : ValidPackage) : UInt8 := p.byte ⟨3,by decide⟩

/-- The byte after, the id of a response. -/
def ValidPackage.cmdId (p : ValidPackage) : UInt8 := p.byte ⟨4,by decide⟩

/-- `neurons_engine_parse_respond_type_t` -/
def neuronsEngineParseRespondTypeT (p : ValidPackage) : ℕ :=
  if ctlSystemCommandMin≤p.serviceId∧p.serviceId≤ctlSystemCommandMax then 1
  else if p.serviceId=ctlGeneral then 2
  else if ctlGeneral≤p.serviceId then 3
  else 0

/-- `length` of `neurons_get_data_region_from_package_t`, in eight bits. -/
def dataRegionLength (p : ValidPackage) : UInt8 := UInt8.ofNat p.package.dataInIndex-5-2

/-! ## The main list -/

/-- `neurons_engine_get_main_list_block_info_by_id_t` for the main list. -/
def neuronsEngineGetMainListBlockInfoByIdT (s : Online) (id : UInt8) : Option Node :=
  if h : id.toNat < neuronsNodeMax then
    let info := s.last.blocksInfo.get ⟨id.toNat,h⟩
    if info.blockRamAddr.isSome then some info else none
  else none

/-- `neurons_engine_find_block_in_main_list_by_id_t`, with the node that is found. -/
def neuronsEngineFindBlockInMainListByIdT (s : Online) (devId type subType : UInt8) : Option Node :=
  match neuronsEngineGetMainListBlockInfoByIdT s devId with
  | none => none
  | some info => if type=info.blockType∧subType=info.blockSubType then some info else none

/-- The loop over the types of a response: the length of the item, and the number of
types that are special. -/
def countTypes (table : ℕ→UInt8) (offset : ℕ) : ℕ→ℕ→ℕ→ℕ×ℕ
  | 0,len,specialTypeNum =>
    (if table (offset+len)=0 then len else len+1,specialTypeNum)
  | n+1,len,specialTypeNum =>
    if table (offset+len)=0 then (len,specialTypeNum)
    else countTypes table offset n (len+1)
      (if Alterable (table (offset+len)) then specialTypeNum+1 else specialTypeNum)

/-- `neurons_engine_get_respond_info_t`: `value_offset`, when the response has types. With
255 items the loop over them never ends. -/
def neuronsEngineGetRespondInfoT (table : ℕ→UInt8) (respondId : UInt8) : Option UInt8 :=
  let respondLenth := (table 0).toNat
  if respondLenth=255 then none
  else
    let offset := itemOffset singleRespondLen table respondId respondLenth
    if offset=0 then none
    else
      let (respondDataLen,specialTypeNum) := countTypes table offset respondItemMax 0 0
      if respondDataLen-specialTypeNum=0 then none else some (table (offset+6))

/-! ## Parsing -/

/-- Bytes that were copied into a buffer. -/
structure Copied where
  /-- The node of the buffer. -/
  devId : UInt8
  /-- Where they begin. -/
  valueOffset : UInt8
  /-- How many there are. -/
  length : UInt8

/-- The last step of a response: the bytes are copied. -/
def copyRespond (info : Node) (valueOffset length : UInt8) : Except NodeFault (Option Copied) :=
  if info.respondDataInfo.buffer then
    if valueOffset.toNat+length.toNat ≤ info.respondDataInfo.bufferSize.toNat then
      .ok (some ⟨info.devId,valueOffset,length⟩)
    else .error .respondBuffer
  else .ok none

/-- A response of a node with its respond table. -/
def parseWithTable (info : Node) (table : ℕ→UInt8) (p : ValidPackage) :
    Except NodeFault (Option Copied) :=
  match neuronsEngineGetRespondInfoT table p.cmdId with
  | none => .ok none
  | some valueOffset => copyRespond info valueOffset (dataRegionLength p)

/-- `neurons_engine_parse_blocks_respond_t` -/
def neuronsEngineParseBlocksRespondT (s : Online) (p : ValidPackage) :
    Except NodeFault (Option Copied) :=
  match neuronsEngineFindBlockInMainListByIdT s p.deviceId p.serviceId p.subServiceId with
  | none => .ok none
  | some info =>
    match info.blockRamAddr.bind BlockLib.respondDataType with
    | none => .error .nullPointer
    | some table => parseWithTable info table p

/-- `neurons_engine_add_new_block_t` -/
def neuronsEngineAddNewBlockT (s : Online) (devId type subType : UInt8) : Except NodeFault Online :=
  match s.now.node devId.toNat with
  | .error e => .error e
  | .ok info =>
    match s.now.setNode devId.toNat {info with
      blockType := type
      blockSubType := subType
      devId := devId} with
    | .error e => .error e
    | .ok now => .ok {s with now := {now with blocksNum := now.blocksNum+1}}

/-- `neurons_engine_parse_system_respond_t` -/
def neuronsEngineParseSystemRespondT (s : Online) (p : ValidPackage) : Except NodeFault Online :=
  if p.serviceId=ctlAssignDevId then
    neuronsEngineAddNewBlockT s p.deviceId p.subServiceId p.cmdId
  else .ok s

/-- `neurons_engine_parse_package_t` -/
def neuronsEngineParsePackageT (s : Online) (p : ValidPackage) :
    Except NodeFault (Online×Option Copied) :=
  if neuronsEngineParseRespondTypeT p=1 then
    match neuronsEngineParseSystemRespondT s p with
    | .error e => .error e
    | .ok s => .ok (s,none)
  else if neuronsEngineParseRespondTypeT p=2 then .ok (s,none)
  else
    match neuronsEngineParseBlocksRespondT s p with
    | .error e => .error e
    | .ok copied => .ok (s,copied)

/-- What happens to the tables. -/
inductive Event where
  | package (p : ValidPackage)
  /-- The main list is updated before a heart package. -/
  | heart (env : Env)

/-- An event, with the bytes that it copies. -/
def step (s : Online) : Event→Except NodeFault (Online×Option Copied)
  | .package p => neuronsEngineParsePackageT s p
  | .heart env =>
    match neuronsEngineOnlineBlocksUpdateT env s with
    | .error e => .error e
    | .ok s => .ok (s,none)

/-! ## In bounds -/

/-- The parser neither indexes a table of nodes beyond its end nor copies more bytes than
there is room for. -/
def InBounds (s : Online) : Event→Prop
  | .package p => ∀ e,neuronsEngineParsePackageT s p=.error e → e=.nullPointer
  | .heart _ => True

/-- The bytes of a response of a block in the main list end within its buffer. -/
def RespondFits (s : Online) (p : ValidPackage) : Prop :=
  ∀ info∈neuronsEngineFindBlockInMainListByIdT s p.deviceId p.serviceId p.subServiceId,
    ∀ table∈info.blockRamAddr.bind BlockLib.respondDataType,
      ∀ valueOffset∈neuronsEngineGetRespondInfoT table p.cmdId,info.respondDataInfo.buffer=true →
          valueOffset.toNat+(dataRegionLength p).toNat ≤ info.respondDataInfo.bufferSize.toNat

/-- An assigned id is below the number of nodes, and a response fits. -/
def Sound (s : Online) : Event→Prop
  | .package p =>
    if neuronsEngineParseRespondTypeT p=1 then
      p.serviceId=ctlAssignDevId → p.deviceId.toNat < neuronsNodeMax
    else if neuronsEngineParseRespondTypeT p=2 then True
    else RespondFits s p
  | .heart _ => True

/-- Whether an error is the one of memory that is missing. -/
theorem forall_error_iff {α : Type} (e : NodeFault) :
    (∀ e',(Except.error e : Except NodeFault α)=.error e' → e'=.nullPointer)↔e=.nullPointer := by
  constructor
  · exact fun h => h e rfl
  · rintro h e' he
    cases he
    exact h

/-- Only the copy itself can leave the buffer. -/
theorem copyRespond_iff (info : Node) (valueOffset length : UInt8) :
    (∀ e,copyRespond info valueOffset length=.error e → e=.nullPointer)↔
      (info.respondDataInfo.buffer=true →
        valueOffset.toNat+length.toNat ≤ info.respondDataInfo.bufferSize.toNat) := by
  rw [copyRespond]
  split
  case isFalse hbuffer => exact iff_of_true (fun _ h => nomatch h) fun h => absurd h hbuffer
  case isTrue hbuffer =>
    rw [forall_prop_of_true hbuffer]
    split
    case isTrue hle => exact iff_of_true (fun _ h => nomatch h) hle
    case isFalse hlt => exact iff_of_false (fun h => nomatch h _ rfl) hlt

/-- A response stays in bounds exactly when it fits. -/
theorem parseBlocksRespond_iff (s : Online) (p : ValidPackage) :
    (∀ e,neuronsEngineParseBlocksRespondT s p=.error e → e=.nullPointer)↔RespondFits s p := by
  rw [neuronsEngineParseBlocksRespondT,RespondFits]
  cases neuronsEngineFindBlockInMainListByIdT s p.deviceId p.serviceId p.subServiceId with
  | none => exact iff_of_true (fun _ h => nomatch h) fun _ h => nomatch h
  | some info =>
    simp only [Option.mem_some_iff,forall_eq']
    cases info.blockRamAddr.bind BlockLib.respondDataType with
    | none =>
      refine iff_of_true ?_ fun _ h => nomatch h
      intro e h
      cases h
      rfl
    | some table =>
      simp only [Option.mem_some_iff,forall_eq',parseWithTable]
      cases neuronsEngineGetRespondInfoT table p.cmdId with
      | none => exact iff_of_true (fun _ h => nomatch h) fun _ h => nomatch h
      | some valueOffset =>
        simp only [Option.mem_some_iff,forall_eq']
        exact copyRespond_iff info valueOffset (dataRegionLength p)

/-- A new node is in the table exactly when its id is below the number of nodes. -/
theorem addNewBlock_iff (s : Online) (devId type subType : UInt8) :
    (∀ e,neuronsEngineAddNewBlockT s devId type subType=.error e → e=.nullPointer)↔
      devId.toNat < neuronsNodeMax := by
  rw [neuronsEngineAddNewBlockT,Group.node]
  split
  case h_1 e h =>
    split at h
    case isTrue hlt => cases h
    case isFalse hge =>
      cases h
      exact iff_of_false (fun h => nomatch h _ rfl) hge
  case h_2 info h =>
    split at h
    case isFalse hge => cases h
    case isTrue hlt =>
      rw [Group.setNode,dif_pos hlt]
      exact iff_of_true (fun _ h => nomatch h) hlt

/-- A step stays in bounds exactly when it is sound. -/
theorem step_inBounds_iff (s : Online) (event : Event) : InBounds s event↔Sound s event := by
  cases event with
  | heart env => exact Iff.rfl
  | package p =>
    rw [InBounds,Sound,neuronsEngineParsePackageT]
    split
    case isTrue hsystem =>
      rw [neuronsEngineParseSystemRespondT]
      cases Decidable.em (p.serviceId=ctlAssignDevId) with
      | inr hother =>
        rw [if_neg hother]
        exact iff_of_true (fun _ h => nomatch h) fun h => absurd h hother
      | inl hassign =>
        rw [if_pos hassign,forall_prop_of_true hassign,
          ←addNewBlock_iff s p.deviceId p.subServiceId p.cmdId]
        cases neuronsEngineAddNewBlockT s p.deviceId p.subServiceId p.cmdId with
        | error e => exact (forall_error_iff e).trans (forall_error_iff e).symm
        | ok s => exact iff_of_true (fun _ h => nomatch h) fun _ h => nomatch h
    case isFalse hother =>
      split
      case isTrue hgeneral => exact iff_of_true (fun _ h => nomatch h) trivial
      case isFalse hblock =>
        rw [←parseBlocksRespond_iff s p]
        cases neuronsEngineParseBlocksRespondT s p with
        | error e => exact (forall_error_iff e).trans (forall_error_iff e).symm
        | ok copied => exact iff_of_true (fun _ h => nomatch h) fun _ h => nomatch h

/-- The parser stays in bounds throughout a run exactly when every package on the way is
sound. -/
theorem tablesInBounds_iff (s : Online) (events : List Event) :
    Throughout step InBounds s events↔Throughout step Sound s events :=
  @throughout_congr _ _ _ _ step (fun _ => True) InBounds Sound
    (fun _ _ _ _ _ _ _ => trivial) (fun s event _ => step_inBounds_iff s event) events s trivial

/-- A package of these bytes. -/
def packageOf (bytes : List UInt8) : Package :=
  ⟨Vector.ofFn fun i => bytes.getD i.val 0,bytes.length⟩

/-- An answer with the device id 50. -/
def assignFifty : ValidPackage :=
  ⟨packageOf [0xF0,50,0x10,0x63,0x10,0x35,0xF7],by decide,by decide +kernel⟩

/-- An answer with the device id 1. -/
def assignOne : ValidPackage :=
  ⟨packageOf [0xF0,1,0x10,0x63,0x10,0x04,0xF7],by decide,by decide +kernel⟩

/-- A response of the node 1 with two bytes. -/
def respondTwo : ValidPackage :=
  ⟨packageOf [0xF0,1,0x63,0x10,1,7,7,0x03,0xF7],by decide,by decide +kernel⟩

/-- A library with a block of which the response 1 is one byte. -/
def oneByteEnv : Env :=
  ⟨fun _ _ => .general fun i => [0x63,0x10,1,1,0,0,0,0,0xff].getD i 0,fun _ _ => true⟩

/-- A package ends with a fault of the parser after some events. -/
def faultAfter (events : List Event) (p : ValidPackage) (fault : NodeFault) : Bool :=
  match run step Online.start events with
  | .error _ => false
  | .ok (s,_) =>
    match neuronsEngineParsePackageT s p with
    | .error e => e==fault
    | .ok _ => false

/-- A fault that is not of missing memory is one out of bounds. -/
theorem not_inBounds_of_faultAfter {events : List Event} {p : ValidPackage} {fault : NodeFault}
    (hfault : fault≠.nullPointer) (h : faultAfter events p fault=true) :
    ¬Throughout step InBounds Online.start (events++[.package p]) := by
  rw [faultAfter] at h
  intro hall
  split at h
  case h_1 hrun => cases h
  case h_2 s os hrun =>
    have hstep := throughout_at hall hrun
    split at h
    case h_1 e he => exact hfault (beq_iff_eq.mp h▸hstep e he)
    case h_2 he => cases h

/-- An id of 50 is behind the table, and two bytes are behind a buffer of one. -/
theorem outOfBounds : ¬Throughout step InBounds Online.start [.package assignFifty]∧
      ¬Throughout step InBounds Online.start
        [.package assignOne,.heart oneByteEnv,.package respondTwo] := by
  constructor
  · exact @not_inBounds_of_faultAfter [] assignFifty .nodeTable (by decide) (by decide +kernel)
  · exact @not_inBounds_of_faultAfter [.package assignOne,.heart oneByteEnv] respondTwo
      .respondBuffer (by decide) (by decide +kernel)

end MicroPython.NeuronsParser
