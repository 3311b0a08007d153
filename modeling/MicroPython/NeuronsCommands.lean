import Mathlib.Data.List.TakeWhile
import MicroPython.NeuronsFrames

/-!
# Commands to the blocks

Every command is built in a package of its own: the head, the values, the
checksum and the end, and then it is sent. What a single command carries depends
on the types that the library of the blocks gives for it, and a type can be asked
for as often as the number before it says.
-/

namespace MicroPython.NeuronsCommands

open Nat List NeuronsProtocol NeuronsFrames

/-- `ALL_DEVICE` -/
def allDevice : UInt8 := 0xff

/-- `CTL_ASSIGN_DEV_ID` -/
def ctlAssignDevId : UInt8 := 0x10

/-- `CTL_SYSTEM_RESET` -/
def ctlSystemReset : UInt8 := 0x11

/-- `CTL_QUERY_FIRMWARE_VERSION` -/
def ctlQueryFirmwareVersion : UInt8 := 0x12

/-- `CTL_SET_BAUDRATE` -/
def ctlSetBaudrate : UInt8 := 0x13

/-- `CTL_COMMUNICATION_TEST` -/
def ctlCommunicationTest : UInt8 := 0x14

/-- `CTL_GENERAL` -/
def ctlGeneral : UInt8 := 0x61

/-- `CTL_SET_FEEDBACK` -/
def ctlSetFeedback : UInt8 := 0x01

/-- `CTL_SET_RGB_LED` -/
def ctlSetRgbLed : UInt8 := 0x02

/-- `CTL_FIND_BLOCK` -/
def ctlFindBlock : UInt8 := 0x03

/-- `CLASS_SENSOR` -/
def classSensor : UInt8 := 0x63

/-- `BLOCK_CODEY_CAR` -/
def blockCodeyCar : UInt8 := 0x10

/-- `ALTERABLE_NUM_BYTE` -/
def alterableNumByte : UInt8 := 0xb0

/-- `MODULE_ONLINE_INFO_SINGLE_COMMAND_LEN` -/
def singleCommandLen : ℕ := 6

/-- `COMMAND_ITEM_MAX` -/
def commandItemMax : ℕ := 5

/-! ## Frames with fixed values -/

/-- The frame of a command, from `START_SYSEX` to `END_SYSEX`. -/
def sysexFrame (deviceId serviceId subServiceId : UInt8) : CommandFrame :=
  ⟨startEsp32Online,deviceId,serviceId,subServiceId,endEsp32Online⟩

/-- The end is added, and all of the package is sent. -/
def finish (frame : CommandFrame) (package : Package) : Except Fault (List UInt8) :=
  match neuronsBufferAddEndFrameT frame package with
  | .error e => .error e
  | .ok package => neuronsCommandPackegeSendAll package

/-- A command with its values: the bytes that are sent. -/
def sendFrame (frame : CommandFrame) (addSubSerId : Bool) (values : List Value) :
    Except Fault (List UInt8) :=
  match neuronsBufferAddHeadFrameT frame Package.reset addSubSerId with
  | .error e => .error e
  | .ok package =>
    match addValues package values with
    | .error e => .error e
    | .ok package => finish frame package

/-- `neurons_engine_alloc_id_t` -/
def neuronsEngineAllocIdT : Except Fault (List UInt8) :=
  sendFrame (sysexFrame allDevice ctlAssignDevId 0) false [.byte8 0x00]

/-- `neurons_engine_reset_block_t` -/
def neuronsEngineResetBlockT (blockId : UInt8) : Except Fault (List UInt8) :=
  sendFrame (sysexFrame blockId ctlSystemReset 0) false []

/-- `neurons_engine_check_block_hardware_version_t` -/
def neuronsEngineCheckBlockHardwareVersionT (blockId : UInt8) : Except Fault (List UInt8) :=
  sendFrame (sysexFrame blockId ctlQueryFirmwareVersion 0) false []

/-- `neurons_engine_set_block_baudrate_t` -/
def neuronsEngineSetBlockBaudrateT (blockId rateIndex : UInt8) : Except Fault (List UInt8) :=
  sendFrame (sysexFrame blockId ctlSetBaudrate 0) false [.byte8 rateIndex]

/-- `neurons_engine_test_command_t` -/
def neuronsEngineTestCommandT (blockId : UInt8) : Except Fault (List UInt8) :=
  sendFrame (sysexFrame blockId ctlCommunicationTest 0) false
    [.byte8 1,.byte8 2,.byte8 3,.byte8 4,.byte8 5]

/-- `neurons_engine_set_if_respond_to_common_cmd_t` -/
def neuronsEngineSetIfRespondToCommonCmdT (blockId sta : UInt8) : Except Fault (List UInt8) :=
  sendFrame (sysexFrame blockId ctlGeneral ctlSetFeedback) true [.byte8 (if sta≠0 then 1 else sta)]

/-- `neurons_engine_set_indicate_led_t` -/
def neuronsEngineSetIndicateLedT (blockId : UInt8) (r g b : UInt16) : Except Fault (List UInt8) :=
  sendFrame (sysexFrame blockId ctlGeneral ctlSetRgbLed) true [.short16 r,.short16 g,.short16 b]

/-- `neurons_engine_find_block_t` -/
def neuronsEngineFindBlockT (blockId blinkTimes : UInt8) : Except Fault (List UInt8) :=
  sendFrame (sysexFrame blockId ctlGeneral ctlFindBlock) true [.byte8 blinkTimes]

/-- `neurons_engine_set_report_mode_t` -/
def neuronsEngineSetReportModeT (blockId blockType subType mode : UInt8) (period : Int32) :
    Except Fault (List UInt8) :=
  sendFrame (sysexFrame blockId blockType subType) (subType≠0)
    [.byte8 0x7f,.byte8 mode,.long40 period]

/-- `neurons_engine_set_rocky_report_mode_t` -/
def neuronsEngineSetRockyReportModeT (blockId sensorId mode : UInt8) (period : Int32) :
    Except Fault (List UInt8) :=
  sendFrame (sysexFrame blockId classSensor blockCodeyCar) true
    [.byte8 0x7f,.byte8 sensorId,.byte8 mode,.long40 period]

/-! ## Single commands -/

/-- The casts of a float to the integer types. Outside the range of a type the
language leaves them open, and nothing here depends on them. -/
structure FloatCasts where
  /-- `(uint8_t)` -/
  toUint8 : UInt32→UInt8
  /-- `(int8_t)` -/
  toInt8 : UInt32→Int8
  /-- `(uint16_t)` -/
  toUint16 : UInt32→UInt16
  /-- `(int16_t)` -/
  toInt16 : UInt32→Int16
  /-- `(long)` -/
  toLong : UInt32→Int32

/-- A float without its fraction. -/
def truncate (bits : UInt32) : ℤ :=
  let mantissa : ℕ := bits.toNat%2^23+2^23
  let magnitude : ℕ := mantissa*2^(bits.toNat/2^23%2^8)/2^150
  if bits < 0x80000000 then (magnitude : ℤ) else -(magnitude : ℤ)

/-- Casts that take the low bits of the integer. -/
def FloatCasts.wrapping : FloatCasts :=
  ⟨fun bits => UInt8.ofInt (truncate bits),fun bits => (truncate bits).toInt8,
    fun bits => UInt16.ofInt (truncate bits),fun bits => (truncate bits).toInt16,
    fun bits => (truncate bits).toInt32⟩

/-- What a command reads of `neurons_engine_online_block_info_t`. -/
structure BlockInfo where
  /-- `dev_id` -/
  devId : UInt8
  /-- `block_type` -/
  blockType : UInt8
  /-- `block_sub_type` -/
  blockSubType : UInt8
  /-- The memory from `block_ram_addr->command_data_type` on. -/
  commandDataType : ℕ→UInt8

/-- What is read of `neurons_comnad_type_t` when its block is found. -/
structure CommandType where
  /-- `cmd_id` -/
  cmdId : UInt8
  /-- The memory around `cmd_data`, as floats. -/
  cmdData : ℤ→UInt32

/-- `offset` after the loop over the items of a table: the last one with the id, or 0. -/
def itemOffset (itemLen : ℕ) (table : ℕ→UInt8) (id : UInt8) : ℕ→ℕ
  | 0 => 0
  | i+1 =>
    if table (1+i*itemLen)=id then 1+i*itemLen else itemOffset itemLen table id i

/-- `neurons_engine_get_command_info_t`: the id and the types of a command, or nothing.
All six bytes of an item can be written to `data`. With 255 items the loop over them
never ends. -/
def neuronsEngineGetCommandInfoT (info : BlockInfo) (cmdId : UInt8) : List UInt8 :=
  let cmdLenth := (info.commandDataType 0).toNat
  if cmdLenth=255 then []
  else
    let offset := itemOffset singleCommandLen info.commandDataType cmdId cmdLenth
    if offset=0 then []
    else ((List.range (commandItemMax+1)).map fun i =>
      info.commandDataType (offset+i)).takeWhile (·≠0)

/-- The value of a type that is made of a float, if the type has any. -/
def commandValue (casts : FloatCasts) (type : UInt8) (bits : UInt32) : Option Value :=
  if type&&&0x0f=1 then some (.byte8 (casts.toUint8 bits))
  else if type&&&0x0f=2 then some (.byte16 (casts.toInt8 bits))
  else if type&&&0x0f=3 then some (.short16 (casts.toUint16 bits))
  else if type&&&0x0f=4 then some (.short24 (casts.toInt16 bits))
  else if type&&&0x0f=5 then some (.long40 (casts.toLong bits))
  else if type&&&0x0f=6 then some (.float40 bits)
  else none

/-- The type is taken as often as the number before says. -/
def Alterable (type : UInt8) : Prop := type&&&0xf0=alterableNumByte

/-- The type of a type is decided by its bits. -/
instance (type : UInt8) : Decidable (Alterable type) :=
  inferInstanceAs (Decidable (type&&&0xf0=alterableNumByte))

/-- `type_number` -/
def typeNumber (casts : FloatCasts) (cmdData : ℤ→UInt32) (type typeDataIndex : UInt8) : UInt8 :=
  if Alterable type then casts.toUint8 (cmdData (typeDataIndex.toNat-1))
  else if (type&&&0xf0)>>>4=0 then 1 else (type&&&0xf0)>>>4

/-- The loop over `j`: a type several times. -/
def addRepeated (casts : FloatCasts) (cmdData : ℤ→UInt32) (type : UInt8) :
    ℕ→UInt8→Package→Except Fault Package
  | 0,_,package => .ok package
  | n+1,typeDataIndex,package =>
    match addValues package
      (commandValue casts type (cmdData typeDataIndex.toNat)).toList with
    | .error e => .error e
    | .ok package => addRepeated casts cmdData type n (typeDataIndex+1) package

/-- The loop over the types of a command. -/
def addTypes (casts : FloatCasts) (cmdData : ℤ→UInt32) :
    List UInt8→UInt8→Package→Except Fault Package
  | [],_,package => .ok package
  | type::types,typeDataIndex,package =>
    let number := typeNumber casts cmdData type typeDataIndex
    match addRepeated casts cmdData type number.toNat typeDataIndex package with
    | .error e => .error e
    | .ok package => addTypes casts cmdData types (typeDataIndex+number) package

/-- A command with its types: the head, the id, the data and the end. -/
def sendTyped (casts : FloatCasts) (frame : CommandFrame) (cmdType : CommandType)
    (types : List UInt8) : Except Fault (List UInt8) :=
  match neuronsBufferAddHeadFrameT frame Package.reset true with
  | .error e => .error e
  | .ok package =>
    match neuronsBufferAddDataT package (.byte8 cmdType.cmdId) with
    | .error e => .error e
    | .ok package =>
      -- the first type cannot have a number before it
      if ∃ type∈types.head?,Alterable type then .ok []
      else
        match addTypes casts cmdType.cmdData types 0 package with
        | .error e => .error e
        | .ok package => finish frame package

/-- `neurons_engine_send_single_command_t` with the block that the main list has for it. -/
def neuronsEngineSendSingleCommandT (casts : FloatCasts) (info : Option BlockInfo)
    (cmdType : CommandType) : Except Fault (List UInt8) :=
  match info with
  | none => .ok []
  | some info =>
    match neuronsEngineGetCommandInfoT info cmdType.cmdId with
    | [] => .ok []
    | _::types =>
      sendTyped casts (sysexFrame info.devId info.blockType info.blockSubType) cmdType types

/-! ## What fits a package -/

/-- The number of bytes of a type. -/
def typeWidth (type : UInt8) : ℕ :=
  if type&&&0x0f=1 then 1
  else if type&&&0x0f=2 then 2
  else if type&&&0x0f=3 then 2
  else if type&&&0x0f=4 then 3
  else if type&&&0x0f=5 then 5
  else if type&&&0x0f=6 then 5
  else 0

/-- The number of bytes of all types of a command. -/
def typesLength (casts : FloatCasts) (cmdData : ℤ→UInt32) : List UInt8→UInt8→ℕ
  | [],_ => 0
  | type::types,typeDataIndex =>
    let number := typeNumber casts cmdData type typeDataIndex
    number.toNat*typeWidth type+typesLength casts cmdData types (typeDataIndex+number)

/-- The types of a command leave room for the head, the ids, the checksum and the end,
or the command is not sent. -/
def TypesFit (casts : FloatCasts) (cmdData : ℤ→UInt32) (types : List UInt8) : Prop :=
  (∃ type∈types.head?,Alterable type)∨typesLength casts cmdData types 0+7≤packageSize

/-- A single command whose block is found has types that fit. -/
def SingleFits (casts : FloatCasts) (info : Option BlockInfo) (cmdType : CommandType) : Prop :=
  ∀ block∈info,∀ id types,neuronsEngineGetCommandInfoT block cmdType.cmdId=id::types →
    TypesFit casts cmdType.cmdData types

variable (casts : FloatCasts)

/-- A value has as many bytes as its type says. -/
theorem commandValue_length (type : UInt8) (bits : UInt32) :
    (bytesOf (commandValue casts type bits).toList).length=typeWidth type := by
  rw [commandValue,typeWidth]
  split
  · rfl
  split
  · rfl
  split
  · rfl
  split
  · rfl
  split
  · rfl
  split
  · rfl
  · rfl

/-! ## Packages that overflow -/

variable {package : Package}

/-- A byte that does not fit. -/
theorem push_full (h : packageSize≤package.dataInIndex) (b : UInt8) :
    package.push b=.error .data := dif_neg (not_lt.mpr h)

/-- Bytes that do not fit. -/
theorem pushAll_full (bytes : List UInt8) : ∀ package : Package,
    package.dataInIndex≤packageSize → packageSize < package.dataInIndex+bytes.length →
      package.pushAll bytes=.error .data := by
  induction bytes with
  | nil =>
    intro package hle hlt
    exact absurd hle (not_le.mpr hlt)
  | cons b bytes ih =>
    intro package hle hlt
    rw [length_cons] at hlt
    rw [Package.pushAll]
    cases lt_or_ge package.dataInIndex packageSize with
    | inl hroom =>
      obtain ⟨q,hpush,_,hindex⟩ := push_spec hroom b
      rw [hpush]
      exact ih q (by omega) (by omega)
    | inr hfull => rw [push_full hfull b]

/-- Values that do not fit. -/
theorem addValues_full (values : List Value) : ∀ package : Package,package.dataInIndex≤packageSize →
      packageSize < package.dataInIndex+(bytesOf values).length →
      addValues package values=.error .data := by
  induction values with
  | nil =>
    intro package hle hlt
    exact absurd hle (not_le.mpr hlt)
  | cons v values ih =>
    intro package hle hlt
    rw [bytesOf,flatMap_cons,length_append] at hlt
    rw [addValues,neuronsBufferAddDataT]
    cases lt_or_ge packageSize (package.dataInIndex+v.bytes.length) with
    | inl hfull => rw [pushAll_full v.bytes package hle hfull]
    | inr hroom =>
      obtain ⟨q,hpush,_,hindex⟩ := pushAll_spec v.bytes package hroom
      rw [hpush]
      exact ih q (by omega) (by rw [hindex,bytesOf]; omega)

/-- Bytes were added to a package, as many as fit. -/
def Adds (package : Package) (r : Except Fault Package) (n : ℕ) : Prop :=
  (package.dataInIndex+n≤packageSize∧∃ q,r=.ok q∧q.dataInIndex=package.dataInIndex+n)∨
    (packageSize < package.dataInIndex+n∧r=.error .data)

theorem addValues_adds (h : package.dataInIndex≤packageSize) (values : List Value) :
    Adds package (addValues package values) (bytesOf values).length := by
  cases lt_or_ge packageSize (package.dataInIndex+(bytesOf values).length) with
  | inl hfull => exact .inr ⟨hfull,addValues_full values package h hfull⟩
  | inr hroom =>
    obtain ⟨q,hadd,_,hindex⟩ := addValues_spec values package hroom
    exact .inl ⟨hroom,q,hadd,hindex⟩

/-- A type is added several times as long as it fits. -/
theorem addRepeated_adds (cmdData : ℤ→UInt32) (type : UInt8) (n : ℕ) :
    ∀ (typeDataIndex : UInt8) {package : Package},package.dataInIndex≤packageSize →
      Adds package (addRepeated casts cmdData type n typeDataIndex package) (n*typeWidth type) := by
  induction n with
  | zero =>
    intro typeDataIndex package h
    rw [zero_mul]
    exact .inl ⟨h,package,rfl,rfl⟩
  | succ n ih =>
    intro typeDataIndex package h
    have hone := addValues_adds h (commandValue casts type (cmdData typeDataIndex.toNat)).toList
    rw [commandValue_length] at hone
    rw [succ_mul,addRepeated]
    cases hone with
    | inr hfull => exact .inr ⟨by have := hfull.1; omega,by rw [hfull.2]⟩
    | inl hroom =>
      obtain ⟨hle,q,hadd,hindex⟩ := hroom
      rw [hadd]
      have hrest := @ih (typeDataIndex+1) q (by omega)
      cases hrest with
      | inr hfull => exact .inr ⟨by have := hfull.1; omega,hfull.2⟩
      | inl hfits =>
        obtain ⟨hle',t,hok,hend⟩ := hfits
        exact .inl ⟨by omega,t,hok,by omega⟩

/-- All types of a command are added as long as they fit. -/
theorem addTypes_adds (cmdData : ℤ→UInt32) (types : List UInt8) :
    ∀ (typeDataIndex : UInt8) {package : Package},package.dataInIndex≤packageSize →
      Adds package (addTypes casts cmdData types typeDataIndex package)
        (typesLength casts cmdData types typeDataIndex) := by
  induction types with
  | nil =>
    intro typeDataIndex package h
    exact .inl ⟨h,package,rfl,rfl⟩
  | cons type types ih =>
    intro typeDataIndex package h
    have hone := @addRepeated_adds casts cmdData type
      (typeNumber casts cmdData type typeDataIndex).toNat typeDataIndex package h
    rw [addTypes,typesLength]
    cases hone with
    | inr hfull => exact .inr ⟨by have := hfull.1; omega,by rw [hfull.2]⟩
    | inl hroom =>
      obtain ⟨hle,q,hadd,hindex⟩ := hroom
      rw [hadd]
      have hrest := @ih (typeDataIndex+typeNumber casts cmdData type typeDataIndex) q (by omega)
      cases hrest with
      | inr hfull => exact .inr ⟨by have := hfull.1; omega,hfull.2⟩
      | inl hfits =>
        obtain ⟨hle',t,hok,hend⟩ := hfits
        exact .inl ⟨by omega,t,hok,by omega⟩

/-! ## Commands that are sent -/

/-- A package in which there is an end byte is sent. -/
theorem sendAll_ok (h : endEsp32Online∈package.data.toList) :
    ∃ sent,neuronsCommandPackegeSendAll package=.ok sent := by
  have hlt : (package.data.toList.takeWhile (·≠endEsp32Online)).length < packageSize := by
    refine lt_of_le_of_ne ?_ ?_
    · have hle := (@List.takeWhile_prefix _ package.data.toList (·≠endEsp32Online)).length_le
      rw [Vector.length_toList] at hle
      exact hle
    · intro hall
      have hsame := (@List.takeWhile_prefix _ package.data.toList
        (·≠endEsp32Online)).eq_of_length (by rw [hall,Vector.length_toList])
      rw [←hsame] at h
      have hne := mem_takeWhile_imp h
      exact absurd rfl (of_decide_eq_true hne)
  exact ⟨_,if_pos hlt⟩

/-- A package with room for the checksum and the end is sent. -/
theorem finish_ok {deviceId serviceId subServiceId : UInt8}
    (h : package.dataInIndex+2≤packageSize) :
    ∃ sent,finish (sysexFrame deviceId serviceId subServiceId) package=.ok sent := by
  obtain ⟨q,hadd,hcontents,_⟩ := addValues_spec
    [.byte8 (package.checkOut package.dataInIndex),.byte8 endEsp32Online] package h
  have hmem : endEsp32Online∈q.data.toList := by
    have hin : endEsp32Online∈contents q := by
      rw [hcontents]
      exact mem_append_right _ (mem_cons_of_mem _ mem_cons_self)
    exact mem_of_mem_take hin
  have hend : neuronsBufferAddEndFrameT (sysexFrame deviceId serviceId subServiceId) package=
      .ok {q with dataInIndex := 0} := by
    have hadd' : addValues package [.byte8 (package.checkOut package.dataInIndex),
        .byte8 (sysexFrame deviceId serviceId subServiceId).endByte]=.ok q := hadd
    rw [neuronsBufferAddEndFrameT,hadd']
  rw [finish,hend]
  exact sendAll_ok hmem

/-- A package without room for the checksum and the end. -/
theorem finish_full {frame : CommandFrame}
    (hle : package.dataInIndex≤packageSize) (h : packageSize < package.dataInIndex+2) :
    finish frame package=.error .data := by
  have hadd := addValues_full
    [.byte8 (package.checkOut package.dataInIndex),.byte8 frame.endByte] package hle h
  rw [finish,neuronsBufferAddEndFrameT,hadd]

theorem addHead_ok (frame : CommandFrame) (addSubSerId : Bool) :
    ∃ q,neuronsBufferAddHeadFrameT frame Package.reset addSubSerId=.ok q∧
      q.dataInIndex=if addSubSerId then 4 else 3 := by
  cases addSubSerId with
  | false =>
    obtain ⟨q,hadd,_,hindex⟩ := addValues_spec [.byte8 frame.head,.byte8 frame.deviceId,
      .byte8 frame.serviceId] Package.reset (le_add_right 3 61)
    exact ⟨q,hadd,hindex⟩
  | true =>
    obtain ⟨q,hadd,_,hindex⟩ := addValues_spec [.byte8 frame.head,.byte8 frame.deviceId,
      .byte8 frame.serviceId,.byte8 frame.subServiceId] Package.reset (le_add_right 4 60)
    exact ⟨q,hadd,hindex⟩

theorem sendFrame_ok (deviceId serviceId subServiceId : UInt8) (addSubSerId : Bool)
    {values : List Value} (h : (bytesOf values).length+6≤packageSize) :
    ∃ sent,sendFrame (sysexFrame deviceId serviceId subServiceId) addSubSerId values= .ok sent := by
  obtain ⟨q,hhead,hindex⟩ :=
    addHead_ok (sysexFrame deviceId serviceId subServiceId) addSubSerId
  have hle : q.dataInIndex≤4 := by
    rw [hindex]
    split <;> decide
  obtain ⟨t,hadd,_,hend⟩ := addValues_spec values q (by omega)
  rw [sendFrame,hhead]
  simp only [hadd]
  exact finish_ok (by omega)

/-- A command with types is sent exactly when they fit. -/
theorem sendTyped_iff (deviceId serviceId subServiceId : UInt8)
    (cmdType : CommandType) (types : List UInt8) :
    (∃ sent,sendTyped casts (sysexFrame deviceId serviceId subServiceId) cmdType types=
      .ok sent)↔TypesFit casts cmdType.cmdData types := by
  obtain ⟨q,hhead,hindex⟩ := addHead_ok (sysexFrame deviceId serviceId subServiceId) true
  rw [if_pos rfl] at hindex
  have hroom : q.dataInIndex+1≤packageSize := by
    rw [hindex]
    exact le_add_right 5 59
  obtain ⟨t,hid,_,hnext⟩ := pushAll_spec [cmdType.cmdId] q hroom
  have hidx : t.dataInIndex=5 := by
    rw [hnext,hindex]
    rfl
  have hid' : neuronsBufferAddDataT q (.byte8 cmdType.cmdId)=.ok t := hid
  rw [sendTyped,hhead]
  simp only [hid']
  split
  case isTrue halter => exact iff_of_true ⟨_,rfl⟩ (.inl halter)
  case isFalse halter =>
    have hadds := @addTypes_adds casts cmdType.cmdData types 0 t (by omega)
    rw [TypesFit,or_iff_right halter]
    cases hadds with
    | inr hfull =>
      rw [hfull.2]
      refine iff_of_false ?_ (by have := hfull.1; omega)
      rintro ⟨sent,h⟩
      cases h
    | inl hfit =>
      obtain ⟨hle,u,hadd,hend⟩ := hfit
      simp only [hadd]
      cases lt_or_ge packageSize (u.dataInIndex+2) with
      | inl hfull =>
        refine iff_of_false ?_ (by omega)
        rintro ⟨sent,h⟩
        rw [finish_full (by omega) hfull] at h
        cases h
      | inr hlast => exact iff_of_true (finish_ok hlast) (by omega)

/-- A single command is sent exactly when it fits. -/
theorem sendSingle_iff (info : Option BlockInfo) (cmdType : CommandType) :
    (∃ sent,neuronsEngineSendSingleCommandT casts info cmdType=.ok sent)↔
      SingleFits casts info cmdType := by
  cases info with
  | none => exact iff_of_true ⟨[],rfl⟩ fun _ h => nomatch h
  | some info =>
    rw [neuronsEngineSendSingleCommandT]
    cases hinfo : neuronsEngineGetCommandInfoT info cmdType.cmdId with
    | nil =>
      refine iff_of_true ⟨[],rfl⟩ ?_
      intro block hblock id types htypes
      cases hblock
      rw [hinfo] at htypes
      cases htypes
    | cons id types =>
      refine (sendTyped_iff casts _ _ _ cmdType types).trans ⟨?_,fun h => ?_⟩
      · intro h block hblock id' types' htypes
        cases hblock
        rw [hinfo] at htypes
        cases htypes
        exact h
      · exact h info (Option.mem_some_self info) id types hinfo

/-! ## All commands -/

/-- The commands, with the arguments of the functions that send them. -/
inductive Command where
  /-- `neurons_engine_alloc_id_t` -/
  | allocId
  /-- `neurons_engine_reset_block_t` -/
  | resetBlock (blockId : UInt8)
  /-- `neurons_engine_check_block_hardware_version_t` -/
  | checkBlockHardwareVersion (blockId : UInt8)
  /-- `neurons_engine_set_block_baudrate_t` -/
  | setBlockBaudrate (blockId rateIndex : UInt8)
  /-- `neurons_engine_test_command_t` -/
  | testCommand (blockId : UInt8)
  /-- `neurons_engine_set_if_respond_to_common_cmd_t` -/
  | setIfRespondToCommonCmd (blockId sta : UInt8)
  /-- `neurons_engine_set_indicate_led_t` -/
  | setIndicateLed (blockId : UInt8) (r g b : UInt16)
  /-- `neurons_engine_find_block_t` -/
  | findBlock (blockId blinkTimes : UInt8)
  /-- `neurons_engine_set_report_mode_t` -/
  | setReportMode (blockId blockType subType mode : UInt8) (period : Int32)
  /-- `neurons_engine_set_rocky_report_mode_t` -/
  | setRockyReportMode (blockId sensorId mode : UInt8) (period : Int32)
  /-- `neurons_engine_send_single_command_t` -/
  | sendSingleCommand (info : Option BlockInfo) (cmdType : CommandType)

namespace Command

/-- The function that sends a command. -/
def send (casts : FloatCasts) : Command→Except Fault (List UInt8)
  | .allocId => neuronsEngineAllocIdT
  | .resetBlock blockId => neuronsEngineResetBlockT blockId
  | .checkBlockHardwareVersion blockId => neuronsEngineCheckBlockHardwareVersionT blockId
  | .setBlockBaudrate blockId rateIndex => neuronsEngineSetBlockBaudrateT blockId rateIndex
  | .testCommand blockId => neuronsEngineTestCommandT blockId
  | .setIfRespondToCommonCmd blockId sta => neuronsEngineSetIfRespondToCommonCmdT blockId sta
  | .setIndicateLed blockId r g b => neuronsEngineSetIndicateLedT blockId r g b
  | .findBlock blockId blinkTimes => neuronsEngineFindBlockT blockId blinkTimes
  | .setReportMode blockId blockType subType mode period =>
    neuronsEngineSetReportModeT blockId blockType subType mode period
  | .setRockyReportMode blockId sensorId mode period =>
    neuronsEngineSetRockyReportModeT blockId sensorId mode period
  | .sendSingleCommand info cmdType => neuronsEngineSendSingleCommandT casts info cmdType

/-- A command with types of the library has to fit. -/
def Fits (casts : FloatCasts) (command : Command) : Prop :=
  ∀ info cmdType,command=.sendSingleCommand info cmdType → SingleFits casts info cmdType

/-- A command is sent exactly when it fits. -/
theorem send_iff (command : Command) : (∃ sent,command.send casts=.ok sent)↔command.Fits casts := by
  cases command with
  | sendSingleCommand info cmdType =>
    refine (sendSingle_iff casts info cmdType).trans ⟨?_,fun h => h info cmdType rfl⟩
    rintro h info' cmdType' ⟨⟩
    exact h
  | _ =>
    simp only [send,neuronsEngineAllocIdT,neuronsEngineResetBlockT,
      neuronsEngineCheckBlockHardwareVersionT,neuronsEngineSetBlockBaudrateT,
      neuronsEngineTestCommandT,neuronsEngineSetIfRespondToCommonCmdT,neuronsEngineSetIndicateLedT,
      neuronsEngineFindBlockT,neuronsEngineSetReportModeT,neuronsEngineSetRockyReportModeT]
    refine iff_of_true (sendFrame_ok _ _ _ _ ?_) fun _ _ h => nomatch h
    exact le_of_ble_eq_true rfl

end Command

end MicroPython.NeuronsCommands
