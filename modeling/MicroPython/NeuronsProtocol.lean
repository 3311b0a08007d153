import Mathlib.Data.List.Basic

/-!
# The neurons protocol

Values of the six types travel as groups of seven bits between a head and an end
byte, with a checksum before the end. A package is an array of 64 bytes with the
index of the next one; an index out of bounds is a fault. The types
`DOUBLE_72_T` and `ALTERABLE_NUM_BYTE`, for which nothing is written or read, are
left out. Floats are their bit patterns.
-/

namespace MicroPython.NeuronsProtocol

/-- `START_ESP32_ONLINE` -/
def startEsp32Online : UInt8 := 0xF0

/-- `END_ESP32_ONLINE` -/
def endEsp32Online : UInt8 := 0xF7

/-- The size of `data` in a package. -/
def packageSize : ℕ := 64

/-- The length of `package_in_begin`. -/
def protocolNum : ℕ := 10

/-- An index outside `data`. -/
inductive Fault where
  /-- In `cmd_package_info.data`. -/
  | data
  deriving DecidableEq

/-! ## Groups of seven bits -/

/-- `val_2_byte` -/
structure Val2Byte where
  /-- `byte_val[0]` -/
  byteVal0 : UInt8
  /-- `byte_val[1]` -/
  byteVal1 : UInt8

/-- `val_2_byte` from `short_val`. -/
def Val2Byte.ofShort (v : UInt16) : Val2Byte := ⟨v.toUInt8,(v>>>8).toUInt8⟩

/-- `short_val` -/
def Val2Byte.shortVal (v : Val2Byte) : UInt16 :=
  v.byteVal0.toUInt16+v.byteVal1.toUInt16*256

/-- `val_4_byte` -/
structure Val4Byte where
  /-- `byte_val[0]` -/
  byteVal0 : UInt8
  /-- `byte_val[1]` -/
  byteVal1 : UInt8
  /-- `byte_val[2]` -/
  byteVal2 : UInt8
  /-- `byte_val[3]` -/
  byteVal3 : UInt8

/-- `val_4_byte` from `long_val` or `float_val`. -/
def Val4Byte.ofLong (v : UInt32) : Val4Byte :=
  ⟨v.toUInt8,(v>>>8).toUInt8,(v>>>16).toUInt8,(v>>>24).toUInt8⟩

/-- `long_val` or `float_val`. -/
def Val4Byte.longVal (v : Val4Byte) : UInt32 :=
  v.byteVal0.toUInt32+v.byteVal1.toUInt32*0x100+v.byteVal2.toUInt32*0x10000+
    v.byteVal3.toUInt32*0x1000000

/-- `value_to_neurons_byte_8` -/
def valueToNeuronsByte8 (val : UInt8) : List UInt8 := [val]

/-- `value_to_neurons_byte_16` -/
def valueToNeuronsByte16 (val : Int8) : List UInt8 :=
  let byteVal0 := val.toUInt8
  [byteVal0&&&0x7f,(byteVal0>>>7)&&&0x7f]

/-- `value_to_neurons_short_16` -/
def valueToNeuronsShort16 (val : UInt16) : List UInt8 :=
  let v := Val2Byte.ofShort val
  [v.byteVal0&&&0x7f,((v.byteVal1<<<1)|||(v.byteVal0>>>7))&&&0x7f]

/-- `value_to_neurons_short_24` -/
def valueToNeuronsShort24 (val : Int16) : List UInt8 :=
  let v := Val2Byte.ofShort val.toUInt16
  [v.byteVal0&&&0x7f,((v.byteVal1<<<1)|||(v.byteVal0>>>7))&&&0x7f,(v.byteVal1>>>6)&&&0x7f]

/-- The five groups of four bytes. -/
def groups40 (v : Val4Byte) : List UInt8 :=
  [v.byteVal0&&&0x7f,((v.byteVal1<<<1)|||(v.byteVal0>>>7))&&&0x7f,
    ((v.byteVal2<<<2)|||(v.byteVal1>>>6))&&&0x7f,
    ((v.byteVal3<<<3)|||(v.byteVal2>>>5))&&&0x7f,(v.byteVal3>>>4)&&&0x7f]

/-- `value_to_neurons_long_40` -/
def valueToNeuronsLong40 (val : Int32) : List UInt8 := groups40 (.ofLong val.toUInt32)

/-- `value_to_neurons_float_40` -/
def valueToNeuronsFloat40 (val : UInt32) : List UInt8 := groups40 (.ofLong val)

/-- `byte_8_to_value` -/
def byte8ToValue (g0 : UInt8) : UInt8 := g0&&&0x7f

/-- `byte_16_to_value` -/
def byte16ToValue (g0 g1 : UInt8) : Int8 := ((g0&&&(0x7f : UInt8))|||(g1<<<7)).toInt8

/-- `short_16_to_value` -/
def short16ToValue (g0 g1 : UInt8) : UInt16 :=
  (Val2Byte.mk ((g0&&&(0x7f : UInt8))|||(g1<<<7)) ((g1>>>1)&&&(0x7f : UInt8))).shortVal

/-- `short_24_to_value` -/
def short24ToValue (g0 g1 g2 : UInt8) : Int16 :=
  (Val2Byte.mk ((g0&&&(0x7f : UInt8))|||(g1<<<7)) (((g1>>>1)&&&(0x7f : UInt8))|||(g2<<<6))).shortVal.toInt16

/-- Four bytes from five groups. -/
def ungroup40 (g0 g1 g2 g3 g4 : UInt8) : Val4Byte :=
  ⟨(g0&&&(0x7f : UInt8))|||(g1<<<7),((g1>>>1)&&&(0x7f : UInt8))+(g2<<<6),((g2>>>2)&&&(0x7f : UInt8))+(g3<<<5),
    ((g3>>>3)&&&(0x7f : UInt8))+(g4<<<4)⟩

/-- `long_40_to_value` -/
def long40ToValue (g0 g1 g2 g3 g4 : UInt8) : Int32 :=
  (ungroup40 g0 g1 g2 g3 g4).longVal.toInt32

/-- `float_40_to_value` -/
def float40ToValue (g0 g1 g2 g3 g4 : UInt8) : UInt32 := (ungroup40 g0 g1 g2 g3 g4).longVal

/-! ## Packages -/

/-- `neurons_data_type_t` -/
inductive DataType where
  /-- `BYTE_8_T` -/
  | byte8T
  /-- `BYTE_16_T` -/
  | byte16T
  /-- `SHORT_16_T` -/
  | short16T
  /-- `SHORT_24_T` -/
  | short24T
  /-- `LONG_40_T` -/
  | long40T
  /-- `FLOAT_40_T` -/
  | float40T
  deriving DecidableEq

/-- A value of one of the types. -/
inductive Value where
  /-- `BYTE_8_T` -/
  | byte8 (val : UInt8)
  /-- `BYTE_16_T` -/
  | byte16 (val : Int8)
  /-- `SHORT_16_T` -/
  | short16 (val : UInt16)
  /-- `SHORT_24_T` -/
  | short24 (val : Int16)
  /-- `LONG_40_T` -/
  | long40 (val : Int32)
  /-- `FLOAT_40_T` -/
  | float40 (bits : UInt32)
  deriving DecidableEq

/-- The type of a value. -/
def Value.dataType : Value→DataType
  | .byte8 _ => .byte8T
  | .byte16 _ => .byte16T
  | .short16 _ => .short16T
  | .short24 _ => .short24T
  | .long40 _ => .long40T
  | .float40 _ => .float40T

/-- The bytes `byte_value` that `neurons_buffer_add_data_t` adds. -/
def Value.bytes : Value→List UInt8
  | .byte8 val => valueToNeuronsByte8 val
  | .byte16 val => valueToNeuronsByte16 val
  | .short16 val => valueToNeuronsShort16 val
  | .short24 val => valueToNeuronsShort24 val
  | .long40 val => valueToNeuronsLong40 val
  | .float40 bits => valueToNeuronsFloat40 bits

/-- `neurons_commmd_package_t` -/
structure Package where
  /-- `cmd_package_info.data` -/
  data : Vector UInt8 packageSize
  /-- `data_in_index` -/
  dataInIndex : ℕ

/-- `neurons_command_package_reset` -/
def Package.reset : Package := ⟨Vector.replicate packageSize 0,0⟩

/-- `data[data_in_index++] = b` -/
def Package.push (package : Package) (b : UInt8) : Except Fault Package :=
  if h : package.dataInIndex < packageSize then
    .ok ⟨package.data.set package.dataInIndex b h,package.dataInIndex+1⟩
  else .error .data

/-- Bytes one after the other, as `neurons_command_package_add_bytes_t` adds them. -/
def Package.pushAll (package : Package) : List UInt8→Except Fault Package
  | [] => .ok package
  | b::bytes =>
    match package.push b with
    | .error e => .error e
    | .ok package => package.pushAll bytes

/-- `neurons_buffer_add_data_t` -/
def neuronsBufferAddDataT (package : Package) (v : Value) : Except Fault Package :=
  package.pushAll v.bytes

/-- Values one after the other. -/
def addValues (package : Package) : List Value→Except Fault Package
  | [] => .ok package
  | v::values =>
    match neuronsBufferAddDataT package v with
    | .error e => .error e
    | .ok package => addValues package values

/-- `neurons_command_frame_t` without the data that are never used. -/
structure CommandFrame where
  /-- `head` -/
  head : UInt8
  /-- `device_id` -/
  deviceId : UInt8
  /-- `service_id` -/
  serviceId : UInt8
  /-- `sub_service_id` -/
  subServiceId : UInt8
  /-- `end` -/
  endByte : UInt8

/-- `neurons_buffer_add_head_frame_t` -/
def neuronsBufferAddHeadFrameT (frame : CommandFrame) (package : Package)
    (addSubSerId : Bool) : Except Fault Package :=
  addValues package ([.byte8 frame.head,.byte8 frame.deviceId,.byte8 frame.serviceId]++
    if addSubSerId then [.byte8 frame.subServiceId] else [])

/-- The sum of the bytes from the second one to before an index, seven bits of it. -/
def Package.checkOut (package : Package) (index : ℕ) : UInt8 :=
  ((package.data.toList.take index).drop 1).foldl (·+·) 0&&&0x7f

/-- `neurons_buffer_add_end_frame_t` -/
def neuronsBufferAddEndFrameT (frame : CommandFrame) (package : Package) : Except Fault Package :=
  match addValues package
    [.byte8 (package.checkOut package.dataInIndex),.byte8 frame.endByte] with
  | .error e => .error e
  | .ok package => .ok {package with dataInIndex := 0}

/-- The bytes that `neurons_command_packege_send_all` sends. -/
def neuronsCommandPackegeSendAll (package : Package) : Except Fault (List UInt8) :=
  let sent := package.data.toList.takeWhile (·≠endEsp32Online)
  if sent.length < packageSize then .ok (sent++[endEsp32Online]) else .error .data

/-- `neurons_package_check_sum_t` -/
def neuronsPackageCheckSumT (package : Package) : Bool :=
  package.checkOut (package.dataInIndex-2)==package.data.toList.getD (package.dataInIndex-2) 0

/-- The package that bytes are put into, and `package_in_begin`. -/
structure Receiver where
  package : Package
  /-- `package_in_begin` -/
  packageInBegin : Vector Bool protocolNum

/-- `neurons_command_package_put_t`: the receiver, and the package that the callback
gets. -/
def neuronsCommandPackagePutT (head endByte : UInt8) (protocolIndex : ℕ) (r : Receiver)
    (c : UInt8) : Except Fault (Receiver×Option Package) :=
  if h : protocolIndex < protocolNum then
    if c=head then
      match Package.reset.pushAll [c] with
      | .error e => .error e
      | .ok package => .ok (⟨package,r.packageInBegin.set protocolIndex true h⟩,none)
    else if r.packageInBegin.get ⟨protocolIndex,h⟩ then
      match r.package.pushAll [c] with
      | .error e => .error e
      | .ok package =>
        if c=endByte then
          .ok (⟨package,r.packageInBegin.set protocolIndex false h⟩,
            if neuronsPackageCheckSumT package then some package else none)
        else .ok (⟨package,r.packageInBegin⟩,none)
    else .ok (r,none)
  else .ok (r,none)

/-- `neurons_read_value_by_type_t` -/
def neuronsReadValueByTypeT (package : Package) (cmdDataIndex : ℕ) (cmdDataType : DataType) :
    Except Fault Value :=
  match cmdDataType,package.data.toList.drop cmdDataIndex with
  | .byte8T,g0::_ => .ok (.byte8 (byte8ToValue g0))
  | .byte16T,g0::g1::_ => .ok (.byte16 (byte16ToValue g0 g1))
  | .short16T,g0::g1::_ => .ok (.short16 (short16ToValue g0 g1))
  | .short24T,g0::g1::g2::_ => .ok (.short24 (short24ToValue g0 g1 g2))
  | .long40T,g0::g1::g2::g3::g4::_ => .ok (.long40 (long40ToValue g0 g1 g2 g3 g4))
  | .float40T,g0::g1::g2::g3::g4::_ => .ok (.float40 (float40ToValue g0 g1 g2 g3 g4))
  | _,_ => .error .data

end MicroPython.NeuronsProtocol
