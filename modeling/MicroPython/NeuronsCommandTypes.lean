import MicroPython.NeuronsCommands

/-!
# Command types of the library

The commands of a block are copied from its descriptor into a table in RAM, which is as long as
eight bits can say. To send one of them, its id and its types are copied from the table to an array
of five bytes, and then the package is built from them. No check is shared by these steps.
-/

namespace MicroPython.NeuronsCommandTypes

open Nat NeuronsProtocol NeuronsFrames NeuronsCommands

/-- `REC_CMD_ITEM_PER_LEN` -/
def recCmdItemPerLen : ℕ := 6

/-- `RESPOND_ITEM_MAX` -/
def respondItemMax : ℕ := 5

/-- `RES_CMD_TYPE_MAX` -/
def resCmdTypeMax : ℕ := 5

/-- `RES_CMD_OVER_FLAG_DATA` -/
def resCmdOverFlagData : UInt8 := 0xff

/-- `COMMAND_DATA_ADDR_OFFSET`, where the commands of a general block are. -/
def commandDataAddrOffset : ℕ := 32

/-- What goes wrong. -/
inductive CommandFault where
  /-- Memory that was not allocated is used. -/
  | nullPointer
  /-- A write past `cmd_data`. -/
  | cmdData
  /-- A write past `cmd_data_type`. -/
  | cmdDataType
  | package (e : Fault)
  deriving DecidableEq

/-- What is read of `neurons_engine_special_block_t`. -/
structure SpecialBlock where
  /-- `respond_num` -/
  respondNum : UInt8
  /-- `command_num` -/
  commandNum : UInt8

/-- Allocated memory. -/
structure Table where
  /-- The number of bytes. -/
  size : ℕ
  /-- The bytes, and what the memory behind them has. -/
  bytes : ℕ→UInt8

namespace Table

/-- A byte is written. -/
def write (t : Table) (i : ℕ) (b : UInt8) : Except CommandFault Table :=
  if i < t.size then .ok {t with bytes := Function.update t.bytes i b} else .error .cmdData

/-- `memcpy` to a place of the table. -/
def memcpy (t : Table) (place : ℕ) (source : ℕ→UInt8) : ℕ→Except CommandFault Table
  | 0 => .ok t
  | n+1 => do
    let t ← memcpy t place source n
    t.write (place+n) (source n)

end Table

/-- `cmd_data_num` -/
def cmdDataNum (commandNum : UInt8) : UInt8 := commandNum*6+1

/-- The table is allocated, and the number of commands and the commands are copied to it. What
`malloc` returns is not looked at. -/
def copyCommands (malloc : ℕ→Option (ℕ→UInt8)) (commandNum : UInt8) (source : ℕ→UInt8) :
    Except CommandFault Table :=
  match malloc (cmdDataNum commandNum).toNat with
  | none => .error .nullPointer
  | some memory => do
    let t ← (Table.mk (cmdDataNum commandNum).toNat memory).write 0 commandNum
    t.memcpy 1 source ((cmdDataNum commandNum).toNat-1)

/-- The loop over the commands of a general block, from a command on. -/
def generalCommands (malloc : ℕ→Option (ℕ→UInt8)) (bytes : ℕ→UInt8) :
    ℕ→ℕ→Except CommandFault (Option Table)
  | 0,_ => .ok none
  | n+1,i =>
    if bytes (commandDataAddrOffset+i*recCmdItemPerLen+1)=resCmdOverFlagData∨i=respondItemMax then
      match copyCommands malloc (.ofNat i) fun j => bytes (commandDataAddrOffset+j) with
      | .error e => .error e
      | .ok t => .ok (some t)
    else generalCommands malloc bytes n (i+1)

/-- `neurons_engine_get_command_info_from_lib_t` -/
def neuronsEngineGetCommandInfoFromLibT (malloc : ℕ→Option (ℕ→UInt8)) (bytes : ℕ→UInt8)
    (specialBlock : Option SpecialBlock) : Except CommandFault (Option Table) :=
  match specialBlock with
  | none => generalCommands malloc bytes (commandItemMax+1) 0
  | some special =>
    match copyCommands malloc special.commandNum fun j =>
        bytes (2+special.respondNum.toNat*recCmdItemPerLen+j) with
    | .error e => .error e
    | .ok t => .ok (some t)

/-- The id and the types of a command are written to `cmd_data_type`, from a place on. -/
def writeTypes : List UInt8→ℕ→Vector UInt8 resCmdTypeMax→
    Except CommandFault (Vector UInt8 resCmdTypeMax)
  | [],_,data => .ok data
  | b::types,i,data =>
    if h : i < resCmdTypeMax then writeTypes types (i+1) (data.set i b h)
    else .error .cmdDataType

/-- `neurons_engine_send_single_command_t` with its array, which starts with the bytes of the
stack. -/
def sendSingleCommand (casts : FloatCasts) (stack : Vector UInt8 resCmdTypeMax)
    (info : BlockInfo) (cmdType : CommandType) : Except CommandFault (List UInt8) :=
  match writeTypes (neuronsEngineGetCommandInfoT info cmdType.cmdId) 0 stack with
  | .error e => .error e
  | .ok cmdDataType =>
    match cmdDataType.toList.take
        (neuronsEngineGetCommandInfoT info cmdType.cmdId).length with
    | [] => .ok []
    | _::types =>
      (sendTyped casts (sysexFrame info.devId info.blockType info.blockSubType) cmdType
        types).mapError .package

/-- A block that was found, before its table is read. -/
structure FoundBlock where
  /-- `dev_id` -/
  devId : UInt8
  /-- `block_type` -/
  blockType : UInt8
  /-- `block_sub_type` -/
  blockSubType : UInt8

/-- A command of a block is sent, whose table is read from the library. The memory behind the
table is as it is when the command is sent. -/
def commandFromLib (malloc : ℕ→Option (ℕ→UInt8)) (casts : FloatCasts)
    (stack : Vector UInt8 resCmdTypeMax) (bytes : ℕ→UInt8) (specialBlock : Option SpecialBlock)
    (block : FoundBlock) (cmdType : CommandType) : Except CommandFault (List UInt8) :=
  match neuronsEngineGetCommandInfoFromLibT malloc bytes specialBlock with
  | .error e => .error e
  | .ok none => .error .nullPointer
  | .ok (some t) =>
    sendSingleCommand casts stack ⟨block.devId,block.blockType,block.blockSubType,t.bytes⟩ cmdType

/-! ## What fits -/

/-- The number of commands that a descriptor has: a general block has those before the first one
that is marked, five at most. -/
def commandCount (bytes : ℕ→UInt8) : Option SpecialBlock→UInt8
  | none =>
    .ofNat (((List.range commandItemMax).find? fun i =>
      bytes (commandDataAddrOffset+i*recCmdItemPerLen+1)=resCmdOverFlagData).getD commandItemMax)
  | some special => special.commandNum

/-- Where the commands of a descriptor are. -/
def commandPlace : Option SpecialBlock→ℕ
  | none => commandDataAddrOffset
  | some special => 2+special.respondNum.toNat*recCmdItemPerLen

/-- The memory from the table on: the count, the commands of the descriptor as far as eight bits
count them, and what the memory had before. -/
def libTable (bytes : ℕ→UInt8) (specialBlock : Option SpecialBlock) (memory : ℕ→UInt8) : ℕ→UInt8
  | 0 => commandCount bytes specialBlock
  | j+1 =>
    if j+1 < (cmdDataNum (commandCount bytes specialBlock)).toNat then
      bytes (commandPlace specialBlock+j)
    else memory (j+1)

/-- The last command of a table with an id. -/
def LastItem (table : ℕ→UInt8) (cmdId : UInt8) (i : ℕ) : Prop :=
  i < (table 0).toNat∧table (1+i*singleCommandLen)=cmdId∧
    ∀ j,i < j → j < (table 0).toNat → table (1+j*singleCommandLen)≠cmdId

/-- The types of a command of a table, up to a zero. -/
def itemTypes (table : ℕ→UInt8) (i : ℕ) : List UInt8 :=
  ((List.range commandItemMax).map fun k =>
    table (1+i*singleCommandLen+(k+1))).takeWhile (·≠0)

/-- A command can be sent: its id and its types fit the array, and its data the package. With 255
commands the loop that looks for it never ends, and the id 0 is no command. -/
def CommandFits (casts : FloatCasts) (table : ℕ→UInt8) (cmdType : CommandType) : Prop :=
  (table 0).toNat≠255 → cmdType.cmdId≠0 → ∀ i,LastItem table cmdType.cmdId i →
    (itemTypes table i).length+1≤resCmdTypeMax∧TypesFit casts cmdType.cmdData (itemTypes table i)

/-! ## Reading the library -/

/-- Bytes are copied to a place with room. -/
theorem memcpy_ok (t : Table) (place : ℕ) (source : ℕ→UInt8) : ∀ n,place+n≤t.size →
    t.memcpy place source n=.ok ⟨t.size,fun j =>
      if place≤j∧j < place+n then source (j-place) else t.bytes j⟩ := by
  intro n
  induction n with
  | zero =>
    intro _
    rw [Table.memcpy]
    congr 1
    have hbytes : t.bytes=fun j =>
        if place≤j∧j < place+0 then source (j-place) else t.bytes j := by
      funext j
      rw [if_neg (by omega)]
    rw [←hbytes]
  | succ n ih =>
    intro h
    rw [Table.memcpy,ih (by omega)]
    have hlt : place+n < t.size := h
    refine (if_pos hlt).trans ?_
    congr 2
    funext j
    rw [Function.update_apply]
    change (if j=place+n then source n else if place≤j∧j < place+n then _ else _)=_
    split
    case isTrue hj => rw [if_pos (by omega),hj,Nat.add_sub_cancel_left]
    case isFalse hj =>
      split
      case isTrue hin => rw [if_pos (by omega)]
      case isFalse hout => rw [if_neg (by omega)]

/-- There is at least one byte in a table. -/
theorem cmdDataNum_pos (commandNum : UInt8) : 0 < (cmdDataNum commandNum).toNat := by
  have hsum : (cmdDataNum commandNum).toNat=(commandNum.toNat*6%2^8+1)%2^8 := by
    rw [cmdDataNum,UInt8.toNat_add,UInt8.toNat_mul]
    rfl
  omega

variable {malloc : ℕ→Option (ℕ→UInt8)}

/-- A table has the count and the bytes of the source, and they fit. -/
theorem copyCommands_ok {commandNum : UInt8} {memory : ℕ→UInt8}
    (h : malloc (cmdDataNum commandNum).toNat=some memory) (source : ℕ→UInt8) :
    ∃ t,copyCommands malloc commandNum source=.ok t∧t.bytes 0=commandNum∧
      ∀ j,t.bytes (j+1)=if j+1 < (cmdDataNum commandNum).toNat then source j else memory (j+1) := by
  have hpos := cmdDataNum_pos commandNum
  have hwrite : (Table.mk (cmdDataNum commandNum).toNat memory).write 0 commandNum=
      .ok ⟨(cmdDataNum commandNum).toNat,Function.update memory 0 commandNum⟩ := if_pos hpos
  rw [copyCommands,h]
  simp only [hwrite]
  refine ⟨_,memcpy_ok _ 1 source _ ?_,?_,fun j => ?_⟩
  · exact Nat.le_of_eq (Nat.add_sub_cancel' hpos)
  · change (if 1≤0∧0 < 1+((cmdDataNum commandNum).toNat-1) then source (0-1)
      else Function.update memory 0 commandNum 0)=commandNum
    rw [if_neg (by omega),Function.update_self]
  · change (if 1≤j+1∧j+1 < 1+((cmdDataNum commandNum).toNat-1) then source (j+1-1)
      else Function.update memory 0 commandNum (j+1))=_
    rw [Nat.add_sub_cancel' hpos,Nat.add_sub_cancel,Function.update_of_ne (Nat.succ_ne_zero j)]
    split
    case isTrue hin => rw [if_pos hin.2]
    case isFalse hout => rw [if_neg (by omega)]

/-- The loop over the commands of a general block ends at the first that is marked. -/
theorem generalCommands_eq (malloc : ℕ→Option (ℕ→UInt8)) (bytes : ℕ→UInt8) :
    ∀ n i,i+n=respondItemMax → generalCommands malloc bytes (n+1) i=
      (copyCommands malloc (.ofNat (((List.range' i n).find? fun i =>
        bytes (commandDataAddrOffset+i*recCmdItemPerLen+1)=resCmdOverFlagData).getD
          commandItemMax)) fun j => bytes (commandDataAddrOffset+j)).map some := by
  intro n
  induction n with
  | zero =>
    intro i hi
    rw [generalCommands,if_pos (.inr hi)]
    have hlast : i=commandItemMax := hi
    rw [hlast]
    change _=(copyCommands malloc (.ofNat commandItemMax) _).map some
    cases copyCommands malloc (.ofNat commandItemMax) fun j =>
      bytes (commandDataAddrOffset+j) with
    | error e => rfl
    | ok t => rfl
  | succ n ih =>
    intro i hi
    rw [generalCommands,List.range'_succ,List.find?_cons]
    by_cases hmark : bytes (commandDataAddrOffset+i*recCmdItemPerLen+1)=resCmdOverFlagData
    · rw [if_pos (.inl hmark),decide_eq_true hmark]
      change _=(copyCommands malloc (.ofNat i) _).map some
      cases copyCommands malloc (.ofNat i) fun j => bytes (commandDataAddrOffset+j) with
      | error e => rfl
      | ok t => rfl
    · have hlast : i≠respondItemMax := by omega
      rw [if_neg (not_or.mpr ⟨hmark,hlast⟩),decide_eq_false hmark]
      exact ih (i+1) (by omega)

/-- Both kinds of descriptors are read alike. -/
theorem fromLib_eq (malloc : ℕ→Option (ℕ→UInt8)) (bytes : ℕ→UInt8)
    (specialBlock : Option SpecialBlock) :
    neuronsEngineGetCommandInfoFromLibT malloc bytes specialBlock=
      (copyCommands malloc (commandCount bytes specialBlock) fun j =>
        bytes (commandPlace specialBlock+j)).map some := by
  cases specialBlock with
  | none =>
    rw [neuronsEngineGetCommandInfoFromLibT]
    refine (generalCommands_eq malloc bytes 5 0 rfl).trans ?_
    rw [←List.range_eq_range']
    rfl
  | some special =>
    rw [neuronsEngineGetCommandInfoFromLibT]
    change _=(copyCommands malloc special.commandNum fun j =>
      bytes (2+special.respondNum.toNat*recCmdItemPerLen+j)).map some
    cases copyCommands malloc special.commandNum fun j =>
      bytes (2+special.respondNum.toNat*recCmdItemPerLen+j) with
    | error e => rfl
    | ok t => rfl

/-- The table that is read has the count and the commands of the descriptor. -/
theorem fromLib_ok {bytes memory : ℕ→UInt8} {specialBlock : Option SpecialBlock}
    (h : malloc (cmdDataNum (commandCount bytes specialBlock)).toNat=some memory) :
    ∃ t,neuronsEngineGetCommandInfoFromLibT malloc bytes specialBlock=.ok (some t)∧
      t.bytes=libTable bytes specialBlock memory := by
  obtain ⟨t,hcopy,hcount,hbytes⟩ := copyCommands_ok h fun j =>
    bytes (commandPlace specialBlock+j)
  refine ⟨t,?_,?_⟩
  · rw [fromLib_eq,hcopy]
    rfl
  · funext j
    cases j with
    | zero => exact hcount
    | succ j => exact hbytes j

/-- Without memory for the table there is a write to `NULL`. -/
theorem fromLib_null {bytes : ℕ→UInt8} {specialBlock : Option SpecialBlock}
    (h : malloc (cmdDataNum (commandCount bytes specialBlock)).toNat=none) :
    neuronsEngineGetCommandInfoFromLibT malloc bytes specialBlock=.error .nullPointer := by
  rw [fromLib_eq,copyCommands,h]
  rfl

/-! ## The array of types -/

/-- The bytes of a command are written to the array exactly when they fit. -/
theorem writeTypes_spec (types : List UInt8) : ∀ i (data : Vector UInt8 resCmdTypeMax),
    i+types.length≤resCmdTypeMax → ∃ after,writeTypes types i data=.ok after∧
      after.toList=data.toList.take i++types++data.toList.drop (i+types.length) := by
  induction types with
  | nil =>
    intro i data h
    refine ⟨data,rfl,?_⟩
    rw [List.append_nil,List.length_nil,add_zero,List.take_append_drop]
  | cons b types ih =>
    intro i data h
    rw [List.length_cons] at h
    have hi : i < resCmdTypeMax := by omega
    obtain ⟨after,hwrite,hlist⟩ := ih (i+1) (data.set i b hi) (by omega)
    refine ⟨after,?_,?_⟩
    · rw [writeTypes,dif_pos hi]
      exact hwrite
    · rw [hlist,Vector.toList_set,List.length_cons]
      have hlen : i < data.toList.length := by rw [Vector.length_toList]; exact hi
      rw [List.take_set,List.take_succ_eq_append_getElem hlen,List.drop_set_of_lt (by omega),
        List.set_append_right _ _ (by rw [List.length_take]; omega),List.length_take,
        Nat.min_eq_left (Nat.le_of_lt hlen),Nat.sub_self,List.set_cons_zero]
      have hnext : i+1+types.length=i+(types.length+1) := by omega
      rw [hnext,List.append_assoc,List.append_assoc,List.append_assoc,List.singleton_append,
        List.cons_append]

/-- More bytes than the array has. -/
theorem writeTypes_full (types : List UInt8) : ∀ i (data : Vector UInt8 resCmdTypeMax),
    resCmdTypeMax < i+types.length → i≤resCmdTypeMax →
      writeTypes types i data=.error .cmdDataType := by
  induction types with
  | nil =>
    intro i data h hle
    rw [List.length_nil] at h
    omega
  | cons b types ih =>
    intro i data h hle
    rw [List.length_cons] at h
    rw [writeTypes]
    split
    case isTrue hi => exact ih (i+1) _ (by omega) (by omega)
    case isFalse hi => rfl

/-! ## The command of an id -/

/-- The offset that is found is that of the last command with the id. -/
theorem itemOffset_cases (table : ℕ→UInt8) (cmdId : UInt8) : ∀ n,
    (itemOffset singleCommandLen table cmdId n=0∧
      ∀ i,i < n → table (1+i*singleCommandLen)≠cmdId)∨
    ∃ i,itemOffset singleCommandLen table cmdId n=1+i*singleCommandLen∧i < n∧
      table (1+i*singleCommandLen)=cmdId∧
        ∀ j,i < j → j < n → table (1+j*singleCommandLen)≠cmdId := by
  intro n
  induction n with
  | zero => exact .inl ⟨rfl,fun i h => absurd h (not_lt_zero i)⟩
  | succ n ih =>
    rw [itemOffset]
    by_cases hid : table (1+n*singleCommandLen)=cmdId
    · rw [if_pos hid]
      exact .inr ⟨n,rfl,lt_succ_self n,hid,fun j hlt hle => by omega⟩
    · rw [if_neg hid]
      cases ih with
      | inl hnone =>
        refine .inl ⟨hnone.1,fun i h => ?_⟩
        cases Nat.lt_succ_iff_lt_or_eq.mp h with
        | inl hlt => exact hnone.2 i hlt
        | inr heq => exact heq▸hid
      | inr hsome =>
        obtain ⟨i,hoffset,hlt,hitem,hlast⟩ := hsome
        refine .inr ⟨i,hoffset,lt_succ_of_lt hlt,hitem,fun j hij hj => ?_⟩
        cases Nat.lt_succ_iff_lt_or_eq.mp hj with
        | inl hbelow => exact hlast j hij hbelow
        | inr heq => exact heq▸hid

theorem LastItem.eq {table : ℕ→UInt8} {cmdId : UInt8} {i j : ℕ} (hi : LastItem table cmdId i)
    (hj : LastItem table cmdId j) : i=j := by
  cases lt_trichotomy i j with
  | inl hlt => exact absurd hj.2.1 (hi.2.2 j hlt hj.1)
  | inr h =>
    cases h with
    | inl heq => exact heq
    | inr hlt => exact absurd hi.2.1 (hj.2.2 i hlt hi.1)

/-- The bytes of an item are its id and its types, or nothing for the id 0. -/
theorem itemBytes (table : ℕ→UInt8) (i : ℕ) : ((List.range (commandItemMax+1)).map fun k =>
      table (1+i*singleCommandLen+k)).takeWhile (·≠0)=
      if table (1+i*singleCommandLen)=0 then []
      else table (1+i*singleCommandLen)::itemTypes table i := by
  rw [List.range_succ_eq_map,List.map_cons,List.map_map,add_zero,List.takeWhile_cons]
  split
  case isTrue hid => rw [if_neg (of_decide_eq_true hid)]; rfl
  case isFalse hid => rw [if_pos (Decidable.not_not.mp fun h => hid (decide_eq_true h))]

/-- A command with the bytes that are found for it can be sent. -/
theorem commandFits_iff (casts : FloatCasts) (info : BlockInfo) (cmdType : CommandType) :
    CommandFits casts info.commandDataType cmdType↔
      ∀ id types,neuronsEngineGetCommandInfoT info cmdType.cmdId=id::types →
        types.length+1≤resCmdTypeMax∧TypesFit casts cmdType.cmdData types := by
  rw [CommandFits,neuronsEngineGetCommandInfoT]
  by_cases hcount : (info.commandDataType 0).toNat=255
  · rw [if_pos hcount]
    exact iff_of_true (fun h => absurd hcount h) fun id types h => nomatch h
  rw [if_neg hcount]
  cases itemOffset_cases info.commandDataType cmdType.cmdId (info.commandDataType 0).toNat with
  | inl hnone =>
    simp only [hnone.1,if_true]
    refine iff_of_true (fun _ _ i hi => absurd hi.2.1 (hnone.2 i hi.1)) fun id types h => ?_
    nomatch h
  | inr hsome =>
    obtain ⟨i,hoffset,hlt,hitem,hlast⟩ := hsome
    have hpos : 1+i*singleCommandLen≠0 := by omega
    simp only [hoffset,if_neg hpos]
    rw [itemBytes,hitem]
    by_cases hid : cmdType.cmdId=0
    · rw [if_pos hid]
      exact iff_of_true (fun _ h => absurd hid h) fun id types h => nomatch h
    · rw [if_neg hid]
      constructor
      · intro h id types htypes
        cases htypes
        exact h hcount hid i ⟨hlt,hitem,hlast⟩
      · intro h _ _ j hj
        have heq := hj.eq ⟨hlt,hitem,hlast⟩
        rw [heq]
        exact h _ _ rfl

/-! ## Sending -/

/-- A command is sent without a write past the array or the package exactly when it fits. -/
theorem sendSingleCommand_iff (casts : FloatCasts) (stack : Vector UInt8 resCmdTypeMax)
    (info : BlockInfo) (cmdType : CommandType) :
    (∃ sent,sendSingleCommand casts stack info cmdType=.ok sent)↔
      CommandFits casts info.commandDataType cmdType := by
  rw [commandFits_iff,sendSingleCommand]
  obtain ⟨bytes,hbytes⟩ : ∃ x,neuronsEngineGetCommandInfoT info cmdType.cmdId=x := ⟨_,rfl⟩
  rw [hbytes]
  cases lt_or_ge resCmdTypeMax bytes.length with
  | inl hfull =>
    rw [writeTypes_full bytes 0 stack (by omega) (zero_le _)]
    refine iff_of_false (by rintro ⟨_,⟨⟩⟩) fun h => ?_
    cases bytes with
    | nil => exact absurd hfull (not_lt_zero _)
    | cons id types => exact absurd (h id types rfl).1 (not_le.mpr hfull)
  | inr hroom =>
    obtain ⟨after,hwrite,hlist⟩ := writeTypes_spec bytes 0 stack (by omega)
    have htake : after.toList.take bytes.length=bytes := by
      rw [hlist,List.take_zero,List.nil_append,List.take_left]
    rw [hwrite]
    simp only [htake]
    cases bytes with
    | nil => exact iff_of_true ⟨[],rfl⟩ fun id types h => by cases h
    | cons id types =>
      have hsend := sendTyped_iff casts info.devId info.blockType info.blockSubType cmdType types
      simp only
      constructor
      · rintro ⟨sent,h⟩ id' types' heq
        cases heq
        refine ⟨hroom,hsend.mp ?_⟩
        cases hresult : sendTyped casts (sysexFrame info.devId info.blockType info.blockSubType)
            cmdType types with
        | error e =>
          rw [hresult] at h
          cases h
        | ok sent => exact ⟨sent,rfl⟩
      · intro h
        obtain ⟨sent,hresult⟩ := hsend.mpr (h id types rfl).2
        rw [hresult]
        exact ⟨sent,rfl⟩

/-- A general block with one command, whose id is 5, and its types. -/
def oneCommand (types : List UInt8) : ℕ→UInt8 := fun j =>
  if j=32 then 5
  else if 33≤j∧j < 38 then types.getD (j-33) 0
  else 0xff

/-- The numbers of a command, as floats: 60, and then zeros. -/
def sixty : CommandType := ⟨5,fun i => if i=0 then 0x42700000 else 0⟩

end MicroPython.NeuronsCommandTypes
