import MicroPython.NeuronsCommands

/-!
# The online blocks

Two groups of nodes are kept: one is filled by the answers to a heart package, the
other is the main list. Before the next heart package they are compared, and when
the blocks have changed the new group becomes the main list, with the respond
tables of the blocks from RAM or from the library in flash and a buffer for the
responses of each node. The contents of the buffers and the tables of commands are
left out.
-/

namespace MicroPython.NeuronsNodes

open NeuronsProtocol NeuronsCommands

/-- `NEURONS_NODE_MAX` -/
def neuronsNodeMax : ℕ := 50

/-- `MODULE_ONLINE_INFO_SINGLE_RESPOND_LEN` -/
def singleRespondLen : ℕ := 7

/-- `REC_CMD_ITEM_PER_LEN` -/
def recCmdItemPerLen : ℕ := 6

/-- `RESPOND_ITEM_MAX` -/
def respondItemMax : ℕ := 5

/-- `RES_CMD_OVER_FLAG_DATA` -/
def resCmdOverFlagData : UInt8 := 0xff

/-- What goes wrong. -/
inductive NodeFault where
  /-- An index at or beyond `NEURONS_NODE_MAX`. -/
  | nodeTable
  /-- More bytes than a buffer for responses holds. -/
  | respondBuffer
  /-- Memory that was not allocated is used. -/
  | nullPointer
  deriving DecidableEq

/-- What is read of `neurons_engine_online_block_lib_t`. -/
structure BlockLib where
  /-- `block_type` -/
  blockType : UInt8
  /-- `block_sub_type` -/
  blockSubType : UInt8
  /-- `respond_data_type`, which can be missing. -/
  respondDataType : Option (ℕ→UInt8)

/-- A node of the list of libraries. -/
structure LibNode where
  /-- `lib_addr` -/
  lib : BlockLib
  /-- `block_num` -/
  blockNum : UInt8

/-- `respond_data_t` -/
structure RespondData where
  /-- `respond_data_buffer_size` -/
  bufferSize : UInt8
  /-- `respond_data_buffer` is not `NULL`. -/
  buffer : Bool
  deriving DecidableEq

/-- `neurons_engine_online_block_info_t` -/
structure Node where
  /-- `block_type` -/
  blockType : UInt8
  /-- `block_sub_type` -/
  blockSubType : UInt8
  /-- `dev_id` -/
  devId : UInt8
  /-- `offline_time` -/
  offlineTime : UInt8
  /-- `block_ram_addr` -/
  blockRamAddr : Option BlockLib
  /-- `respond_data_info` -/
  respondDataInfo : RespondData

namespace Node

/-- A node of zeros. -/
def zero : Node := ⟨0,0,0,0,none,⟨0,false⟩⟩

/-- The first two bytes are the same. -/
def SameType (a b : Node) : Prop := a.blockType=b.blockType∧a.blockSubType=b.blockSubType

/-- The first three bytes are the same. -/
def SameBlock (a b : Node) : Prop := a.SameType b∧a.devId=b.devId

/-- Bytes are compared. -/
instance (a b : Node) : Decidable (a.SameType b) :=
  inferInstanceAs (Decidable (_∧_))

/-- Bytes are compared. -/
instance (a b : Node) : Decidable (a.SameBlock b) :=
  inferInstanceAs (Decidable (_∧_))

end Node

/-- A group of nodes. -/
structure Group where
  /-- `blocks_num` -/
  blocksNum : UInt8
  /-- `blocks_info` -/
  blocksInfo : Vector Node neuronsNodeMax

namespace Group

/-- A group that was cleared. -/
def clear : Group := ⟨0,Vector.replicate neuronsNodeMax .zero⟩

/-- `blocks_info[i]` -/
def node (g : Group) (i : ℕ) : Except NodeFault Node :=
  if h : i < neuronsNodeMax then .ok (g.blocksInfo.get ⟨i,h⟩) else .error .nodeTable

/-- `blocks_info[i]` is written. -/
def setNode (g : Group) (i : ℕ) (n : Node) : Except NodeFault Group :=
  if h : i < neuronsNodeMax then .ok ⟨g.blocksNum,g.blocksInfo.set i n h⟩
  else .error .nodeTable

end Group

/-- `neurons_engine_online_info` with the list of libraries. -/
structure Online where
  /-- The group of `now_group_index`. -/
  now : Group
  /-- The other group, the main list. -/
  last : Group
  /-- `s_neurons_engine_online_block_lib_list_head` -/
  libs : List LibNode
  /-- `off_line_time` -/
  offLineTime : UInt8

/-- No blocks were found yet. -/
def Online.start : Online := ⟨.clear,.clear,[],0⟩

/-! ## The library in flash -/

/-- `firmata_get_data_type_lenth_t` -/
def firmataGetDataTypeLenthT (dataType : UInt8) : UInt8 :=
  if dataType=1 then 1
  else if dataType=2 then 2
  else if dataType=3 then 2
  else if dataType=4 then 3
  else if dataType=5 then 5
  else if dataType=6 then 5
  else if dataType=7 then 9
  else 0

/-- What the library file has for a type and sub-type, as
`neurons_engine_check_block_from_flash_lib_t` and `neurons_engine_get_blcok_info_t`
read it. -/
inductive FlashBlock where
  | notFound
  /-- A special block with `respond_num` and its bytes. -/
  | special (respondNum : UInt8) (bytes : ℕ→UInt8)
  | general (bytes : ℕ→UInt8)

/-- The places where memory is allocated for a block. -/
inductive Site where
  /-- `neurons_block_info` -/
  | blockInfo
  /-- `block_lib_info` -/
  | blockLibInfo
  /-- `respond_data_type` -/
  | respondDataType
  /-- `respond_data_store` -/
  | respondDataStore
  /-- `cmd_data` -/
  | cmdData
  /-- `new_node` -/
  | newNode
  /-- The buffer of a block that is known. -/
  | respondDataBuffer
  deriving DecidableEq

/-- What the blocks are looked up in and what memory there is. -/
structure Env where
  /-- The library file. -/
  flash : UInt8→UInt8→FlashBlock
  /-- Whether an allocation for a node succeeds. -/
  heap : ℕ→Site→Bool

/-- The loop over the items that looks for the end flag, from an item on. -/
def countResponds (bytes : ℕ→UInt8) : ℕ→ℕ→UInt8
  | 0,_ => 0
  | n+1,i =>
    if bytes (recCmdItemPerLen*i+2)=resCmdOverFlagData then UInt8.ofNat i
    else countResponds bytes n (i+1)

/-- An item of the library is copied into the table, with its offset behind it. -/
def copyItem (table bytes : ℕ→UInt8) (k : ℕ) (off : UInt8) : ℕ→UInt8 := fun j =>
  if k*singleRespondLen+1≤j∧j < k*singleRespondLen+1+recCmdItemPerLen then
    bytes (k*recCmdItemPerLen+2+(j-(k*singleRespondLen+1)))
  else if j=(k+1)*singleRespondLen then off
  else table j

/-- The loop over `respond_data_index`: the offset behind an item, or a wrong format. -/
def itemOffsets (table : ℕ→UInt8) (tempIndex : ℕ) : ℕ→ℕ→UInt8→Option UInt8
  | 0,_,off => some off
  | n+1,respondDataIndex,off =>
    if table respondDataIndex=0 then some off
    else
      let temp := table (tempIndex+respondDataIndex)
      let length := firmataGetDataTypeLenthT (temp&&&0x0f)
      if Alterable temp then
        if respondDataIndex=5 then none
        else itemOffsets table tempIndex n (respondDataIndex+1)
          (off+table (tempIndex+respondDataIndex+1)*length)
      else if temp&&&0xf0=0 then
        itemOffsets table tempIndex n (respondDataIndex+1) (off+length)
      else
        itemOffsets table tempIndex n (respondDataIndex+1) (off+((temp&&&0xf0)>>>4)*length)

/-- The loop over the responses: the table and the size of the buffer. -/
def fillTable (bytes : ℕ→UInt8) : ℕ→ℕ→(ℕ→UInt8)→UInt8→Option ((ℕ→UInt8)×UInt8)
  | 0,_,table,off => some (table,off)
  | n+1,k,table,off =>
    let table := copyItem table bytes k off
    match itemOffsets table (k*singleRespondLen+1) 5 1 off with
    | none => none
    | some off => fillTable bytes n (k+1) table off

/-- `neurons_engine_get_respond_info_from_lib_t`. Before the items only the first byte of
the table is written, and no other is read. -/
def neuronsEngineGetRespondInfoFromLibT (heap : Site→Bool) (bytes : ℕ→UInt8)
    (special : Option UInt8) : Option (ℕ→UInt8)×RespondData :=
  let respondNum := special.getD (countResponds bytes respondItemMax 0)
  if heap .respondDataType then
    match fillTable bytes respondNum.toNat 0 (fun _ => respondNum) 0 with
    | none => (none,⟨0,false⟩)
    | some (table,size) =>
      if size≠0∧heap .respondDataStore=false then (none,⟨0,false⟩)
      else (some table,⟨size,heap .respondDataStore⟩)
  else (none,⟨0,false⟩)

/-! ## A new main list -/

/-- `neurons_engine_online_block_list_check_t` -/
def neuronsEngineOnlineBlockListCheckT (libs : List LibNode) (type subType : UInt8) :
    Option BlockLib :=
  (libs.find? fun l => l.lib.blockType=type∧l.lib.blockSubType=subType).map LibNode.lib

/-- One more node uses the first library of a type. -/
def countBlock (type subType : UInt8) : List LibNode→List LibNode
  | [] => []
  | l::libs =>
    if l.lib.blockType=type∧l.lib.blockSubType=subType then
      {l with blockNum := l.blockNum+1}::libs
    else l::countBlock type subType libs

/-- The loop that looks for a node of the same type, from a node on. -/
def sameTypeFrom (g : Group) (a : Node) : ℕ→ℕ→Except NodeFault Node
  | 0,s => g.node s
  | n+1,s =>
    match g.node s with
    | .error e => .error e
    | .ok b => if a.SameType b then .ok b else sameTypeFrom g a n (s+1)

/-- A node whose library is in RAM gets its buffer. -/
def setKnown (env : Env) (s : Online) (i : ℕ) (a : Node) (lib : BlockLib) :
    Except NodeFault Online :=
  let libs := countBlock a.blockType a.blockSubType s.libs
  let a := {a with blockRamAddr := some lib}
  match s.last.node i with
  | .error e => .error e
  | .ok b =>
    if a.SameBlock b then
      match s.now.setNode i {a with respondDataInfo := b.respondDataInfo} with
      | .error e => .error e
      | .ok now => .ok ⟨now,s.last,libs,s.offLineTime⟩
    else
      match sameTypeFrom s.now a s.now.blocksNum.toNat 1 with
      | .error e => .error e
      | .ok c =>
        let size := c.respondDataInfo.bufferSize
        let buffer := env.heap i .respondDataBuffer
        -- the memory is cleared before it is looked whether there is any
        if size≠0∧buffer=false then .error .nullPointer
        else
          match s.now.setNode i {a with respondDataInfo := ⟨size,buffer⟩},
              s.last.setNode i {b with respondDataInfo := {b.respondDataInfo with buffer := false}} with
          | .ok now,.ok last => .ok ⟨now,last,libs,s.offLineTime⟩
          | .error e,_ => .error e
          | _,.error e => .error e

/-- A node whose library is read from flash. -/
def setRead (env : Env) (s : Online) (i : ℕ) (a : Node) (bytes : ℕ→UInt8)
    (special : Option UInt8) : Except NodeFault Online :=
  if env.heap i .blockLibInfo=false then .ok s
  else
    let r := neuronsEngineGetRespondInfoFromLibT (env.heap i) bytes special
    let lib : BlockLib := ⟨a.blockType,a.blockSubType,r.1⟩
    -- neither the memory for the commands nor that for the list is checked
    if env.heap i .cmdData=false∨env.heap i .newNode=false then .error .nullPointer
    else
      match s.now.setNode i {a with
        blockRamAddr := some lib
        respondDataInfo := r.2} with
      | .error e => .error e
      | .ok now => .ok ⟨now,s.last,s.libs++[⟨lib,1⟩],s.offLineTime⟩

/-- The loop over the nodes of the new group. Without memory for the bytes of a block it
stops. -/
def setNodes (env : Env) : ℕ→ℕ→Online→Except NodeFault Online
  | 0,_,s => .ok s
  | n+1,i,s =>
    match s.now.node i with
    | .error e => .error e
    | .ok a =>
      match neuronsEngineOnlineBlockListCheckT s.libs a.blockType a.blockSubType with
      | some lib =>
        match setKnown env s i a lib with
        | .error e => .error e
        | .ok s => setNodes env n (i+1) s
      | none =>
        match env.flash a.blockType a.blockSubType with
        | .notFound => setNodes env n (i+1) s
        | .special respondNum bytes =>
          if env.heap i .blockInfo then
            match setRead env s i a bytes (some respondNum) with
            | .error e => .error e
            | .ok s => setNodes env n (i+1) s
          else .ok s
        | .general bytes =>
          if env.heap i .blockInfo then
            match setRead env s i a bytes none with
            | .error e => .error e
            | .ok s => setNodes env n (i+1) s
          else .ok s

/-- The loop over the nodes that are gone: their buffers are freed. -/
def freeNodes : ℕ→ℕ→Group→Except NodeFault Group
  | 0,_,g => .ok g
  | n+1,i,g =>
    match g.node i with
    | .error e => .error e
    | .ok a =>
      match g.setNode i {a with
        respondDataInfo := {a.respondDataInfo with buffer := false}} with
      | .error e => .error e
      | .ok g => freeNodes n (i+1) g

/-- `neurons_engine_online_blocks_set_new_t` -/
def neuronsEngineOnlineBlocksSetNewT (env : Env) (s : Online) : Except NodeFault Online :=
  let libs := s.libs.map fun l => {l with blockNum := 0}
  match setNodes env s.now.blocksNum.toNat 1 {s with libs := libs} with
  | .error e => .error e
  | .ok s =>
    match freeNodes (s.last.blocksNum.toNat-s.now.blocksNum.toNat)
      (s.now.blocksNum.toNat+1) s.last with
    | .error e => .error e
    | .ok last =>
      .ok {s with
        last := last
        libs := s.libs.filter fun l => l.blockNum≠0}

/-- The new group becomes the main list, and the other one is cleared. -/
def turn (env : Env) (s : Online) : Except NodeFault Online :=
  match neuronsEngineOnlineBlocksSetNewT env s with
  | .error e => .error e
  | .ok s => .ok ⟨.clear,s.now,s.libs,0⟩

/-- The main list is kept, and the new group is cleared. -/
def keep (s : Online) (offLineTime : UInt8) : Online := ⟨.clear,s.last,s.libs,offLineTime⟩

/-- The loop over the nodes of the new group: whether one of them has changed. -/
def changed (last : Group) : ℕ→ℕ→Group→Except NodeFault (Bool×Group)
  | 0,_,now => .ok (false,now)
  | n+1,i,now =>
    match now.node i,last.node i with
    | .ok a,.ok b =>
      if a.SameBlock b then changed last n (i+1) now
      else
        let a := if a.devId=0 then {a with offlineTime := a.offlineTime+1} else a
        match now.setNode i a with
        | .error e => .error e
        | .ok now =>
          if 3≤a.offlineTime∨a.devId≠0 then .ok (true,now) else changed last n (i+1) now
    | .error e,_ => .error e
    | _,.error e => .error e

/-- `neurons_engine_online_blocks_update_t` -/
def neuronsEngineOnlineBlocksUpdateT (env : Env) (s : Online) : Except NodeFault Online :=
  match changed s.last s.now.blocksNum.toNat 1 s.now with
  | .error e => .error e
  | .ok (true,now) => turn env {s with now := now}
  | .ok (false,now) =>
    if now.blocksNum < s.last.blocksNum then
      if 3 ≤ s.offLineTime then turn env {s with now := now}
      else .ok (keep s (s.offLineTime+1))
    else .ok (keep s 0)

end MicroPython.NeuronsNodes
