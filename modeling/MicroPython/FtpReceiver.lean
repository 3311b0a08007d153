import Mathlib.Algebra.Group.Nat.Defs
import Mathlib.Data.List.Basic

/-!
# The file receiver

A header announces a file by its size, its checksum and its name; data blocks
bring its bytes. They are collected in a buffer and go to flash when the next
block does not fit, in whole words. The results of the allocator, the semaphore
and the file system come with each command. The bytes of `flash_write_buf` that
`flash_write_buf_cnt` counts are a list; the others are never read.
-/

namespace MicroPython.FtpReceiver

/-- `FLASH_WRITE_TRY` -/
def flashWriteTry : ℕ := 3

/-- `FLASH_FILE_WRITE_BUFFER` -/
def flashFileWriteBuffer : ℕ := 4096

/-- `MAX_NEU_FTP_FILE_NAME_LEN` -/
def maxNeuFtpFileNameLen : ℕ := 64

/-- `CMD_ID_HEAD` -/
def cmdIdHead : UInt8 := 0x01

/-- `CMD_ID_BLOCK` -/
def cmdIdBlock : UInt8 := 0x02

/-- The statuses that are answered, `CODEY_STATUS_OK` and `CODEY_STATUS_ERR`. -/
inductive Status where
  /-- `CODEY_STATUS_OK` -/
  | ok
  /-- `CODEY_STATUS_ERR` -/
  | err
  deriving DecidableEq

/-- `codey_neurons_ftp_file_info_t`, but for the file itself. -/
structure FileInfo where
  fileType : UInt8
  fileSize : UInt32
  fileCheckSum : UInt32
  /-- The full name, when it is allocated. -/
  fileName : Option (List UInt8)
  fileNameLen : UInt8
  fileCalcCheckSum : UInt32
  isFileOpen : Bool
  flashWriteBuf : List UInt8
  fileWriteIdx : UInt32

/-- `flash_write_buf_cnt` -/
def FileInfo.flashWriteBufCnt (fileInfo : FileInfo) : ℕ := fileInfo.flashWriteBuf.length

/-- `init_file_head_info` -/
def FileInfo.initial : FileInfo := ⟨0,0,0,none,0,0,false,[],0⟩

/-- A file of the file system, `FIL` and what is stored. -/
structure Fil where
  /-- The read/write pointer. -/
  fptr : UInt32
  content : List UInt8

/-- What the semaphore and the file system do in `write_buffer_to_flash`. -/
structure FlashOutcome where
  /-- The semaphore is taken in time. -/
  semaphore : Bool
  /-- How many bytes the calls of `f_write` can write, one after the other. Further
  calls write none. -/
  wrote : List ℕ

/-- What the allocator and the file system do during a command. -/
structure Outcome where
  mallocName : Bool
  mallocBuffer : Bool
  /-- `open_file` finds the directory and opens the file. -/
  openFile : Bool
  /-- The flush that makes room for a block. -/
  flush : FlashOutcome
  /-- The flush at the end of the file. -/
  final : FlashOutcome

/-- A command as `codey_neurons_ftp_parse` gets it, with what happens during it. -/
structure Command where
  cmdId : UInt8
  cmdData : List UInt8
  /-- The length has sixteen bits. -/
  cmdLen_lt : cmdData.length < 2^16
  outcome : Outcome

/-- The length of the data. -/
def Command.cmdLen (c : Command) : ℕ := c.cmdData.length

/-- The bytes of a block after its four bytes of offset. -/
def Command.payload (c : Command) : List UInt8 := c.cmdData.drop 4

/-- The receiver's variables and the file that was opened last. -/
structure State where
  /-- `file_info` -/
  fileInfo : FileInfo
  fp : Fil
  /-- `s_rx_file_name` -/
  rxFileName : List UInt8
  /-- `s_get_rx_file_name` -/
  getRxFileName : Bool

/-- The receiver at the start of the program. -/
def State.initial : State := ⟨.initial,⟨0,[]⟩,[],false⟩

/-- Up to four bytes copied over a zero word. -/
def leWord : List UInt8→UInt32
  | [] => 0
  | b::bytes => b.toUInt32|||(leWord bytes<<<8)

/-- The loop of `calc_check_sum`. -/
def calcCheckSumLoop (oxrCheck : UInt32) : List UInt8→UInt32
  | a::b::c::d::buf => calcCheckSumLoop (oxrCheck^^^leWord [a,b,c,d]) buf
  | [] => oxrCheck
  | tail => oxrCheck^^^leWord tail

/-- `calc_check_sum` -/
def calcCheckSum (buf : List UInt8) : UInt32 := calcCheckSumLoop 0 buf

/-- `check_file_header_len` -/
def checkFileHeaderLen (len : ℕ) : Bool := !decide (len < 10)

/-- `check_file_block_len` -/
def checkFileBlockLen (len : ℕ) : Bool := decide (4≤len)

/-- `read_file_head_info` -/
def readFileHeadInfo (fileInfo : FileInfo) (c : Command) : FileInfo×Bool :=
  if checkFileHeaderLen c.cmdLen then
    let fileNameLen := (c.cmdLen-9).toUInt8
    let fileInfo := {fileInfo with
      fileType := c.cmdData.headD 0
      fileSize := leWord ((c.cmdData.drop 1).take 4)
      fileCheckSum := leWord ((c.cmdData.drop 5).take 4)
      fileNameLen := fileNameLen}
    if c.outcome.mallocName then
      ({fileInfo with
        fileName := some ((c.cmdData.drop 9).take fileNameLen.toNat)
        fileWriteIdx := 0},true)
    else (fileInfo,false)
  else (fileInfo,false)

/-- `open_file`, with `FA_CREATE_ALWAYS`. -/
def openFile (s : State) (c : Command) : State×Bool :=
  if c.outcome.openFile then
    ({s with
      fileInfo := {s.fileInfo with isFileOpen := true}
      fp := ⟨0,[]⟩},true)
  else (s,false)

/-- `f_lseek` to a position in the file. -/
def fLseek (fp : Fil) (ofs : UInt32) : Fil := {fp with fptr := ofs}

/-- `f_write`: the file and the number of bytes written. The file's size stays below
4 GiB. -/
def fWrite (fp : Fil) (buff : List UInt8) (wrote : ℕ) : Fil×ℕ :=
  let bw := min wrote (min buff.length (0xFFFFFFFF-fp.fptr.toNat))
  (⟨fp.fptr+bw.toUInt32,
    fp.content.take fp.fptr.toNat++buff.take bw++fp.content.drop (fp.fptr.toNat+bw)⟩,bw)

/-- The loop of `write_buffer_to_flash`: the file, `file_write_idx` and the bytes
that remain to be written. -/
def writeLoop (writeTryCnt : ℕ) (fp : Fil) (fileWriteIdx : UInt32) (rest : List UInt8) :
    List ℕ→Fil×UInt32×List UInt8
  | [] => (fp,fileWriteIdx,rest)
  | wrote::outcomes =>
    if rest≠[]∧writeTryCnt < flashWriteTry then
      let w := fWrite fp rest wrote
      writeLoop (if w.2=0 then writeTryCnt+1 else writeTryCnt) w.1
        (fileWriteIdx+w.2.toUInt32) (rest.drop w.2) outcomes
    else (fp,fileWriteIdx,rest)

/-- `write_buffer_to_flash` -/
def writeBufferToFlash (s : State) (totalRequestWriteWb : ℕ) (o : FlashOutcome) : State×Bool :=
  if s.fileInfo.isFileOpen then
    if o.semaphore then
      let buf := s.fileInfo.flashWriteBuf.take totalRequestWriteWb
      let w := writeLoop 0 (fLseek s.fp s.fileInfo.fileWriteIdx) s.fileInfo.fileWriteIdx buf o.wrote
      let s := {s with
        fp := w.1
        fileInfo := {s.fileInfo with fileWriteIdx := w.2.1}}
      if w.2.2=[] then
        ({s with fileInfo := {s.fileInfo with
          fileCalcCheckSum := s.fileInfo.fileCalcCheckSum^^^calcCheckSum buf
          flashWriteBuf := s.fileInfo.flashWriteBuf.drop totalRequestWriteWb}},true)
      else (s,false)
    else (s,false)
  else (s,false)

/-- The bytes of a C string. -/
def cString (bytes : List UInt8) : List UInt8 := bytes.takeWhile (·≠0)

/-- `codey_neurons_record_recv_file_name` -/
def codeyNeuronsRecordRecvFileName (s : State) (recvFileName : List UInt8) : State :=
  let name := cString recvFileName
  {s with rxFileName := if name.length+1 < maxNeuFtpFileNameLen then name else []}

/-- `codey_neurons_ready_for_read_recv_file_name` -/
def codeyNeuronsReadyForReadRecvFileName (s : State) : State := {s with getRxFileName := false}

/-- The name that a header records, `"NEU_FTY_READY"`. -/
def readyName : List UInt8 := "NEU_FTY_READY".toList.map fun c => c.toNat.toUInt8

/-- What the `switch` of `codey_neurons_ftp_parse` leaves. -/
structure Parsed where
  /-- The receiver. -/
  state : State
  /-- `ret` -/
  ret : Status
  /-- `file_finish` -/
  fileFinish : Bool

/-- `CMD_ID_HEAD` -/
def parseHead (s : State) (c : Command) : Parsed :=
  let r := readFileHeadInfo .initial c
  let s := {s with fileInfo := r.1}
  if r.2∧c.outcome.mallocBuffer then
    let o := openFile s c
    if o.2 then
      ⟨codeyNeuronsReadyForReadRecvFileName (codeyNeuronsRecordRecvFileName o.1 readyName),
        .ok,false⟩
    else ⟨o.1,.err,false⟩
  else ⟨s,.err,false⟩

/-- The buffer takes the bytes of a block. -/
def State.fill (s : State) (payload : List UInt8) : State :=
  {s with fileInfo := {s.fileInfo with
    flashWriteBuf := s.fileInfo.flashWriteBuf++payload}}

/-- The buffer takes a block, after a flush of whole words if need be. -/
def takeBlock (s : State) (c : Command) : State×Status :=
  if s.fileInfo.flashWriteBufCnt+c.payload.length≤flashFileWriteBuffer then
    (s.fill c.payload,.ok)
  else
    let w := writeBufferToFlash s (s.fileInfo.flashWriteBufCnt/4*4) c.outcome.flush
    if w.2 then
      if w.1.fileInfo.flashWriteBufCnt+c.payload.length≤flashFileWriteBuffer then
        (w.1.fill c.payload,.ok)
      else (w.1,.err)
    else (w.1,.err)

/-- The bytes written and buffered are as many as announced. -/
def FileInfo.isEof (fileInfo : FileInfo) : Bool :=
  fileInfo.fileWriteIdx+fileInfo.flashWriteBufCnt.toUInt32==fileInfo.fileSize

/-- The end of the file: the rest is written and the checksums are compared. -/
def endFile (s : State) (o : FlashOutcome) : Parsed :=
  if s.fileInfo.flashWriteBufCnt≠0 then
    let w := writeBufferToFlash s s.fileInfo.flashWriteBufCnt o
    if w.2 then
      if w.1.fileInfo.fileCheckSum=w.1.fileInfo.fileCalcCheckSum then ⟨w.1,.ok,true⟩
      else ⟨w.1,.err,true⟩
    else ⟨w.1,.ok,true⟩
  else ⟨s,.ok,true⟩

/-- `CMD_ID_BLOCK` -/
def parseBlock (s : State) (c : Command) : Parsed :=
  if s.fileInfo.isFileOpen∧checkFileBlockLen c.cmdLen then
    let t := takeBlock s c
    if t.2=.ok∧t.1.fileInfo.isEof then endFile t.1 c.outcome.final
    else ⟨t.1,t.2,false⟩
  else ⟨s,.err,false⟩

/-- The `switch` of `codey_neurons_ftp_parse`. `CMD_ID_DEL`, `CMD_ID_STATUS` and all
other ids give an error. -/
def parseCommand (s : State) (c : Command) : Parsed :=
  if c.cmdId=cmdIdHead then parseHead s c
  else if c.cmdId=cmdIdBlock then parseBlock s c
  else ⟨s,.err,false⟩

/-- What can be seen of a command's handling. -/
structure Reply where
  ret : Status
  /-- The file name that is recorded as received. -/
  recorded : Option (List UInt8)
  /-- The receiver before it is cleared. -/
  before : State

/-- The end of `codey_neurons_ftp_parse`: after an error or a whole file the file
is closed and `file_info` cleared. -/
def finish (p : Parsed) : State×Reply :=
  if p.ret=.err∨p.fileFinish then
    let name := p.state.fileInfo.fileName.getD []
    let s := if p.fileFinish then codeyNeuronsRecordRecvFileName p.state name else p.state
    (codeyNeuronsReadyForReadRecvFileName {s with fileInfo := .initial},
      ⟨p.ret,if p.fileFinish then some name else none,p.state⟩)
  else (p.state,⟨p.ret,none,p.state⟩)

/-- `codey_neurons_ftp_parse`, as a step without faults. -/
def codeyNeuronsFtpParse (s : State) (c : Command) : Except Empty (State×Reply) :=
  .ok (finish (parseCommand s c))

end MicroPython.FtpReceiver
