import Mathlib.Algebra.Group.Nat.Defs
import Mathlib.Data.List.GetD

/-!
# Heads of sound files

The voice module reads the first 128 bytes of a file and takes from them where the samples
begin. It goes from one chunk to the next by an offset that is a word of 32 bits, and the
length of a chunk that it adds to the offset is whatever the file says.
-/

namespace MicroPython.WavHead

open Nat

/-- `MAX_WAV_HEAD_LENGTH` -/
def maxWavHeadLength : ℕ := 128

/-- What is read from a file. -/
structure FileHead where
  bytes : List UInt8
  /-- There are as many as the buffer has room for. -/
  length_eq : bytes.length=maxWavHeadLength

/-- `codey_read_buffer`, unless it reads outside of the head. An offset of 32 bits and an
index with a sign are the same distance. -/
def codeyReadBuffer (head : FileHead) (index : UInt32) : Option UInt8 :=
  head.bytes[index.toNat]?

/-- `codey_read_short` -/
def codeyReadShort (head : FileHead) (idx : UInt32) : Option UInt16 := do
  let b0 ← codeyReadBuffer head idx
  let b1 ← codeyReadBuffer head (idx+1)
  some (b0.toUInt16|||b1.toUInt16<<<8)

/-- `codey_read_long` -/
def codeyReadLong (head : FileHead) (idx : UInt32) : Option UInt32 := do
  let b0 ← codeyReadBuffer head idx
  let b1 ← codeyReadBuffer head (idx+1)
  let b2 ← codeyReadBuffer head (idx+2)
  let b3 ← codeyReadBuffer head (idx+3)
  some (b0.toUInt32|||b1.toUInt32<<<8|||b2.toUInt32<<<16|||b3.toUInt32<<<24)

/-- Bytes copied from the head, unless some of them are outside of it. -/
def memcpy (head : FileHead) (src : UInt32) (n : ℕ) : Option (List UInt8) :=
  if src.toNat+n ≤ head.bytes.length then some ((head.bytes.drop src.toNat).take n) else none

/-- `RIFF` -/
def riffDesc : List UInt8 := [82,73,70,70]

/-- `WAVEfmt ` -/
def formatDesc : List UInt8 := [87,65,86,69,102,109,116,32]

/-- `Fact` -/
def factDesc : List UInt8 := [70,97,99,116]

/-- `data` -/
def dataDesc : List UInt8 := [100,97,116,97]

/-- The members of `codey_wav_info_t` that are taken from the head. The names of chunks are
without the zero byte that `memset` leaves behind them. -/
structure WavInfo where
  /-- `wav_head` -/
  wavHead : List UInt8
  /-- `file_length` -/
  fileLength : UInt32
  /-- `wav_format_desc` -/
  wavFormatDesc : List UInt8
  /-- `pcm_wav_format_length` -/
  pcmWavFormatLength : UInt32
  /-- `encode_format_type` -/
  encodeFormatType : UInt16
  /-- `number_of_channels` -/
  numberOfChannels : UInt16
  /-- `sampling_frequency` -/
  samplingFrequency : UInt32
  /-- `data_transferred_per_second` -/
  dataTransferredPerSecond : UInt32
  /-- `number_of_data_blocks` -/
  numberOfDataBlocks : UInt16
  /-- `number_of_bits_per_sample` -/
  numberOfBitsPerSample : UInt16
  /-- `additional_optional_information` -/
  additionalOptionalInformation : UInt16
  /-- `fact_optional_desc` -/
  factOptionalDesc : List UInt8
  /-- `fact_data_length` -/
  factDataLength : UInt32
  /-- `fact_data` -/
  factData : List UInt8
  /-- `data_desc` -/
  dataDesc : List UInt8
  /-- `wav_data_length` -/
  wavDataLength : UInt32
  /-- `wav_head_length` -/
  wavHeadLength : UInt32
  /-- `read_offset` -/
  readOffset : UInt32

/-- What the callers leave with `memset`. -/
def WavInfo.zeroed : WavInfo where
  wavHead := []
  fileLength := 0
  wavFormatDesc := []
  pcmWavFormatLength := 0
  encodeFormatType := 0
  numberOfChannels := 0
  samplingFrequency := 0
  dataTransferredPerSecond := 0
  numberOfDataBlocks := 0
  numberOfBitsPerSample := 0
  additionalOptionalInformation := 0
  factOptionalDesc := []
  factDataLength := 0
  factData := List.replicate 8 0
  dataDesc := []
  wavDataLength := 0
  wavHeadLength := 0
  readOffset := 0

/-- The offset moved on. -/
def WavInfo.skip (info : WavInfo) (n : UInt32) : WavInfo :=
  {info with wavHeadLength := info.wavHeadLength+n}

/-- The part of the parser behind the name of the format chunk. -/
def parseFormat (head : FileHead) (info : WavInfo) : Option WavInfo := do
  let info := info.skip 8
  let length ← codeyReadLong head info.wavHeadLength
  let info := {info with pcmWavFormatLength := length}.skip 4
  let encode ← codeyReadShort head info.wavHeadLength
  let info := {info with encodeFormatType := encode}.skip 2
  let channels ← codeyReadShort head info.wavHeadLength
  let info := {info with numberOfChannels := channels}.skip 2
  let frequency ← codeyReadLong head info.wavHeadLength
  let info := {info with samplingFrequency := frequency}.skip 4
  let perSecond ← codeyReadLong head info.wavHeadLength
  let info := {info with dataTransferredPerSecond := perSecond}.skip 4
  let blocks ← codeyReadShort head info.wavHeadLength
  let info := {info with numberOfDataBlocks := blocks}.skip 2
  let bits ← codeyReadShort head info.wavHeadLength
  let info := {info with numberOfBitsPerSample := bits}.skip 2
  if info.pcmWavFormatLength=0x12 then do
    let additional ← codeyReadShort head info.wavHeadLength
    some ({info with additionalOptionalInformation := additional}.skip 2)
  else some info

/-- The part of the parser for a fact chunk, if there is one. -/
def parseFact (head : FileHead) (info : WavInfo) : Option WavInfo := do
  let desc ← memcpy head info.wavHeadLength 4
  let info := {info with factOptionalDesc := desc}
  if desc=factDesc then do
    let info := info.skip 4
    let length ← codeyReadLong head info.wavHeadLength
    let info := {info with factDataLength := length}.skip 4
    let copied := if length>8 then 8 else length.toNat
    let data ← memcpy head info.wavHeadLength copied
    some ({info with factData := data++info.factData.drop copied}.skip length)
  else some info

/-- The part of the parser for the data chunk. -/
def parseData (head : FileHead) (info : WavInfo) : Option (Bool×WavInfo) := do
  let desc ← memcpy head info.wavHeadLength 4
  let info := {info with dataDesc := desc}
  if desc=dataDesc then do
    let info := info.skip 4
    let length ← codeyReadLong head info.wavHeadLength
    let info := {info with wavDataLength := length}.skip 4
    some (true,{info with readOffset := info.wavHeadLength})
  else some (false,info)

/-- The part of the parser behind `RIFF`. -/
def parseRiff (head : FileHead) (info : WavInfo) : Option (Bool×WavInfo) := do
  let info := info.skip 4
  let length ← codeyReadLong head info.wavHeadLength
  let info := {info with fileLength := length}.skip 4
  let desc ← memcpy head info.wavHeadLength 8
  let info := {info with wavFormatDesc := desc}
  if desc=formatDesc then do
    let info ← parseFormat head info
    let info ← parseFact head info
    parseData head info
  else some (false,info)

/-- `codey_voice_parse_wav_file`, unless it reads outside of the head. -/
def codeyVoiceParseWavFile (info : WavInfo) (head : FileHead) : Option (Bool×WavInfo) := do
  let desc ← memcpy head 0 4
  let info := {info with wavHead := desc,wavHeadLength := 0}
  let r ← if desc=riffDesc then parseRiff head info else some (false,info)
  some (if 0=r.2.samplingFrequency then (false,r.2) else r)

/-! ## Reading -/

variable {head : FileHead}

/-- The bytes from an offset on. -/
def slice (head : FileHead) (offset n : ℕ) : List UInt8 := (head.bytes.drop offset).take n

/-- A byte of the head. -/
def byteAt (head : FileHead) (offset : ℕ) : UInt8 := head.bytes.getD offset 0

/-- A word of the head, the lowest byte first. -/
def longAt (head : FileHead) (offset : ℕ) : UInt32 :=
  (byteAt head offset).toUInt32|||(byteAt head (offset+1)).toUInt32<<<8|||
    (byteAt head (offset+2)).toUInt32<<<16|||(byteAt head (offset+3)).toUInt32<<<24

theorem codeyReadBuffer_of_lt {index : UInt32} {n : ℕ} (hn : index.toNat=n) (h : n<128) :
    codeyReadBuffer head index=some (byteAt head n) := by
  have hlt : n<head.bytes.length := by
    rw [head.length_eq]
    exact h
  rw [codeyReadBuffer,hn,byteAt,List.getD_eq_getElem _ _ hlt,List.getElem?_eq_getElem hlt]

variable {idx : UInt32}

theorem codeyReadBuffer_add {n : ℕ} (hn : idx.toNat=n) {k : UInt32}
    (h : n+k.toNat<128) : codeyReadBuffer head (idx+k)=some (byteAt head (n+k.toNat)) := by
  refine codeyReadBuffer_of_lt ?_ h
  rw [UInt32.toNat_add,hn,mod_eq_of_lt (by omega)]

theorem codeyReadLong_of_le {n : ℕ} (hn : idx.toNat=n) (h : n+4 ≤ 128) :
    codeyReadLong head idx=some (longAt head n) := by
  have hat (k : UInt32) (hk : k.toNat<4) : codeyReadBuffer head (idx+k)=
      some (byteAt head (n+k.toNat)) := codeyReadBuffer_add hn (by omega)
  rw [codeyReadLong,codeyReadBuffer_of_lt hn (by omega),hat 1 (by decide),hat 2 (by decide),
    hat 3 (by decide)]
  rfl

/-- Reading half a word within the head. -/
theorem codeyReadShort_of_le {n : ℕ} (hn : idx.toNat=n) (h : n+2 ≤ 128) :
    ∃ s,codeyReadShort head idx=some s := by
  have hnext : codeyReadBuffer head (idx+1)=some (byteAt head (n+1)) :=
    @codeyReadBuffer_add head idx n hn 1 (by change n+1<128; omega)
  rw [codeyReadShort,codeyReadBuffer_of_lt hn (by omega),hnext]
  exact ⟨_,rfl⟩

/-- A word is not read where its last byte is outside of the head. -/
theorem codeyReadLong_of_gt {n : ℕ} (hn : idx.toNat=n) (h : 128<n+4)
    (hlt : n ≤ 128) : codeyReadLong head idx=none := by
  have hindex : (idx+3).toNat=n+3 := by
    rw [UInt32.toNat_add,hn]
    exact mod_eq_of_lt (by change n+3<2^32; omega)
  have hlast : codeyReadBuffer head (idx+3)=none := by
    rw [codeyReadBuffer,hindex,List.getElem?_eq_none_iff,head.length_eq]
    exact le_of_lt_succ h
  rw [codeyReadLong,hlast]
  cases codeyReadBuffer head idx with
  | none => rfl
  | some b0 =>
    cases codeyReadBuffer head (idx+1) with
    | none => rfl
    | some b1 => cases codeyReadBuffer head (idx+2) <;> rfl

/-- Copying within the head. -/
theorem memcpy_of_le {src : UInt32} {n k : ℕ} (hn : src.toNat=n) (h : n+k ≤ 128) :
    memcpy head src k=some (slice head n k) := by
  rw [memcpy,hn,head.length_eq,if_pos (show n+k ≤ maxWavHeadLength from h),slice]

/-- Copying from outside of the head. -/
theorem memcpy_of_gt {src : UInt32} {n k : ℕ} (hn : src.toNat=n) (h : 128<n+k) :
    memcpy head src k=none := by
  rw [memcpy,hn,head.length_eq,
    if_neg (show ¬n+k ≤ maxWavHeadLength from Nat.not_le.mpr h)]

/-! ## Chunks -/

/-- The head begins as that of a sound file. -/
def IsWave (head : FileHead) : Prop := slice head 0 4=riffDesc∧slice head 8 8=formatDesc

/-- Where the format chunk ends. -/
def formatEnd (head : FileHead) : ℕ := if longAt head 16=0x12 then 38 else 36

/-- There is a fact chunk behind the format chunk. -/
def HasFact (head : FileHead) : Prop := slice head (formatEnd head) 4=factDesc

instance (head : FileHead) : Decidable (IsWave head) := inferInstanceAs (Decidable (_∧_))

instance (head : FileHead) : Decidable (HasFact head) := inferInstanceAs (Decidable (_=_))

/-- Where the chunks in front of the data chunk end, by the lengths they have in the file. -/
def chunksEnd (head : FileHead) : ℕ :=
  if HasFact head then formatEnd head+8+(longAt head (formatEnd head+4)).toNat
  else formatEnd head

/-- Where the parser looks for the data chunk: the end of the others as a word. -/
def dataOffset (head : FileHead) : ℕ := chunksEnd head%2^32

variable {info : WavInfo}

/-- A number is moved on as an offset. -/
theorem toNat_skip {n : ℕ} (hn : info.wavHeadLength.toNat=n) (k : UInt32)
    (h : n+k.toNat<2^32) : (info.skip k).wavHeadLength.toNat=n+k.toNat := by
  change (info.wavHeadLength+k).toNat=n+k.toNat
  rw [UInt32.toNat_add,hn,mod_eq_of_lt h]

/-- The format chunk is read inside of the head. -/
theorem parseFormat_eq (h : info.wavHeadLength=8) :
    ∃ info',parseFormat head info=some info'∧info'.wavHeadLength.toNat=formatEnd head∧
      info'.samplingFrequency=longAt head 24 := by
  have hlong (n : UInt32) (hn : n.toNat+4 ≤ 128) :
      codeyReadLong head n=some (longAt head n.toNat) := codeyReadLong_of_le rfl hn
  have hshort (n : UInt32) (hn : n.toNat+2 ≤ 128) : ∃ s,codeyReadShort head n=some s :=
    codeyReadShort_of_le rfl hn
  obtain ⟨encode,hencode⟩ := hshort (8+8+4) (by decide)
  obtain ⟨channels,hchannels⟩ := hshort (8+8+4+2) (by decide)
  obtain ⟨blocks,hblocks⟩ := hshort (8+8+4+2+2+4+4) (by decide)
  obtain ⟨bits,hbits⟩ := hshort (8+8+4+2+2+4+4+2) (by decide)
  obtain ⟨additional,hadditional⟩ := hshort (8+8+4+2+2+4+4+2+2) (by decide)
  simp only [parseFormat,WavInfo.skip,h,hlong (8+8) (by decide),hlong (8+8+4+2+2) (by decide),
    hlong (8+8+4+2+2+4) (by decide),hencode,hchannels,hblocks,hbits,hadditional,bind,Option.bind]
  rw [formatEnd]
  split
  case isTrue heq => exact ⟨_,rfl,(if_pos heq).symm,rfl⟩
  case isFalse hne => exact ⟨_,rfl,(if_neg hne).symm,rfl⟩

/-- A fact chunk is read inside of the head. -/
theorem parseFact_eq (h : info.wavHeadLength.toNat=formatEnd head) :
    ∃ info',parseFact head info=some info'∧info'.wavHeadLength.toNat=dataOffset head∧
      info'.samplingFrequency=info.samplingFrequency := by
  have hend : formatEnd head ≤ 38 := by
    rw [formatEnd]
    split <;> omega
  have h4 : ∀ desc,({info with factOptionalDesc := desc}.skip 4).wavHeadLength.toNat=
      formatEnd head+4 := fun desc => toNat_skip h 4 (by change formatEnd head+4<2^32; omega)
  have h8 : (info.wavHeadLength+4+4).toNat=formatEnd head+8 := by
    rw [UInt32.toNat_add,UInt32.toNat_add,h]
    change ((formatEnd head+4)%2^32+4)%2^32=formatEnd head+8
    omega
  rw [parseFact,memcpy_of_le h (by omega)]
  dsimp only [bind,Option.bind]
  split
  case isTrue hfact =>
    have hcopied : (if longAt head (formatEnd head+4)>8 then 8
        else (longAt head (formatEnd head+4)).toNat) ≤ 8 := by
      split
      case isTrue => exact Nat.le_refl 8
      case isFalse hle => exact UInt32.le_iff_toNat_le.mp (UInt32.not_lt.mp hle)
    rw [codeyReadLong_of_le (h4 _) (by omega)]
    dsimp only
    rw [memcpy_of_le (by exact h8) (by omega)]
    refine ⟨_,rfl,?_,rfl⟩
    change (info.wavHeadLength+4+4+longAt head (formatEnd head+4)).toNat=_
    rw [UInt32.toNat_add,h8,dataOffset,chunksEnd,if_pos (show HasFact head from hfact)]
  case isFalse hnone =>
    refine ⟨_,rfl,?_,rfl⟩
    rw [dataOffset,chunksEnd,if_neg (show ¬HasFact head from hnone),mod_eq_of_lt (by omega)]
    exact h

/-- The name of the data chunk is inside of the head, and its length too where the name is
there. -/
def DataInside (head : FileHead) : Prop :=
  dataOffset head+4 ≤ 128∧(slice head (dataOffset head) 4=dataDesc → dataOffset head+8 ≤ 128)

/-- The data chunk is read inside of the head. -/
theorem parseData_eq (h : info.wavHeadLength.toNat=dataOffset head) (hinside : DataInside head) :
    ∃ r,parseData head info=some r∧r.2.samplingFrequency=info.samplingFrequency∧
      (r.1=true↔slice head (dataOffset head) 4=dataDesc)∧
      (r.1=true → r.2.readOffset.toNat=dataOffset head+8∧
        r.2.wavDataLength=longAt head (dataOffset head+4)) := by
  obtain ⟨hname,hlength⟩ := hinside
  have h4 : ∀ desc,({info with dataDesc := desc}.skip 4).wavHeadLength.toNat=
      dataOffset head+4 := fun desc => toNat_skip h 4 (by change dataOffset head+4<2^32; omega)
  rw [parseData,memcpy_of_le h hname]
  dsimp only [bind,Option.bind]
  split
  case isTrue hdata =>
    have hin := hlength hdata
    have h8 : (info.wavHeadLength+4+4).toNat=dataOffset head+8 := by
      rw [UInt32.toNat_add,UInt32.toNat_add,h]
      change ((dataOffset head+4)%2^32+4)%2^32=dataOffset head+8
      omega
    rw [codeyReadLong_of_le (h4 _) (by omega)]
    exact ⟨_,rfl,rfl,⟨fun _ => hdata,fun _ => rfl⟩,fun _ => ⟨h8,rfl⟩⟩
  case isFalse hnone =>
    exact ⟨_,rfl,rfl,⟨fun hok => absurd hok Bool.false_ne_true,fun hdata => absurd hdata hnone⟩,
      fun hok => absurd hok Bool.false_ne_true⟩

/-- The data chunk is read outside of the head. -/
theorem parseData_outside (h : info.wavHeadLength.toNat=dataOffset head)
    (houtside : ¬DataInside head) : parseData head info=none := by
  rw [parseData]
  by_cases hname : dataOffset head+4 ≤ 128
  · have hdata : slice head (dataOffset head) 4=dataDesc∧¬dataOffset head+8 ≤ 128 := by
      refine Decidable.byContradiction fun hnot => houtside ⟨hname,fun hd => ?_⟩
      exact Decidable.byContradiction fun hgt => hnot ⟨hd,hgt⟩
    have h4 : ∀ desc,({info with dataDesc := desc}.skip 4).wavHeadLength.toNat=
        dataOffset head+4 := fun desc => toNat_skip h 4 (by change dataOffset head+4<2^32; omega)
    rw [memcpy_of_le h hname]
    dsimp only [bind,Option.bind]
    rw [if_pos hdata.1,codeyReadLong_of_gt (h4 _) (by omega) hname]
  · rw [memcpy_of_gt h (Nat.not_le.mp hname)]
    rfl

/-! ## The parser -/

/-- What the parser returns describes the samples: they begin behind all the chunks that have
been gone through, and their number of bytes stands in front of them. -/
def Describes (head : FileHead) (r : Bool×WavInfo) : Prop :=
  r.1=true → r.2.readOffset.toNat=chunksEnd head+8∧r.2.wavDataLength=longAt head (chunksEnd head+4)

/-- The chunks of a sound file fit: the parser looks for the data chunk inside of the head,
and what it accepts has not come back to the front of the file. -/
def ChunksFit (head : FileHead) : Prop :=
  IsWave head → DataInside head∧
    (slice head (dataOffset head) 4=dataDesc → longAt head 24≠0 → chunksEnd head<2^32)

/-- A sound file is read chunk by chunk. -/
theorem parse_of_isWave (hwave : IsWave head) :
    ∃ info,info.wavHeadLength.toNat=dataOffset head∧info.samplingFrequency=longAt head 24∧
      codeyVoiceParseWavFile .zeroed head=(parseData head info).bind fun r =>
        some (if 0=r.2.samplingFrequency then (false,r.2) else r) := by
  obtain ⟨hriff,hformat⟩ := hwave
  have hfirst : memcpy head 0 4=some (slice head 0 4) := memcpy_of_le rfl (by decide)
  have hlength : codeyReadLong head (0+4)=some (longAt head 4) :=
    codeyReadLong_of_le rfl (by decide)
  have hsecond : memcpy head (0+4+4) 8=some (slice head 8 8) := memcpy_of_le rfl (by decide)
  obtain ⟨info,hparse,hend,hfrequency⟩ := @parseFormat_eq head
    ({({({WavInfo.zeroed with
        wavHead := riffDesc
        wavHeadLength := 0}.skip 4) with fileLength := longAt head 4}.skip 4) with
      wavFormatDesc := formatDesc}) rfl
  obtain ⟨info',hfact,hoffset,hkept⟩ := parseFact_eq hend
  refine ⟨info',hoffset,hkept.trans hfrequency,?_⟩
  rw [codeyVoiceParseWavFile,hfirst,hriff]
  dsimp only [bind,Option.bind]
  rw [if_pos rfl,parseRiff]
  dsimp only [WavInfo.skip,bind,Option.bind]
  rw [hlength]
  rw [hsecond,hformat]
  dsimp only
  rw [if_pos rfl]
  dsimp only [WavInfo.skip] at hparse
  rw [hparse]
  dsimp only
  rw [hfact]

/-- A file that does not begin as a sound file is not accepted, and nothing outside of its head
is read. -/
theorem parse_of_not_isWave (hwave : ¬IsWave head) :
    ∃ info,codeyVoiceParseWavFile .zeroed head=some (false,info) := by
  have hfirst : memcpy head 0 4=some (slice head 0 4) := memcpy_of_le rfl (by decide)
  have hlength : codeyReadLong head (0+4)=some (longAt head 4) :=
    codeyReadLong_of_le rfl (by decide)
  have hsecond : memcpy head (0+4+4) 8=some (slice head 8 8) := memcpy_of_le rfl (by decide)
  rw [codeyVoiceParseWavFile,hfirst]
  dsimp only [bind,Option.bind]
  by_cases hriff : slice head 0 4=riffDesc
  · have hformat : slice head 8 8≠formatDesc := fun h => hwave ⟨hriff,h⟩
    rw [if_pos hriff,parseRiff]
    dsimp only [WavInfo.skip,bind,Option.bind]
    rw [hlength]
    rw [hsecond]
    dsimp only
    rw [if_neg hformat]
    exact ⟨_,rfl⟩
  · rw [if_neg hriff]
    exact ⟨_,rfl⟩

/-- The parser reads only inside of the head and what it returns describes the samples when and
only when the chunks fit. -/
theorem codeyVoiceParseWavFile_iff (head : FileHead) :
    (∃ r,codeyVoiceParseWavFile .zeroed head=some r∧Describes head r)↔ChunksFit head := by
  by_cases hwave : IsWave head
  · obtain ⟨info,hoffset,hfrequency,hparse⟩ := parse_of_isWave hwave
    rw [hparse]
    constructor
    · rintro ⟨r,hrun,hdescribes⟩ -
      by_cases hinside : DataInside head
      · obtain ⟨r',hdata,hkept,hok,hregion⟩ := parseData_eq hoffset hinside
        refine ⟨hinside,fun hname hne => ?_⟩
        have hnonzero : ¬0=r'.2.samplingFrequency := by
          rw [hkept,hfrequency]
          exact fun h => hne h.symm
        rw [hdata,Option.bind,if_neg hnonzero] at hrun
        cases hrun
        have hsame := (hregion (hok.mpr hname)).1.symm.trans (hdescribes (hok.mpr hname)).1
        have hword : dataOffset head<2^32 := Nat.mod_lt _ (by decide)
        omega
      · rw [parseData_outside hoffset hinside] at hrun
        cases hrun
    · intro hfits
      obtain ⟨hinside,hword⟩ := hfits hwave
      obtain ⟨r,hdata,hkept,hok,hregion⟩ := parseData_eq hoffset hinside
      rw [hdata,Option.bind]
      refine ⟨_,rfl,fun haccepted => ?_⟩
      by_cases hzero : 0=r.2.samplingFrequency
      · rw [if_pos hzero] at haccepted
        cases haccepted
      · rw [if_neg hzero] at haccepted ⊢
        have hne : longAt head 24≠0 := fun h => hzero (by rw [hkept,hfrequency,h])
        have hsame : dataOffset head=chunksEnd head :=
          Nat.mod_eq_of_lt (hword (hok.mp haccepted) hne)
        rw [←hsame]
        exact hregion haccepted
  · refine ⟨fun _ hyes => absurd hyes hwave,fun _ => ?_⟩
    obtain ⟨info,hparse⟩ := parse_of_not_isWave hwave
    exact ⟨_,hparse,fun hok => nomatch hok⟩

/-- The head of a sound file whose bytes from the fourth to the seventh are given, with a fact
chunk of a given length. -/
def factHead (second factLength : List UInt8) : List UInt8 :=
  riffDesc++second++formatDesc++[16,0,0,0,1,0,1,0,64,31,0,0,64,31,0,0,1,0,8,0]++factDesc++
    factLength++List.replicate 84 0

/-- A fact chunk of 100 bytes makes the parser read behind the head, and one whose length
leads back to the front makes it find samples inside of the format chunk. -/
theorem codeyVoiceParseWavFile_outside :
    ((codeyVoiceParseWavFile .zeroed ⟨factHead [0,0,0,0] [100,0,0,0],rfl⟩).map Prod.fst=none∧
      ((codeyVoiceParseWavFile .zeroed ⟨factHead dataDesc [216,255,255,255],rfl⟩).map
        fun r => (r.1,r.2.readOffset))=some (true,12))∧
      ¬∀ head : FileHead,∃ r,codeyVoiceParseWavFile .zeroed head=some r∧Describes head r := by
  have hruns : (codeyVoiceParseWavFile .zeroed ⟨factHead [0,0,0,0] [100,0,0,0],rfl⟩).map Prod.fst=
      none∧((codeyVoiceParseWavFile .zeroed ⟨factHead dataDesc [216,255,255,255],rfl⟩).map
        fun r => (r.1,r.2.readOffset))=some (true,12) := by decide +kernel
  refine ⟨hruns,fun h => ?_⟩
  obtain ⟨r,hrun,-⟩ := h ⟨factHead [0,0,0,0] [100,0,0,0],rfl⟩
  have hnone := hruns.1
  rw [hrun] at hnone
  cases hnone

end MicroPython.WavHead
