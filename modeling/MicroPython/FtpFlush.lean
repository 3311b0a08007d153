import Mathlib.Data.Nat.Bitwise
import MicroPython.FtpReceiver

/-!
# What reaches the flash

A transfer that goes well keeps the bytes received so far as those of the file,
whole words of which the running checksum is known, and those of the buffer. A
flush of whole words keeps this, and a block that is taken appends to it.
-/

namespace MicroPython.FtpFlush

open Nat List FtpReceiver

/-! ## The checksum -/

/-- A word that is there before the loop comes out of it. -/
theorem calcCheckSumLoop_xor (x y : UInt32) (buf : List UInt8) :
    calcCheckSumLoop (x^^^y) buf=x^^^calcCheckSumLoop y buf := by
  fun_induction calcCheckSumLoop y buf with
  | case1 y a b c d buf ih => rw [calcCheckSumLoop,UInt32.xor_assoc,ih]
  | case2 y => rfl
  | case3 y tail hwords hne =>
    rw [calcCheckSumLoop,UInt32.xor_assoc]
    all_goals assumption

/-- Whole words come out of the loop before what follows them. -/
theorem calcCheckSumLoop_append (x : UInt32) (u v : List UInt8) (h : 4∣u.length) :
    calcCheckSumLoop x (u++v)=calcCheckSumLoop (calcCheckSumLoop x u) v := by
  fun_induction calcCheckSumLoop x u with
  | case1 x a b c d buf ih =>
    have hbuf : 4∣buf.length := by
      simp only [length_cons] at h
      omega
    exact ih hbuf
  | case2 x => rfl
  | case3 x tail hwords hne =>
    -- a tail is no whole word
    have hshort : 0 < tail.length∧tail.length < 4 := by
      refine ⟨length_pos_iff.mpr hne,?_⟩
      match tail,hwords with
      | [],_ => exact succ_pos 3
      | [_],_ => exact Nat.lt_of_sub_eq_succ rfl
      | [_,_],_ => exact Nat.lt_of_sub_eq_succ rfl
      | [_,_,_],_ => exact Nat.lt_of_sub_eq_succ rfl
      | a::b::c::d::buf,hwords => exact absurd rfl (hwords a b c d buf)
    omega

theorem calcCheckSum_append (u v : List UInt8) (h : 4∣u.length) :
    calcCheckSum (u++v)=calcCheckSum u^^^calcCheckSum v := by
  unfold calcCheckSum
  rw [calcCheckSumLoop_append 0 u v h,←calcCheckSumLoop_xor,UInt32.xor_zero]

/-! ## Writing -/

/-- The pointer is at the end of the file. -/
def AtEnd (fp : Fil) : Prop := fp.content.length=fp.fptr.toNat

/-- The number of bytes that calls of `f_write` can write before there are as many
without a byte. -/
def writable : ℕ→List ℕ→ℕ
  | 0,_ => 0
  | _+1,[] => 0
  | tries+1,wrote::outcomes =>
    if wrote=0 then writable tries outcomes else wrote+writable (tries+1) outcomes

variable {fp : Fil}

theorem fWrite_content (h : AtEnd fp) (buff : List UInt8) (wrote : ℕ) :
    (fWrite fp buff wrote).1.content=fp.content++buff.take (fWrite fp buff wrote).2 := by
  have hdrop : fp.content.drop (fp.fptr.toNat+(fWrite fp buff wrote).2)=[] :=
    drop_eq_nil_of_le (by rw [h]; exact le_add_right _ _)
  have htake : fp.content.take fp.fptr.toNat=fp.content := by rw [←h,take_length]
  show fp.content.take fp.fptr.toNat++buff.take (fWrite fp buff wrote).2++
    fp.content.drop (fp.fptr.toNat+(fWrite fp buff wrote).2)=_
  rw [hdrop,htake,append_nil]

/-- A write moves the pointer. -/
theorem fWrite_fptr (fp : Fil) (buff : List UInt8) (wrote : ℕ) :
    (fWrite fp buff wrote).1.fptr.toNat=fp.fptr.toNat+(fWrite fp buff wrote).2 := by
  have hlt := fp.fptr.toNat_lt
  have hbw : (fWrite fp buff wrote).2≤0xFFFFFFFF-fp.fptr.toNat :=
    (min_le_right _ _).trans (min_le_right _ _)
  show (fp.fptr+(fWrite fp buff wrote).2.toUInt32).toNat=_
  rw [UInt32.toNat_add,UInt32.toNat_ofNat']
  omega

theorem fWrite_atEnd (h : AtEnd fp) (buff : List UInt8) (wrote : ℕ) :
    AtEnd (fWrite fp buff wrote).1 := by
  have hbw : (fWrite fp buff wrote).2≤buff.length :=
    (min_le_right _ _).trans (min_le_left _ _)
  rw [AtEnd,fWrite_content h,fWrite_fptr,length_append,length_take,h]
  omega

/-- How far the calls of `f_write` get. -/
def reach (tries : ℕ) (outcomes : List ℕ) (fp : Fil) (rest : List UInt8) : ℕ :=
  min rest.length (min (writable tries outcomes) (0xFFFFFFFF-fp.fptr.toNat))

/-- The loop appends what the calls of `f_write` can write. -/
theorem writeLoop_spec (outcomes : List ℕ) : ∀ (tries : ℕ) (fp : Fil) (rest : List UInt8),
    AtEnd fp → tries≤flashWriteTry →
    ∃ fp',writeLoop tries fp fp.fptr rest outcomes=
        (fp',fp'.fptr,rest.drop (reach (flashWriteTry-tries) outcomes fp rest))∧
      fp'.content=fp.content++rest.take (reach (flashWriteTry-tries) outcomes fp rest)∧
      AtEnd fp' := by
  induction outcomes with
  | nil =>
    intro tries fp rest hend _
    have hreach : reach (flashWriteTry-tries) [] fp rest=0 := by
      cases hleft : flashWriteTry-tries <;> simp only [reach,writable] <;> omega
    refine ⟨fp,?_,?_,hend⟩
    · rw [hreach]
      rfl
    · rw [hreach,take_zero,append_nil]
  | cons wrote outcomes ih =>
    intro tries fp rest hend htries
    by_cases hgo : rest≠[]∧tries < flashWriteTry
    case neg =>
      have hreach : reach (flashWriteTry-tries) (wrote::outcomes) fp rest=0 := by
        by_cases hrest : rest=[]
        case pos => rw [reach,hrest,length_nil,Nat.zero_min]
        case neg =>
          have hleft : flashWriteTry-tries=0 := by
            have hdone : ¬tries < flashWriteTry := fun hlt => hgo ⟨hrest,hlt⟩
            omega
          rw [hleft,reach,writable,Nat.zero_min,Nat.min_zero]
      refine ⟨fp,?_,?_,hend⟩
      · rw [writeLoop,if_neg hgo,hreach]
        rfl
      · rw [hreach,take_zero,append_nil]
    case pos =>
      obtain ⟨left,hleft⟩ : ∃ left,flashWriteTry-tries=left+1 := ⟨flashWriteTry-tries-1,by omega⟩
      have hmore : (if (fWrite fp rest wrote).2=0 then tries+1 else tries)≤flashWriteTry := by
        split <;> omega
      obtain ⟨fp',hloop,hcontent,hend'⟩ :=
        ih _ (fWrite fp rest wrote).1 (rest.drop (fWrite fp rest wrote).2)
          (fWrite_atEnd hend rest wrote) hmore
      -- the rest of the loop gets as far as it could before, less what was written
      have hreach : reach (flashWriteTry-tries) (wrote::outcomes) fp rest=(fWrite fp rest wrote).2+
            reach (flashWriteTry-(if (fWrite fp rest wrote).2=0 then tries+1 else tries))
              outcomes (fWrite fp rest wrote).1 (rest.drop (fWrite fp rest wrote).2) := by
        have hbw : (fWrite fp rest wrote).2=
            min wrote (min rest.length (0xFFFFFFFF-fp.fptr.toNat)) := rfl
        have hnext : flashWriteTry-(tries+1)=left := by omega
        rw [reach,reach,fWrite_fptr,length_drop,hleft,writable]
        split
        case isTrue hzero =>
          have hnone : (fWrite fp rest wrote).2=0 := by rw [hbw,hzero,Nat.zero_min]
          rw [hnone,if_pos rfl,hnext]
          omega
        case isFalse hwrote =>
          split
          case isTrue hstuck => rw [hnext]; omega
          case isFalse hmoved => rw [hleft]; omega
      refine ⟨fp',?_,?_,hend'⟩
      · have hfptr : (fWrite fp rest wrote).1.fptr=fp.fptr+(fWrite fp rest wrote).2.toUInt32 := rfl
        rw [writeLoop,if_pos hgo,hreach,←drop_drop,←hloop,hfptr]
      · rw [hcontent,fWrite_content hend,hreach,append_assoc,←take_add]

/-! ## The transfer -/

/-- What a header announced and what blocks brought since. -/
structure Receipt where
  fileSize : UInt32
  fileCheckSum : UInt32
  received : List UInt8

/-- A transfer is under way and nothing is lost. -/
structure Holds (s : State) (r : Receipt) : Prop where
  isFileOpen : s.fileInfo.isFileOpen=true
  fileSize : s.fileInfo.fileSize=r.fileSize
  /-- The expected checksum is the announced one. -/
  fileCheckSum : s.fileInfo.fileCheckSum=r.fileCheckSum
  /-- The bytes received are those of the file, then those of the buffer. -/
  received : s.fp.content++s.fileInfo.flashWriteBuf=r.received
  /-- The file has whole words. -/
  words : 4∣s.fp.content.length
  /-- The position is at the end of the file. -/
  fileWriteIdx : s.fp.content.length=s.fileInfo.fileWriteIdx.toNat
  fileCalcCheckSum : s.fileInfo.fileCalcCheckSum=calcCheckSum s.fp.content
  bounded : s.fileInfo.flashWriteBuf.length≤flashFileWriteBuffer

/-- A flush of `n` bytes after others writes all of them: the semaphore is taken, the
calls of `f_write` can write as many, and the file stays below 4 GiB. -/
def Completes (o : FlashOutcome) (written n : ℕ) : Prop :=
  o.semaphore=true∧n≤writable flashWriteTry o.wrote∧written+n≤0xFFFFFFFF

/-- The receiver after a flush of `n` bytes to a file. -/
def flushed (s : State) (fp : Fil) (n : ℕ) : State :=
  {s with
    fp := fp
    fileInfo := {s.fileInfo with
      fileWriteIdx := fp.fptr
      fileCalcCheckSum :=
        s.fileInfo.fileCalcCheckSum^^^calcCheckSum (s.fileInfo.flashWriteBuf.take n)
      flashWriteBuf := s.fileInfo.flashWriteBuf.drop n}}

variable {s : State} {r : Receipt}

theorem Holds.length_eq (h : Holds s r) :
    s.fp.content.length+s.fileInfo.flashWriteBuf.length=r.received.length := by
  rw [←h.received,length_append]

variable {o : FlashOutcome}

/-- A flush with the semaphore runs the loop at the end of the file. -/
theorem writeBufferToFlash_loop (h : Holds s r) (n : ℕ) (ho : o.semaphore=true) : ∃ fp,AtEnd fp∧
      fp.content=s.fp.content++(s.fileInfo.flashWriteBuf.take n).take
        (reach flashWriteTry o.wrote (fLseek s.fp s.fileInfo.fileWriteIdx)
          (s.fileInfo.flashWriteBuf.take n))∧
      writeBufferToFlash s n o=
        if (s.fileInfo.flashWriteBuf.take n).drop
          (reach flashWriteTry o.wrote (fLseek s.fp s.fileInfo.fileWriteIdx)
            (s.fileInfo.flashWriteBuf.take n))=[] then (flushed s fp n,true)
        else ({s with
          fp := fp
          fileInfo := {s.fileInfo with fileWriteIdx := fp.fptr}},false) := by
  have hend : AtEnd (fLseek s.fp s.fileInfo.fileWriteIdx) := h.fileWriteIdx
  obtain ⟨fp,hloop,hcontent,hend'⟩ := writeLoop_spec o.wrote 0 _
    (s.fileInfo.flashWriteBuf.take n) hend (zero_le _)
  refine ⟨fp,hend',hcontent,?_⟩
  have hrun : writeLoop 0 (fLseek s.fp s.fileInfo.fileWriteIdx) s.fileInfo.fileWriteIdx
      (s.fileInfo.flashWriteBuf.take n) o.wrote=_ := hloop
  rw [writeBufferToFlash,if_pos h.isFileOpen,if_pos ho]
  simp only [hrun]
  rfl

/-- How far a flush of at most what is held gets. -/
theorem reach_eq (h : Holds s r) {n : ℕ} (hn : n ≤ s.fileInfo.flashWriteBuf.length)
    (o : FlashOutcome) :
    reach flashWriteTry o.wrote (fLseek s.fp s.fileInfo.fileWriteIdx)
        (s.fileInfo.flashWriteBuf.take n)=
      min n (min (writable flashWriteTry o.wrote) (0xFFFFFFFF-s.fp.content.length)) := by
  rw [reach,length_take,min_eq_left hn,h.fileWriteIdx]
  rfl

/-- A flush that completes. -/
theorem writeBufferToFlash_done (h : Holds s r) {n : ℕ} (hn : n ≤ s.fileInfo.flashWriteBuf.length)
    (ho : Completes o s.fp.content.length n) :
    ∃ fp,AtEnd fp∧fp.content=s.fp.content++s.fileInfo.flashWriteBuf.take n∧
      writeBufferToFlash s n o=(flushed s fp n,true) := by
  obtain ⟨hsemaphore,hwritable,hroom⟩ := ho
  obtain ⟨fp,hend,hcontent,hwrite⟩ := writeBufferToFlash_loop h n hsemaphore
  have hreach := reach_eq h hn o
  have hall : (s.fileInfo.flashWriteBuf.take n).length≤
      reach flashWriteTry o.wrote (fLseek s.fp s.fileInfo.fileWriteIdx)
        (s.fileInfo.flashWriteBuf.take n) := by
    rw [hreach,length_take]
    omega
  rw [take_of_length_le hall] at hcontent
  rw [drop_eq_nil_of_le hall,if_pos rfl] at hwrite
  exact ⟨fp,hend,hcontent,hwrite⟩

/-- A flush that does not complete, and leaves a byte unwritten when there was one. -/
theorem writeBufferToFlash_failed (h : Holds s r) {n : ℕ} (hn : n ≤ s.fileInfo.flashWriteBuf.length)
    (ho : ¬Completes o s.fp.content.length n) :
    ∃ t,writeBufferToFlash s n o=(t,false)∧s.fp.content.length≤t.fp.content.length∧
      (0 < n → t.fp.content.length < s.fp.content.length+n) := by
  cases hsemaphore : o.semaphore with
  | false =>
    refine ⟨s,?_,le_refl _,fun hpos => by omega⟩
    rw [writeBufferToFlash,if_pos h.isFileOpen,hsemaphore,if_neg Bool.false_ne_true]
  | true =>
    obtain ⟨fp,hend,hcontent,hwrite⟩ := writeBufferToFlash_loop h n hsemaphore
    have hreach := reach_eq h hn o
    have hlt := s.fileInfo.fileWriteIdx.toNat_lt
    have hidx := h.fileWriteIdx
    have hshort : ¬(n≤writable flashWriteTry o.wrote∧s.fp.content.length+n≤0xFFFFFFFF) :=
      fun hall => ho ⟨hsemaphore,hall⟩
    have hrest : (s.fileInfo.flashWriteBuf.take n).drop
        (reach flashWriteTry o.wrote (fLseek s.fp s.fileInfo.fileWriteIdx)
          (s.fileInfo.flashWriteBuf.take n))≠[] := by
      rw [Ne,drop_eq_nil_iff,length_take]
      omega
    rw [if_neg hrest] at hwrite
    have hlength := congrArg List.length hcontent
    rw [length_append,length_take] at hlength
    refine ⟨_,hwrite,?_,fun _ => ?_⟩
    · show _≤fp.content.length
      omega
    · show fp.content.length < _
      omega

/-- A flush of whole words that completes keeps the transfer. -/
theorem Holds.flushed (h : Holds s r) {n : ℕ} (hn : n ≤ s.fileInfo.flashWriteBuf.length)
    (hwords : 4∣n) (hend : AtEnd fp)
    (hcontent : fp.content=s.fp.content++s.fileInfo.flashWriteBuf.take n) :
    Holds (flushed s fp n) r where
  isFileOpen := h.isFileOpen
  fileSize := h.fileSize
  fileCheckSum := h.fileCheckSum
  received := by
    show fp.content++s.fileInfo.flashWriteBuf.drop n=_
    rw [hcontent,append_assoc,take_append_drop,h.received]
  words := by
    show 4∣fp.content.length
    rw [hcontent,length_append,length_take,min_eq_left hn]
    exact Nat.dvd_add h.words hwords
  fileWriteIdx := hend
  fileCalcCheckSum := by
    show s.fileInfo.fileCalcCheckSum^^^_=calcCheckSum fp.content
    rw [hcontent,calcCheckSum_append _ _ h.words,h.fileCalcCheckSum]
  bounded := by
    show (s.fileInfo.flashWriteBuf.drop n).length≤_
    have hbounded := h.bounded
    rw [length_drop]
    omega

/-! ## Blocks -/

/-- A block more. -/
def Receipt.add (r : Receipt) (payload : List UInt8) : Receipt :=
  {r with received := r.received++payload}

/-- The bytes received with a block more. -/
theorem Receipt.length_add (r : Receipt) (payload : List UInt8) :
    (r.add payload).received.length=r.received.length+payload.length :=
  length_append

/-- A block that fits is added. -/
theorem Holds.fill (h : Holds s r) {payload : List UInt8}
    (hfits : s.fileInfo.flashWriteBuf.length+payload.length≤flashFileWriteBuffer) :
    Holds (s.fill payload) (r.add payload) where
  isFileOpen := h.isFileOpen
  fileSize := h.fileSize
  fileCheckSum := h.fileCheckSum
  received := by
    show s.fp.content++(s.fileInfo.flashWriteBuf++payload)=r.received++payload
    rw [←append_assoc,h.received]
  words := h.words
  fileWriteIdx := h.fileWriteIdx
  fileCalcCheckSum := h.fileCalcCheckSum
  bounded := by
    show (s.fileInfo.flashWriteBuf++payload).length≤_
    rw [length_append]
    exact hfits

/-- The buffer has room for a payload as it is. -/
def Fits (s : State) (payload : List UInt8) : Prop :=
  s.fileInfo.flashWriteBufCnt+payload.length≤flashFileWriteBuffer

/-- A block is taken: it fits, or it does once whole words are flushed. -/
def Takes (s : State) (c : Command) : Prop :=
  Fits s c.payload∨Completes c.outcome.flush s.fp.content.length (s.fileInfo.flashWriteBufCnt/4*4)∧
      s.fileInfo.flashWriteBufCnt%4+c.payload.length≤flashFileWriteBuffer

instance (s : State) (payload : List UInt8) : Decidable (Fits s payload) :=
  inferInstanceAs (Decidable (_≤_))

/-- How many bytes the buffer holds after a block is taken. -/
def held (s : State) (payload : List UInt8) : ℕ :=
  if Fits s payload then s.fileInfo.flashWriteBufCnt+payload.length
  else s.fileInfo.flashWriteBufCnt%4+payload.length

/-- A block that is taken is added. -/
theorem takeBlock_taken (h : Holds s r) {c : Command} (hc : Takes s c) :
    ∃ t,takeBlock s c=(t,.ok)∧Holds t (r.add c.payload)∧
      t.fileInfo.flashWriteBufCnt=held s c.payload := by
  by_cases hfits : Fits s c.payload
  case pos =>
    refine ⟨s.fill c.payload,?_,h.fill hfits,?_⟩
    · rw [takeBlock]
      exact if_pos hfits
    · rw [held,if_pos hfits]
      exact length_append
  case neg =>
    obtain ⟨hflush,hroom⟩ := hc.resolve_left hfits
    have hn : s.fileInfo.flashWriteBufCnt/4*4 ≤ s.fileInfo.flashWriteBuf.length :=
      div_mul_le_self _ _
    obtain ⟨fp,hend,hcontent,hwrite⟩ := writeBufferToFlash_done h hn hflush
    have hkeeps := h.flushed hn (Dvd.intro_left _ rfl) hend hcontent
    have hcnt : (FtpFlush.flushed s fp (s.fileInfo.flashWriteBufCnt/4*4)).fileInfo.flashWriteBufCnt=
          s.fileInfo.flashWriteBufCnt%4 := by
      show (s.fileInfo.flashWriteBuf.drop _).length=_
      rw [length_drop]
      show s.fileInfo.flashWriteBufCnt-_=_
      omega
    have hfits' : (FtpFlush.flushed s fp
        (s.fileInfo.flashWriteBufCnt/4*4)).fileInfo.flashWriteBufCnt+c.payload.length≤
          flashFileWriteBuffer := by
      rw [hcnt]
      exact hroom
    refine ⟨_,?_,hkeeps.fill hfits',?_⟩
    · rw [takeBlock,if_neg (show ¬s.fileInfo.flashWriteBufCnt+c.payload.length≤_ from hfits)]
      simp only [hwrite,if_true]
      exact if_pos hfits'
    · rw [held,if_neg hfits,←hcnt]
      exact length_append

/-- A block that is not taken is an error. -/
theorem takeBlock_refused (h : Holds s r) {c : Command} (hc : ¬Takes s c) :
    (takeBlock s c).2=.err := by
  have hfits : ¬s.fileInfo.flashWriteBufCnt+c.payload.length≤flashFileWriteBuffer :=
    fun hfits => hc (.inl hfits)
  have hn : s.fileInfo.flashWriteBufCnt/4*4 ≤ s.fileInfo.flashWriteBuf.length :=
    div_mul_le_self _ _
  rw [takeBlock,if_neg hfits]
  by_cases hflush : Completes c.outcome.flush s.fp.content.length (s.fileInfo.flashWriteBufCnt/4*4)
  case pos =>
    obtain ⟨fp,hend,hcontent,hwrite⟩ := writeBufferToFlash_done h hn hflush
    have hroom : ¬(s.fileInfo.flashWriteBuf.drop
        (s.fileInfo.flashWriteBufCnt/4*4)).length+c.payload.length≤flashFileWriteBuffer := by
      have hfull : ¬s.fileInfo.flashWriteBufCnt%4+c.payload.length≤flashFileWriteBuffer :=
        fun hroom => hc (.inr ⟨hflush,hroom⟩)
      rw [length_drop]
      show ¬s.fileInfo.flashWriteBufCnt-_+_≤_
      omega
    simp only [hwrite,if_true]
    rw [if_neg (show ¬(FtpFlush.flushed s fp _).fileInfo.flashWriteBufCnt+_≤_ from hroom)]
  case neg =>
    obtain ⟨t,hwrite,_,_⟩ := writeBufferToFlash_failed h hn hflush
    simp only [hwrite,Bool.false_eq_true,if_false]

/-- The bytes received are as many as announced, counted in 32 bits. -/
theorem Holds.isEof_iff (h : Holds s r) :
    s.fileInfo.isEof=true↔r.received.length.toUInt32=r.fileSize := by
  have hlength := h.length_eq
  have hsum : s.fileInfo.fileWriteIdx+s.fileInfo.flashWriteBufCnt.toUInt32=
      r.received.length.toUInt32 := by
    apply UInt32.toNat_inj.mp
    rw [UInt32.toNat_add,UInt32.toNat_ofNat',UInt32.toNat_ofNat',←h.fileWriteIdx,←hlength,
      add_mod_mod]
    rfl
  rw [FileInfo.isEof,beq_iff_eq,hsum,h.fileSize]

/-- The last flush writes everything, when there is something to write. -/
def Ends (o : FlashOutcome) (written held : ℕ) : Prop :=
  held≠0 → Completes o written held

/-- A file whose last bytes are written. -/
theorem endFile_written (h : Holds s r)
    (ho : Ends o s.fp.content.length s.fileInfo.flashWriteBufCnt) :
    (endFile s o).state.fp.content=r.received∧
      (endFile s o).state.fileInfo.fileCalcCheckSum=calcCheckSum r.received∧
      (endFile s o).state.fileInfo.flashWriteBuf=[]∧
      (endFile s o).state.fileInfo.fileName=s.fileInfo.fileName := by
  by_cases hcnt : s.fileInfo.flashWriteBufCnt≠0
  case pos =>
    have hn : s.fileInfo.flashWriteBufCnt ≤ s.fileInfo.flashWriteBuf.length := le_refl _
    obtain ⟨fp,hend,hcontent,hwrite⟩ := writeBufferToFlash_done h hn (ho hcnt)
    have hstate : (endFile s o).state=flushed s fp s.fileInfo.flashWriteBufCnt := by
      rw [endFile,if_pos hcnt]
      simp only [hwrite,if_true]
      split <;> rfl
    have hall : fp.content=r.received := by
      rw [hcontent,←h.received]
      exact congrArg (s.fp.content++·) (take_length)
    rw [hstate]
    refine ⟨hall,?_,drop_length,rfl⟩
    show s.fileInfo.fileCalcCheckSum^^^calcCheckSum (s.fileInfo.flashWriteBuf.take _)=_
    rw [h.fileCalcCheckSum,←calcCheckSum_append _ _ h.words,←hcontent,hall]
  case neg =>
    have hnil : s.fileInfo.flashWriteBuf=[] := length_eq_zero_iff.mp (not_not.mp hcnt)
    have hall := h.received
    rw [hnil,append_nil] at hall
    rw [endFile,if_neg hcnt]
    refine ⟨hall,?_,hnil,rfl⟩
    show s.fileInfo.fileCalcCheckSum=_
    rw [h.fileCalcCheckSum,hall]

/-- A file whose last bytes are not all written. -/
theorem endFile_unwritten (h : Holds s r)
    (ho : ¬Ends o s.fp.content.length s.fileInfo.flashWriteBufCnt) :
    s.fp.content.length≤(endFile s o).state.fp.content.length∧
      (endFile s o).state.fp.content.length < r.received.length := by
  have hcnt : s.fileInfo.flashWriteBufCnt≠0 := fun hzero => ho fun hne => absurd hzero hne
  have hfails : ¬Completes o s.fp.content.length s.fileInfo.flashWriteBufCnt :=
    fun hall => ho fun _ => hall
  have hn : s.fileInfo.flashWriteBufCnt ≤ s.fileInfo.flashWriteBuf.length := le_refl _
  obtain ⟨t,hwrite,hgrows,hshort⟩ := writeBufferToFlash_failed h hn hfails
  rw [endFile,if_pos hcnt]
  simp only [hwrite,Bool.false_eq_true,if_false]
  rw [←h.length_eq]
  exact ⟨hgrows,hshort (Nat.pos_of_ne_zero hcnt)⟩

/-- The end of a file is seen as such. -/
theorem endFile_fileFinish (s : State) (o : FlashOutcome) : (endFile s o).fileFinish=true := by
  rw [endFile]
  dsimp only
  split
  case isTrue =>
    split
    case isTrue => split <;> rfl
    case isFalse => rfl
  case isFalse => rfl

end MicroPython.FtpFlush
