import MicroPython.FtpIntegrity

/-!
# Files split into blocks

A header and any split of a file into blocks that fit store the file, when the
file system works. Short writes are no failure while the calls of `f_write`
go on writing.
-/

namespace MicroPython.FtpSplitting

open List FtpReceiver FtpFlush FtpIntegrity InputMachine

/-- The semaphore is free and the calls of `f_write` can write a whole buffer. -/
def Works (o : FlashOutcome) : Prop :=
  o.semaphore=true∧flashFileWriteBuffer≤writable flashWriteTry o.wrote

/-- The bytes of blocks. -/
def bytes (blocks : List Command) : List UInt8 := blocks.flatMap Command.payload

/-- A header and blocks with the bytes of the file. -/
structure Transfer where
  header : Command
  header_id : header.cmdId=cmdIdHead
  /-- It has a name. -/
  header_len : 10≤header.cmdLen
  /-- There is memory for it and the file opens. -/
  header_outcome : header.outcome.mallocName=true∧header.outcome.mallocBuffer=true∧
    header.outcome.openFile=true
  blocks : List Command
  blocks_id : ∀ b∈blocks,b.cmdId=cmdIdBlock
  /-- They have an offset. -/
  blocks_len : ∀ b∈blocks,4≤b.cmdLen
  /-- The file system works. -/
  blocks_outcome : ∀ b∈blocks,Works b.outcome.flush∧Works b.outcome.final
  size : (bytes blocks).length=(announced header).fileSize.toNat
  /-- Each fits the buffer after the bytes left over from whole words. -/
  fits : ∀ before b after,blocks=before++b::after →
    (bytes before).length%4+b.payload.length≤flashFileWriteBuffer

/-- The file. -/
def Transfer.content (T : Transfer) : List UInt8 := bytes T.blocks

theorem Works.completes {o : FlashOutcome} (ho : Works o) {written n : ℕ}
    (hn : n≤flashFileWriteBuffer) (hroom : written+n≤0xFFFFFFFF) : Completes o written n :=
  ⟨ho.1,hn.trans ho.2,hroom⟩

variable {s : State} {r : Receipt}

theorem cnt_mod (h : Holds s r) : s.fileInfo.flashWriteBufCnt%4=r.received.length%4 := by
  have hwords := h.words
  have hlength := h.length_eq
  show s.fileInfo.flashWriteBuf.length%4=_
  omega

/-- A block that fits after the bytes left over is taken. -/
theorem takes_of_fits (h : Holds s r) {b : Command} (hworks : Works b.outcome.flush)
    (hfits : r.received.length%4+b.payload.length≤flashFileWriteBuffer)
    (hroom : r.received.length≤0xFFFFFFFF) : Takes s b := by
  refine .inr ⟨hworks.completes ?_ ?_,?_⟩
  · exact (Nat.div_mul_le_self _ _).trans h.bounded
  · have hle : s.fileInfo.flashWriteBufCnt/4*4 ≤ s.fileInfo.flashWriteBuf.length :=
      Nat.div_mul_le_self _ _
    have hlength := h.length_eq
    omega
  · rw [cnt_mod h]
    exact hfits

/-- The buffer is never filled beyond its size. -/
theorem takeBlock_bounded {s : State}
    (h : s.fileInfo.flashWriteBufCnt≤flashFileWriteBuffer) (b : Command) :
    (takeBlock s b).1.fileInfo.flashWriteBufCnt≤flashFileWriteBuffer := by
  have hfill : ∀ t : State,t.fileInfo.flashWriteBufCnt+b.payload.length≤flashFileWriteBuffer →
        (t.fill b.payload).fileInfo.flashWriteBufCnt≤flashFileWriteBuffer := by
    intro t ht
    show (t.fileInfo.flashWriteBuf++b.payload).length≤_
    rw [length_append]
    exact ht
  have hwrite : ∀ n o,(writeBufferToFlash s n o).1.fileInfo.flashWriteBufCnt≤
      flashFileWriteBuffer := by
    intro n o
    rw [writeBufferToFlash]
    split
    case isFalse => exact h
    case isTrue =>
      split
      case isFalse => exact h
      case isTrue =>
        dsimp only
        split
        case isFalse => exact h
        case isTrue =>
          show (s.fileInfo.flashWriteBuf.drop n).length≤_
          rw [length_drop]
          exact (Nat.sub_le _ _).trans h
  rw [takeBlock]
  split
  case isTrue hfits => exact hfill s hfits
  case isFalse =>
    dsimp only
    split
    case isFalse => exact hwrite _ _
    case isTrue =>
      split
      case isTrue hfits => exact hfill _ hfits
      case isFalse => exact hwrite _ _

/-- Blocks without an open file leave what is stored. -/
theorem run_closed (blocks : List Command) (hid : ∀ b∈blocks,b.cmdId=cmdIdBlock) :
    ∀ s : State,s.fileInfo.isFileOpen=false →
      ∃ t replies,run codeyNeuronsFtpParse s blocks=.ok (t,replies)∧t.fp=s.fp := by
  induction blocks with
  | nil => exact fun s _ => ⟨s,[],rfl,rfl⟩
  | cons b blocks ih =>
    intro s hclosed
    have hnot : b.cmdId≠cmdIdHead := by
      rw [hid b mem_cons_self]
      decide
    have hparse : parseCommand s b=⟨s,.err,false⟩ := by
      rw [parseCommand,if_neg hnot,if_pos (hid b mem_cons_self),parseBlock_closed hclosed]
    obtain ⟨hinfo,hfp,_,_⟩ := finish_cleared (.inl (congrArg Parsed.ret hparse))
    obtain ⟨t,replies,hrun,hkeep⟩ := ih (fun d hd => hid d (mem_cons_of_mem _ hd))
      (finish (parseCommand s b)).1 (by rw [hinfo]; rfl)
    refine ⟨t,_,run_cons_eq_ok.mpr ⟨_,_,replies,rfl,hrun,rfl⟩,?_⟩
    rw [hkeep,hfp,hparse]

/-- The reply in which a file is whole. -/
def Whole (content : List UInt8) (reply : Reply) : Prop :=
  reply.before.fp.content=content∧
    reply.before.fileInfo.fileCalcCheckSum=calcCheckSum content∧reply.recorded≠none

/-- The blocks with the rest of a file store it. -/
theorem run_blocks (blocks : List Command) (hid : ∀ b∈blocks,b.cmdId=cmdIdBlock)
    (hlen : ∀ b∈blocks,4≤b.cmdLen)
    (hworks : ∀ b∈blocks,Works b.outcome.flush∧Works b.outcome.final) :
    ∀ (s : State) (r : Receipt),Holds s r → (∀ before b after,blocks=before++b::after →
        (r.received++bytes before).length%4+b.payload.length≤flashFileWriteBuffer) →
      (r.received++bytes blocks).length=r.fileSize.toNat → blocks≠[] →
      ∃ t replies,run codeyNeuronsFtpParse s blocks=.ok (t,replies)∧
        t.fp.content=r.received++bytes blocks∧
        ∃ reply∈replies,Whole (r.received++bytes blocks) reply := by
  induction blocks with
  | nil => exact fun _ _ _ _ _ hne => absurd rfl hne
  | cons b blocks ih =>
    intro s r h hfits hsize _
    have hsplit : r.received++bytes (b::blocks)=(r.add b.payload).received++bytes blocks :=
      (append_assoc _ _ _).symm
    have hlt := r.fileSize.toNat_lt
    have hparts : r.received.length+b.payload.length+(bytes blocks).length=r.fileSize.toNat := by
      rw [←hsize,hsplit,length_append,Receipt.length_add]
    have hfirst : r.received.length%4+b.payload.length≤flashFileWriteBuffer := by
      have hall := hfits [] b blocks rfl
      rw [bytes,flatMap_nil,append_nil] at hall
      exact hall
    have htakes := takes_of_fits h (hworks b mem_cons_self).1 hfirst (by omega)
    have hnot : b.cmdId≠cmdIdHead := by
      rw [hid b mem_cons_self]
      decide
    have hparse : parseCommand s b=parseBlock s b := by
      rw [parseCommand,if_neg hnot,if_pos (hid b mem_cons_self)]
    have hid' : ∀ d∈blocks,d.cmdId=cmdIdBlock := fun d hd => hid d (mem_cons_of_mem _ hd)
    obtain ⟨t,hholds,_,hcase⟩ := parseBlock_taken h (hlen b mem_cons_self) htakes
    rw [←hparse] at hcase
    have hcount := hholds.length_eq
    rw [Receipt.length_add] at hcount
    by_cases hlast : (r.received.length+b.payload.length).toUInt32=r.fileSize
    case pos =>
      rw [if_pos hlast] at hcase
      have hends : Ends b.outcome.final t.fp.content.length t.fileInfo.flashWriteBufCnt := by
        refine fun _ => (hworks b mem_cons_self).2.completes hholds.bounded ?_
        show t.fp.content.length+t.fileInfo.flashWriteBuf.length≤_
        omega
      obtain ⟨hcontent,hsum,_,_⟩ := endFile_written hholds hends
      -- nothing is left for the blocks that follow
      have hrest : bytes blocks=[] := by
        have htotal := congrArg UInt32.toNat hlast
        rw [UInt32.toNat_ofNat'] at htotal
        refine length_eq_zero_iff.mp ?_
        omega
      have hfinish : (parseCommand s b).fileFinish=true := by
        rw [hcase,endFile_fileFinish]
      obtain ⟨hinfo,hfp,_,hrecorded⟩ := finish_cleared (.inr hfinish)
      obtain ⟨t',replies,hrun,hkeep⟩ := run_closed blocks hid'
        (finish (parseCommand s b)).1 (by rw [hinfo]; rfl)
      have hbefore := finish_before (parseCommand s b)
      rw [hsplit,hrest,append_nil]
      refine ⟨t',_,run_cons_eq_ok.mpr ⟨_,_,replies,rfl,hrun,rfl⟩,?_,
        (finish (parseCommand s b)).2,mem_cons_self,?_,?_,?_⟩
      · rw [hkeep,hfp,hcase,hcontent]
      · rw [hbefore,hcase,hcontent]
      · rw [hbefore,hcase,hsum]
      · rw [hrecorded,hfinish]
        exact fun hno => by cases hno
    case neg =>
      rw [if_neg hlast] at hcase
      have hne : blocks≠[] := by
        rintro rfl
        refine hlast (UInt32.toNat_inj.mp ?_)
        rw [bytes,flatMap_nil,length_nil] at hparts
        rw [UInt32.toNat_ofNat']
        omega
      have hstep : codeyNeuronsFtpParse s b=.ok (t,⟨.ok,none,t⟩) := by
        rw [codeyNeuronsFtpParse,hcase,finish_kept rfl rfl]
      have hfits' : ∀ before d after,blocks=before++d::after →
          ((r.add b.payload).received++bytes before).length%4+d.payload.length≤
            flashFileWriteBuffer := by
        intro before d after hblocks
        have hall := hfits (b::before) d after (by rw [hblocks]; rfl)
        have hassoc : r.received++bytes (b::before)=
            (r.add b.payload).received++bytes before := (append_assoc _ _ _).symm
        rw [hassoc] at hall
        exact hall
      rw [hsplit] at hsize ⊢
      obtain ⟨t',replies,hrun,hcontent,reply,hmem,hwhole⟩ :=
        ih hid' (fun d hd => hlen d (mem_cons_of_mem _ hd))
          (fun d hd => hworks d (mem_cons_of_mem _ hd)) t _ hholds hfits' hsize hne
      exact ⟨t',_,run_cons_eq_ok.mpr ⟨t,_,replies,hstep,hrun,rfl⟩,hcontent,reply,
        mem_cons_of_mem _ hmem,hwhole⟩

/-- The header of a transfer opens its file. -/
theorem Transfer.opens (T : Transfer) (s : State) :
    ∃ t,codeyNeuronsFtpParse s T.header=.ok (t,⟨.ok,none,t⟩)∧
      Holds t (announced T.header)∧t.fp.content=[] := by
  obtain ⟨hname,hbuffer,hfile⟩ := T.header_outcome
  have hread : (readFileHeadInfo .initial T.header).2=true := by
    have hlen : checkFileHeaderLen T.header.cmdLen=true := by
      have hten := T.header_len
      rw [checkFileHeaderLen,Bool.not_eq_true',decide_eq_false_iff_not]
      omega
    rw [readFileHeadInfo,if_pos hlen]
    simp only [hname,if_true]
  obtain ⟨hret,hholds,hempty⟩ := parseHead_opened s hread hbuffer hfile
  have hparse : parseCommand s T.header=parseHead s T.header := if_pos T.header_id
  refine ⟨(parseHead s T.header).state,?_,hholds,hempty⟩
  rw [codeyNeuronsFtpParse,hparse,finish_kept hret (parseHead_cases s T.header).2]

/-- Every command keeps the buffer within its size. -/
theorem finish_bounded {s : State} (c : Command)
    (h : s.fileInfo.flashWriteBufCnt≤flashFileWriteBuffer) :
    (finish (parseCommand s c)).1.fileInfo.flashWriteBufCnt≤flashFileWriteBuffer := by
  by_cases hend : (parseCommand s c).ret=.err∨(parseCommand s c).fileFinish=true
  case pos =>
    rw [(finish_cleared hend).1]
    exact Nat.zero_le _
  case neg =>
    have hret : (parseCommand s c).ret≠.err := fun hp => hend (.inl hp)
    have hfinish : (parseCommand s c).fileFinish≠true := fun hp => hend (.inr hp)
    rw [finish,if_neg hend]
    unfold parseCommand at hret hfinish ⊢
    split
    case isTrue hhead =>
      rw [if_pos hhead] at hret
      exact ((parseHead_cases s c).1.resolve_left hret).2.bounded
    case isFalse hhead =>
      rw [if_neg hhead] at hret hfinish
      split
      case isFalse hblock =>
        rw [if_neg hblock] at hret
        exact absurd rfl hret
      case isTrue hblock =>
        rw [if_pos hblock] at hfinish
        unfold parseBlock at hfinish ⊢
        split
        case isFalse => exact h
        case isTrue hopen =>
          rw [if_pos hopen] at hfinish
          dsimp only at hfinish ⊢
          split
          case isFalse => exact takeBlock_bounded h c
          case isTrue heof =>
            rw [if_pos heof,endFile_fileFinish] at hfinish
            exact absurd rfl hfinish

/-- Every sequence of commands runs and keeps the buffer within its size. -/
theorem run_bounded (commands : List Command) : ∀ s : State,
    s.fileInfo.flashWriteBufCnt≤flashFileWriteBuffer →
      ∃ t replies,run codeyNeuronsFtpParse s commands=.ok (t,replies)∧
        t.fileInfo.flashWriteBufCnt≤flashFileWriteBuffer := by
  induction commands with
  | nil => exact fun s h => ⟨s,[],rfl,h⟩
  | cons c commands ih =>
    intro s h
    obtain ⟨t,replies,hrun,ht⟩ := ih _ (finish_bounded c h)
    exact ⟨t,_,run_cons_eq_ok.mpr ⟨_,_,replies,rfl,hrun,rfl⟩,ht⟩

/-- A file sent in blocks is stored. The reply to the block that completes it, or to
the header of an empty file without blocks, has the checksum of the whole file, and
no block takes the buffer beyond its size. -/
theorem receives (T : Transfer) (s : State) :
    (∃ t replies,run codeyNeuronsFtpParse s (T.header::T.blocks)=.ok (t,replies)∧
      t.fp.content=T.content∧
      ∃ reply∈replies,reply.before.fp.content=T.content∧
        reply.before.fileInfo.fileCalcCheckSum=calcCheckSum T.content∧
        (T.blocks≠[] → reply.recorded≠none))∧
      ∀ before b after,T.blocks=before++b::after →
        ∃ t replies,run codeyNeuronsFtpParse s (T.header::before)=.ok (t,replies)∧
          t.fileInfo.flashWriteBufCnt≤flashFileWriteBuffer∧
          (takeBlock t b).1.fileInfo.flashWriteBufCnt≤flashFileWriteBuffer := by
  obtain ⟨t,hheader,hholds,hempty⟩ := T.opens s
  constructor
  · by_cases hne : T.blocks=[]
    case pos =>
      have hnone : T.content=[] := by rw [Transfer.content,hne]; rfl
      rw [hne,hnone]
      refine ⟨t,[⟨.ok,none,t⟩],run_cons_eq_ok.mpr ⟨t,_,[],hheader,rfl,rfl⟩,hempty,_,
        List.mem_cons_self,hempty,?_,fun h => absurd rfl h⟩
      rw [hholds.fileCalcCheckSum,hempty]
    case neg =>
      obtain ⟨t',replies,hrun,hcontent,reply,hmem,hwhole⟩ := run_blocks T.blocks T.blocks_id
        T.blocks_len T.blocks_outcome t _ hholds T.fits T.size hne
      exact ⟨t',_,run_cons_eq_ok.mpr ⟨t,_,replies,hheader,hrun,rfl⟩,hcontent,reply,
        List.mem_cons_of_mem _ hmem,hwhole.1,hwhole.2.1,fun _ => hwhole.2.2⟩
  · intro before b after _
    obtain ⟨t',replies,hrun,ht'⟩ := run_bounded before t hholds.bounded
    exact ⟨t',_,run_cons_eq_ok.mpr ⟨t,_,replies,hheader,hrun,rfl⟩,ht',takeBlock_bounded ht' b⟩

/-- A block with the bytes of a file after its offset. -/
def blockOf (payload : List UInt8) (h : payload.length+4 < 2^16) : Command where
  cmdId := cmdIdBlock
  cmdData := [0,0,0,0]++payload
  cmdLen_lt := by
    rw [List.length_append,Nat.add_comm]
    exact h
  outcome := ⟨true,true,true,works,⟨true,[2,0,flashFileWriteBuffer]⟩⟩

/-- The five bytes in two blocks, written with a short write first. -/
def twoBlocks : Transfer where
  header := fiveBytes
  header_id := rfl
  header_len := by decide
  header_outcome := ⟨rfl,rfl,rfl⟩
  blocks := [blockOf [1,2,3] (by decide),blockOf [4,5] (by decide)]
  blocks_id := by
    intro b hb
    rcases List.mem_pair.mp hb with rfl | rfl <;> rfl
  blocks_len := by
    intro b hb
    rcases List.mem_pair.mp hb with rfl | rfl <;> decide
  blocks_outcome := by
    intro b hb
    rcases List.mem_pair.mp hb with rfl | rfl <;> exact ⟨⟨rfl,by decide⟩,⟨rfl,by decide⟩⟩
  size := rfl
  fits := by
    intro before b after h
    match before,h with
    | [],h =>
      cases h
      decide
    | [_],h =>
      cases h
      decide
    | _::_::before,h =>
      have hlength := congrArg List.length h
      simp only [List.length_append,List.length_cons,List.length_nil] at hlength
      omega

example : twoBlocks.content=[1,2,3,4,5] := rfl

end MicroPython.FtpSplitting
