import MicroPython.FtpFlush
import MicroPython.InputMachine

/-!
# When a file that is recorded is intact

An observer that sees the commands and the replies knows what was announced and
what came since. The receiver records a file exactly when its last block is
taken, whether or not the last flush writes everything and the checksums agree.
-/

namespace MicroPython.FtpIntegrity

open FtpReceiver FtpFlush InputMachine

/-- The announcement of a header. -/
def announced (c : Command) : Receipt :=
  ⟨leWord ((c.cmdData.drop 1).take 4),leWord ((c.cmdData.drop 5).take 4),[]⟩

/-- The transfer under way after a command, as the observer sees it. -/
def next (r : Option Receipt) (c : Command) (reply : Reply) : Option Receipt :=
  if reply.ret=.ok∧reply.recorded=none then
    if c.cmdId=cmdIdHead then some (announced c) else r.map fun r => r.add c.payload
  else none

/-- The receiver and the observer. -/
structure Observed where
  /-- The receiver. -/
  state : State
  /-- The transfer under way. -/
  receipt : Option Receipt

/-- A command to the receiver under observation. -/
def step (s : Observed) (c : Command) : Except Empty (Observed×Reply) :=
  match codeyNeuronsFtpParse s.state c with
  | .error e => .error e
  | .ok (t,reply) => .ok (⟨t,next s.receipt c reply⟩,reply)

/-- Both at the start of the program. -/
def Observed.initial : Observed := ⟨.initial,none⟩

/-- The file has the announced size and the announced checksum. -/
def Intact (fp : Fil) (r : Receipt) : Prop :=
  fp.content.length=r.fileSize.toNat∧calcCheckSum fp.content=r.fileCheckSum

/-- The block brings the last bytes that were announced. -/
def BringsLast (r : Receipt) (c : Command) : Prop :=
  c.cmdId=cmdIdBlock∧r.received.length+c.payload.length=r.fileSize.toNat

/-- A name is recorded as that of a received file, and a last block is answered with
OK, only when the file is intact. -/
def Honest (s : Observed) (c : Command) : Prop :=
  ∀ t reply,step s c=.ok (t,reply) →
    (reply.recorded≠none → ∃ r,s.receipt=some r∧Intact t.state.fp r)∧
    ∀ r,s.receipt=some r → BringsLast r c → reply.ret=.ok → Intact t.state.fp r

/-- A block that is taken and with which the count of bytes received is, in 32 bits,
the announced size. -/
def TakesLast (s : Observed) (r : Receipt) (c : Command) : Prop :=
  c.cmdId=cmdIdBlock∧4≤c.cmdLen∧Takes s.state c∧
    (r.received.length+c.payload.length).toUInt32=r.fileSize

/-- With the last block, the last flush writes all that is held, and the checksum of
the bytes received is the announced one. -/
def Sound (s : Observed) (c : Command) : Prop :=
  ∀ r,s.receipt=some r → TakesLast s r c → Ends c.outcome.final
        (r.received.length+c.payload.length-held s.state c.payload)
        (held s.state c.payload)∧
      r.received.length+c.payload.length≤0xFFFFFFFF∧
      calcCheckSum (r.received++c.payload)=r.fileCheckSum

/-- A file that is open belongs to a transfer of which nothing is lost. -/
def Tracks (s : Observed) : Prop :=
  match s.receipt with
  | some r => Holds s.state r
  | none => s.state.fileInfo.isFileOpen=false

/-! ## The replies -/

variable {s : Observed} {c : Command}

/-- A command that ends a transfer, well or with an error. -/
theorem finish_cleared {p : Parsed} (h : p.ret=.err∨p.fileFinish=true) :
    (finish p).1.fileInfo=.initial∧(finish p).1.fp=p.state.fp∧(finish p).2.ret=p.ret∧
      (finish p).2.recorded=
        if p.fileFinish then some (p.state.fileInfo.fileName.getD []) else none := by
  rw [finish,if_pos h]
  refine ⟨rfl,?_,rfl,rfl⟩
  cases p.fileFinish <;> rfl

theorem finish_before (p : Parsed) : (finish p).2.before=p.state := by
  rw [finish]
  split <;> rfl

/-- A command that goes on with a transfer. -/
theorem finish_kept {p : Parsed} (hret : p.ret=.ok) (hfinish : p.fileFinish=false) :
    finish p=(p.state,⟨.ok,none,p.state⟩) := by
  have hgo : ¬(p.ret=.err∨p.fileFinish=true) := by
    rw [hret,hfinish]
    rintro (h | h) <;> cases h
  rw [finish,if_neg hgo,hret]

theorem step_eq (s : Observed) (c : Command) : step s c=.ok (⟨(finish (parseCommand s.state c)).1,
      next s.receipt c (finish (parseCommand s.state c)).2⟩,
        (finish (parseCommand s.state c)).2) := rfl

theorem error_honest (hret : (parseCommand s.state c).ret=.err)
    (hfinish : (parseCommand s.state c).fileFinish=false) : Honest s c := by
  intro t reply hstep
  rw [step_eq] at hstep
  cases hstep
  obtain ⟨_,_,hreply,hrecorded⟩ := finish_cleared (.inl hret)
  rw [hfinish,if_neg Bool.false_ne_true] at hrecorded
  constructor
  · exact fun h => absurd hrecorded h
  · intro r _ _ hok
    rw [hreply,hret] at hok
    cases hok

/-- After an error or a whole file nothing is tracked. -/
theorem cleared_tracks {t : Observed} {reply : Reply} (hstep : step s c=.ok (t,reply))
    (h : (parseCommand s.state c).ret=.err∨(parseCommand s.state c).fileFinish=true) :
    Tracks t := by
  rw [step_eq] at hstep
  cases hstep
  obtain ⟨hinfo,_,hret,hrecorded⟩ := finish_cleared h
  have hnone : next s.receipt c (finish (parseCommand s.state c)).2=none := by
    rw [next,if_neg]
    rintro ⟨hok,hno⟩
    rw [hret] at hok
    rw [hrecorded] at hno
    cases h with
    | inl herr =>
      rw [herr] at hok
      cases hok
    | inr hfinish =>
      rw [hfinish] at hno
      cases hno
  rw [Tracks]
  simp only [hnone,hinfo]
  rfl

/-! ## Headers -/

/-- What a header that is read leaves. -/
theorem readFileHeadInfo_ok (h : (readFileHeadInfo .initial c).2=true) :
    (readFileHeadInfo .initial c).1={FileInfo.initial with
      fileType := c.cmdData.headD 0
      fileSize := (announced c).fileSize
      fileCheckSum := (announced c).fileCheckSum
      fileNameLen := (c.cmdLen-9).toUInt8
      fileName := some ((c.cmdData.drop 9).take (c.cmdLen-9).toUInt8.toNat)} := by
  unfold readFileHeadInfo at h ⊢
  split at h
  case isFalse => cases h
  case isTrue hlen =>
    rw [if_pos hlen]
    split at h
    case isFalse => cases h
    case isTrue hname =>
      rw [if_pos hname]
      rfl

/-- A header that is read, with memory and a file, opens the file. -/
theorem parseHead_opened (s : State)
    (h : (readFileHeadInfo .initial c).2=true) (hbuffer : c.outcome.mallocBuffer=true)
    (hfile : c.outcome.openFile=true) :
    (parseHead s c).ret=.ok∧Holds (parseHead s c).state (announced c)∧
      (parseHead s c).state.fp.content=[] := by
  have hinfo := readFileHeadInfo_ok h
  unfold parseHead openFile
  simp only [h,hbuffer,hfile,and_self,if_true]
  refine ⟨trivial,?_,rfl⟩
  constructor
  · rfl
  · exact congrArg FileInfo.fileSize hinfo
  · exact congrArg FileInfo.fileCheckSum hinfo
  · exact congrArg FileInfo.flashWriteBuf hinfo
  · exact Dvd.intro_left 0 rfl
  · exact (congrArg (UInt32.toNat∘FileInfo.fileWriteIdx) hinfo).symm
  · exact congrArg FileInfo.fileCalcCheckSum hinfo
  · exact (congrArg (List.length∘FileInfo.flashWriteBuf) hinfo).le.trans (Nat.zero_le _)

/-- A header opens a file, or is an error. -/
theorem parseHead_cases (s : State) (c : Command) : ((parseHead s c).ret=.err∨
      (parseHead s c).ret=.ok∧Holds (parseHead s c).state (announced c))∧
        (parseHead s c).fileFinish=false := by
  by_cases hread : (readFileHeadInfo .initial c).2=true∧c.outcome.mallocBuffer=true
  case neg =>
    have herr : parseHead s c=⟨{s with fileInfo := (readFileHeadInfo .initial c).1},.err,false⟩ :=
      if_neg hread
    rw [herr]
    exact ⟨.inl rfl,rfl⟩
  case pos =>
    cases hfile : c.outcome.openFile with
    | false =>
      have herr : parseHead s c=
          ⟨{s with fileInfo := (readFileHeadInfo .initial c).1},.err,false⟩ := by
        unfold parseHead openFile
        simp only [if_pos hread,hfile,Bool.false_eq_true,if_false]
      rw [herr]
      exact ⟨.inl rfl,rfl⟩
    | true =>
      obtain ⟨hret,hholds,_⟩ := parseHead_opened s hread.1 hread.2 hfile
      refine ⟨.inr ⟨hret,hholds⟩,?_⟩
      unfold parseHead openFile
      simp only [if_pos hread,hfile,if_true]

/-! ## Blocks -/

theorem parseBlock_closed {s : State} (h : s.fileInfo.isFileOpen=false) (c : Command) :
    parseBlock s c=⟨s,.err,false⟩ := by
  rw [parseBlock,if_neg]
  rintro ⟨hopen,_⟩
  rw [h] at hopen
  cases hopen

variable {r : Receipt}

/-- A block that is not taken is an error. -/
theorem parseBlock_refused {s : State} (h : Holds s r) (hc : ¬(4≤c.cmdLen∧Takes s c)) :
    (parseBlock s c).ret=.err∧(parseBlock s c).fileFinish=false := by
  rw [parseBlock]
  split
  case isFalse => exact ⟨rfl,rfl⟩
  case isTrue hopen =>
    have hlen : 4≤c.cmdLen := of_decide_eq_true hopen.2
    have herr := takeBlock_refused h fun htakes => hc ⟨hlen,htakes⟩
    have hno : ¬((takeBlock s c).2=.ok∧(takeBlock s c).1.fileInfo.isEof=true) := by
      rintro ⟨hok,_⟩
      rw [herr] at hok
      cases hok
    rw [if_neg hno]
    exact ⟨herr,rfl⟩

/-- A block that is taken is added, and ends the file when the count is reached. -/
theorem parseBlock_taken {s : State} (h : Holds s r) (hlen : 4≤c.cmdLen) (htakes : Takes s c) :
    ∃ t,Holds t (r.add c.payload)∧t.fileInfo.flashWriteBufCnt=held s c.payload∧parseBlock s c=
        if (r.received.length+c.payload.length).toUInt32=r.fileSize then
          endFile t c.outcome.final
        else ⟨t,.ok,false⟩ := by
  obtain ⟨t,htake,hholds,hcnt⟩ := takeBlock_taken h htakes
  have hopen : s.fileInfo.isFileOpen=true∧checkFileBlockLen c.cmdLen=true :=
    ⟨h.isFileOpen,decide_eq_true hlen⟩
  have heof : t.fileInfo.isEof=true↔(r.received.length+c.payload.length).toUInt32=r.fileSize := by
    rw [hholds.isEof_iff,Receipt.length_add]
    rfl
  refine ⟨t,hholds,hcnt,?_⟩
  rw [parseBlock,if_pos hopen,htake]
  simp only [true_and,heof]

/-! ## Steps -/

theorem tracks_some {t : Observed} (hr : t.receipt=some r) (h : Holds t.state r) : Tracks t := by
  rw [Tracks,hr]
  exact h

/-- The observer's view of a block that is not the last. -/
theorem next_block (hr : s.receipt=some r) (hblock : c.cmdId=cmdIdBlock)
    (t : State) : next s.receipt c ⟨.ok,none,t⟩=some (r.add c.payload) := by
  have hnot : c.cmdId≠cmdIdHead := by
    rw [hblock]
    decide
  rw [next,if_pos ⟨rfl,rfl⟩,if_neg hnot,hr]
  rfl

/-- Every command keeps track. -/
theorem step_tracks (s : Observed) (c : Command) (t : Observed) (reply : Reply)
    (h : Tracks s) (hstep : step s c=.ok (t,reply)) : Tracks t := by
  by_cases hend : (parseCommand s.state c).ret=.err∨(parseCommand s.state c).fileFinish=true
  case pos => exact cleared_tracks hstep hend
  case neg =>
    have hret : (parseCommand s.state c).ret=.ok := by
      cases hp : (parseCommand s.state c).ret with
      | ok => rfl
      | err => exact absurd (.inl hp) hend
    have hfinish : (parseCommand s.state c).fileFinish=false :=
      Bool.eq_false_iff.mpr fun hp => hend (.inr hp)
    rw [step_eq,finish_kept hret hfinish] at hstep
    cases hstep
    by_cases hhead : c.cmdId=cmdIdHead
    case pos =>
      have hparse : parseCommand s.state c=parseHead s.state c := if_pos hhead
      have hnext : next s.receipt c ⟨.ok,none,(parseCommand s.state c).state⟩=
          some (announced c) := by
        rw [next,if_pos ⟨rfl,rfl⟩,if_pos hhead]
      rw [hparse] at hret
      have hholds : Holds (parseHead s.state c).state (announced c) := by
        cases (parseHead_cases s.state c).1 with
        | inl herr =>
          rw [hret] at herr
          cases herr
        | inr hopened => exact hopened.2
      exact tracks_some hnext (hparse▸hholds)
    case neg =>
      by_cases hblock : c.cmdId=cmdIdBlock
      case neg =>
        -- all other commands are errors
        rw [parseCommand,if_neg hhead,if_neg hblock] at hret
        cases hret
      case pos =>
        have hparse : parseCommand s.state c=parseBlock s.state c := by
          rw [parseCommand,if_neg hhead,if_pos hblock]
        rw [hparse] at hret hfinish
        cases hr : s.receipt with
        | none =>
          rw [Tracks,hr] at h
          rw [parseBlock_closed h c] at hret
          cases hret
        | some r =>
          rw [Tracks,hr] at h
          by_cases htaken : 4≤c.cmdLen∧Takes s.state c
          case neg =>
            rw [(parseBlock_refused h htaken).1] at hret
            cases hret
          case pos =>
            obtain ⟨t,hholds,_,hblockEq⟩ := parseBlock_taken h htaken.1 htaken.2
            have hmore : ¬(r.received.length+c.payload.length).toUInt32=r.fileSize := by
              intro hlast
              rw [hblockEq,if_pos hlast,endFile_fileFinish] at hfinish
              cases hfinish
            rw [if_neg hmore] at hblockEq
            have hnext := next_block hr hblock (parseCommand s.state c).state
            rw [hr] at hnext
            have hstate : (parseCommand s.state c).state=t := by rw [hparse,hblockEq]
            exact tracks_some hnext (hstate.symm▸hholds)

theorem quiet_honest (hret : (parseCommand s.state c).ret=.ok)
    (hfinish : (parseCommand s.state c).fileFinish=false)
    (hmore : ∀ r,s.receipt=some r → ¬BringsLast r c) : Honest s c := by
  intro t reply hstep
  rw [step_eq,finish_kept hret hfinish] at hstep
  cases hstep
  exact ⟨fun h => absurd rfl h,fun r hr hlast _ => absurd hlast (hmore r hr)⟩

/-- At the end of a file, honesty is that the file is intact. -/
theorem endFile_honest (hr : s.receipt=some r) {t : State} {o : FlashOutcome}
    (hparse : parseCommand s.state c=endFile t o) : Honest s c↔Intact (endFile t o).state.fp r := by
  have hend : (parseCommand s.state c).fileFinish=true := by
    rw [hparse,endFile_fileFinish]
  obtain ⟨_,hfp,_,hrecorded⟩ := finish_cleared (.inr hend)
  rw [hparse] at hfp
  constructor
  · intro h
    obtain ⟨hfile,_⟩ := h _ _ (step_eq s c)
    rw [hrecorded,hend] at hfile
    obtain ⟨r',hr',hintact⟩ := hfile (fun h => by cases h)
    rw [hr] at hr'
    cases hr'
    rw [←hfp,←hparse]
    exact hintact
  · intro hintact t' reply hstep
    rw [step_eq] at hstep
    cases hstep
    rw [hparse,hfp]
    refine ⟨fun _ => ⟨r,hr,hintact⟩,fun r' hr' _ _ => ?_⟩
    rw [hr] at hr'
    cases hr'
    exact hintact

/-- The file is intact when the last flush writes everything and the bytes received
have the announced checksum. -/
theorem endFile_intact_iff {t : State} {r : Receipt} (h : Holds t r) {o : FlashOutcome}
    (hlast : r.received.length.toUInt32=r.fileSize) :
    Intact (endFile t o).state.fp r↔Ends o t.fp.content.length t.fileInfo.flashWriteBufCnt∧
        r.received.length≤0xFFFFFFFF∧calcCheckSum r.received=r.fileCheckSum := by
  have hsize : r.fileSize.toNat=r.received.length%2^32 := by
    rw [←hlast]
    exact UInt32.toNat_ofNat'
  have hcount := h.length_eq
  have hbounded := h.bounded
  unfold flashFileWriteBuffer at hbounded
  rw [Intact,hsize]
  by_cases ho : Ends o t.fp.content.length t.fileInfo.flashWriteBufCnt
  case pos =>
    rw [(endFile_written h ho).1]
    constructor
    · rintro ⟨hlength,hsum⟩
      exact ⟨ho,by omega,hsum⟩
    · rintro ⟨_,hroom,hsum⟩
      exact ⟨by omega,hsum⟩
  case neg =>
    obtain ⟨hgrows,hshort⟩ := endFile_unwritten h ho
    constructor
    · rintro ⟨hlength,_⟩
      omega
    · exact fun hall => absurd hall.1 ho

/-- At a state that is tracked, the receiver is honest about a command exactly when
the command is sound. -/
theorem honest_iff_sound (s : Observed) (c : Command) (h : Tracks s) : Honest s c↔Sound s c := by
  by_cases hblock : c.cmdId=cmdIdBlock
  case neg =>
    have hsound : Sound s c := fun r _ hlast => absurd hlast.1 hblock
    refine iff_of_true ?_ hsound
    by_cases hhead : c.cmdId=cmdIdHead
    case neg =>
      have hparse : parseCommand s.state c=⟨s.state,.err,false⟩ := by
        rw [parseCommand,if_neg hhead,if_neg hblock]
      exact error_honest (by rw [hparse]) (by rw [hparse])
    case pos =>
      have hparse : parseCommand s.state c=parseHead s.state c := if_pos hhead
      obtain ⟨hret,hfinish⟩ := parseHead_cases s.state c
      rw [←hparse] at hret hfinish
      cases hret with
      | inl herr => exact error_honest herr hfinish
      | inr hok => exact quiet_honest hok.1 hfinish fun r _ hlast => hblock hlast.1
  case pos =>
    have hnot : c.cmdId≠cmdIdHead := by
      rw [hblock]
      decide
    have hparse : parseCommand s.state c=parseBlock s.state c := by
      rw [parseCommand,if_neg hnot,if_pos hblock]
    cases hr : s.receipt with
    | none =>
      rw [Tracks,hr] at h
      have hclosed := parseBlock_closed h c
      rw [←hparse] at hclosed
      refine iff_of_true (error_honest (by rw [hclosed]) (by rw [hclosed])) ?_
      intro r hr'
      rw [hr] at hr'
      cases hr'
    | some r =>
      rw [Tracks,hr] at h
      by_cases htaken : 4≤c.cmdLen∧Takes s.state c
      case neg =>
        obtain ⟨hret,hfinish⟩ := parseBlock_refused h htaken
        rw [←hparse] at hret hfinish
        refine iff_of_true (error_honest hret hfinish) ?_
        exact fun r _ hlast => absurd ⟨hlast.2.1,hlast.2.2.1⟩ htaken
      case pos =>
        obtain ⟨t,hholds,hcnt,hcase⟩ := parseBlock_taken h htaken.1 htaken.2
        have hsound : Sound s c↔((r.received.length+c.payload.length).toUInt32=r.fileSize →
              Ends c.outcome.final (r.received.length+c.payload.length-held s.state c.payload)
                  (held s.state c.payload)∧
                r.received.length+c.payload.length≤0xFFFFFFFF∧
                calcCheckSum (r.received++c.payload)=r.fileCheckSum) := by
          constructor
          · exact fun hall hlast => hall r hr ⟨hblock,htaken.1,htaken.2,hlast⟩
          · intro hall r' hr' hlast
            rw [hr] at hr'
            cases hr'
            exact hall hlast.2.2.2
        by_cases hlast : (r.received.length+c.payload.length).toUInt32=r.fileSize
        case neg =>
          rw [if_neg hlast,←hparse] at hcase
          refine iff_of_true ?_ (hsound.mpr fun hyes => absurd hyes hlast)
          refine quiet_honest (by rw [hcase]) (by rw [hcase]) fun r' hr' hbrings => ?_
          rw [hr] at hr'
          cases hr'
          refine hlast (UInt32.toNat_inj.mp ?_)
          rw [hbrings.2]
          exact congrArg UInt32.toNat (UInt32.ofNat_toNat)
        case pos =>
          rw [if_pos hlast,←hparse] at hcase
          have hlast' : (r.add c.payload).received.length.toUInt32=(r.add c.payload).fileSize := by
            rw [Receipt.length_add]
            exact hlast
          have hwritten : t.fp.content.length=
              r.received.length+c.payload.length-held s.state c.payload := by
            have hcount := hholds.length_eq
            rw [Receipt.length_add] at hcount
            rw [←hcnt]
            show _=_-t.fileInfo.flashWriteBuf.length
            omega
          have hiff := @endFile_intact_iff t _ hholds c.outcome.final hlast'
          rw [hcnt,hwritten] at hiff
          rw [hsound,endFile_honest hr hcase]
          refine Iff.trans ?_ (Iff.trans hiff ?_)
          · exact Iff.rfl
          · rw [Receipt.length_add]
            exact ⟨fun hall _ => hall,fun hall => hall hlast⟩

/-- In every sequence of commands, the receiver is honest about all of them exactly
when they are all sound. -/
theorem honest_iff (commands : List Command) : Throughout step Honest Observed.initial commands↔
      Throughout step Sound Observed.initial commands :=
  throughout_congr (fun s c t reply h _ => step_tracks s c t reply h) honest_iff_sound commands rfl

/-- A file system that does what it is asked. -/
def works : FlashOutcome := ⟨true,[flashFileWriteBuffer]⟩

/-- A header for five bytes in `/a`. -/
def fiveBytes : Command where
  cmdId := cmdIdHead
  cmdData := [0,5,0,0,0,4,2,3,4,0x2F,0x61]
  cmdLen_lt := by decide
  outcome := ⟨true,true,true,works,works⟩

/-- The five bytes, when the semaphore is not free for the last flush. -/
def unwritten : Command where
  cmdId := cmdIdBlock
  cmdData := [0,0,0,0,1,2,3,4,5]
  cmdLen_lt := by decide
  outcome := ⟨true,true,true,works,⟨false,[]⟩⟩

/-- Nothing of the five bytes is written, and the file is recorded. -/
theorem unwritten_recorded : ¬∀ commands,Throughout step Honest Observed.initial commands := by
  intro h
  obtain ⟨_,hrest⟩ := h [fiveBytes,unwritten]
  obtain ⟨hblock,_⟩ := hrest _ _ rfl
  obtain ⟨hfile,_⟩ := hblock _ _ rfl
  obtain ⟨r,hr,hlength,_⟩ := hfile (by decide)
  cases hr
  exact absurd hlength (by decide)

end MicroPython.FtpIntegrity
