import MicroPython.InputMachine
import MicroPython.Unicode

/-!
# The websocket

A websocket reads frames from a socket that delivers bytes in chunks of any sizes and may
have none. The reader keeps its place in a frame between the calls. It gives the payloads
of the data frames and swallows control frames, but gives a part of the payload of a
control frame when the socket does not deliver that payload at once.
-/

namespace MicroPython.Websocket

open UInt8 List InputMachine Unicode

/-- What is read next. -/
inductive FrameState
  /-- The two bytes that begin a frame. -/
  | frameHeader
  /-- The length and the mask after them. -/
  | frameOpt
  | payload
  | control
deriving DecidableEq

/-- `FRAME_OPCODE_MASK`. -/
def frameOpcodeMask : UInt8 := 0x0f

/-- `FRAME_CONT`. -/
def frameCont : UInt8 := 0

/-- `FRAME_TXT`. -/
def frameTxt : UInt8 := 1

/-- `FRAME_BIN`. -/
def frameBin : UInt8 := 2

/-- `FRAME_CLOSE`, from which on the frames are control frames. -/
def frameClose : UInt8 := 8

/-- `BLOCKING_WRITE`. -/
def blockingWrite : UInt8 := 0x80

/-- A websocket. The bytes of `buf` are those before `buf_pos`. -/
structure WebSocket where
  /-- What is left of the payload. -/
  msgSz : ℕ
  mask : List UInt8
  /-- What is read next. -/
  state : FrameState
  /-- How many bytes are to be received before the next step. -/
  toRecv : ℕ
  maskPos : ℕ
  /-- What has been received for the next step. -/
  buf : List UInt8
  /-- The options of what is written. -/
  opts : UInt8
  /-- The flags of the last frame. -/
  wsFlags : UInt8
  /-- The flags of the current frame. -/
  lastFlags : UInt8
  /-- What has been handed to the socket. -/
  sent : List UInt8
deriving DecidableEq

/-- A new websocket in memory that holds anything. -/
def websocketMakeNew (memory : WebSocket) (blocking : Bool) : WebSocket :=
  {memory with
    state := .frameHeader
    toRecv := 2
    maskPos := 0
    buf := []
    opts := if blocking then frameTxt|||blockingWrite else frameTxt
    sent := []}

/-- What the socket answers when it is read. -/
inductive Answer
  | wouldBlock
  | eof
  | bytes (bs : List UInt8)
deriving DecidableEq

/-- What is not a return. -/
inductive Fault
  /-- The socket gave no byte or more bytes than it was asked for. -/
  | socket
  | assertion
deriving DecidableEq

/-- What a read returns. -/
inductive Result
  | data (bs : List UInt8)
  | eof
  | again
deriving DecidableEq

/-- What reading from the socket gives. -/
inductive Received
  | bytes (bs : List UInt8)
  | nothing (r : Result)
deriving DecidableEq

/-- The socket is read for at most `n` bytes. -/
def streamRead (n : ℕ) : List Answer→Except Fault (Received×List Answer)
  | [] => .ok (.nothing .again,[])
  | .wouldBlock::answers => .ok (.nothing .again,answers)
  | .eof::answers => .ok (.nothing .eof,answers)
  | .bytes bs::answers =>
    if bs=[]∨n<bs.length then .error .socket else .ok (.bytes bs,answers)

/-- What comes of a part of the loop. -/
inductive Turn
  | goesOn (self : WebSocket) (answers : List Answer)
  | returns (self : WebSocket) (answers : List Answer) (r : Result)

/-- The bytes that are still to be received. -/
def receive (self : WebSocket) (answers : List Answer) : Except Fault Turn :=
  if self.toRecv=0 then .ok (.goesOn self answers)
  else
    match streamRead self.toRecv answers with
    | .error e => .error e
    | .ok (.nothing r,answers) => .ok (.returns self answers r)
    | .ok (.bytes bs,answers) =>
      let self := {self with
        buf := self.buf++bs
        toRecv := self.toRecv-bs.length}
      if self.toRecv=0 then .ok (.goesOn self answers) else .ok (.returns self answers .again)

/-- The state for the payload of a frame with flags. -/
def payloadState (flags : UInt8) : FrameState :=
  if frameClose≤flags&&&frameOpcodeMask then .control else .payload

/-- The two bytes that begin a frame. -/
def frameHeader (self : WebSocket) : Except Fault WebSocket :=
  let flags := self.buf.getD 0 0
  let length := self.buf.getD 1 0
  if flags&&&0x80=0 then .error .assertion
  else
    let sz := (length&&&0x7f).toNat
    if sz=127 then .error .assertion
    else
      let toRecv := (if sz=126 then 2 else 0)+if length&&&0x80=0 then 0 else 4
      .ok {self with
        lastFlags := flags
        wsFlags :=
          if flags&&&frameOpcodeMask=frameCont then
            self.wsFlags&&&frameOpcodeMask|||flags&&&~~~frameOpcodeMask
          else flags
        mask := [0,0,0,0]
        buf := []
        toRecv := toRecv
        msgSz := sz
        state := if toRecv=0 then payloadState flags else .frameOpt}

/-- The length and the mask after them. -/
def frameOpt (self : WebSocket) : WebSocket :=
  {self with
    msgSz :=
      if self.buf.length%4=2 then (self.buf.getD 0 0).toNat*256+(self.buf.getD 1 0).toNat
      else self.msgSz
    mask := if 4 ≤ self.buf.length then self.buf.drop (self.buf.length-4) else self.mask
    buf := []
    state := payloadState self.lastFlags}

/-- Bytes with the mask from a position on. -/
def applyMask (mask : List UInt8) : ℕ→List UInt8→List UInt8
  | _,[] => []
  | pos,b::bs => (b^^^mask.getD (pos%4) 0)::applyMask mask (pos+1) bs

/-- The header of a frame of some size with the opcode of the options. -/
def writeHeader (opts : UInt8) (size : ℕ) : List UInt8 :=
  let flags := 0x80|||opts&&&frameOpcodeMask
  if size<126 then [flags,UInt8.ofNat size]
  else [flags,126,UInt8.ofNat (size/256),UInt8.ofNat (size%256)]

/-- A write: the header and the bytes are handed to the socket. -/
def websocketWrite (self : WebSocket) (buf : List UInt8) : Except Fault WebSocket :=
  if buf.length<0x10000 then
    .ok {self with sent := self.sent++writeHeader self.opts buf.length++buf}
  else .error .assertion

/-- The options of what is written. -/
def websocketSetDataOpts (self : WebSocket) (arg : UInt8) : WebSocket :=
  {self with opts := self.opts&&&~~~frameOpcodeMask|||arg&&&frameOpcodeMask}

/-- The type of the last frame. -/
def websocketGetDataOpts (self : WebSocket) : UInt8 := self.wsFlags&&&frameOpcodeMask

/-- The end of a frame, of which the last bytes have just been read. -/
def endFrame (self : WebSocket) (out : List UInt8) (answers : List Answer) : Except Fault Turn :=
  let lastState := self.state
  let self := {self with
    state := .frameHeader
    toRecv := 2
    maskPos := 0
    buf := []}
  if lastState=.control then
    if self.lastFlags&&&frameOpcodeMask=frameClose then
      (websocketWrite self [0x88,0]).map fun self => .returns self answers .eof
    else .ok (.goesOn self answers)
  else if out=[] then .ok (.goesOn self answers)
  else .ok (.returns self answers (.data out))

/-- A part of the payload, at most as long as the buffer. -/
def readPayload (self : WebSocket) (size : ℕ) (answers : List Answer) : Except Fault Turn :=
  if self.msgSz=0 then endFrame self [] answers
  else
    match streamRead (min size self.msgSz) answers with
    | .error e => .error e
    | .ok (.nothing r,answers) => .ok (.returns self answers r)
    | .ok (.bytes bs,answers) =>
      let out := applyMask self.mask self.maskPos bs
      let self := {self with
        maskPos := (self.maskPos+bs.length)%256
        msgSz := self.msgSz-bs.length}
      if self.msgSz=0 then endFrame self out answers
      else .ok (.returns self answers (.data out))

/-- What is done in a state, when all its bytes have been received. -/
def act (self : WebSocket) (size : ℕ) (answers : List Answer) : Except Fault Turn :=
  match self.state with
  | .frameHeader => (frameHeader self).map fun self => .goesOn self answers
  | .frameOpt => .ok (.goesOn (frameOpt self) answers)
  | .payload => readPayload self size answers
  | .control => readPayload self size answers

/-- The body of the loop. -/
def turn (self : WebSocket) (size : ℕ) (answers : List Answer) : Except Fault Turn :=
  match receive self answers with
  | .error e => .error e
  | .ok (.returns self answers r) => .ok (.returns self answers r)
  | .ok (.goesOn self answers) => act self size answers

/-! ## The loop ends -/

/-- How many turns a state is before the next read of the socket. -/
def FrameState.turns : FrameState→ℕ
  | .frameHeader => 3
  | .frameOpt => 2
  | .payload => 1
  | .control => 1

/-- How many turns are left before the socket is read. -/
def rank (self : WebSocket) : ℕ := if self.toRecv=0 then self.state.turns else 0

theorem rank_le (self : WebSocket) : rank self≤3 := by
  rw [rank,FrameState.turns.eq_def]
  split
  · split <;> omega
  · omega

/-- Reading from the socket takes an answer. -/
theorem streamRead_length {n : ℕ} {answers rest : List Answer} {bs : List UInt8}
    (h : streamRead n answers=.ok (.bytes bs,rest)) : rest.length<answers.length := by
  cases answers with
  | nil => cases h
  | cons a answers =>
    cases a with
    | wouldBlock => cases h
    | eof => cases h
    | bytes bs' =>
      rw [streamRead] at h
      split at h
      · cases h
      · cases h
        exact Nat.lt_succ_self _

/-- Receiving changes nothing when nothing is to be received, and takes an answer
otherwise. -/
theorem receive_goesOn {self self' : WebSocket} {answers rest : List Answer}
    (h : receive self answers=.ok (.goesOn self' rest)) :
    self.toRecv=0∧self'=self∧rest=answers∨rest.length<answers.length := by
  rw [receive] at h
  split at h
  case isTrue h0 =>
    cases h
    exact .inl ⟨h0,rfl,rfl⟩
  case isFalse h0 =>
    split at h
    · cases h
    · cases h
    case h_3 bs answers' hread =>
      dsimp only at h
      split at h
      · cases h
        exact .inr (streamRead_length hread)
      · cases h

/-- The end of a frame begins the next one. -/
theorem endFrame_goesOn {self self' : WebSocket} {out : List UInt8} {answers rest : List Answer}
    (h : endFrame self out answers=.ok (.goesOn self' rest)) : rank self'=0∧rest=answers := by
  rw [endFrame] at h
  split at h
  · split at h
    · rw [websocketWrite] at h
      split at h <;> cases h
    · cases h
      exact ⟨rfl,rfl⟩
  · split at h
    · cases h
      exact ⟨rfl,rfl⟩
    · cases h

/-- A payload that comes next is read in the next turn. -/
theorem rank_of_payloadState {self : WebSocket} {flags : UInt8}
    (h : self.state=payloadState flags) : rank self≤1 := by
  rw [rank,h,payloadState]
  split
  · split
    · exact Nat.le_refl 1
    · exact Nat.le_refl 1
  · exact Nat.zero_le 1

/-- What comes after the two bytes that begin a frame. -/
theorem frameHeader_next {self self' : WebSocket} (h : frameHeader self=.ok self') :
    self'.state=payloadState (self.buf.getD 0 0)∨self'.toRecv≠0 := by
  rw [frameHeader] at h
  dsimp only at h
  split at h
  · cases h
  · split at h
    · cases h
    · cases h
      exact or_iff_not_imp_right.mpr fun hrecv => if_pos (Decidable.not_not.mp hrecv)

/-- Reading a payload takes an answer or ends a frame. -/
theorem readPayload_goesOn {self self' : WebSocket} {size : ℕ} {answers rest : List Answer}
    (h : readPayload self size answers=.ok (.goesOn self' rest)) :
    rank self'=0∧rest=answers∨rest.length<answers.length := by
  rw [readPayload] at h
  split at h
  · exact .inl (endFrame_goesOn h)
  · split at h
    · cases h
    · cases h
    case h_3 bs answers' hread =>
      dsimp only at h
      split at h
      · rw [(endFrame_goesOn h).2]
        exact .inr (streamRead_length hread)
      · cases h

/-- What is done in a state takes an answer or brings the next read of the socket nearer. -/
theorem act_goesOn {self self' : WebSocket} {size : ℕ} {answers rest : List Answer}
    (h0 : self.toRecv=0) (h : act self size answers=.ok (.goesOn self' rest)) :
    rank self' < rank self∧rest=answers∨rest.length<answers.length := by
  have hrank : rank self=self.state.turns := by
    rw [rank,if_pos h0]
  rw [act] at h
  split at h
  case h_1 hstate =>
    rw [hstate,FrameState.turns] at hrank
    cases hheader : frameHeader self with
    | error e =>
      rw [hheader] at h
      cases h
    | ok self₁ =>
      rw [hheader] at h
      cases h
      refine .inl ⟨?_,rfl⟩
      cases frameHeader_next hheader with
      | inl hnext =>
        have hle := rank_of_payloadState hnext
        omega
      | inr hrecv =>
        have hzero : rank self'=0 := by rw [rank,if_neg hrecv]
        omega
  case h_2 hstate =>
    rw [hstate,FrameState.turns] at hrank
    cases h
    have hle : rank (frameOpt self)≤1 := rank_of_payloadState rfl
    exact .inl ⟨by omega,rfl⟩
  case h_3 hstate =>
    rw [hstate,FrameState.turns] at hrank
    exact (readPayload_goesOn h).imp_left fun hnext => ⟨by omega,hnext.2⟩
  case h_4 hstate =>
    rw [hstate,FrameState.turns] at hrank
    exact (readPayload_goesOn h).imp_left fun hnext => ⟨by omega,hnext.2⟩

/-- What has been received leaves nothing to receive. -/
theorem receive_toRecv {self self' : WebSocket} {answers rest : List Answer}
    (h : receive self answers=.ok (.goesOn self' rest)) : self'.toRecv=0 := by
  rw [receive] at h
  split at h
  case isTrue h0 =>
    cases h
    exact h0
  case isFalse =>
    split at h
    · cases h
    · cases h
    · dsimp only at h
      split at h
      case isTrue h0 =>
        cases h
        exact h0
      case isFalse => cases h

/-- The loop goes on nearer to the next read of the socket. -/
theorem turn_goesOn {self self' : WebSocket} {size : ℕ} {answers rest : List Answer}
    (h : turn self size answers=.ok (.goesOn self' rest)) :
    4*rest.length+rank self'<4*answers.length+rank self := by
  have hrank' := rank_le self'
  rw [turn] at h
  split at h
  · cases h
  · cases h
  case h_3 self₁ answers₁ hreceive =>
    have hact := act_goesOn (receive_toRecv hreceive) h
    rcases receive_goesOn hreceive with ⟨h0,rfl,rfl⟩ | hlt
    · rcases hact with ⟨hrank,rfl⟩ | hlt
      · omega
      · omega
    · rcases hact with ⟨hrank,rfl⟩ | hlt'
      · omega
      · omega

/-- A read of at most `size` bytes. -/
def websocketRead (self : WebSocket) (size : ℕ) (answers : List Answer) :
    Except Fault (WebSocket×List Answer×Result) :=
  match _h : turn self size answers with
  | .error e => .error e
  | .ok (.returns self answers r) => .ok (self,answers,r)
  | .ok (.goesOn self answers) => websocketRead self size answers
termination_by 4*answers.length+rank self
decreasing_by exact turn_goesOn ‹_›

/-- A read, after which the type of the last frame is asked for. -/
def step (s : WebSocket×List Answer) (size : ℕ) :
    Except Fault ((WebSocket×List Answer)×(Result×UInt8)) :=
  match websocketRead s.1 size s.2 with
  | .error e => .error e
  | .ok (self,answers,r) => .ok ((self,answers),r,websocketGetDataOpts self)

/-! ## The frames on the wire -/

/-- An unfragmented frame that is not a close frame. -/
structure Frame where
  opcode : UInt8
  mask : Option (List UInt8)
  /-- The payload before it is masked. -/
  payload : List UInt8
  /-- The type begins a message and does not end the connection. -/
  opcode_ok : opcode<16∧opcode≠frameCont∧opcode≠frameClose
  /-- A mask has four bytes. -/
  mask_ok : ∀ m,mask=some m → m.length=4
  payload_ok : payload.length<65536

/-- The frame is a control frame. -/
def isControl (opcode : UInt8) : Prop := frameClose≤opcode

instance (opcode : UInt8) : Decidable (isControl opcode) :=
  inferInstanceAs (Decidable (_≤_))

/-- What a byte on the wire is. -/
inductive Mark
  /-- A byte of a header, or the first one of the payload of a control frame. -/
  | skip
  /-- A byte of the payload of a data frame with its type. -/
  | data (b opcode : UInt8)
  /-- A later byte of the payload of a control frame. -/
  | inside
deriving DecidableEq

/-- The first byte of a frame. -/
def Frame.flags (f : Frame) : UInt8 := 0x80|||f.opcode

/-- The length in the second byte of a frame. -/
def Frame.shortLength (f : Frame) : ℕ := if f.payload.length<126 then f.payload.length else 126

/-- The two bytes that begin a frame. -/
def Frame.header (f : Frame) : List UInt8 :=
  [f.flags,(if f.mask.isSome then 0x80 else 0)|||UInt8.ofNat f.shortLength]

/-- The length and the mask after them. -/
def Frame.opt (f : Frame) : List UInt8 :=
  (if f.payload.length<126 then []
    else [UInt8.ofNat (f.payload.length/256),UInt8.ofNat (f.payload.length%256)])++
    f.mask.getD []

/-- The mask, which does nothing when there is none. -/
def Frame.key (f : Frame) : List UInt8 := f.mask.getD [0,0,0,0]

/-- A payload from a position on, with its mask. -/
def payloadWire (opcode : UInt8) (mask : List UInt8) : ℕ→List UInt8→List (UInt8×Mark)
  | _,[] => []
  | pos,b::bs =>
    (b^^^mask.getD (pos%4) 0,
      if isControl opcode then if pos=0 then .skip else .inside else .data b opcode)::
      payloadWire opcode mask (pos+1) bs

/-- Bytes of a header on the wire. -/
def skipped (bs : List UInt8) : List (UInt8×Mark) := bs.map fun b => (b,.skip)

/-- A frame on the wire. -/
def Frame.wire (f : Frame) : List (UInt8×Mark) :=
  skipped f.header++(skipped f.opt++payloadWire f.opcode f.key 0 f.payload)

/-- Frames on the wire. -/
def wire (fs : List Frame) : List (UInt8×Mark) := fs.flatMap Frame.wire

/-- The data among what is on the wire, each byte with the type of its frame. -/
def contents (bytes : List (UInt8×Mark)) : List (UInt8×UInt8) :=
  bytes.filterMap fun b =>
    match b.2 with
    | .data b opcode => some (b,opcode)
    | _ => none

/-- The payload of a data frame, each byte with the type of the frame. -/
def Frame.contents (f : Frame) : List (UInt8×UInt8) :=
  if isControl f.opcode then [] else f.payload.map fun b => (b,f.opcode)

/-- What the reads have returned, each byte with the type that was reported. -/
def returned (outs : List (Result×UInt8)) : List (UInt8×UInt8) :=
  outs.flatMap fun out =>
    match out.1 with
    | .data bs => bs.map fun b => (b,out.2)
    | _ => []

/-- What the socket delivers. -/
def delivered (answers : List Answer) : List UInt8 :=
  answers.flatMap fun
    | .bytes bs => bs
    | _ => []

/-- What comes next is not inside the payload of a control frame. -/
def Outside (bytes : List (UInt8×Mark)) : Prop := ∀ b,bytes.head?=some b → b.2≠.inside

/-- The socket delivers what is on the wire, and nothing that it delivers ends inside the
payload of a control frame. -/
inductive Delivers : List (UInt8×Mark)→List Answer→Prop
  | nil (bytes : List (UInt8×Mark)) : Delivers bytes []
  | wouldBlock {bytes : List (UInt8×Mark)} {answers : List Answer} :
      Delivers bytes answers → Delivers bytes (.wouldBlock::answers)
  | eof {bytes : List (UInt8×Mark)} {answers : List Answer} :
      Delivers bytes answers → Delivers bytes (.eof::answers)
  | bytes (now : List (UInt8×Mark)) {bytes : List (UInt8×Mark)} {answers : List Answer} :
      Outside bytes → Delivers bytes answers →
      Delivers (now++bytes) (.bytes (now.map Prod.fst)::answers)

/-! ## Bytes of a header -/

theorem flags_facts {opcode : UInt8} (h : opcode<16) :
    (0x80|||opcode)&&&0x80≠0∧(0x80|||opcode)&&&frameOpcodeMask=opcode := by
  revert h
  exact forall_byte (p:=fun opcode => opcode<16 →
    (0x80|||opcode)&&&0x80≠0∧(0x80|||opcode)&&&frameOpcodeMask=opcode) (by decide +kernel) opcode

/-- The second byte of a frame holds the short length and whether there is a mask. -/
theorem length_facts {n : ℕ} (h : n<127) (masked : Bool) :
    let b := (if masked then 0x80 else 0)|||UInt8.ofNat n
    (b&&&0x7f).toNat=n∧(b&&&0x80=0↔masked=false) := by
  have hall : ∀ (n : Fin 127) (masked : Bool),
      let b := (if masked then 0x80 else 0)|||UInt8.ofNat n
      (b&&&0x7f).toNat=n∧(b&&&0x80=0↔masked=false) := by decide +kernel
  exact hall ⟨n,h⟩ masked

theorem length_bytes {n : ℕ} (h : n<65536) :
    (UInt8.ofNat (n/256)).toNat*256+(UInt8.ofNat (n%256)).toNat=n := by
  rw [toNat_ofNat',toNat_ofNat']
  omega

/-! ## Payloads -/

variable {opcode : UInt8} {mask : List UInt8}

/-- A payload in two parts. -/
theorem payloadWire_append (pos : ℕ) (xs ys : List UInt8) : payloadWire opcode mask pos (xs++ys)=
      payloadWire opcode mask pos xs++payloadWire opcode mask (pos+xs.length) ys := by
  induction xs generalizing pos with
  | nil => rfl
  | cons x xs ih =>
    rw [cons_append,payloadWire,payloadWire,ih,cons_append,length_cons]
    have hpos : pos+1+xs.length=pos+(xs.length+1) := by omega
    rw [hpos]

theorem length_payloadWire (pos : ℕ) (bs : List UInt8) :
    (payloadWire opcode mask pos bs).length=bs.length := by
  induction bs generalizing pos with
  | nil => rfl
  | cons b bs ih => rw [payloadWire,length_cons,length_cons,ih]

/-- The mask takes itself away. -/
theorem applyMask_payloadWire {pos pos' : ℕ} (h : pos%4=pos'%4) (bs : List UInt8) :
    applyMask mask pos' ((payloadWire opcode mask pos bs).map Prod.fst)=bs := by
  induction bs generalizing pos pos' with
  | nil => rfl
  | cons b bs ih =>
    rw [payloadWire,map_cons,applyMask,ih (by omega),h,UInt8.xor_assoc,UInt8.xor_self,
      UInt8.xor_zero]

theorem contents_payloadWire_data (h : ¬isControl opcode) (pos : ℕ) (bs : List UInt8) :
    contents (payloadWire opcode mask pos bs)=bs.map fun b => (b,opcode) := by
  induction bs generalizing pos with
  | nil => rfl
  | cons b bs ih =>
    rw [payloadWire,if_neg h,map_cons,←ih]
    rfl

/-- A control frame has no data. -/
theorem contents_payloadWire_control (h : isControl opcode) (pos : ℕ) (bs : List UInt8) :
    contents (payloadWire opcode mask pos bs)=[] := by
  induction bs generalizing pos with
  | nil => rfl
  | cons b bs ih =>
    rw [payloadWire,if_pos h,←ih (pos+1)]
    split <;> rfl

/-- Headers have no data. -/
theorem contents_skipped (bs : List UInt8) : contents (skipped bs)=[] := by
  induction bs with
  | nil => rfl
  | cons b bs ih =>
    rw [←ih]
    rfl

/-- The data of two parts. -/
theorem contents_append (xs ys : List (UInt8×Mark)) :
    contents (xs++ys)=contents xs++contents ys := filterMap_append

variable (f : Frame) (fs : List Frame)

/-- The data of a frame. -/
theorem contents_wire : Websocket.contents f.wire=f.contents := by
  rw [Frame.wire,contents_append,contents_append,contents_skipped,contents_skipped,Frame.contents]
  split
  case isTrue h => exact contents_payloadWire_control h _ _
  case isFalse h => exact contents_payloadWire_data h _ _

theorem contents_wires :
    Websocket.contents (wire fs)=fs.flatMap Frame.contents := by
  induction fs with
  | nil => rfl
  | cons f fs ih =>
    rw [wire,flatMap_cons,contents_append,contents_wire,flatMap_cons]
    exact congrArg _ ih

/-! ## The socket -/

/-- Reading from the socket takes from what is on the wire. -/
theorem streamRead_cases {n : ℕ} {rest : List (UInt8×Mark)} {answers : List Answer}
    (h : Delivers rest answers) : streamRead n answers=.error .socket∨
    (∃ r left,streamRead n answers=.ok (.nothing r,left)∧(r=.again∨r=.eof)∧
      delivered answers=delivered left∧Delivers rest left∧
      (left.length<answers.length∨left=[]))∨
    ∃ now todo left,streamRead n answers=.ok (.bytes (now.map Prod.fst),left)∧
      rest=now++todo∧now≠[]∧now.length≤n∧Outside todo∧
      delivered answers=now.map Prod.fst++delivered left∧Delivers todo left∧
      left.length<answers.length := by
  cases h with
  | nil => exact .inr (.inl ⟨.again,[],rfl,.inl rfl,rfl,.nil rest,.inr rfl⟩)
  | wouldBlock h => exact .inr (.inl ⟨.again,_,rfl,.inl rfl,rfl,h,.inl (Nat.lt_succ_self _)⟩)
  | eof h => exact .inr (.inl ⟨.eof,_,rfl,.inr rfl,rfl,h,.inl (Nat.lt_succ_self _)⟩)
  | @bytes now todo left hout h =>
    rw [streamRead]
    split
    case isTrue => exact .inl rfl
    case isFalse hfits =>
      rw [map_eq_nil_iff,length_map,not_or,Nat.not_lt] at hfits
      exact .inr (.inr ⟨now,todo,left,rfl,rfl,hfits.1,hfits.2,hout,rfl,h,Nat.lt_succ_self _⟩)

/-- Something is taken from what is on the wire. -/
structure Moves (rest : List (UInt8×Mark)) (answers : List Answer)
    (todo : List (UInt8×Mark)) (left : List Answer) (out : List (UInt8×UInt8)) : Prop where
  /-- What has been delivered and its data. -/
  taken : ∃ now,rest=now++todo∧delivered answers=now.map Prod.fst++delivered left∧contents now=out
  delivers : Delivers todo left

/-- Nothing is taken. -/
theorem Moves.refl {rest : List (UInt8×Mark)} {answers : List Answer}
    (h : Delivers rest answers) : Moves rest answers rest answers [] :=
  ⟨⟨[],rfl,rfl,rfl⟩,h⟩

/-- One thing is taken after another. -/
theorem Moves.trans {rest todo todo' : List (UInt8×Mark)} {answers left left' : List Answer}
    {out out' : List (UInt8×UInt8)} (h : Moves rest answers todo left out)
    (h' : Moves todo left todo' left' out') : Moves rest answers todo' left' (out++out') := by
  obtain ⟨⟨now,hrest,hdel,hout⟩,_⟩ := h
  obtain ⟨⟨now',htodo,hdel',hout'⟩,hleft⟩ := h'
  refine ⟨⟨now++now',?_,?_,?_⟩,hleft⟩
  · rw [hrest,htodo,append_assoc]
  · rw [hdel,hdel',map_append,append_assoc]
  · rw [contents_append,hout,hout']

/-- The bytes of a header are received until there is nothing to receive. -/
theorem receive_cases {self : WebSocket} {rest : List (UInt8×Mark)} {answers : List Answer}
    (hrecv : 0 < self.toRecv) (h : Delivers rest answers) :
    receive self answers=.error .socket∨
    ∃ now todo left,rest=now++todo∧delivered answers=now.map Prod.fst++delivered left∧
      Delivers todo left∧(left.length<answers.length∨left=[])∧
      (now.length=self.toRecv∧receive self answers=.ok (.goesOn {self with
          buf := self.buf++now.map Prod.fst
          toRecv := 0} left)∨
        now.length < self.toRecv∧∃ r,(r=.again∨r=.eof)∧
          receive self answers=.ok (.returns {self with
            buf := self.buf++now.map Prod.fst
            toRecv := self.toRecv-now.length} left r)) := by
  rw [receive,if_neg (by omega)]
  rcases @streamRead_cases self.toRecv _ _ h with
    herr | ⟨r,left,hread,hr,hdel,hleft,htook⟩ |
      ⟨now,todo,left,hread,hrest,_,hlen,_,hdel,htodo,htook⟩
  · rw [herr]
    exact .inl rfl
  · rw [hread]
    refine .inr ⟨[],rest,left,rfl,hdel,hleft,htook,.inr ⟨hrecv,r,hr,?_⟩⟩
    rw [map_nil,append_nil,length_nil,Nat.sub_zero]
  · rw [hread]
    refine .inr ⟨now,todo,left,hrest,hdel,htodo,.inl htook,?_⟩
    dsimp only
    rw [length_map]
    cases Nat.lt_or_eq_of_le hlen with
    | inl hlt =>
      rw [if_neg (by omega)]
      exact .inr ⟨hlt,.again,.inl rfl,rfl⟩
    | inr heq =>
      rw [heq,Nat.sub_self,if_pos rfl]
      exact .inl ⟨rfl,rfl⟩

/-! ## The place of the reader -/

/-- The reader is at a place of the wire. -/
inductive Cursor (self : WebSocket) (rest : List (UInt8×Mark)) : Prop
  /-- In the two bytes that begin a frame. -/
  | header (fs : List Frame) (pre : List (UInt8×Mark)) : wire fs=pre++rest →
      self.state=.frameHeader → self.buf=pre.map Prod.fst → self.toRecv+pre.length=2 →
      0 < self.toRecv → self.maskPos=0 → Cursor self rest
  /-- In the length and the mask after them. -/
  | opt (f : Frame) (fs : List Frame) (pre : List (UInt8×Mark)) :
      skipped f.opt++(payloadWire f.opcode f.key 0 f.payload++wire fs)=pre++rest →
      self.state=.frameOpt → self.buf=pre.map Prod.fst →
      self.toRecv+pre.length=f.opt.length → 0 < self.toRecv → self.maskPos=0 →
      self.lastFlags=f.flags → self.wsFlags=f.flags → self.mask=[0,0,0,0] →
      self.msgSz=f.shortLength → Cursor self rest
  /-- In a payload, and at the beginning of that of a control frame. -/
  | payload (f : Frame) (fs : List Frame) (pos : ℕ) (bs : List UInt8) :
      rest=payloadWire f.opcode f.key pos bs++wire fs →
      self.state=payloadState f.flags → self.toRecv=0 → self.maskPos%4=pos%4 →
      self.msgSz=bs.length → self.mask=f.key → self.lastFlags=f.flags →
      self.wsFlags=f.flags → (isControl f.opcode → pos=0) → Cursor self rest

/-- What a part of the loop does to the place of the reader. -/
def Keeps (rest : List (UInt8×Mark)) (answers : List Answer) (t : Except Fault Turn) : Prop :=
  match t with
  | .error e => e=.socket
  | .ok (.goesOn self left) => ∃ todo,Moves rest answers todo left []∧Cursor self todo∧
      left.length≤answers.length
  | .ok (.returns self left r) => ∃ todo,
      Moves rest answers todo left (returned [(r,websocketGetDataOpts self)])∧
      Cursor self todo∧(left.length<answers.length∨left=[])

/-- A return without bytes. -/
theorem returned_nothing {r : Result} (hr : r=.again∨r=.eof) (t : UInt8) : returned [(r,t)]=[] := by
  rcases hr with rfl | rfl <;> rfl

variable {f : Frame}

theorem Frame.flags_opcode : f.flags&&&frameOpcodeMask=f.opcode :=
  (flags_facts f.opcode_ok.1).2

theorem payloadState_flags :
    payloadState f.flags=if isControl f.opcode then .control else .payload := by
  rw [payloadState,f.flags_opcode]
  rfl

/-- How many bytes come between the first two bytes of a frame and the payload. -/
theorem Frame.length_opt : f.opt.length=
    (if f.payload.length<126 then 0 else 2)+if f.mask.isSome then 4 else 0 := by
  rw [Frame.opt,length_append]
  have hmask : (f.mask.getD []).length=if f.mask.isSome then 4 else 0 := by
    cases hm : f.mask with
    | none => rfl
    | some m => exact f.mask_ok m hm
  rw [hmask]
  split <;> rfl

/-- The two bytes that begin a frame. -/
theorem frameHeader_eq {self : WebSocket} (hbuf : self.buf=f.header) :
    frameHeader self=.ok {self with
      lastFlags := f.flags
      wsFlags := f.flags
      mask := [0,0,0,0]
      buf := []
      toRecv := f.opt.length
      msgSz := f.shortLength
      state := if f.opt.length=0 then payloadState f.flags else .frameOpt} := by
  have hshort : f.shortLength<127 := by
    rw [Frame.shortLength]
    split <;> omega
  obtain ⟨hlen,hmask⟩ := length_facts hshort f.mask.isSome
  have h0 : self.buf.getD 0 0=f.flags := by
    rw [hbuf]
    rfl
  have h1 : self.buf.getD 1 0=(if f.mask.isSome then 0x80 else 0)|||UInt8.ofNat f.shortLength := by
    rw [hbuf]
    rfl
  have h126 : f.shortLength=126↔¬f.payload.length<126 := by
    rw [Frame.shortLength]
    split <;> omega
  have hrecv : ((if f.shortLength=126 then 2 else 0)+
      if ((if f.mask.isSome=true then 0x80 else 0)|||UInt8.ofNat f.shortLength)&&&0x80=0 then 0
        else 4)=f.opt.length := by
    rw [f.length_opt]
    congr 1
    · split <;> split <;> omega
    · cases hm : f.mask.isSome with
      | false =>
        rw [hm] at hmask
        rw [if_pos (hmask.mpr rfl)]
        rfl
      | true =>
        rw [hm] at hmask
        rw [if_neg fun h => nomatch hmask.mp h]
        rfl
  have hset : f.flags&&&0x80≠0 := (flags_facts f.opcode_ok.1).1
  rw [frameHeader,h0,h1]
  rw [if_neg hset,hlen,if_neg (by omega),f.flags_opcode,
    if_neg f.opcode_ok.2.1,hrecv]

/-- The length and the mask of a frame. -/
theorem frameOpt_eq {self : WebSocket} (hbuf : self.buf=f.opt) (hmask : self.mask=[0,0,0,0])
    (hsz : self.msgSz=f.shortLength) (hlast : self.lastFlags=f.flags) (hne : f.opt≠[]) :
    frameOpt self={self with
      msgSz := f.payload.length
      mask := f.key
      buf := []
      state := payloadState f.flags} := by
  have hlen := f.length_opt
  rw [frameOpt,hbuf,hlast,hmask,hsz]
  congr 1
  · cases Decidable.em (f.payload.length<126) with
    | inl hlt =>
      rw [if_pos hlt] at hlen
      rw [Frame.shortLength,if_pos hlt,if_neg]
      split at hlen <;> omega
    | inr hlt =>
      rw [if_neg hlt] at hlen
      rw [if_pos (by split at hlen <;> omega),Frame.opt,if_neg hlt]
      exact length_bytes f.payload_ok
  · cases hm : f.mask with
    | none =>
      rw [hm] at hlen
      rw [if_neg (by rw [hlen]; split <;> decide),Frame.key,hm]
      rfl
    | some m =>
      have hm4 := f.mask_ok m hm
      rw [hm] at hlen
      rw [if_pos (by rw [hlen]; exact Nat.le_add_left _ _),Frame.key,hm,Frame.opt,hm]
      rw [length_append,Option.getD_some,hm4,Nat.add_sub_cancel,drop_left]
      rfl

theorem split_of_append {α : Type} {xs ys now todo : List α} (h : xs++ys=now++todo)
    (hlen : now.length=xs.length) : now=xs∧todo=ys := by
  obtain ⟨h1,h2⟩ := append_inj h hlen.symm
  exact ⟨h1.symm,h2.symm⟩

/-- The bytes of a header on the wire. -/
theorem map_skipped (bs : List UInt8) : (skipped bs).map Prod.fst=bs := by
  rw [skipped,map_map]
  exact map_id' _

/-- What comes out of the bytes of a header has no data. -/
theorem contents_of_skipped {bs : List UInt8} {ys pre now todo : List (UInt8×Mark)}
    (h : skipped bs++ys=(pre++now)++todo) (hlen : (pre++now).length≤bs.length) :
    Websocket.contents now=[] := by
  have htake := congrArg (List.take (pre++now).length) h
  rw [take_append_of_le_length (by rwa [skipped,length_map]),take_left,skipped,←map_take] at htake
  have hnone := contents_skipped (bs.take (pre++now).length)
  rw [skipped,htake,contents_append] at hnone
  exact (append_eq_nil_iff.mp hnone).2

theorem wire_cons : wire (f::fs)=
    skipped f.header++(skipped f.opt++(payloadWire f.opcode f.key 0 f.payload++wire fs)) := by
  rw [wire,flatMap_cons,Frame.wire,append_assoc,append_assoc]
  rfl

variable {self : WebSocket} {rest : List (UInt8×Mark)} {answers : List Answer} {size : ℕ}

/-- There are not more answers than before. -/
theorem length_le_of_took {left : List Answer} (h : left.length<answers.length∨left=[]) :
    left.length≤answers.length := by
  cases h with
  | inl hlt => exact Nat.le_of_lt hlt
  | inr hnil =>
    rw [hnil]
    exact Nat.zero_le _

theorem act_frameHeader (h : self.state=.frameHeader) :
    act self size answers=(frameHeader self).map fun self => .goesOn self answers := by
  rw [act,h]

theorem act_frameOpt (h : self.state=.frameOpt) :
    act self size answers=.ok (.goesOn (frameOpt self) answers) := by
  rw [act,h]

theorem act_payload {flags : UInt8} (h : self.state=payloadState flags) :
    act self size answers=readPayload self size answers := by
  rw [act,h,payloadState]
  split
  case h_1 heq => split at heq <;> cases heq
  case h_2 heq => split at heq <;> cases heq
  case h_3 => rfl
  case h_4 => rfl

/-- A turn in the two bytes that begin a frame. -/
theorem keeps_header (pre : List (UInt8×Mark)) (hwire : wire fs=pre++rest)
    (hstate : self.state=.frameHeader) (hbuf : self.buf=pre.map Prod.fst)
    (hlen : self.toRecv+pre.length=2) (hrecv : 0 < self.toRecv) (hpos : self.maskPos=0)
    (h : Delivers rest answers) : Keeps rest answers (turn self size answers) := by
  rw [turn]
  rcases receive_cases hrecv h with herr | ⟨now,todo,left,hrest,hdel,htodo,htook,hreceive⟩
  · rw [herr]
    rfl
  · rcases hreceive with ⟨hnow,hreceive⟩ | ⟨hnow,r,hr,hreceive⟩
    · rw [hreceive]
      dsimp only
      have hall : wire fs=(pre++now)++todo := by rw [hwire,hrest,append_assoc]
      have hlen2 : (pre++now).length=2 := by
        rw [length_append]
        omega
      cases fs with
      | nil =>
        have hnil := congrArg List.length hall
        rw [length_append,hlen2] at hnil
        change 0=2+todo.length at hnil
        omega
      | cons f fs =>
        rw [wire_cons] at hall
        have hskip := contents_of_skipped hall (by rw [hlen2]; exact Nat.le_refl 2)
        obtain ⟨hpn,htd⟩ := split_of_append hall (by rw [hlen2]; rfl)
        have hbuf' : self.buf++now.map Prod.fst=f.header := by
          rw [hbuf,←map_append,hpn,map_skipped]
        have hact := @act_frameHeader {self with
          buf := self.buf++now.map Prod.fst
          toRecv := 0} left size hstate
        rw [hact,frameHeader_eq hbuf']
        refine ⟨todo,⟨⟨now,hrest,hdel,hskip⟩,htodo⟩,?_,length_le_of_took htook⟩
        cases Decidable.em (f.opt.length=0) with
        | inl hopt =>
          have hoptlen := f.length_opt
          rw [hopt] at hoptlen
          have hnil := eq_nil_of_length_eq_zero hopt
          refine .payload f fs 0 f.payload ?_ (if_pos hopt) hopt (congrArg (·%4) hpos) ?_ ?_ rfl
            rfl fun _ => rfl
          · rw [htd,hnil]
            exact nil_append _
          · have hshort : f.payload.length<126 := by
              split at hoptlen <;> omega
            exact if_pos hshort
          · have hmask : f.mask=none := by
              cases hm : f.mask with
              | none => rfl
              | some m =>
                rw [hm,Option.isSome_some,if_pos rfl] at hoptlen
                omega
            rw [Frame.key,hmask]
            rfl
        | inr hopt =>
          refine .opt f fs [] ?_ (if_neg hopt) rfl (Nat.add_zero _) (Nat.pos_of_ne_zero hopt) hpos
            rfl rfl rfl rfl
          exact htd.symm
    · rw [hreceive]
      have hall : wire fs=(pre++now)++todo := by rw [hwire,hrest,append_assoc]
      have hlen2 : (pre++now).length≤2 := by
        rw [length_append]
        omega
      refine ⟨todo,⟨⟨now,hrest,hdel,?_⟩,htodo⟩,?_,htook⟩
      · rw [returned_nothing hr]
        cases fs with
        | nil =>
          rw [(append_eq_nil_iff.mp (append_eq_nil_iff.mp hall.symm).1).2]
          rfl
        | cons f fs =>
          rw [wire_cons] at hall
          exact contents_of_skipped hall hlen2
      · refine .header fs (pre++now) ?_ hstate ?_ ?_ ?_ hpos
        · exact hall
        · rw [hbuf,map_append]
        · rw [length_append]
          dsimp only
          omega
        · dsimp only
          omega

/-- A turn in the length and the mask after them. -/
theorem keeps_opt (pre : List (UInt8×Mark))
    (hwire : skipped f.opt++(payloadWire f.opcode f.key 0 f.payload++wire fs)=pre++rest)
    (hstate : self.state=.frameOpt) (hbuf : self.buf=pre.map Prod.fst)
    (hlen : self.toRecv+pre.length=f.opt.length) (hrecv : 0 < self.toRecv)
    (hpos : self.maskPos=0) (hlast : self.lastFlags=f.flags) (hflags : self.wsFlags=f.flags)
    (hmask : self.mask=[0,0,0,0]) (hsz : self.msgSz=f.shortLength)
    (h : Delivers rest answers) : Keeps rest answers (turn self size answers) := by
  rw [turn]
  rcases receive_cases hrecv h with herr | ⟨now,todo,left,hrest,hdel,htodo,htook,hreceive⟩
  · rw [herr]
    rfl
  · have hall : skipped f.opt++(payloadWire f.opcode f.key 0 f.payload++wire fs)=
        (pre++now)++todo := by
      rw [hwire,hrest,append_assoc]
    have hle : (pre++now).length≤f.opt.length := by
      rw [length_append]
      rcases hreceive with ⟨hnow,_⟩ | ⟨hnow,_⟩ <;> omega
    have hskip := contents_of_skipped hall hle
    rcases hreceive with ⟨hnow,hreceive⟩ | ⟨hnow,r,hr,hreceive⟩
    · rw [hreceive]
      dsimp only
      have hfull : (pre++now).length=(skipped f.opt).length := by
        rw [length_append,skipped,length_map]
        omega
      obtain ⟨hpn,htd⟩ := split_of_append hall hfull
      have hbuf' : self.buf++now.map Prod.fst=f.opt := by
        rw [hbuf,←map_append,hpn,map_skipped]
      have hne : f.opt≠[] := fun hnil => by
        rw [hnil,length_nil] at hlen
        omega
      obtain ⟨full,hfull'⟩ : ∃ full,full={self with
          buf := self.buf++now.map Prod.fst
          toRecv := 0} := ⟨_,rfl⟩
      have hnext : frameOpt full={full with
          msgSz := f.payload.length
          mask := f.key
          buf := []
          state := payloadState f.flags} := by
        rw [hfull']
        exact frameOpt_eq hbuf' hmask hsz hlast hne
      rw [←hfull',act_frameOpt (by rw [hfull']; exact hstate),hnext,hfull']
      refine ⟨todo,⟨⟨now,hrest,hdel,hskip⟩,htodo⟩,?_,length_le_of_took htook⟩
      exact .payload f fs 0 f.payload htd rfl rfl (congrArg (·%4) hpos) rfl rfl hlast hflags
        fun _ => rfl
    · rw [hreceive]
      refine ⟨todo,⟨⟨now,hrest,hdel,?_⟩,htodo⟩,?_,htook⟩
      · rw [returned_nothing hr]
        exact hskip
      · refine .opt f fs (pre++now) hall hstate ?_ ?_ ?_ hpos hlast hflags hmask hsz
        · rw [hbuf,map_append]
        · rw [length_append]
          dsimp only
          omega
        · dsimp only
          omega

/-- The end of a frame. -/
theorem keeps_endFrame {fs : List Frame} {out : List UInt8}
    (hstate : self.state=payloadState f.flags) (hlast : self.lastFlags=f.flags)
    (hflags : self.wsFlags=f.flags) :
    ∃ self',Cursor self' (wire fs)∧
      (endFrame self out answers=.ok (.goesOn self' answers)∧(isControl f.opcode∨out=[])∨
        endFrame self out answers=.ok (.returns self' answers (.data out))∧
          ¬isControl f.opcode∧out≠[]∧websocketGetDataOpts self'=f.opcode) := by
  refine ⟨{self with
    state := .frameHeader
    toRecv := 2
    maskPos := 0
    buf := []},.header fs [] rfl rfl rfl rfl Nat.two_pos rfl,?_⟩
  rw [endFrame,hstate,payloadState_flags]
  cases Decidable.em (isControl f.opcode) with
  | inl hctrl =>
    rw [if_pos hctrl,if_pos rfl,hlast,f.flags_opcode,if_neg f.opcode_ok.2.2]
    exact .inl ⟨rfl,.inl hctrl⟩
  | inr hctrl =>
    rw [if_neg hctrl,if_neg (by decide)]
    split
    case isTrue hnil => exact .inl ⟨rfl,.inr hnil⟩
    case isFalse hnil =>
      refine .inr ⟨rfl,hctrl,hnil,?_⟩
      rw [websocketGetDataOpts,hflags]
      exact f.flags_opcode

/-- A turn in a payload. -/
theorem keeps_payload (pos : ℕ) (bs : List UInt8)
    (hrest : rest=payloadWire f.opcode f.key pos bs++wire fs)
    (hstate : self.state=payloadState f.flags) (hrecv : self.toRecv=0)
    (hpos : self.maskPos%4=pos%4) (hsz : self.msgSz=bs.length) (hmask : self.mask=f.key)
    (hlast : self.lastFlags=f.flags) (hflags : self.wsFlags=f.flags)
    (hctrl : isControl f.opcode → pos=0) (h : Delivers rest answers) :
    Keeps rest answers (turn self size answers) := by
  have hturn : turn self size answers=readPayload self size answers := by
    rw [turn,receive,if_pos hrecv]
    exact act_payload hstate
  rw [hturn,readPayload]
  split
  case isTrue h0 =>
    have hnil := eq_nil_of_length_eq_zero (hsz.symm.trans h0)
    rw [hnil] at hrest
    rw [hrest] at h
    obtain ⟨self',hcursor,hend⟩ := @keeps_endFrame f self answers fs [] hstate hlast hflags
    rcases hend with ⟨hend,_⟩ | ⟨_,_,hne,_⟩
    · rw [hend]
      exact ⟨wire fs,⟨⟨[],hrest,rfl,rfl⟩,h⟩,hcursor,Nat.le_refl _⟩
    · exact absurd rfl hne
  case isFalse h0 =>
    rcases @streamRead_cases (min size self.msgSz) _ _ h with
      herr | ⟨r,left,hread,hr,hdel,hleft,htook⟩ |
      ⟨now,todo,left,hread,hsplit,hne,hlen,hout,hdel,htodo,htook⟩
    · rw [herr]
      rfl
    · rw [hread]
      refine ⟨rest,⟨⟨[],rfl,hdel,?_⟩,hleft⟩,?_,htook⟩
      · rw [returned_nothing hr]
        rfl
      · exact .payload f fs pos bs hrest hstate hrecv hpos hsz hmask hlast hflags hctrl
    · rw [hread]
      dsimp only
      have hle : now.length≤bs.length := by
        rw [hsz] at hlen
        exact Nat.le_trans hlen (Nat.min_le_right _ _)
      obtain ⟨xs,ys,hbs,hxs⟩ : ∃ xs ys,bs=xs++ys∧xs.length=now.length :=
        ⟨bs.take now.length,bs.drop now.length,(take_append_drop _ _).symm,length_take_of_le hle⟩
      rw [hsplit,hbs,payloadWire_append,append_assoc] at hrest
      obtain ⟨hnow,htd⟩ := split_of_append hrest.symm (by rw [length_payloadWire,hxs])
      have hdata : applyMask self.mask self.maskPos (now.map Prod.fst)=xs := by
        rw [hmask,hnow,applyMask_payloadWire hpos.symm]
      have hlenys : self.msgSz-(now.map Prod.fst).length=ys.length := by
        rw [hsz,hbs,length_map,length_append,hxs,Nat.add_sub_cancel_left]
      have hpos' : (self.maskPos+(now.map Prod.fst).length)%256%4=(pos+xs.length)%4 := by
        rw [length_map,hxs]
        omega
      have hxne : xs≠[] := fun hnil => hne (eq_nil_of_length_eq_zero (by
        rw [←hxs,hnil]
        rfl))
      rw [hdata,hlenys]
      split
      case isTrue hys =>
        have hnil := eq_nil_of_length_eq_zero hys
        rw [hnil] at htd
        change todo=wire fs at htd
        have hmoves {out : List (UInt8×UInt8)} (hout : Websocket.contents now=out) :
            Moves rest answers (wire fs) left out := by
          rw [←htd]
          exact ⟨⟨now,hsplit,hdel,hout⟩,htodo⟩
        obtain ⟨self',hcursor,hend⟩ := @keeps_endFrame f {self with
          maskPos := (self.maskPos+(now.map Prod.fst).length)%256
          msgSz := ys.length} left fs xs hstate hlast hflags
        rcases hend with ⟨hend,hctrl' | hnil'⟩ | ⟨hend,hctrl',_,hopts⟩
        · rw [hend]
          refine ⟨wire fs,hmoves ?_,hcursor,Nat.le_of_lt htook⟩
          rw [hnow]
          exact contents_payloadWire_control hctrl' pos xs
        · exact absurd hnil' hxne
        · rw [hend]
          refine ⟨wire fs,hmoves ?_,hcursor,.inl htook⟩
          rw [hnow,hopts,contents_payloadWire_data hctrl']
          exact (append_nil _).symm
      case isFalse hys =>
        have hctrl' : ¬isControl f.opcode := by
          intro hcontrol
          cases ys with
          | nil => exact hys rfl
          | cons y ys =>
            refine hout (y^^^f.key.getD ((pos+xs.length)%4) 0,.inside) ?_ rfl
            have hxpos : pos+xs.length≠0 := by
              have := length_pos_iff.mpr hxne
              omega
            rw [htd,payloadWire,if_pos hcontrol,if_neg hxpos]
            rfl
        refine ⟨todo,⟨⟨now,hsplit,hdel,?_⟩,htodo⟩,?_,.inl htook⟩
        · have hopts : self.wsFlags&&&frameOpcodeMask=f.opcode := by
            rw [hflags,f.flags_opcode]
          rw [hnow,contents_payloadWire_data hctrl',websocketGetDataOpts]
          rw [hopts]
          exact (append_nil _).symm
        · exact .payload f fs (pos+xs.length) ys htd hstate hrecv hpos' rfl hmask hlast hflags
            fun hcontrol => absurd hcontrol hctrl'

/-- A turn at a place of the wire. -/
theorem Cursor.turn (hcursor : Cursor self rest) (h : Delivers rest answers) :
    Keeps rest answers (Websocket.turn self size answers) := by
  cases hcursor with
  | header fs pre hwire hstate hbuf hlen hrecv hpos =>
    exact keeps_header fs pre hwire hstate hbuf hlen hrecv hpos h
  | opt f fs pre hwire hstate hbuf hlen hrecv hpos hlast hflags hmask hsz =>
    exact keeps_opt fs pre hwire hstate hbuf hlen hrecv hpos hlast hflags hmask hsz h
  | payload f fs pos bs hrest hstate hrecv hpos hsz hmask hlast hflags hctrl =>
    exact keeps_payload fs pos bs hrest hstate hrecv hpos hsz hmask hlast hflags hctrl h

/-- What a read does to the place of the reader. -/
def Reads (rest : List (UInt8×Mark)) (answers : List Answer)
    (r : Except Fault (WebSocket×List Answer×Result)) : Prop :=
  match r with
  | .error e => e=.socket
  | .ok (self,left,r) => ∃ todo,
      Moves rest answers todo left (returned [(r,websocketGetDataOpts self)])∧
      Cursor self todo∧(left.length<answers.length∨left=[])

/-- A read at a place of the wire. -/
theorem Cursor.read (hcursor : Cursor self rest) (h : Delivers rest answers) :
    Reads rest answers (websocketRead self size answers) := by
  fun_induction websocketRead self size answers generalizing rest with
  | case1 self answers e hturn =>
    have hkeeps := @Cursor.turn self rest answers size hcursor h
    rw [hturn] at hkeeps
    exact hkeeps
  | case2 self answers self' left r hturn =>
    have hkeeps := @Cursor.turn self rest answers size hcursor h
    rw [hturn] at hkeeps
    exact hkeeps
  | case3 self answers self' left hturn ih =>
    have hkeeps := @Cursor.turn self rest answers size hcursor h
    rw [hturn] at hkeeps
    obtain ⟨todo,hmoves,hcursor',hle⟩ := hkeeps
    have hread := ih hcursor' hmoves.delivers
    cases hresult : websocketRead self' size left with
    | error e =>
      rw [hresult] at hread
      exact hread
    | ok r =>
      rw [hresult] at hread
      obtain ⟨todo',hmoves',hcursor'',htook⟩ := hread
      refine ⟨todo',hmoves.trans hmoves',hcursor'',htook.imp_left fun hlt => ?_⟩
      exact Nat.lt_of_lt_of_le hlt hle

theorem returned_cons (out : Result×UInt8) (outs : List (Result×UInt8)) :
    returned (out::outs)=returned [out]++returned outs := by
  rw [returned,returned,returned,flatMap_cons,flatMap_cons,flatMap_nil,append_nil]

/-- Reads in a row. -/
theorem Cursor.run {sizes : List ℕ} : ∀ {self : WebSocket} {rest : List (UInt8×Mark)}
    {answers : List Answer},Cursor self rest → Delivers rest answers →
    match InputMachine.run step (self,answers) sizes with
    | .error e => e=.socket
    | .ok ((_,left),outs) => ∃ todo,Moves rest answers todo left (returned outs)∧
        (left.length+sizes.length≤answers.length∨left=[]) := by
  induction sizes with
  | nil =>
    intro self rest answers hcursor h
    exact ⟨rest,.refl h,.inl (Nat.le_refl _)⟩
  | cons size sizes ih =>
    intro self rest answers hcursor h
    have hread := @Cursor.read self rest answers size hcursor h
    cases hresult : websocketRead self size answers with
    | error e =>
      have hstep : step (self,answers) size=.error e := by
        rw [step,hresult]
      rw [hresult] at hread
      rw [run_cons_error hstep]
      exact hread
    | ok r =>
      obtain ⟨self',left,r⟩ := r
      have hstep : step (self,answers) size= .ok ((self',left),r,websocketGetDataOpts self') := by
        rw [step,hresult]
      rw [hresult] at hread
      obtain ⟨todo,hmoves,hcursor',htook⟩ := hread
      have hrest := ih hcursor' hmoves.delivers
      rw [run_cons_ok hstep]
      cases hrun : InputMachine.run step (self',left) sizes with
      | error e =>
        rw [hrun] at hrest
        exact hrest
      | ok r' =>
        rw [hrun] at hrest
        obtain ⟨todo',hmoves',htook'⟩ := hrest
        refine ⟨todo',?_,?_⟩
        · rw [returned_cons]
          exact hmoves.trans hmoves'
        · rw [length_cons]
          rcases htook' with hle | hnil
          · rcases htook with hlt | hnil
            · exact .inl (by omega)
            · rw [hnil] at hle
              exact .inr (eq_nil_of_length_eq_zero (by
                rw [length_nil] at hle
                omega))
          · exact .inr hnil

theorem cursor_websocketMakeNew (memory : WebSocket) (blocking : Bool) (fs : List Frame) :
    Cursor (websocketMakeNew memory blocking) (wire fs) :=
  .header fs [] rfl rfl rfl rfl Nat.two_pos rfl

/-- A ping with two bytes and a text of one byte. -/
def pingThenText : List Frame :=
  [⟨9,none,[1,2],by decide,fun _ h => (nomatch h),by decide⟩,
    ⟨frameTxt,some [1,2,3,4],[120],by decide,fun m h => by cases h; rfl,by decide⟩]

/-- Memory that holds nothing in particular. -/
def zeroed : WebSocket := ⟨0,[],.payload,0,0,[],0,0,0,[]⟩

/-- Messages are written, each with its type. -/
def writeAll : WebSocket→List (UInt8×List UInt8)→Except Fault WebSocket
  | self,[] => .ok self
  | self,m::ms =>
    match websocketWrite (websocketSetDataOpts self m.1) m.2 with
    | .error e => .error e
    | .ok self => writeAll self ms

/-- A message is a text or bytes of a length that can be written. -/
def Writable (m : UInt8×List UInt8) : Prop :=
  (m.1=frameTxt∨m.1=frameBin)∧m.2.length<65536

/-- The frame of a message. -/
def frameOf (m : UInt8×List UInt8) (h : Writable m) : Frame where
  opcode := m.1
  mask := none
  payload := m.2
  opcode_ok := by rcases h.1 with h | h <;> rw [h] <;> decide
  mask_ok := fun _ h => nomatch h
  payload_ok := h.2

/-- The type that is set is the type of the header. -/
theorem opts_facts (opts : UInt8) {type : UInt8} (h : type=frameTxt∨type=frameBin) :
    (opts&&&~~~frameOpcodeMask|||type&&&frameOpcodeMask)&&&frameOpcodeMask=type := by
  rcases h with rfl | rfl
  · exact forall_byte (p:=fun opts =>
      (opts&&&~~~frameOpcodeMask|||frameTxt&&&frameOpcodeMask)&&&frameOpcodeMask=frameTxt)
      (by decide +kernel) opts
  · exact forall_byte (p:=fun opts =>
      (opts&&&~~~frameOpcodeMask|||frameBin&&&frameOpcodeMask)&&&frameOpcodeMask=frameBin)
      (by decide +kernel) opts

/-- A payload without a mask. -/
theorem payloadWire_unmasked (opcode : UInt8) (pos : ℕ) (bs : List UInt8) :
    (payloadWire opcode [0,0,0,0] pos bs).map Prod.fst=bs := by
  induction bs generalizing pos with
  | nil => rfl
  | cons b bs ih =>
    have hzero : ([0,0,0,0] : List UInt8).getD (pos%4) 0=0 := by
      have hall : ∀ i : Fin 4,([0,0,0,0] : List UInt8).getD i 0=0 := by decide
      exact hall ⟨pos%4,Nat.mod_lt _ (by decide)⟩
    rw [payloadWire,map_cons,ih,hzero,UInt8.xor_zero]

/-- A write hands the frame of its message to the socket. -/
theorem websocketWrite_eq (self : WebSocket) {m : UInt8×List UInt8} (h : Writable m) :
    websocketWrite (websocketSetDataOpts self m.1) m.2=
      .ok {websocketSetDataOpts self m.1 with
        sent := self.sent++(frameOf m h).wire.map Prod.fst} := by
  have hopts := opts_facts self.opts h.1
  rw [websocketWrite,if_pos h.2]
  congr 2
  rw [writeHeader,websocketSetDataOpts]
  rw [hopts,Frame.wire,map_append,map_append,map_skipped,map_skipped,Frame.key]
  change _=self.sent++((frameOf m h).header++((frameOf m h).opt++
    (payloadWire m.1 [0,0,0,0] 0 m.2).map Prod.fst))
  rw [payloadWire_unmasked,append_assoc,←append_assoc (frameOf m h).header]
  congr 2
  rw [Frame.header,Frame.opt,Frame.flags,Frame.shortLength]
  change _=[_,0|||UInt8.ofNat (if m.2.length<126 then m.2.length else 126)]++
    ((if m.2.length<126 then [] else _)++[])
  rw [UInt8.zero_or]
  split <;> rfl

/-- Writes in a row hand the frames of their messages to the socket. -/
theorem writeAll_eq (ms : List (UInt8×List UInt8)) (hms : ∀ m∈ms,Writable m) :
    ∀ self : WebSocket,∃ (self' : WebSocket) (fs : List Frame),writeAll self ms=.ok self'∧
      self'.sent=self.sent++(wire fs).map Prod.fst∧(∀ f∈fs,¬isControl f.opcode)∧
      fs.flatMap Frame.contents=ms.flatMap fun m => m.2.map fun b => (b,m.1) := by
  induction ms with
  | nil => exact fun self => ⟨self,[],rfl,(append_nil _).symm,(fun f hf => nomatch hf),rfl⟩
  | cons m ms ih =>
    intro self
    have hm := hms m mem_cons_self
    obtain ⟨self',fs,hwrite,hsent,hfs,hcontents⟩ := ih (fun m' hm' =>
      hms m' (mem_cons_of_mem _ hm')) {websocketSetDataOpts self m.1 with
        sent := self.sent++(frameOf m hm).wire.map Prod.fst}
    have hdata : ¬isControl m.1 := by
      rcases hm.1 with h | h <;> rw [h] <;> decide
    refine ⟨self',frameOf m hm::fs,?_,?_,forall_mem_cons.mpr ⟨hdata,hfs⟩,?_⟩
    · rw [writeAll,websocketWrite_eq self hm]
      exact hwrite
    · have hwire : wire (frameOf m hm::fs)=(frameOf m hm).wire++wire fs := flatMap_cons
      rw [hsent,hwire,map_append,←append_assoc]
    · rw [flatMap_cons,flatMap_cons,hcontents,Frame.contents]
      exact congrArg (·++_) (if_neg hdata)

/-- The writer's frames are data frames, so no chunk ends inside a control frame. -/
theorem delivers_of_front {bytes : List (UInt8×Mark)} (hbytes : ∀ b∈bytes,b.2≠.inside)
    {answers : List Answer} (h : delivered answers<+:bytes.map Prod.fst) :
    Delivers bytes answers := by
  induction answers generalizing bytes with
  | nil => exact .nil bytes
  | cons a answers ih =>
    cases a with
    | wouldBlock => exact .wouldBlock (ih hbytes h)
    | eof => exact .eof (ih hbytes h)
    | bytes bs =>
      obtain ⟨more,hmore⟩ := h
      have hfirst : bs++(delivered answers++more)=bytes.map Prod.fst := by
        rw [←hmore,←append_assoc]
        rfl
      obtain ⟨now,todo,rfl,hnow,htodo⟩ := map_eq_append_iff.mp hfirst.symm
      rw [←hnow]
      refine .bytes now (fun b hb => ?_) (ih (fun b hb => ?_) ⟨more,htodo.symm⟩)
      · exact hbytes b (mem_append_right _ (mem_of_mem_head? hb))
      · exact hbytes b (mem_append_right _ hb)

/-- Data frames have no bytes inside the payload of a control frame. -/
theorem wire_ne_inside {fs : List Frame} (hfs : ∀ f∈fs,¬isControl f.opcode) :
    ∀ b∈wire fs,b.2≠.inside := by
  intro b hb
  obtain ⟨f,hf,hb⟩ := mem_flatMap.mp hb
  have hskip (bs : List UInt8) (hb : b∈skipped bs) : b.2≠.inside := by
    obtain ⟨c,_,rfl⟩ := mem_map.mp hb
    exact Mark.noConfusion
  have hpay (pos : ℕ) (bs : List UInt8) (hb : b∈payloadWire f.opcode f.key pos bs) :
      b.2≠.inside := by
    induction bs generalizing pos with
    | nil => cases hb
    | cons c bs ih =>
      rw [payloadWire,if_neg (hfs f hf)] at hb
      cases hb with
      | head => exact Mark.noConfusion
      | tail _ hb => exact ih (pos+1) hb
  cases mem_append.mp hb with
  | inl hb => exact hskip _ hb
  | inr hb =>
    cases mem_append.mp hb with
    | inl hb => exact hskip _ hb
    | inr hb => exact hpay 0 _ hb

end MicroPython.Websocket
