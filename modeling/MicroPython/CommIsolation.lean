import MicroPython.CommFrames
import MicroPython.Ff55Protocol

/-!
# Isolation of the channels

Each channel has a state machine of each protocol. However the bytes of the
channels are interleaved, the F3 frames of a channel and its F3 machine are those
of its own bytes. Its FF 55 machine gets the bytes that do not end an answered
frame, and is that of its own bytes when the same of its frames are answered. The
handlers that answer share their state over the channels: the product test of one
is switched on by another.
-/

namespace MicroPython.CommIsolation

open CommProtocol Ff55Protocol CommFrames InputMachine

/-! ## The two protocols together -/

/-- A state machine whose index is in place. -/
abbrev FwChannel := {p : FwFsm//p.InPlace}

/-- A state machine in place makes no fault. -/
theorem pump_ne_error {p : FwFsm} (hp : p.InPlace) {c : UInt8} {e : FwFault} :
    p.pump c≠.error e := by
  intro h
  obtain ⟨r,hr,_⟩ := pump_inPlace hp c
  rw [hr] at h
  cases h

/-- A state machine stays in place. -/
theorem pump_keeps {p : FwFsm} (hp : p.InPlace) {c : UInt8} {r : FwFsm×Option FwCall}
    (h : p.pump c=.ok r) : r.1.InPlace := by
  obtain ⟨r',hr,hplace⟩ := pump_inPlace hp c
  rw [hr] at h
  cases h
  exact hplace

/-- The state machine in place gets a byte. -/
def FwChannel.pump (p : FwChannel) (c : UInt8) : FwChannel×Option FwCall :=
  match h : p.val.pump c with
  | .ok r => (⟨r.1,pump_keeps p.property h⟩,r.2)
  | .error _ => absurd h (pump_ne_error p.property)

/-- The byte does what it does to the state machine. -/
theorem FwChannel.pump_eq (p : FwChannel) (c : UInt8) :
    p.val.pump c=.ok ((p.pump c).1.val,(p.pump c).2) := by
  rw [FwChannel.pump]
  split
  case h_1 r h => exact h
  case h_2 e h => exact absurd h (pump_ne_error p.property)

/-- The FF 55 protocol and the rest of the machine. -/
structure Board (W : Type) where
  /-- `s_fw_fsm_tab` -/
  fwFsmTab : Vector FwChannel commChnNum
  /-- The functions called so far, with their channels. The source has no such list. -/
  dispatched : List (ℕ×FwCall)
  /-- The rest. -/
  world : W

variable {W : Type}

/-- The variables of the FF 55 protocol. -/
def Board.fwState (b : Board W) : FwState W := ⟨b.fwFsmTab.map Subtype.val,b.world⟩

/-- `codey_ff_55_protocol_pump_char`, as it is called for the bytes of a channel. -/
def ff55 (F : FwFunctions W) (chnTag : ℕ) (c : UInt8) (b : Board W) : List UInt8×Board W :=
  if h : chnTag < commChnNum then
    let r := (b.fwFsmTab.get ⟨chnTag,h⟩).pump c
    let out := fwReply F chnTag r.2 b.world
    (out.1,⟨b.fwFsmTab.set chnTag r.1 h,b.dispatched++(r.2.map (chnTag,·)).toList,out.2⟩)
  else ([],b)

/-- The call is a step of the FF 55 protocol. -/
theorem codeyFf55ProtocolPumpChar_eq (F : FwFunctions W) (b : Board W) (chn : Fin commChnNum)
    (c : UInt8) : codeyFf55ProtocolPumpChar F b.fwState (chn.val,c)=
      .ok ((ff55 F chn.val c b).2.fwState,some (ff55 F chn.val c b).1,
        ((b.fwFsmTab.get chn).pump c).2) := by
  have hget : b.fwState.fwFsmTab.get chn=(b.fwFsmTab.get chn).val :=
    Vector.getElem_map _ chn.isLt
  rw [codeyFf55ProtocolPumpChar,if_neg (Nat.not_lt.mpr (Nat.le_of_lt chn.isLt)),
    dif_pos chn.isLt,hget,FwChannel.pump_eq,ff55,dif_pos chn.isLt]
  dsimp only [Board.fwState]
  rw [Vector.map_set]

/-- The functions that both protocols call. -/
structure Functions (W : Type) where
  /-- The handler of an F3 protocol on a channel: the reply. -/
  protocol : Protocol→ℕ→List UInt8→W→List UInt8×W
  /-- The functions of the FF 55 protocol. -/
  fwFunctions : FwFunctions W
  /-- Whether `pvPortMalloc` has room for that many bytes. -/
  pvPortMalloc : ℕ→W→Bool

/-- The functions as the F3 protocol calls them. -/
def Functions.handlers (F : Functions W) : Handlers (Board W) where
  protocol id chn data b :=
    let r := F.protocol id chn data b.world
    (r.1,{b with world := r.2})
  ff55 := ff55 F.fwFunctions
  pvPortMalloc n b := F.pvPortMalloc n b.world

/-- The board at the start of the program. -/
def Board.initial (w : W) : Board W :=
  ⟨Vector.replicate commChnNum ⟨FwFsm.initial,trivial⟩,[],w⟩

/-- `codey_comm_protocol_pump_char` with both protocols. -/
abbrev pumpChar (F : Functions W) := codeyCommProtocolPumpChar F.handlers

/-- Both protocols at the start of the program. -/
abbrev start (w : W) : State (Board W) := State.initial (Board.initial w)

/-! ## A step -/

/-- The step ends a frame that gets a reply. -/
def answered (out : Option (List UInt8)×Option Call) : Bool :=
  out.2.isSome&&decide (out.1.getD []≠[])

theorem pump_call {p q : Fsm} {c : UInt8} {call : Call} (h : p.pump c=.ok (q,some call)) :
    c=frameEnd := by
  rw [Fsm.pump] at h
  split at h
  case h_7 hs =>
    split at h
    case isTrue hc => exact hc.symm
    case isFalse hc => cases h
  all_goals
    try split at h
    all_goals cases h

/-- No function of the FF 55 protocol is called at the end of a frame. -/
theorem fw_pump_frameEnd (p : FwChannel) : (p.pump frameEnd).2=none := by
  have hpump := p.pump_eq frameEnd
  obtain ⟨⟨s,recvLen,len,index,mode,cmd,data⟩,hplace⟩ := p
  have hnone : codeyCmdElemModeId mode frameEnd=none := rfl
  generalize hr : FwChannel.pump ⟨⟨s,recvLen,len,index,mode,cmd,data⟩,hplace⟩ frameEnd=r at hpump
  cases s with
  | sFwData => exact hplace.elim
  | sFwCmd =>
    rw [FwFsm.pump] at hpump
    dsimp only at hpump
    split at hpump
    · cases hpump
    case h_2 q hput =>
      rw [FwFsm.put] at hput
      split at hput
      case isTrue h =>
        cases hput
        rw [FwFsm.commanded] at hpump
        rw [hnone] at hpump
        exact (congrArg Prod.snd (Except.ok.inj hpump)).symm
      case isFalse h => cases hput
  | sFwIndex =>
    rw [FwFsm.pump] at hpump
    dsimp only at hpump
    split at hpump
    · cases hpump
    · exact (congrArg Prod.snd (Except.ok.inj hpump)).symm
  | sFwMode =>
    rw [FwFsm.pump] at hpump
    dsimp only at hpump
    split at hpump
    · cases hpump
    · exact (congrArg Prod.snd (Except.ok.inj hpump)).symm
  | sFwHead1 => exact (congrArg Prod.snd (Except.ok.inj hpump)).symm
  | sFwHead2 => exact (congrArg Prod.snd (Except.ok.inj hpump)).symm
  | sFwLen => exact (congrArg Prod.snd (Except.ok.inj hpump)).symm
  | sFwEnd => exact (congrArg Prod.snd (Except.ok.inj hpump)).symm

theorem codeyCommBuildFrame_ne_nil (id : UInt8) (data : List UInt8) :
    codeyCommBuildFrame true id data≠[] := by
  rw [codeyCommBuildFrame,if_pos rfl]
  exact List.cons_ne_nil _ _

/-- What a byte does to the FF 55 machine of its channel, which it reaches or not. -/
def own (reached : Bool) (p : FwChannel) (c : UInt8) : FwChannel×Option FwCall :=
  if reached then p.pump c else (p,none)

/-- What a byte of a channel does to the FF 55 protocol. -/
structure Affects (chn : Fin commChnNum) (reached : Bool) (c : UInt8) (b b' : Board W) : Prop where
  /-- The machine of the channel gets the byte if it is reached. -/
  self : b'.fwFsmTab.get chn=(own reached (b.fwFsmTab.get chn) c).1
  /-- The machines of the other channels stay. -/
  others : ∀ k,k≠chn → b'.fwFsmTab.get k=b.fwFsmTab.get k
  /-- What the machine calls is added. -/
  calls : b'.dispatched=
    b.dispatched++((own reached (b.fwFsmTab.get chn) c).2.map (chn.val,·)).toList

/-- A call of the FF 55 protocol reaches the machine of its channel. -/
theorem ff55_affects (F : FwFunctions W) (chn : Fin commChnNum) (c : UInt8) (b b' : Board W)
    (hw : b'.fwFsmTab=b.fwFsmTab∧b'.dispatched=b.dispatched) :
    Affects chn true c b (ff55 F chn.val c b').2 := by
  obtain ⟨htab,hcalls⟩ := hw
  rw [ff55,dif_pos chn.isLt,htab,hcalls]
  constructor
  · exact Vector.getElem_set_self chn.isLt
  · exact fun k hk => Vector.getElem_set_ne chn.isLt k.isLt (fun heq => hk (Fin.ext heq.symm))
  · rfl

theorem ff55_frameEnd (F : FwFunctions W) (chn : ℕ) (b : Board W) :
    (ff55 F chn frameEnd b).1=[] := by
  rw [ff55]
  split
  · dsimp only
    rw [fw_pump_frameEnd,fwReply]
  · rfl

variable (F : Functions W) (chn : Fin commChnNum)

theorem reply_none (c : UInt8) (b : Board W) :
    Affects chn true c b (reply F.handlers chn.val c none b).2 :=
  ff55_affects F.fwFunctions chn c b b ⟨rfl,rfl⟩

/-- The end of a frame reaches the FF 55 machine when it is not answered. -/
theorem reply_some (F : Functions W) (chn : Fin commChnNum) (call : Call) (b : Board W) :
    let r := reply F.handlers chn.val frameEnd (some call) b
    Affects chn (!answered (some r.1,some call)) frameEnd b r.2 := by
  intro r
  have hkeep : ∀ w : W,Affects chn false frameEnd b {b with world := w} := fun w =>
    ⟨rfl,fun _ _ => rfl,(List.append_nil _).symm⟩
  -- the frame is not answered and reaches the machine
  have hsilent : ∀ w : W,r=ff55 F.fwFunctions chn.val frameEnd {b with world := w} →
      Affects chn (!answered (some r.1,some call)) frameEnd b r.2 := by
    intro w hr
    rw [hr]
    have hfalse : answered (some (ff55 F.fwFunctions chn.val frameEnd {b with world := w}).1,
        some call)=false := by
      rw [ff55_frameEnd]
      rfl
    rw [hfalse]
    exact ff55_affects F.fwFunctions chn frameEnd b {b with world := w} ⟨rfl,rfl⟩
  generalize hout : F.protocol call.protocol chn.val call.data b.world=out at *
  have hreply : r=
      let frame := if out.1=[] then (out.1,{b with world := out.2})
        else (codeyCommBuildFrame (F.pvPortMalloc (out.1.length+7) out.2) call.id out.1,
          {b with world := out.2})
      if frame.1=[] then ff55 F.fwFunctions chn.val frameEnd frame.2 else frame := by
    rw [←hout]
    rfl
  cases Decidable.em (out.1=[]) with
  | inl hnil =>
    rw [if_pos hnil] at hreply
    rw [if_pos hnil] at hreply
    exact hsilent out.2 hreply
  | inr hsome =>
    rw [if_neg hsome] at hreply
    dsimp only at hreply
    cases hmalloc : F.pvPortMalloc (out.1.length+7) out.2 with
    | false =>
      rw [hmalloc] at hreply
      exact hsilent out.2 hreply
    | true =>
      have hne := codeyCommBuildFrame_ne_nil call.id out.1
      rw [hmalloc,if_neg hne] at hreply
      have htrue : answered (some r.1,some call)=true := by
        rw [hreply]
        exact decide_eq_true hne
      rw [htrue,hreply]
      exact hkeep out.2

/-- A step of a channel: its FF 55 machine gets the byte if it does not end an
answered frame. -/
theorem step_affects (F : Functions W) {st st' : State (Board W)} (chn : Fin commChnNum)
    {c : UInt8} {out : Option (List UInt8)×Option Call}
    (h : pumpChar F st (chn.val,c)=.ok (st',out)) :
    Affects chn (!answered out) c st.world st'.world := by
  rw [pumpChar,codeyCommProtocolPumpChar,
    if_neg (Nat.not_lt.mpr (Nat.le_of_lt chn.isLt)),dif_pos chn.isLt] at h
  cases hpump : (st.fsmTab.get ⟨chn.val,chn.isLt⟩).pump c with
  | error e =>
    rw [hpump] at h
    cases h
  | ok r =>
    obtain ⟨fsm,call⟩ := r
    rw [hpump] at h
    cases h
    cases call with
    | none => exact reply_none F chn c st.world
    | some call =>
      have hc := pump_call hpump
      rw [hc]
      exact reply_some F chn call st.world

/-! ## Runs -/

/-- The bytes of a channel that its FF 55 machine gets, after the outputs at them. -/
def reached (bytes : List UInt8) (answers : List Bool) : List UInt8 :=
  (bytes.zip answers).filterMap fun io => if io.2 then none else some io.1

/-- An FF 55 machine gets bytes: the machine and the functions called. -/
def FwChannel.feed (p : FwChannel) : List UInt8→FwChannel×List FwCall
  | [] => (p,[])
  | c::bytes =>
    let r := FwChannel.feed (p.pump c).1 bytes
    (r.1,(p.pump c).2.toList++r.2)

/-- The functions called for a channel. -/
def dispatchedOf (chn : Fin commChnNum) (b : Board W) : List FwCall :=
  b.dispatched.filterMap fun call => if call.1=chn.val then some call.2 else none

/-- Whether the bytes of a channel end answered frames. -/
def answers (F : Functions W) (chn : Fin commChnNum) (stream : List (ℕ×UInt8))
    (out : List (Option (List UInt8)×Option Call)) : List Bool :=
  ((channels F.handlers).outputsOf chn.val stream out).map answered

/-- The byte of a channel with its answer. -/
theorem answers_cons_self (c : UInt8)
    (stream : List (ℕ×UInt8)) (o : Option (List UInt8)×Option Call)
    (out : List (Option (List UInt8)×Option Call)) :
    answers F chn ((chn.val,c)::stream) (o::out)=answered o::answers F chn stream out := by
  have houtputs := (channels F.handlers).outputsOf_cons_self (chn.val,c) stream o out
  exact congrArg (List.map answered) houtputs

/-- A byte of another channel. -/
theorem answers_cons_of_ne {chn : Fin commChnNum} {input : ℕ×UInt8}
    (h : chn.val≠input.1) (stream : List (ℕ×UInt8)) (o : Option (List UInt8)×Option Call)
    (out : List (Option (List UInt8)×Option Call)) :
    answers F chn (input::stream) (o::out)=answers F chn stream out := by
  have houtputs := (channels F.handlers).outputsOf_cons_of_ne (show chn.val≠_ from h) stream o out
  exact congrArg (List.map answered) houtputs

theorem bytesOf_cons_self (chn : ℕ) (c : UInt8) (stream : List (ℕ×UInt8)) :
    bytesOf chn ((chn,c)::stream)=c::bytesOf chn stream := by
  simp only [bytesOf,List.filterMap_cons,if_true]

theorem bytesOf_cons_of_ne {chn : ℕ} {input : ℕ×UInt8} (h : chn≠input.1)
    (stream : List (ℕ×UInt8)) : bytesOf chn (input::stream)=bytesOf chn stream := by
  simp only [bytesOf,List.filterMap_cons,if_neg (Ne.symm h)]

/-- The calls of a channel after those of a byte. -/
theorem dispatchedOf_append (chn k : Fin commChnNum) {b b' : Board W} {call : Option FwCall}
    (h : b'.dispatched=b.dispatched++(call.map (k.val,·)).toList) :
    dispatchedOf chn b'=dispatchedOf chn b++if k=chn then call.toList else [] := by
  rw [dispatchedOf,h,List.filterMap_append]
  cases call with
  | none =>
    rw [Option.toList_none,ite_self]
    rfl
  | some call =>
    congr 1
    simp only [Option.map_some,Option.toList_some,List.filterMap_cons,List.filterMap_nil,
      Fin.val_inj]
    by_cases hk : k=chn
    · rw [if_pos hk,if_pos hk]
    · rw [if_neg hk,if_neg hk]

/-- A byte that reaches the FF 55 machine or not, before others. -/
theorem feed_reached_cons (p : FwChannel) (c : UInt8) (bytes : List UInt8) (answer : Bool)
    (flags : List Bool) :
    p.feed (reached (c::bytes) (answer::flags))=
      (((own (!answer) p c).1.feed (reached bytes flags)).1,
        (own (!answer) p c).2.toList++((own (!answer) p c).1.feed (reached bytes flags)).2) := by
  cases answer <;> rfl

/-- The FF 55 machine of a channel runs as it does on the bytes that reach it. -/
theorem run_feed (F : Functions W) (chn : Fin commChnNum) {stream : List (ℕ×UInt8)} :
    ∀ {st st' : State (Board W)} {out : List (Option (List UInt8)×Option Call)},
      run (pumpChar F) st stream=.ok (st',out) →
      let r := (st.world.fwFsmTab.get chn).feed
        (reached (bytesOf chn.val stream) (answers F chn stream out))
      st'.world.fwFsmTab.get chn=r.1∧dispatchedOf chn st'.world=dispatchedOf chn st.world++r.2 := by
  induction stream with
  | nil =>
    intro st st' out h
    cases h
    exact ⟨rfl,(List.append_nil _).symm⟩
  | cons input stream ih =>
    intro st st' out h
    obtain ⟨m,o,out',hstep,hrest,rfl⟩ := run_cons_eq_ok.mp h
    obtain ⟨hmachine,hcalls⟩ := ih hrest
    obtain ⟨tag,c⟩ := input
    by_cases hlt : tag < commChnNum
    · have haffects := @step_affects _ F _ _ ⟨tag,hlt⟩ c o hstep
      have hown := dispatchedOf_append chn ⟨tag,hlt⟩ haffects.calls
      by_cases htag : (⟨tag,hlt⟩ : Fin commChnNum)=chn
      · subst htag
        rw [if_pos rfl] at hown
        rw [haffects.self] at hmachine hcalls
        rw [bytesOf_cons_self,answers_cons_self,feed_reached_cons]
        refine ⟨hmachine,?_⟩
        rw [hcalls,hown,List.append_assoc]
      · have hne : chn.val≠tag := fun heq => htag (Fin.ext heq.symm)
        rw [if_neg htag,List.append_nil] at hown
        rw [haffects.others chn (Ne.symm htag),hown] at hcalls
        rw [haffects.others chn (Ne.symm htag)] at hmachine
        rw [bytesOf_cons_of_ne hne,answers_cons_of_ne F hne]
        exact ⟨hmachine,hcalls⟩
    · have hne : chn.val≠tag := fun heq => hlt (heq▸chn.isLt)
      have hm : m=st := by
        rw [pumpChar,codeyCommProtocolPumpChar] at hstep
        split at hstep
        · cases hstep
          rfl
        · cases hstep
      rw [hm] at hmachine hcalls
      rw [bytesOf_cons_of_ne hne,answers_cons_of_ne F hne]
      exact ⟨hmachine,hcalls⟩

/-- The stream of a channel alone. -/
def alone (chn : Fin commChnNum) (stream : List (ℕ×UInt8)) : List (ℕ×UInt8) :=
  (bytesOf chn.val stream).map (chn.val,·)

theorem bytesOf_alone (stream : List (ℕ×UInt8)) :
    bytesOf chn.val (alone chn stream)=bytesOf chn.val stream := by
  rw [bytesOf,alone,List.filterMap_map]
  have hself : (fun i : ℕ×UInt8 => if i.1=chn.val then some i.2 else none)∘(chn.val,·)=
      some := by
    funext c
    exact if_pos rfl
  rw [hself,List.filterMap_some]

/-- Alone all bytes are those of the channel. -/
theorem dest_alone (stream : List (ℕ×UInt8)) :
    ∀ i∈alone chn stream,(channels F.handlers).dest i=chn.val := by
  intro i hi
  obtain ⟨c,_,rfl⟩ := List.mem_map.mp hi
  rfl

theorem channel_eq (st : State (Board W)) (chn : Fin commChnNum) :
    channel st chn.val=.fsm (st.fsmTab.get chn) := by
  rw [channel,dif_pos chn.isLt]

/-- However the bytes of the channels are interleaved, as long as they stay within
the F3 protocol's arrays, a channel gets the F3 frames and ends with the F3 machine
that it gets and ends with alone. The same holds for the FF 55 protocol if the same
bytes of the channel end answered frames. -/
theorem isolated (F : Functions W) (w : W) (stream : List (ℕ×UInt8)) (st : State (Board W))
    (out : List (Option (List UInt8)×Option Call))
    (hrun : run (pumpChar F) (start w) stream=.ok (st,out)) (chn : Fin commChnNum) :
    ∃ st' out',run (pumpChar F) (start w) (alone chn stream)=.ok (st',out')∧
      ((channels F.handlers).outputsOf chn.val stream out).map Prod.snd=out'.map Prod.snd∧
      st.fsmTab.get chn=st'.fsmTab.get chn∧
      (answers F chn stream out=out'.map answered →
        dispatchedOf chn st.world=dispatchedOf chn st'.world∧
        st.world.fwFsmTab.get chn=st'.world.fwFsmTab.get chn) := by
  have hpart := (channels F.handlers).run_part chn.val hrun
  have hinputs : (alone chn stream).map (channels F.handlers).input=
      (channels F.handlers).inputsOf chn.val stream := by
    rw [alone,List.map_map]
    exact List.map_id _
  rw [←hinputs] at hpart
  obtain ⟨st',out',halone,hviews,hmachine,_⟩ :=
    (channels F.handlers).run_of_dest chn.val _ (dest_alone F chn stream) _ hpart
  refine ⟨st',out',halone,hviews.symm,?_,?_⟩
  · have hfsm : channel st' chn.val=channel st chn.val := hmachine
    rw [channel_eq,channel_eq] at hfsm
    exact (Channel.fsm.inj hfsm).symm
  · intro hanswers
    obtain ⟨hwhole,hcalls⟩ := run_feed F chn hrun
    obtain ⟨hown,hcalls'⟩ := run_feed F chn halone
    have houtputs := (channels F.handlers).outputsOf_of_dest (dest_alone F chn stream)
      (length_of_run halone)
    rw [answers,houtputs,bytesOf_alone,←hanswers] at hown hcalls'
    exact ⟨hcalls.trans hcalls'.symm,hwhole.trans hown.symm⟩

/-! ## The product test -/

/-- `BUTTON_MAX` -/
def buttonMax : ℕ := 5

/-- `GYRO_DATA_MAX` -/
def gyroDataMax : ℕ := 7

/-- What the sensors say. -/
structure Sensors where
  /-- `codey_is_button_pressed_t` -/
  button : UInt8→UInt8
  /-- The potentiometer, scaled to 100. -/
  dail : UInt8
  light : UInt8
  sound : UInt8
  /-- The bytes of the battery's voltage. -/
  battery : List UInt8
  /-- `codey_rmt_board_get_single_char_t` -/
  irRec : UInt8
  /-- The bytes of `codey_gyro_sensor_value_t`. -/
  gyro : UInt8→List UInt8

/-- `codey_product_test_request` on `s_product_test_enable`: the reply. The handlers of
the speaker, the lights and the infrared sender give none. Where a command reads
behind its data there are zeros. -/
def codeyProductTestRequest (sensors : Sensors) (data : List UInt8) (enable : Bool) :
    List UInt8×Bool :=
  let sensorId := data.getD 0 0
  let value := data.getD 1 0
  if enable=false∧sensorId≠0 then ([],enable)
  else
    match sensorId.toNat with
    | 0 => ([sensorId,value,1],
        if value=1 then true else if value=0 then false else enable)
    | 1 => (if buttonMax < value.toNat then [] else [sensorId,value,sensors.button value],enable)
    | 2 => ([sensorId,sensors.dail],enable)
    | 3 => ([sensorId,sensors.light],enable)
    | 4 => ([sensorId,sensors.sound],enable)
    | 5 => (sensorId::sensors.battery,enable)
    | 6 => ([sensorId,sensors.irRec],enable)
    | 7 => (if gyroDataMax≤value.toNat then [] else sensorId::value::sensors.gyro value,enable)
    | _ => ([],enable)

/-- A robot at rest. -/
def atRest : Sensors := ⟨fun _ => 0,0,0,0,[0,0,0,0],0,fun _ => [0,0,0,0]⟩

/-- The product test as the only handler. -/
def productTest : Functions Bool where
  protocol
    | .productTest,_,data,enable => codeyProductTestRequest atRest data enable
    | _,_,_,enable => ([],enable)
  fwFunctions _ _ _ enable := ([],enable)
  pvPortMalloc _ _ := true

/-- A frame that switches the product test on. -/
def switchOn : List UInt8 := [0xF3,0xF6,0x03,0x00,0x0A,0x00,0x01,0x0B,0xF4]

/-- On `UART0_DATA_TAG` a frame switches the product test on. On `BLE_DATA_TAG` the
byte `FF` and a frame that asks for the potentiometer, with `55` as its last data. -/
def twoChannels : List (ℕ×UInt8) :=
  switchOn.map (1,·)++[0xFF,0xF3,0xF6,0x03,0x00,0x0A,0x02,0x55,0x61,0xF4].map (0,·)

/-- The second channel's frame is answered in both runs, so that all of the channel is
as when it is alone. -/
theorem isolated_twoChannels :
    ∃ st out st' out',run (pumpChar productTest) (start false) twoChannels=.ok (st,out)∧
      run (pumpChar productTest) (start false) (alone ⟨1,by decide⟩ twoChannels)= .ok (st',out')∧
      st.fsmTab.get ⟨1,by decide⟩=st'.fsmTab.get ⟨1,by decide⟩∧
      dispatchedOf ⟨1,by decide⟩ st.world=dispatchedOf ⟨1,by decide⟩ st'.world∧
      st.world.fwFsmTab.get ⟨1,by decide⟩=st'.world.fwFsmTab.get ⟨1,by decide⟩ := by
  obtain ⟨⟨st,out⟩,hrun,hanswers⟩ :
      ∃ r,run (pumpChar productTest) (start false) twoChannels=.ok r∧
        answers productTest ⟨1,by decide⟩ twoChannels r.2=
          List.replicate 8 false++[true] := ⟨_,rfl,by decide +kernel⟩
  have hbytes : alone ⟨1,by decide⟩ twoChannels=switchOn.map (1,·) := rfl
  obtain ⟨r,hown,hflags⟩ :
      ∃ r,run (pumpChar productTest) (start false) (switchOn.map (1,·))=.ok r∧
        r.2.map answered=List.replicate 8 false++[true] := ⟨_,rfl,by decide +kernel⟩
  obtain ⟨st',out',halone,_,hfsm,hff55⟩ :=
    isolated productTest false twoChannels st out hrun ⟨1,by decide⟩
  have hr : r=(st',out') := Except.ok.inj (hown.symm.trans (hbytes▸halone))
  rw [hr] at hflags
  obtain ⟨hcalls,hmachine⟩ := hff55 (hanswers.trans hflags.symm)
  exact ⟨st,out,st',out',hrun,halone,hfsm,hcalls,hmachine⟩

/-- The first channel's FF 55 machine waits for the index after the run, and for the
mode when the channel is alone. -/
theorem notIsolated : (∃ r,run (pumpChar productTest) (start false) twoChannels=.ok r∧
      (r.1.world.fwFsmTab.get ⟨0,by decide⟩).val.s=.sFwIndex)∧
    ∃ r,run (pumpChar productTest) (start false) (alone ⟨0,by decide⟩ twoChannels)=.ok r∧
      (r.1.world.fwFsmTab.get ⟨0,by decide⟩).val.s=.sFwMode := by
  exact ⟨⟨_,rfl,rfl⟩,⟨_,rfl,rfl⟩⟩

end MicroPython.CommIsolation
