import Mathlib.Algebra.Group.Nat.Defs
import MicroPython.InputMachine

/-!
# The event mechanism

A script registers events in a table of sixteen: of buttons and movements, of
messages with their text, of light and sound with a threshold. Buttons, sensors and
messages trigger the events of a type, which marks those that occurred. The events
of light and sound keep a flag each, by the place in the table, so that they occur
once when the threshold is passed. An index, an event or a parameter that is not
there and a message that does not fit are faults.
-/

namespace MicroPython.EventMechanism

/-- `CODEY_EVE_MAX_NUM` -/
def codeyEveMaxNum : ℕ := 16

/-- The size of `byte_val`. -/
def byteValSize : ℕ := 64

/-- `codey_event_type_t`, of which any number may be asked for. -/
abbrev EventType := UInt32

/-- `EVE_SOUND_OVER` -/
def eveSoundOver : EventType := 7

/-- `EVE_SOUND_UNDER` -/
def eveSoundUnder : EventType := 8

/-- `EVE_LIGHT_OVER` -/
def eveLightOver : EventType := 9

/-- `EVE_LIGHT_UNDER` -/
def eveLightUnder : EventType := 10

/-- `EVE_MESSAGE` -/
def eveMessage : EventType := 11

/-- The number of the last button event. -/
def lastButton : EventType := 6

/-- `EVENT_TYPE_MAX` -/
def eventTypeMax : ℕ := 25

/-- A `float`, by its bits. -/
structure Single where
  /-- The sign, the exponent and the fraction. -/
  bits : UInt32

/-- The exponent and the fraction. -/
def Single.magnitude (x : Single) : ℕ := x.bits.toNat%2^31

/-- Not a number. -/
def Single.isNan (x : Single) : Bool := decide (0x7F800000 < x.magnitude)

/-- The numbers in their order. Both zeros are the same. -/
def Single.key (x : Single) : ℤ :=
  if x.bits.toNat < 2^31 then (x.magnitude : ℤ) else -(x.magnitude : ℤ)

/-- `<` of C -/
def Single.lt (x y : Single) : Bool := !x.isNan&&!y.isNan&&decide (x.key < y.key)

/-- `<=` of C -/
def Single.le (x y : Single) : Bool := !x.isNan&&!y.isNan&&decide (x.key≤y.key)

/-- A C string: the bytes before the NUL. -/
abbrev CString := {bytes : List UInt8//∀ c∈bytes,c≠0}

/-- What `void *para` points to. -/
inductive Para where
  /-- `NULL` -/
  | null
  /-- A `float`. -/
  | number (x : Single)
  | text (s : CString)

/-- `eve_para_t`, after what was stored in it. -/
inductive EvePara where
  | unset
  /-- `float_val` -/
  | floatVal (x : Single)
  /-- `byte_val` -/
  | byteVal (s : CString)

/-- `codey_eve_single_t` -/
structure EveSingle where
  /-- The place in the table. -/
  eventId : ℕ
  eventType : EventType
  isEventRegister : Bool
  eveOccured : Bool
  evePara : EvePara

/-- The variables of the mechanism. -/
structure State where
  /-- `codey_eve_single`, with what it points to. -/
  codeyEveSingle : Vector (Option EveSingle) codeyEveMaxNum
  /-- `codey_eve_cur_num` -/
  codeyEveCurNum : ℕ
  /-- `s_codey_eve_id` -/
  codeyEveId : ℕ
  /-- `s_codey_eve_started` -/
  codeyEveStarted : Bool
  /-- `s_codey_eve_triggerd` -/
  codeyEveTriggerd : Vector Bool eventTypeMax
  /-- `light_sound_triggerd_flag` -/
  lightSoundTriggerdFlag : Vector Bool codeyEveMaxNum

/-- What goes wrong. -/
inductive Fault where
  | table
  /-- `strcpy` writes behind `byte_val`, at the end of the event. -/
  | byteVal
  | para
  deriving DecidableEq

/-- The mechanism at the start of the program. -/
def State.initial : State where
  codeyEveSingle := Vector.replicate codeyEveMaxNum none
  codeyEveCurNum := 0
  codeyEveId := 0
  codeyEveStarted := false
  codeyEveTriggerd := Vector.replicate eventTypeMax false
  lightSoundTriggerdFlag := Vector.replicate codeyEveMaxNum false

/-- `codey_eve_init_t` -/
def codeyEveInitT (st : State) : State :=
  {st with
    codeyEveCurNum := 0
    codeyEveStarted := false
    codeyEveTriggerd := Vector.replicate eventTypeMax false}

/-- `codey_eve_deinit_t` -/
def codeyEveDeinitT (st : State) : State :=
  {st with
    codeyEveSingle := Vector.replicate codeyEveMaxNum none
    codeyEveId := 0
    codeyEveCurNum := 0
    codeyEveStarted := false
    codeyEveTriggerd := Vector.replicate eventTypeMax false}

/-- The parameter that a registration stores. -/
def storePara (eveType : EventType) (para : Para) : Except Fault EvePara :=
  match para with
  | .null => .ok .unset
  | _ =>
    if eveType≤lastButton then .ok .unset
    else if eveType≤eveLightUnder then
      match para with
      | .number x => .ok (.floatVal x)
      | _ => .error .para
    else if eveType=eveMessage then
      match para with
      | .text s => if s.val.length < byteValSize then .ok (.byteVal s) else .error .byteVal
      | _ => .error .para
    else .ok .unset

/-- `codey_eve_register_t`, when there is memory for the event: the state and the
place of the event, or -1. -/
def codeyEveRegisterT (st : State) (eveType : EventType) (para : Para) : Except Fault (State×ℤ) :=
  if h : st.codeyEveId < codeyEveMaxNum then
    match storePara eveType para with
    | .error e => .error e
    | .ok evePara =>
      .ok ({st with
        codeyEveSingle :=
          st.codeyEveSingle.set st.codeyEveId (some ⟨st.codeyEveId,eveType,true,false,evePara⟩) h
        codeyEveId := st.codeyEveId+1
        codeyEveCurNum := st.codeyEveId+1},(st.codeyEveId : ℤ))
  else .ok (st,-1)

/-- The flag of an event of light or sound, and whether it occurs, when the comparison
holds or is the other way. -/
def edge (holds reset flag : Bool) : Bool×Bool :=
  if !flag&&holds then (true,true) else (if reset then false else flag,false)

/-- `codey_eve_trigger_check` for an event in the table: the flags and the answer. -/
def codeyEveTriggerCheck (st : State) (eveId : Fin codeyEveMaxNum) (e : EveSingle)
    (para : Para) : Except Fault (State×Bool) :=
  if codeyEveMaxNum ≤ st.codeyEveId then .ok (st,false)
  else if e.eventType=eveLightOver∨e.eventType=eveLightUnder then
    match e.evePara,para with
    | .floatVal threshold,.number x =>
      let r := edge (x.lt threshold) (threshold.le x) (st.lightSoundTriggerdFlag.get eveId)
      .ok ({st with
        lightSoundTriggerdFlag := st.lightSoundTriggerdFlag.set eveId.val r.1 eveId.isLt},r.2)
    | _,_ => .error .para
  else if e.eventType=eveSoundOver∨e.eventType=eveSoundUnder then
    match e.evePara,para with
    | .floatVal threshold,.number x =>
      let r := edge (threshold.lt x) (x.lt threshold) (st.lightSoundTriggerdFlag.get eveId)
      .ok ({st with
        lightSoundTriggerdFlag := st.lightSoundTriggerdFlag.set eveId.val r.1 eveId.isLt},r.2)
    | _,_ => .error .para
  else if e.eventType=eveMessage then
    match e.evePara,para with
    | .byteVal s,.text t => .ok (st,decide (s=t))
    | _,_ => .error .para
  else .ok (st,true)

/-- `codey_eve_set_occured_flag_t` for an event in the table. -/
def codeyEveSetOccuredFlagT (st : State) (eveId : Fin codeyEveMaxNum) (e : EveSingle)
    (sta : Bool) : State :=
  {st with
    codeyEveSingle :=
      st.codeyEveSingle.set eveId.val (some {e with eveOccured := sta}) eveId.isLt}

/-- The body of the loop of `codey_eve_trigger_t`: the state, and whether the event
is marked. -/
def triggerOne (eveType : EventType) (para : Para) (st : State) (i : ℕ) :
    Except Fault (State×Bool) :=
  if h : i < codeyEveMaxNum then
    match st.codeyEveSingle.get ⟨i,h⟩ with
    | none => .ok (st,false)
    | some e =>
      if eveType=e.eventType∧e.isEventRegister then
        match codeyEveTriggerCheck st ⟨i,h⟩ e para with
        | .error err => .error err
        | .ok (st,false) => .ok (st,false)
        | .ok (st,true) => .ok (codeyEveSetOccuredFlagT st ⟨i,h⟩ e true,true)
      else .ok (st,false)
  else .error .table

/-- `codey_eve_trigger_t`: the state, and for each place whether its event is marked. -/
def codeyEveTriggerT (st : State) (eveType : EventType) (para : Para) :
    Except Fault (State×List Bool) :=
  InputMachine.run (triggerOne eveType para) st (List.range st.codeyEveCurNum)

end MicroPython.EventMechanism
