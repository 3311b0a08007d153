import MicroPython.FtpFrames
import MicroPython.FtpSplitting

/-!
# Files over the link

The bytes of the link go through the frames of the file receiver to the receiver. A header and
blocks that are sent in frames, with any bytes but a head between them, store the file.
-/

namespace MicroPython.FtpLink

open List InputMachine FtpFrames FtpReceiver FtpSplitting

/-- The frames and the receiver behind them. -/
structure Link where
  /-- The frames. -/
  pump : Pump
  receiver : FtpReceiver.State

/-- `codey_neurons_ftp_pump_char` with its calls of `codey_neurons_ftp_parse`: a byte, with what
happens during the command that it completes. -/
def Link.pumpChar (l : Link) (i : Arrival×Outcome) :
    Except FtpFrames.Fault (Link×Option Reply) := do
  let (p,o) ← l.pump.pumpChar i.1
  match o.call with
  | none => .ok (⟨p,l.receiver⟩,none)
  | some call =>
    -- the length is counted in a byte, so that there is no other case
    if h : call.cmdData.length < 2^16 then
      let r := finish (parseCommand l.receiver ⟨call.cmdId,call.cmdData,h,i.2⟩)
      .ok (⟨p,r.1⟩,some r.2)
    else .ok (⟨p,l.receiver⟩,none)

/-- Bytes behind which nothing else is left bring a command: no head, and the frame of the command,
for whose data there is memory. What happens during the command comes with the last byte. -/
structure Brings (inputs : List (Arrival×Outcome)) (c : Command) : Prop where
  bytes : ∃ garbage devId,header∉garbage∧
    (inputs.map Prod.fst).map Arrival.c=garbage++frame devId c.cmdId c.cmdData∧
    (mallocAt (inputs.map Prod.fst) (garbage.length+5)).isSome
  /-- What happens. -/
  outcome : inputs.getLast?.map Prod.snd=some c.outcome

/-- The receiver is not concerned with bytes at which no call is made. -/
theorem run_quiet {inputs : List (Arrival×Outcome)} {s : FtpReceiver.State} {p q : Pump}
    {os : List Output} (hrun : run Pump.pumpChar p (inputs.map Prod.fst)=.ok (q,os))
    (hcalls : calls os=[]) :
    run Link.pumpChar ⟨p,s⟩ inputs=.ok (⟨q,s⟩,replicate inputs.length none) := by
  induction inputs generalizing p os with
  | nil =>
    cases hrun
    rfl
  | cons i inputs ih =>
    obtain ⟨p',o,os,hstep,hrest,rfl⟩ := run_cons_eq_ok.mp hrun
    obtain ⟨hcall,hcalls⟩ := forall_mem_cons.mp (filterMap_eq_nil_iff.mp hcalls)
    refine run_cons_eq_ok.mpr ⟨⟨p',s⟩,none,_,?_,ih hrest (filterMap_eq_nil_iff.mpr hcalls),rfl⟩
    simp [Link.pumpChar,hstep,hcall,bind,Except.bind]

variable {l : Link} {c : Command}

/-- A command that is brought is handled. -/
theorem run_command (h : l.pump.state=.headS) (hvalid : isValidCmd c.cmdId=true)
    (hne : c.cmdData≠[]) (hlt : c.cmdLen < 256) {inputs : List (Arrival×Outcome)}
    (hbrings : Brings inputs c) : ∃ p os,p.state=.headS∧
      run Link.pumpChar l inputs=.ok (⟨p,(finish (parseCommand l.receiver c)).1⟩,os)∧
      os.filterMap id=[(finish (parseCommand l.receiver c)).2] := by
  obtain ⟨⟨garbage,devId,hgarbage,hbytes,hmalloc⟩,houtcome⟩ := hbrings
  obtain ⟨init,last,q,os,hinputs,hrun,hcalls,hlast⟩ :=
    run_frame h hgarbage hvalid hne hlt hbytes hmalloc
  obtain ⟨before,after,rfl,rfl,hafter⟩ := map_eq_append_iff.mp hinputs
  obtain ⟨i,rfl,rfl⟩ := map_eq_singleton_iff.mp hafter
  have hquiet := @run_quiet before l.receiver _ _ _ hrun hcalls
  have hend : Link.pumpChar ⟨q,l.receiver⟩ i=.ok (⟨{q with state := .headS},
      (finish (parseCommand l.receiver c)).1⟩,some (finish (parseCommand l.receiver c)).2) := by
    have hi : i.2=c.outcome := by simpa using houtcome
    simp [Link.pumpChar,hlast,bind,Except.bind,hi]
    exact dif_pos c.cmdLen_lt
  refine ⟨_,_,rfl,run_append hquiet (run_cons_eq_ok.mpr ⟨_,_,[],hend,run_nil _,rfl⟩),?_⟩
  simp

/-- Commands that are brought are handled in their order. -/
theorem run_commands {parts : List (List (Arrival×Outcome))} {commands : List Command}
    (hparts : Forall₂ Brings parts commands)
    (hvalid : ∀ c∈commands,isValidCmd c.cmdId=true∧c.cmdData≠[]∧c.cmdLen < 256)
    (h : l.pump.state=.headS) {t : FtpReceiver.State} {replies : List Reply}
    (hrun : run codeyNeuronsFtpParse l.receiver commands=.ok (t,replies)) :
    ∃ p os,p.state=.headS∧run Link.pumpChar l parts.flatten=.ok (⟨p,t⟩,os)∧
      os.filterMap id=replies := by
  induction hparts generalizing l replies with
  | nil =>
    cases hrun
    exact ⟨l.pump,[],h,rfl,rfl⟩
  | cons hpart hparts ih =>
    obtain ⟨⟨hid,hne,hlt⟩,hrest⟩ := forall_mem_cons.mp hvalid
    obtain ⟨s,reply,others,hstep,hothers,rfl⟩ := run_cons_eq_ok.mp hrun
    obtain ⟨p,os,hp,hfirst,hreply⟩ := run_command h hid hne hlt hpart
    rw [Except.ok.inj hstep] at hfirst hreply
    obtain ⟨q,os',hq,hlast,hreplies⟩ := ih hrest (show (Link.mk p s).pump.state=.headS from hp)
      hothers
    refine ⟨q,os++os',hq,run_append hfirst hlast,?_⟩
    rw [filterMap_append,hreply,hreplies]
    rfl

/-- A command in a frame behind a byte of garbage. -/
def sent (c : Command) : List (Arrival×Outcome) :=
  (arrivalsOf (0::frame 1 c.cmdId c.cmdData)).map fun a => (a,c.outcome)

/-- It is brought. -/
theorem sent_brings (c : Command) : Brings (sent c) c :=
  ⟨⟨[0],1,by decide,by simp [sent,arrivalsOf,Function.comp_def],rfl⟩,by
    simp [sent,arrivalsOf,frame,getLast?_cons,getLast?_append]⟩

end MicroPython.FtpLink
