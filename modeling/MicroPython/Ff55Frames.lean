import MicroPython.Ff55Protocol

/-!
# Frames of the FF 55 protocol

A frame is `FF`, `55`, a length, an index, a mode and a command, without anything in
between. The state machine finds all frames, but once it has seen `FF` it takes the next
`55` for the second byte of a head, however many bytes are in between.
-/

namespace MicroPython.Ff55Frames

open Nat Ff55Protocol InputMachine CommProtocol

/-- The call that a frame asks for, when the table has a function for it. -/
def frameCall (index mode cmd : UInt8) : Option FwCall :=
  (codeyCmdElemModeId mode cmd).bind fun e => e.cmdExe.map fun f => ⟨f,[index,mode,cmd]⟩

/-- The calls at the bytes behind a head, of which there are at most four. -/
def bodyCalls : List UInt8→List (Option FwCall)
  | [_,index,mode,cmd] => [none,none,none,frameCall index mode cmd]
  | body => body.map fun _ => none

/-- The bytes begin with a head. -/
def HeadFirst (bytes : List UInt8) : Prop := [fwFrameHeader1,fwFrameHeader2] <+: bytes

instance (bytes : List UInt8) : Decidable (HeadFirst bytes) :=
  inferInstanceAs (Decidable (_ <+: _))

/-- The calls at each of the bytes: the leftmost frame is taken, then the leftmost frame
behind it, and so on. -/
def frameCalls : List UInt8→List (Option FwCall)
  | [] => []
  | c::bytes =>
    if HeadFirst (c::bytes) then
      none::none::bodyCalls (bytes.tail.take 4)++frameCalls (bytes.drop 5)
    else none::frameCalls bytes
termination_by bytes => bytes.length
decreasing_by
  · rw [List.length_drop,List.length_cons]
    omega
  · exact Nat.lt_succ_self _

/-- Between the frames no `55` comes after an `FF`; whether an `FF` has come since the last
frame is told. -/
def HeadsTogether : Bool→List UInt8→Prop
  | _,[] => True
  | seen,c::bytes =>
    if HeadFirst (c::bytes) then HeadsTogether false (bytes.drop 5)
    else ¬(seen=true∧c=fwFrameHeader2)∧HeadsTogether (seen||c==fwFrameHeader1) bytes
termination_by _ bytes => bytes.length
decreasing_by
  · rw [List.length_drop,List.length_cons]
    omega
  · exact Nat.lt_succ_self _

section Body

/-- The length clears the index into the data. -/
theorem pump_len {p : FwFsm} (h : p.s=.sFwLen) (c : UInt8) :
    p.pump c=.ok ({p with
      len := c
      recvLen := 0
      s := .sFwIndex},none) := by
  rw [FwFsm.pump,h]

theorem pump_index {p : FwFsm} (h : p.s=.sFwIndex) (hlen : p.recvLen=0) (c : UInt8) :
    p.pump c=.ok ({p with
      index := c
      data := p.data.set 0 c
      recvLen := 1
      s := .sFwMode},none) := by
  obtain ⟨s,recvLen,len,index,mode,cmd,data⟩ := p
  cases h
  cases hlen
  rfl

theorem pump_mode {p : FwFsm} (h : p.s=.sFwMode) (hlen : p.recvLen=1) (c : UInt8) :
    p.pump c=.ok ({p with
      mode := c
      data := p.data.set 1 c
      recvLen := 2
      s := .sFwCmd},none) := by
  obtain ⟨s,recvLen,len,index,mode,cmd,data⟩ := p
  cases h
  cases hlen
  rfl

/-- The first data of an array after they have been written. -/
theorem take_set (data : Vector UInt8 fwMaxDataLen) (a b c : UInt8) :
    (((data.set 0 a).set 1 b).set 2 c).toList.take 3=[a,b,c] := by
  have hlen : data.toList.length=fwMaxDataLen := Vector.length_toList
  rw [Vector.toList_set,Vector.toList_set,Vector.toList_set]
  match data.toList,hlen with
  | x::y::z::rest,_ => rfl

/-- The function that the table has for the command is called with the three data. -/
theorem commanded_call {p : FwFsm} {a b c : UInt8}
    (h : p.data.toList.take p.recvLen.toNat=[a,b,c]) (hmode : p.mode=b) (hcmd : p.cmd=c) :
    p.commanded.2=frameCall a b c := by
  rw [FwFsm.commanded,frameCall,hmode,hcmd]
  cases hfind : codeyCmdElemModeId b c with
  | none => rfl
  | some e =>
    have hzero := expLen_eq_zero hfind
    simp only [hzero,ne_eq,not_true_eq_false,if_false,Option.bind_some]
    rw [FwFsm.exe,h]

/-- The command is the third of the data, and the function that the table has for it is
called. -/
theorem pump_cmd {p : FwFsm} (h : p.s=.sFwCmd) (hlen : p.recvLen=2) {index mode : UInt8}
    {data : Vector UInt8 fwMaxDataLen} (hdata : p.data=(data.set 0 index).set 1 mode)
    (hmode : p.mode=mode) (c : UInt8) :
    ∃ q,p.pump c=.ok (q,frameCall index mode c)∧q.s=.sFwHead1 := by
  obtain ⟨q,hq⟩ : ∃ q : FwFsm,{p with
      cmd := c
      data := p.data.set 2 c
      recvLen := 3}=q := ⟨_,rfl⟩
  have hpump : p.pump c=.ok q.commanded := by
    obtain ⟨s,recvLen,len,i,m,cmd,d⟩ := p
    cases h
    cases hlen
    rw [←hq]
    rfl
  have htake : q.data.toList.take q.recvLen.toNat=[index,mode,c] := by
    rw [←hq]
    rw [hdata]
    exact take_set data index mode c
  have hcall := commanded_call htake (by rw [←hq]; exact hmode) (by rw [←hq])
  refine ⟨q.commanded.1,?_,commanded_s q⟩
  rw [hpump,←hcall]

/-- Behind a head the machine makes the calls of the frame, and looks for a head again
after four bytes. -/
theorem run_body {p : FwFsm} (h : p.s=.sFwLen) {body : List UInt8} (hlen : body.length ≤ 4) :
    ∃ q,run FwFsm.pump p body=.ok (q,bodyCalls body)∧(body.length=4 → q.s=.sFwHead1) := by
  match body,hlen with
  | [],_ => exact ⟨p,rfl,fun h => nomatch h⟩
  | [len],_ =>
    exact ⟨_,run_cons_eq_ok.mpr ⟨_,_,_,pump_len h len,rfl,rfl⟩,fun h => nomatch h⟩
  | [len,index],_ =>
    exact ⟨_,run_cons_eq_ok.mpr ⟨_,_,_,pump_len h len,
      run_cons_eq_ok.mpr ⟨_,_,_,pump_index rfl rfl index,rfl,rfl⟩,rfl⟩,fun h => nomatch h⟩
  | [len,index,mode],_ =>
    exact ⟨_,run_cons_eq_ok.mpr ⟨_,_,_,pump_len h len,
      run_cons_eq_ok.mpr ⟨_,_,_,pump_index rfl rfl index,
        run_cons_eq_ok.mpr ⟨_,_,_,pump_mode rfl rfl mode,rfl,rfl⟩,rfl⟩,rfl⟩,fun h => nomatch h⟩
  | [len,index,mode,cmd],_ =>
    have hindex := @pump_index {p with
      len := len
      recvLen := 0
      s := .sFwIndex} rfl rfl index
    have hmode := @pump_mode {p with
      len := len
      index := index
      data := p.data.set 0 index
      recvLen := 1
      s := .sFwMode} rfl rfl mode
    obtain ⟨q,hcmd,hq⟩ := @pump_cmd {p with
      len := len
      index := index
      mode := mode
      data := (p.data.set 0 index).set 1 mode
      recvLen := 2
      s := .sFwCmd} rfl rfl index mode p.data rfl rfl cmd
    exact ⟨q,run_cons_eq_ok.mpr ⟨_,_,_,pump_len h len,run_cons_eq_ok.mpr ⟨_,_,_,hindex,
        run_cons_eq_ok.mpr ⟨_,_,_,hmode,
          run_cons_eq_ok.mpr ⟨_,_,_,hcmd,rfl,rfl⟩,rfl⟩,rfl⟩,rfl⟩,fun _ => hq⟩

end Body

section Heads

/-- The machine looks for a head; whether it has seen an `FF` is told. -/
def Looks (p : FwFsm) (seen : Bool) : Prop := p.s=if seen then .sFwHead2 else .sFwHead1

/-- A machine that looks for a head finds it. -/
theorem run_head {p : FwFsm} {seen : Bool} (h : Looks p seen) :
    ∃ q,run FwFsm.pump p [fwFrameHeader1,fwFrameHeader2]=.ok (q,[none,none])∧q.s=.sFwLen := by
  obtain ⟨s,recvLen,len,index,mode,cmd,data⟩ := p
  cases seen with
  | false =>
    cases h
    exact ⟨_,rfl,rfl⟩
  | true =>
    cases h
    exact ⟨_,rfl,rfl⟩

/-- A machine that looks for a head goes on after a byte that is not the second one of it
when it would be taken for it. -/
theorem pump_looks {p : FwFsm} {seen : Bool} (h : Looks p seen) {c : UInt8}
    (hc : ¬(seen=true∧c=fwFrameHeader2)) :
    ∃ q,p.pump c=.ok (q,none)∧Looks q (seen||c==fwFrameHeader1) := by
  cases seen with
  | false =>
    rw [FwFsm.pump,show p.s=.sFwHead1 from h]
    by_cases hhead : fwFrameHeader1=c
    · refine ⟨_,by rw [if_pos hhead],?_⟩
      rw [hhead,beq_self_eq_true]
      rfl
    · refine ⟨_,by rw [if_neg hhead],?_⟩
      rw [Bool.false_or,beq_eq_false_iff_ne.mpr (Ne.symm hhead)]
      exact h
  | true =>
    have hne : ¬fwFrameHeader2=c := fun heq => hc ⟨rfl,heq.symm⟩
    rw [FwFsm.pump,show p.s=.sFwHead2 from h]
    exact ⟨_,by rw [if_neg hne],h⟩

theorem headFirst_split {c : UInt8} {bytes : List UInt8} (h : HeadFirst (c::bytes)) :
    c::bytes=[fwFrameHeader1,fwFrameHeader2]++bytes.tail.take 4++bytes.drop 5 := by
  obtain ⟨rest,hrest⟩ := h
  cases hrest
  exact congrArg (fun l => fwFrameHeader1::fwFrameHeader2::l) (List.take_append_drop 4 rest).symm

/-- The machine makes the calls of the frames, when no `55` comes after an `FF` between
them. -/
theorem run_frames (bytes : List UInt8) : ∀ {p : FwFsm} {seen : Bool},Looks p seen →
    HeadsTogether seen bytes → ∃ q,run FwFsm.pump p bytes=.ok (q,frameCalls bytes) := by
  fun_induction frameCalls bytes with
  | case1 =>
    intro p seen _ _
    exact ⟨p,rfl⟩
  | case2 c bytes hhead ih =>
    intro p seen hlooks htogether
    rw [HeadsTogether,if_pos hhead] at htogether
    obtain ⟨q,hrun,hq⟩ := run_head hlooks
    obtain ⟨t,hbody,hend⟩ := @run_body q hq (bytes.tail.take 4) (List.length_take_le ..)
    rw [headFirst_split hhead]
    by_cases hlen : (bytes.tail.take 4).length=4
    · obtain ⟨u,hrest⟩ := @ih t false (hend hlen) htogether
      exact ⟨u,run_append (run_append hrun hbody) hrest⟩
    · have hnil : bytes.drop 5=[] := by
        rw [List.length_take,List.length_tail] at hlen
        exact List.drop_eq_nil_of_le (by omega)
      have hrest : run FwFsm.pump t (bytes.drop 5)=.ok (t,frameCalls (bytes.drop 5)) := by
        rw [hnil,frameCalls]
        rfl
      exact ⟨t,run_append (run_append hrun hbody) hrest⟩
  | case3 c bytes hhead ih =>
    intro p seen hlooks htogether
    rw [HeadsTogether,if_neg hhead] at htogether
    obtain ⟨q,hpump,hq⟩ := pump_looks hlooks htogether.1
    obtain ⟨t,hrest⟩ := ih hq htogether.2
    exact ⟨t,run_cons_eq_ok.mpr ⟨q,none,_,hpump,hrest,rfl⟩⟩

end Heads

section Torn

/-- The bytes behind a `55` for which the machine calls `codey_fw_read_firmware_version`. -/
def askVersion : List UInt8 := [0,0,fwModeRead,fwCmdFirmwareId]

/-- A machine that has seen `FF` takes a `55` for the second byte of a head. -/
theorem run_torn {p : FwFsm} (h : Looks p true) :
    ∃ q,run FwFsm.pump p (fwFrameHeader2::askVersion)=
      .ok (q,[none,none,none,none,frameCall 0 fwModeRead fwCmdFirmwareId]) := by
  have hpump : p.pump fwFrameHeader2=.ok ({p with s := .sFwLen},none) := by
    rw [FwFsm.pump,show p.s=.sFwHead2 from h,if_pos rfl]
  obtain ⟨q,hbody,-⟩ := @run_body {p with s := .sFwLen} rfl askVersion (Nat.le_refl 4)
  exact ⟨q,run_cons_eq_ok.mpr ⟨_,none,_,hpump,hbody,rfl⟩⟩

/-- No frame is among those bytes. -/
theorem frameCalls_torn : frameCalls (fwFrameHeader2::askVersion)=[none,none,none,none,none] := by
  simp only [askVersion,frameCalls]
  rfl

end Torn

section Exact

/-- Where a `55` comes after an `FF` between frames, the machine makes a call that no frame
asks for when the right bytes follow. -/
theorem run_apart (bytes : List UInt8) : ∀ {p : FwFsm} {seen : Bool},Looks p seen →
    ¬HeadsTogether seen bytes → ∃ front q outputs,front <+: bytes∧
      run FwFsm.pump p (front++askVersion)=.ok (q,outputs)∧
        outputs≠frameCalls (front++askVersion) := by
  fun_induction frameCalls bytes with
  | case1 =>
    intro p seen _ hapart
    rw [HeadsTogether] at hapart
    exact absurd trivial hapart
  | case2 c bytes hhead ih =>
    intro p seen hlooks hapart
    rw [HeadsTogether,if_pos hhead] at hapart
    obtain ⟨q,hrun,hq⟩ := run_head hlooks
    obtain ⟨t,hbody,hend⟩ := @run_body q hq (bytes.tail.take 4) (List.length_take_le ..)
    have hlen : (bytes.tail.take 4).length=4 := by
      by_contra hshort
      rw [List.length_take,List.length_tail] at hshort
      rw [List.drop_eq_nil_of_le (by omega),HeadsTogether] at hapart
      exact hapart trivial
    obtain ⟨front,u,outputs,hfront,hrest,hne⟩ := @ih t false (hend hlen) hapart
    have hsplit := headFirst_split hhead
    obtain ⟨body,hbytes⟩ : ∃ body,bytes.tail.take 4=body := ⟨_,rfl⟩
    rw [hbytes] at hsplit hbody hlen
    refine ⟨[fwFrameHeader1,fwFrameHeader2]++body++front,u,[none,none]++bodyCalls body++outputs,
      ?_,?_,?_⟩
    · rw [hsplit]
      exact List.prefix_append_right_inj _|>.mpr hfront
    · rw [List.append_assoc _ front]
      exact run_append (run_append hrun hbody) hrest
    · intro heq
      apply hne
      have hlead : HeadFirst (fwFrameHeader1::fwFrameHeader2::(body++(front++askVersion))) :=
        List.prefix_append [fwFrameHeader1,fwFrameHeader2] _
      change _=frameCalls (fwFrameHeader1::fwFrameHeader2::(body++front++askVersion)) at heq
      rw [List.append_assoc body,frameCalls,if_pos hlead,List.tail_cons,
        List.take_append_of_le_length (Nat.le_of_eq hlen.symm),
        List.take_of_length_le (Nat.le_of_eq hlen)] at heq
      change _=_++frameCalls ((body++(front++askVersion)).drop 4) at heq
      rw [List.drop_append_of_le_length (Nat.le_of_eq hlen.symm),
        List.drop_of_length_le (Nat.le_of_eq hlen),List.nil_append] at heq
      exact List.append_cancel_left heq
  | case3 c bytes hhead ih =>
    intro p seen hlooks hapart
    rw [HeadsTogether,if_neg hhead] at hapart
    by_cases htorn : seen=true∧c=fwFrameHeader2
    · obtain ⟨hseen,hc⟩ := htorn
      rw [hseen] at hlooks
      obtain ⟨q,hrun⟩ := run_torn hlooks
      refine ⟨[c],q,_,⟨bytes,rfl⟩,by rw [hc]; exact hrun,?_⟩
      rw [hc]
      change _≠frameCalls (fwFrameHeader2::askVersion)
      have hcall : frameCall 0 fwModeRead fwCmdFirmwareId=
        some ⟨.readFirmwareVersion,[0,fwModeRead,fwCmdFirmwareId]⟩ := rfl
      rw [frameCalls_torn,hcall]
      exact fun heq => nomatch heq
    · obtain ⟨q,hpump,hq⟩ := pump_looks hlooks htorn
      obtain ⟨front,u,outputs,hfront,hrest,hne⟩ := ih hq (fun h => hapart ⟨htorn,h⟩)
      refine ⟨c::front,u,none::outputs,(List.prefix_cons_inj c).mpr hfront,
        run_cons_eq_ok.mpr ⟨q,none,_,hpump,hrest,rfl⟩,fun heq => ?_⟩
      apply hne
      have hlater : ¬HeadFirst (c::(front++askVersion)) := by
        intro hfirst
        apply hhead
        cases front with
        | nil =>
          obtain ⟨rest,hrest⟩ := hfirst
          cases hrest
        | cons b front =>
          obtain ⟨rest,hrest⟩ := hfirst
          obtain ⟨tail,htail⟩ := hfront
          cases hrest
          rw [←htail]
          exact ⟨_,rfl⟩
      change none::outputs=frameCalls (c::(front++askVersion)) at heq
      rw [frameCalls,if_neg hlater] at heq
      exact List.tail_eq_of_cons_eq heq

end Exact

section Channel

variable {W : Type}

/-- The state machines at the start of the program. -/
def start (w : W) : FwState W := ⟨Vector.replicate commChnNum FwFsm.initial,w⟩

/-- The bytes of a channel, as the protocol gets them. -/
def ofChannel (chn : Fin commChnNum) (bytes : List UInt8) : List (ℕ×UInt8) :=
  bytes.map fun c => (chn.val,c)

/-- The bytes of a channel find their place in the data of its state machine. -/
theorem run_inPlace (bytes : List UInt8) : ∀ {p : FwFsm},p.InPlace →
    ∃ r,run FwFsm.pump p bytes=.ok r := by
  induction bytes with
  | nil => exact fun _ => ⟨_,rfl⟩
  | cons c bytes ih =>
    intro p h
    obtain ⟨⟨q,o⟩,hpump,hq⟩ := pump_inPlace h c
    obtain ⟨⟨t,os⟩,hrun⟩ := ih hq
    exact ⟨_,run_cons_eq_ok.mpr ⟨q,o,os,hpump,hrun,rfl⟩⟩

/-- The protocol makes the calls of the channel's state machine. -/
theorem run_channel (F : FwFunctions W) (chn : Fin commChnNum) (bytes : List UInt8) :
    ∀ {st : FwState W} {q : FwFsm} {outputs : List (Option FwCall)},
      run FwFsm.pump (st.fwFsmTab.get chn) bytes=.ok (q,outputs) →
      ∃ st' os,run (codeyFf55ProtocolPumpChar F) st (ofChannel chn bytes)=.ok (st',os)∧
        os.map Prod.snd=outputs := by
  induction bytes with
  | nil =>
    intro st q outputs h
    cases h
    exact ⟨st,[],rfl,rfl⟩
  | cons c bytes ih =>
    intro st q outputs h
    obtain ⟨p,call,rest,hpump,hrun,rfl⟩ := run_cons_eq_ok.mp h
    obtain ⟨st₁,hst₁⟩ : ∃ s : FwState W,⟨st.fwFsmTab.set chn.val p chn.isLt,
      (fwReply F chn.val call st.world).2⟩=s := ⟨_,rfl⟩
    have hget : st₁.fwFsmTab.get chn=p := by
      rw [←hst₁]
      exact Vector.getElem_set_self chn.isLt
    rw [←hget] at hrun
    obtain ⟨st',os,hrest,hos⟩ := ih hrun
    refine ⟨st',(some (fwReply F chn.val call st.world).1,call)::os,
      run_cons_eq_ok.mpr ⟨st₁,_,os,?_,hrest,rfl⟩,?_⟩
    · rw [codeyFf55ProtocolPumpChar,if_neg (Nat.not_lt.mpr (Nat.le_of_lt chn.isLt)),
        dif_pos chn.isLt]
      rw [hpump]
      dsimp only
      rw [hst₁]
    · rw [List.map_cons,hos]

/-- The protocol stores no byte outside the data and calls a function exactly at the end of
each frame that asks for one. -/
def Recognises (F : FwFunctions W) (chn : Fin commChnNum) (w : W) (bytes : List UInt8) : Prop :=
  ∃ st os,run (codeyFf55ProtocolPumpChar F) (start w) (ofChannel chn bytes)=.ok (st,os)∧
    os.map Prod.snd=frameCalls bytes

theorem start_get (w : W) (chn : Fin commChnNum) : (start w).fwFsmTab.get chn=FwFsm.initial :=
  Vector.getElem_replicate chn.isLt

/-- No byte of a channel is stored outside the data. When no `55` comes after an `FF` between
frames, the functions are called exactly at the ends of frames; otherwise a function is called
where no frame ends once the right bytes follow. -/
theorem recognises (F : FwFunctions W) (chn : Fin commChnNum) (w : W) (bytes : List UInt8) :
    Succeeds (codeyFf55ProtocolPumpChar F) (start w) (ofChannel chn bytes)∧
      (HeadsTogether false bytes → Recognises F chn w bytes)∧
      (¬HeadsTogether false bytes →
        ∃ front,front <+: bytes∧¬Recognises F chn w (front++askVersion)) := by
  have hget := start_get w chn
  refine ⟨?_,fun htogether => ?_,fun hapart => ?_⟩
  · obtain ⟨⟨q,outputs⟩,hrun⟩ := @run_inPlace bytes FwFsm.initial trivial
    rw [←hget] at hrun
    obtain ⟨st,os,hall,-⟩ := run_channel F chn bytes hrun
    exact ⟨_,hall⟩
  · obtain ⟨q,hrun⟩ := @run_frames bytes FwFsm.initial false rfl htogether
    rw [←hget] at hrun
    exact run_channel F chn bytes hrun
  · obtain ⟨front,q,outputs,hfront,hrun,hne⟩ := @run_apart bytes FwFsm.initial false rfl hapart
    rw [←hget] at hrun
    obtain ⟨st,os,hall,hos⟩ := run_channel F chn _ hrun
    refine ⟨front,hfront,fun ⟨st',os',hall',hos'⟩ => hne ?_⟩
    rw [hall] at hall'
    cases hall'
    rw [←hos,hos']

/-- For `FF 00 55 00 00 01 00` a function is called, though no frame is there. -/
theorem not_recognises :
    ¬∀ (F : FwFunctions Unit) (chn : Fin commChnNum) (w : Unit) (bytes : List UInt8),
      Recognises F chn w bytes := by
  intro h
  obtain ⟨st,os,hrun,hos⟩ := h (fun _ _ _ w => ([],w)) ⟨0,by decide⟩ ()
    [fwFrameHeader1,0,fwFrameHeader2,0,0,fwModeRead,fwCmdFirmwareId]
  have hfsm : ∃ q,run FwFsm.pump FwFsm.initial
      [fwFrameHeader1,0,fwFrameHeader2,0,0,fwModeRead,fwCmdFirmwareId]=
      .ok (q,[none,none,none,none,none,none,
        some ⟨.readFirmwareVersion,[0,fwModeRead,fwCmdFirmwareId]⟩]) := ⟨_,rfl⟩
  obtain ⟨q,hq⟩ := hfsm
  rw [←start_get () ⟨0,by decide⟩] at hq
  obtain ⟨st',os',hrun',hos'⟩ := run_channel (fun _ _ _ w => ([],w)) ⟨0,by decide⟩ _ hq
  rw [hrun] at hrun'
  cases hrun'
  rw [hos] at hos'
  have hnone : frameCalls [fwFrameHeader1,0,fwFrameHeader2,0,0,fwModeRead,fwCmdFirmwareId]=
      [none,none,none,none,none,none,none] := by
    simp only [frameCalls]
    rfl
  rw [hnone] at hos'
  exact nomatch hos'

end Channel

end MicroPython.Ff55Frames
