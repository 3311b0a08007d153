import MicroPython.CommFrames

/-!
# Delivery of frames

Frames that the sender builds, one after the other and with noise around them,
are handed to the handlers of their protocols, each at its last byte, whatever
the bytes of their payloads are.
-/

namespace MicroPython.CommDelivery

open UInt8 List CommProtocol CommFrames InputMachine

/-- Bytes without a frame header. -/
def Noise := {bytes : List UInt8//∀ c∈bytes,c≠frameHeader}

/-- A frame to send and the noise before it. -/
structure Item where
  /-- The noise before the frame. -/
  noise : Noise
  protocol : Protocol
  payload : List UInt8
  /-- The receiver has room for the payload and its protocol id. -/
  fits : payload.length+1≤frameDataMaxLen

/-- The frame of an item. -/
def Item.frame (item : Item) : List UInt8 :=
  codeyCommBuildFrame true item.protocol.id item.payload

/-- The bytes of an item on the channel. -/
def Item.bytes (item : Item) : List UInt8 := item.noise.val++item.frame

/-- The call of an item's handler. -/
def Item.call (item : Item) : Call := ⟨item.protocol,item.protocol.id,item.payload⟩

/-- The calls of handlers at the bytes of an item: the one at the last byte. -/
def Item.calls (item : Item) : List (Option Call) :=
  List.replicate (item.bytes.length-1) none++[some item.call]

/-- Noise is passed. -/
theorem run_noise {p : Fsm} (hs : p.s=.sHead) (noise : Noise) :
    run Fsm.pump p noise.val=.ok (p,List.replicate noise.val.length none) := by
  obtain ⟨bytes,hclean⟩ := noise
  induction bytes with
  | nil => rfl
  | cons c bytes ih =>
    have hfirst := pump_head_skip hs (hclean c mem_cons_self)
    have hrest := ih (fun d hd => hclean d (mem_cons_of_mem _ hd))
    exact run_cons_eq_ok.mpr ⟨p,none,_,hfirst,hrest,rfl⟩

/-- Sums of bytes from another start. -/
theorem foldl_add (data : List UInt8) (a b : UInt8) :
    data.foldl (·+·) (a+b)=data.foldl (·+·) a+b := by
  induction data generalizing a with
  | nil => rfl
  | cons c data ih =>
    have hcomm : a+b+c=a+c+b := by
      rw [UInt8.add_assoc,UInt8.add_comm b,UInt8.add_assoc]
    rw [foldl_cons,foldl_cons,hcomm,ih]

theorem checkSum_cons (id : UInt8) (data : List UInt8) :
    codeyCalcAddCheckSum (id::data)=codeyCalcAddCheckSum data+id := by
  rw [codeyCalcAddCheckSum,foldl_cons,foldl_add]
  rfl

theorem announced_length {n : ℕ} (h : n≤frameDataMaxLen) :
    announced n.toUInt8 (n>>>8).toUInt8=n := by
  unfold frameDataMaxLen at h
  rw [announced,toNat_ofNat',toNat_ofNat',Nat.shiftRight_eq_div_pow]
  omega

/-- Each protocol is found under its id. -/
theorem codeyGetProtocolById_id (protocol : Protocol) :
    codeyGetProtocolById protocol.id=.ok (some protocol) := by
  cases protocol <;> rfl

theorem frame_eq (item : Item) : item.frame=
    [frameHeader,frameHeader+(item.payload.length+1).toUInt8+
      ((item.payload.length+1)>>>8).toUInt8,(item.payload.length+1).toUInt8,
      ((item.payload.length+1)>>>8).toUInt8]++((item.protocol.id::item.payload)++
        [codeyCalcAddCheckSum (item.protocol.id::item.payload),frameEnd]) := by
  rw [checkSum_cons]
  rfl

/-- A frame is delivered at its last byte. -/
theorem run_frame {p : Fsm} (hs : p.s=.sHead) (item : Item) :
    ∃ q,run Fsm.pump p item.frame=
        .ok (q,List.replicate (item.frame.length-1) none++[some item.call])∧q.s=.sHead := by
  have hlength := announced_length item.fits
  have hfits := item.fits
  obtain ⟨q,hhead,hqs,hqlen,hqrecv,hqcheck⟩ := run_head hs
    (frameHeader+(item.payload.length+1).toUInt8+((item.payload.length+1)>>>8).toUInt8)
    (item.payload.length+1).toUInt8 ((item.payload.length+1)>>>8).toUInt8
  rw [if_pos rfl] at hqs
  rw [hlength] at hqlen
  obtain ⟨r,hdata,hrs,hrlen,hrcheck,hrdata⟩ := @run_body q hqs hqrecv hqcheck
    (item.protocol.id::item.payload) hqlen (Nat.succ_pos _) hfits
  obtain ⟨t,hcheck,hts,htdata,htlen⟩ := pump_check hrs r.check
  rw [if_pos rfl] at hts
  rw [hrcheck] at hcheck
  -- what the handler gets
  have hid : t.data.toList.headD 0=item.protocol.id := by
    rw [htdata]
    cases hlist : r.data.toList with
    | nil =>
      rw [hlist,take_nil] at hrdata
      cases hrdata
    | cons d ds =>
      rw [hlist,length_cons,take_succ_cons,List.cons.injEq] at hrdata
      exact hrdata.1
  have hpayload : (t.data.toList.drop 1).take (t.len.toNat-1)=item.payload := by
    have hdrop := congrArg (List.drop 1) hrdata
    rw [drop_take] at hdrop
    rw [htdata,htlen,hrlen,hqlen]
    exact hdrop
  have hend : t.pump frameEnd=.ok ({t with s := .sHead},some item.call) := by
    simp only [Fsm.pump,hts,if_true]
    rw [hid,codeyGetProtocolById_id,hpayload]
    rfl
  have htail : run Fsm.pump r [codeyCalcAddCheckSum (item.protocol.id::item.payload),frameEnd]=
        .ok ({t with s := .sHead},[none,some item.call]) :=
    run_cons_eq_ok.mpr ⟨t,none,_,hcheck,run_cons_eq_ok.mpr ⟨_,_,[],hend,rfl,rfl⟩,rfl⟩
  refine ⟨{t with s := .sHead},?_,rfl⟩
  have hrun := run_append hhead (run_append hdata htail)
  rw [←frame_eq] at hrun
  rw [hrun]
  have hcount : item.frame.length-1=4+((item.protocol.id::item.payload).length+1) := by
    rw [frame_eq]
    simp only [length_append,length_cons,length_nil]
    omega
  have hcalls : ∀ n,[none,none,none,none]++(List.replicate n none++[none,some item.call])=
      List.replicate (4+(n+1)) none++[some item.call] := by
    intro n
    rw [replicate_add 4,replicate_add n 1,append_assoc,append_assoc]
    rfl
  rw [hcount,hcalls]

/-- An item is delivered at its last byte. -/
theorem run_item {p : Fsm} (hs : p.s=.sHead) (item : Item) :
    ∃ q,run Fsm.pump p item.bytes=.ok (q,item.calls)∧q.s=.sHead := by
  obtain ⟨q,hframe,hqs⟩ := run_frame hs item
  have hrun := run_append (run_noise hs item.noise) hframe
  have hpos : 1 ≤ item.frame.length := by
    rw [frame_eq]
    simp
  have hcount : item.bytes.length-1=item.noise.val.length+(item.frame.length-1) := by
    rw [Item.bytes,length_append]
    omega
  refine ⟨q,?_,hqs⟩
  rw [Item.bytes,hrun,Item.calls,hcount,replicate_add,append_assoc]

/-- Items in a row are delivered one after the other. -/
theorem run_items (items : List Item) : ∀ p : Fsm,p.s=.sHead →
    ∃ q,run Fsm.pump p (items.flatMap Item.bytes)=.ok (q,items.flatMap Item.calls)∧q.s=.sHead := by
  induction items with
  | nil => exact fun p hs => ⟨p,rfl,hs⟩
  | cons item items ih =>
    intro p hs
    obtain ⟨q,hfirst,hqs⟩ := run_item hs item
    obtain ⟨r,hrest,hrs⟩ := ih q hqs
    exact ⟨r,run_append hfirst hrest,hrs⟩

variable {W : Type}

/-- Frames with noise around them, pumped into a channel whose state machine looks
for a header, are delivered in order, each once and at its last byte, and the state
machine looks for a header again. -/
theorem delivers (H : Handlers W) (st : State W) (chn : Fin commChnNum)
    (hs : (st.fsmTab.get chn).s=.sHead) (items : List Item) (noise : Noise) :
    ∃ st' out,run (codeyCommProtocolPumpChar H) st
        ((items.flatMap Item.bytes++noise.val).map (chn.val,·))=.ok (st',out)∧
      out.map Prod.snd=items.flatMap Item.calls++List.replicate noise.val.length none∧
      (st'.fsmTab.get chn).s=.sHead := by
  have hchannel : ∀ t : State W,channel t chn.val=.fsm (t.fsmTab.get chn) := fun t => by
    rw [channel,dif_pos chn.isLt]
  obtain ⟨q,hitems,hqs⟩ := run_items items (st.fsmTab.get chn) hs
  have hrun := run_append hitems (run_noise hqs noise)
  have hpart : run Channel.pump (channel st chn.val)
      (((items.flatMap Item.bytes++noise.val).map (chn.val,·)).map (channels H).input)=
        .ok (.fsm q,items.flatMap Item.calls++List.replicate noise.val.length none) := by
    have hinput : ((items.flatMap Item.bytes++noise.val).map (chn.val,·)).map (channels H).input=
        items.flatMap Item.bytes++noise.val := by
      rw [List.map_map]
      exact List.map_id _
    rw [hinput,hchannel,run_fsm,hrun]
  have hdest : ∀ i∈(items.flatMap Item.bytes++noise.val).map (chn.val,·),
      (channels H).dest i=chn.val := by
    intro i hi
    obtain ⟨c,_,rfl⟩ := List.mem_map.mp hi
    rfl
  obtain ⟨st',out,hwhole,hview,hget,_⟩ := (channels H).run_of_dest chn.val _ hdest st hpart
  refine ⟨st',out,hwhole,hview,?_⟩
  have hfsm : Channel.fsm (st'.fsmTab.get chn)=.fsm q := (hchannel st').symm.trans hget
  rw [Channel.fsm.inj hfsm]
  exact hqs

/-- One byte of noise. -/
def Noise.single (c : UInt8) (h : c≠frameHeader) : Noise :=
  ⟨[c],fun d hd => List.mem_singleton.mp hd▸h⟩

/-- Two frames with marker bytes in a payload and noise before them. -/
def twoFrames : List Item :=
  [⟨.single 0x55 (by decide),.neuFtp,[0xF3,0xF4],by decide⟩,
    ⟨.single 0xF4 (by decide),.getFilesys,[],by decide⟩]

/-- The two frames are delivered from the start of the program on. -/
theorem delivers_twoFrames :
    ∃ st' out,run (codeyCommProtocolPumpChar silent) (State.initial ())
        ((twoFrames.flatMap Item.bytes++[0x00]).map (0,·))=.ok (st',out)∧
      out.map Prod.snd=List.replicate 9 none++[some ⟨.neuFtp,1,[0xF3,0xF4]⟩]++
        (List.replicate 7 none++[some ⟨.getFilesys,12,[]⟩])++[none]∧
      (st'.fsmTab.get ⟨0,by decide⟩).s=.sHead :=
  delivers silent (State.initial ()) ⟨0,by decide⟩ rfl twoFrames (.single 0x00 (by decide))

example : twoFrames.flatMap Item.bytes=[0x55,0xF3,0xF6,0x03,0x00,0x01,0xF3,0xF4,0xE8,0xF4,
    0xF4,0xF3,0xF4,0x01,0x00,0x0C,0x0C,0xF4] := by
  decide

end MicroPython.CommDelivery
