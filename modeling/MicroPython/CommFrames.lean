import MicroPython.CommProtocol

/-!
# Frames on a channel

The state machine of a channel takes bytes one at a time. Here the same bytes
are read as whole frames, and the indices of the protocol stay in bounds for
exactly those streams whose accepted heads announce lengths that fit the data
array, unless too little follows to fill it, and whose frames never carry the
id that the guard of the protocol table lets through.
-/

namespace MicroPython.CommFrames

open Nat List CommProtocol InputMachine

/-- The length that two bytes announce. -/
def announced (len1 len2 : UInt8) : ℕ := len1.toNat+256*len2.toNat

/-- A channel's bytes, read as frames from where the next header is looked for.
After a head whose check is right, a length that does not fit the data array is
followed by at most as many bytes as the array has, and a complete frame does not
have `PROTOCOL_NUM` as its protocol id. -/
def FramesFit : List UInt8→Prop
  | [] => True
  | c::bytes =>
    if c≠frameHeader then FramesFit bytes
    else
      match bytes with
      | headCheck::len1::len2::body =>
        if headCheck≠frameHeader+len1+len2 then FramesFit body
        else if announced len1 len2=0∨frameDataMaxLen < announced len1 len2 then
          body.length≤frameDataMaxLen
        else
          match _h : body.drop (announced len1 len2) with
          | [] => True
          | check::rest =>
            if check≠codeyCalcAddCheckSum (body.take (announced len1 len2)) then FramesFit rest
            else
              match rest with
              | [] => True
              | last::rest =>
                ¬(last=frameEnd∧(body.headD 0).toNat=protocolNum)∧FramesFit rest
      | _ => True
termination_by bytes => bytes.length
decreasing_by
  all_goals
    simp only [List.length_cons]
    try have hlength := congrArg List.length _h
    try simp only [List.length_drop,List.length_cons] at hlength
    omega

/-! ## The state machine -/

/-- Bytes before a header are passed. -/
theorem pump_head_skip {p : Fsm} (hs : p.s=.sHead) {c : UInt8} (hc : c≠frameHeader) :
    p.pump c=.ok (p,none) := by
  simp only [Fsm.pump,hs]
  rw [if_neg (Ne.symm hc)]

/-- The state after a head. -/
theorem run_head {p : Fsm} (hs : p.s=.sHead) (headCheck len1 len2 : UInt8) :
    ∃ q,run Fsm.pump p [frameHeader,headCheck,len1,len2]=.ok (q,[none,none,none,none])∧
      q.s=(if headCheck=frameHeader+len1+len2 then .sData else .sHead)∧
      q.len.toNat=announced len1 len2∧q.recvLen=0∧q.check=0 := by
  refine ⟨{p with
    s := if headCheck=frameHeader+len1+len2 then .sData else .sHead
    recvHeadCheck := headCheck
    calcHeadCheck := frameHeader+len1+len2
    len := 0+len1.toUInt16+len2.toUInt16*256
    recvLen := 0
    check := 0},by simp only [run,Fsm.pump,hs,if_true],rfl,?_,rfl,rfl⟩
  have h1 := len1.toNat_lt
  have h2 := len2.toNat_lt
  simp only [announced,UInt16.toNat_add,UInt16.toNat_mul,UInt8.toNat_toUInt16,UInt16.reduceToNat]
  omega

/-- A data byte that does not fill the data. -/
theorem pump_data {p : Fsm} (hs : p.s=.sData) (h : p.recvLen.toNat < frameDataMaxLen)
    (c : UInt8) : ∃ q,p.pump c=.ok (q,none)∧q.len=p.len∧
      q.recvLen.toNat=p.recvLen.toNat+1∧q.check=p.check+c∧
      q.data.toList.take (p.recvLen.toNat+1)=p.data.toList.take p.recvLen.toNat++[c]∧
      q.s=(if p.recvLen.toNat+1=p.len.toNat then .sCheck else .sData) := by
  have hnext : (p.recvLen+1).toNat=p.recvLen.toNat+1 := by
    rw [UInt16.toNat_add]
    unfold frameDataMaxLen at h
    simp only [UInt16.reduceToNat]
    omega
  have heq : (p.recvLen+1=p.len)↔(p.recvLen.toNat+1=p.len.toNat) := by
    rw [←UInt16.toNat_inj,hnext]
  refine ⟨{p with
    check := p.check+c
    data := p.data.set p.recvLen.toNat c h
    recvLen := p.recvLen+1
    s := if p.recvLen+1=p.len then .sCheck else .sData},?_,rfl,hnext,rfl,?_,?_⟩
  · simp only [Fsm.pump,hs]
    rw [dif_pos h]
  · have hlength : p.recvLen.toNat < p.data.toList.length := by
      rw [Vector.length_toList]
      exact h
    rw [Vector.toList_set,take_add_one,take_set_of_le (Nat.le_refl _),
      List.getElem?_set_self hlength]
    rfl
  · simp only [heq]

/-- Data bytes up to the announced length, which fits. -/
theorem run_data (xs : List UInt8) : ∀ p : Fsm,p.s=.sData →
    p.recvLen.toNat < p.len.toNat → p.len.toNat≤frameDataMaxLen →
    p.recvLen.toNat+xs.length≤p.len.toNat →
    ∃ q,run Fsm.pump p xs=.ok (q,List.replicate xs.length none)∧q.len=p.len∧
      q.recvLen.toNat=p.recvLen.toNat+xs.length∧q.check=xs.foldl (·+·) p.check∧
      q.data.toList.take (p.recvLen.toNat+xs.length)=p.data.toList.take p.recvLen.toNat++xs∧
      q.s=(if p.recvLen.toNat+xs.length=p.len.toNat then .sCheck else .sData) := by
  induction xs with
  | nil =>
    intro p hs hlt _ _
    refine ⟨p,rfl,rfl,rfl,rfl,by simp,?_⟩
    rw [hs,if_neg (by simp only [length_nil]; omega)]
  | cons c xs ih =>
    intro p hs hlt hmax hlen
    rw [length_cons] at hlen
    obtain ⟨q,hpump,hqlen,hqrecv,hqcheck,hqdata,hqs⟩ := pump_data hs (by omega) c
    by_cases hlast : p.recvLen.toNat+1=p.len.toNat
    · have hnil : xs=[] := length_eq_zero_iff.mp (by omega)
      subst hnil
      rw [if_pos hlast] at hqs
      refine ⟨q,run_cons_eq_ok.mpr ⟨q,none,[],hpump,rfl,rfl⟩,hqlen,hqrecv,hqcheck,hqdata,?_⟩
      rw [hqs,if_pos (by simpa using hlast)]
    · rw [if_neg hlast] at hqs
      obtain ⟨r,hrun,hrlen,hrrecv,hrcheck,hrdata,hrs⟩ := ih q hqs (by rw [hqlen]; omega)
        (by rw [hqlen]; exact hmax) (by rw [hqlen]; omega)
      rw [hqrecv,Nat.add_right_comm _ 1] at hrrecv hrdata hrs
      rw [hqdata] at hrdata
      refine ⟨r,run_cons_eq_ok.mpr ⟨q,none,_,hpump,hrun,rfl⟩,hrlen.trans hqlen,hrrecv,?_,?_,?_⟩
      · rw [hrcheck,hqcheck]
        rfl
      · rw [append_assoc] at hrdata
        exact hrdata
      · rw [hrs,hqlen]
        rfl

/-- Data bytes after a head whose length does not fit: the index only grows, and
the array is left when it is full. -/
theorem succeeds_data_unbounded (xs : List UInt8) : ∀ p : Fsm,p.s=.sData →
    p.len.toNat=0∨frameDataMaxLen < p.len.toNat → p.recvLen.toNat≤frameDataMaxLen →
    (Succeeds Fsm.pump p xs↔p.recvLen.toNat+xs.length≤frameDataMaxLen) := by
  induction xs with
  | nil => exact fun p _ _ hle => iff_of_true (succeeds_nil p) hle
  | cons c xs ih =>
    intro p hs hlen hle
    rw [length_cons]
    by_cases hlt : p.recvLen.toNat < frameDataMaxLen
    · obtain ⟨q,hpump,hqlen,hqrecv,_,_,hqs⟩ := pump_data hs hlt c
      rw [if_neg (by omega)] at hqs
      have hrest := ih q hqs (by rw [hqlen]; exact hlen) (by omega)
      rw [succeeds_cons hpump,hrest,hqrecv]
      omega
    · have hpump : p.pump c=.error .data := by
        simp only [Fsm.pump,hs]
        rw [dif_neg hlt]
      exact iff_of_false (not_succeeds_cons hpump) (by omega)

/-- The byte after the data. -/
theorem pump_check {p : Fsm} (hs : p.s=.sCheck) (c : UInt8) :
    ∃ q,p.pump c=.ok (q,none)∧q.s=(if c=p.check then .sEnd else .sHead)∧
      q.data=p.data∧q.len=p.len := by
  refine ⟨{p with s := if p.check=c then .sEnd else .sHead},?_,?_,rfl,rfl⟩
  · simp only [Fsm.pump,hs]
  · simp only [eq_comm]

/-- The guard of the protocol table lets one id too many through. -/
theorem codeyGetProtocolById_eq (id : UInt8) :
    (id.toNat=protocolNum∧codeyGetProtocolById id=.error .protocolTab)∨
      (id.toNat≠protocolNum∧∃ pf,codeyGetProtocolById id=.ok pf) := by
  rw [codeyGetProtocolById]
  by_cases hlt : protocolNum < id.toNat
  · rw [if_pos hlt]
    exact Or.inr ⟨by omega,_,rfl⟩
  · rw [if_neg hlt]
    by_cases heq : id.toNat=protocolNum
    · refine Or.inl ⟨heq,?_⟩
      rw [heq]
      rfl
    · have hlength : id.toNat < protocolTab.length := by
        have hle : id.toNat < protocolNum := by omega
        exact hle
      rw [List.getElem?_eq_getElem hlength]
      exact Or.inr ⟨heq,_,rfl⟩

/-- The byte at the end of a frame. -/
theorem pump_end {p : Fsm} (hs : p.s=.sEnd) (c : UInt8) :
    (c=frameEnd∧(p.data.toList.headD 0).toNat=protocolNum∧p.pump c=.error .protocolTab)∨
      (¬(c=frameEnd∧(p.data.toList.headD 0).toNat=protocolNum)∧
        ∃ q call,p.pump c=.ok (q,call)∧q.s=.sHead) := by
  simp only [Fsm.pump,hs]
  by_cases hc : frameEnd=c
  · rw [if_pos hc]
    rcases codeyGetProtocolById_eq (p.data.toList.headD 0) with ⟨hid,htab⟩ | ⟨hid,pf,htab⟩
    · rw [htab]
      exact Or.inl ⟨hc.symm,hid,rfl⟩
    · rw [htab]
      refine Or.inr ⟨fun h => hid h.2,?_⟩
      cases pf with
      | none => exact ⟨_,_,rfl,rfl⟩
      | some protocol => exact ⟨_,_,rfl,rfl⟩
  · rw [if_neg hc]
    exact Or.inr ⟨fun h => hc h.1.symm,_,_,rfl,rfl⟩

/-- The first data byte and the checksum, once the data are complete. -/
theorem run_body {p : Fsm} (hs : p.s=.sData) (hrecv : p.recvLen=0) (hcheck : p.check=0)
    {xs : List UInt8} (hlen : p.len.toNat=xs.length) (hpos : 0 < xs.length)
    (hmax : xs.length≤frameDataMaxLen) :
    ∃ q,run Fsm.pump p xs=.ok (q,List.replicate xs.length none)∧q.s=.sCheck∧q.len=p.len∧
      q.check=codeyCalcAddCheckSum xs∧q.data.toList.take xs.length=xs := by
  have hzero : p.recvLen.toNat=0 := by
    rw [hrecv]
    rfl
  obtain ⟨q,hrun,hqlen,_,hqcheck,hqdata,hqs⟩ := run_data xs p hs (by omega) (by omega) (by omega)
  rw [hzero,Nat.zero_add] at hqdata hqs
  rw [take_zero,nil_append] at hqdata
  rw [hlen,if_pos rfl] at hqs
  rw [hcheck] at hqcheck
  exact ⟨q,hrun,hqs,hqlen,hqcheck,hqdata⟩

/-- Some data bytes that do not complete the data. -/
theorem succeeds_body_short {p : Fsm} (hs : p.s=.sData) (hrecv : p.recvLen=0)
    {xs : List UInt8} (hpos : 0 < p.len.toNat) (hmax : p.len.toNat≤frameDataMaxLen)
    (hlen : xs.length≤p.len.toNat) : Succeeds Fsm.pump p xs := by
  have hzero : p.recvLen.toNat=0 := by
    rw [hrecv]
    rfl
  obtain ⟨q,hrun,_⟩ := run_data xs p hs (by omega) hmax (by omega)
  exact ⟨_,hrun⟩

theorem framesFit_skip {c : UInt8} (hc : c≠frameHeader) (bytes : List UInt8) :
    FramesFit (c::bytes)↔FramesFit bytes := by
  rw [FramesFit.eq_def]
  simp only
  rw [if_pos hc]

theorem framesFit_wrong {headCheck len1 len2 : UInt8} (h : headCheck≠frameHeader+len1+len2)
    (body : List UInt8) :
    FramesFit (frameHeader::headCheck::len1::len2::body)↔FramesFit body := by
  rw [FramesFit.eq_def]
  simp only [ne_eq,not_true_eq_false,if_false]
  rw [if_pos h]

theorem framesFit_unbounded {len1 len2 : UInt8}
    (h : announced len1 len2=0∨frameDataMaxLen < announced len1 len2) (body : List UInt8) :
    FramesFit (frameHeader::(frameHeader+len1+len2)::len1::len2::body)↔
      body.length≤frameDataMaxLen := by
  rw [FramesFit.eq_def]
  simp only [ne_eq,not_true_eq_false,if_false]
  rw [if_pos h]

/-- A frame whose checksum is missing. -/
theorem framesFit_body {len1 len2 : UInt8}
    (h : ¬(announced len1 len2=0∨frameDataMaxLen < announced len1 len2)) {body : List UInt8}
    (hbody : body.length≤announced len1 len2) :
    FramesFit (frameHeader::(frameHeader+len1+len2)::len1::len2::body) := by
  rw [FramesFit.eq_def]
  simp only [ne_eq,not_true_eq_false,if_false]
  rw [if_neg h]
  split
  · trivial
  case h_2 check rest hdrop =>
    rw [drop_eq_nil_of_le hbody] at hdrop
    cases hdrop

/-- A frame with its checksum. -/
theorem framesFit_checked {len1 len2 check : UInt8} {data rest : List UInt8}
    (h : ¬(announced len1 len2=0∨frameDataMaxLen < announced len1 len2))
    (hdata : data.length=announced len1 len2) :
    FramesFit (frameHeader::(frameHeader+len1+len2)::len1::len2::(data++check::rest))↔
      if check≠codeyCalcAddCheckSum data then FramesFit rest
      else
        match rest with
        | [] => True
        | last::rest => ¬(last=frameEnd∧(data.headD 0).toNat=protocolNum)∧FramesFit rest := by
  have hdrop : (data++check::rest).drop (announced len1 len2)=check::rest := by
    rw [←hdata]
    exact drop_left
  have htake : (data++check::rest).take (announced len1 len2)=data := by
    rw [←hdata]
    exact take_left
  have hhead : (data++check::rest).headD 0=data.headD 0 := by
    cases data with
    | nil => exact absurd (Or.inl hdata.symm) h
    | cons d data => rfl
  rw [FramesFit.eq_def]
  simp only [ne_eq,not_true_eq_false,if_false]
  rw [if_neg h]
  split
  case h_1 hnil =>
    rw [hdrop] at hnil
    cases hnil
  case h_2 check' rest' hcons =>
    rw [hdrop] at hcons
    cases hcons
    rw [htake,hhead]
    cases rest <;> rfl

/-- A head that the stream does not complete. -/
theorem framesFit_short {bytes : List UInt8} (h : bytes.length < 3) :
    FramesFit (frameHeader::bytes) := by
  rw [FramesFit.eq_def]
  simp only [ne_eq,not_true_eq_false,if_false]
  split
  case h_1 =>
    simp only [length_cons] at h
    omega
  · trivial

/-- The first bytes of a head are only stored. -/
theorem succeeds_head_short {p : Fsm} (hs : p.s=.sHead) {bytes : List UInt8}
    (h : bytes.length < 3) : Succeeds Fsm.pump p (frameHeader::bytes) := by
  have hhead : ∀ a b c,Succeeds Fsm.pump p [frameHeader,a,b,c] := by
    intro a b c
    obtain ⟨q,hrun,_⟩ := run_head hs a b c
    exact ⟨_,hrun⟩
  match bytes,h with
  | [],_ => exact succeeds_of_append [frameHeader] [0,0,0] (hhead 0 0 0)
  | [a],_ => exact succeeds_of_append [frameHeader,a] [0,0] (hhead a 0 0)
  | [a,b],_ => exact succeeds_of_append [frameHeader,a,b] [0] (hhead a b 0)

/-- A stream long enough for a head. -/
theorem exists_head_of_length {bytes : List UInt8} (h : ¬bytes.length < 3) :
    ∃ headCheck len1 len2 body,bytes=headCheck::len1::len2::body := by
  match bytes with
  | headCheck::len1::len2::body => exact ⟨headCheck,len1,len2,body,rfl⟩
  | [] | [a] | [a,b] =>
    simp only [length_cons,length_nil] at h
    omega

/-- A frame from its head on, when the claim holds of what follows in the stream. -/
theorem succeeds_frame_iff {p : Fsm} (hs : p.s=.sHead) {headCheck len1 len2 : UInt8}
    {body : List UInt8}
    (ih : ∀ rest : List UInt8,rest.length≤body.length →
      ∀ q : Fsm,q.s=.sHead → (Succeeds Fsm.pump q rest↔FramesFit rest)) :
    Succeeds Fsm.pump p (frameHeader::headCheck::len1::len2::body)↔
      FramesFit (frameHeader::headCheck::len1::len2::body) := by
  obtain ⟨q,hhead,hqs,hqlen,hqrecv,hqcheck⟩ := run_head hs headCheck len1 len2
  have hsplit : frameHeader::headCheck::len1::len2::body=
      [frameHeader,headCheck,len1,len2]++body := rfl
  rw [hsplit,succeeds_append hhead,←hsplit]
  by_cases hright : headCheck=frameHeader+len1+len2
  · rw [if_pos hright] at hqs
    rw [hright]
    by_cases hbad : announced len1 len2=0∨frameDataMaxLen < announced len1 len2
    · rw [framesFit_unbounded hbad,succeeds_data_unbounded body q hqs (hqlen▸hbad)
        (by rw [hqrecv]; exact zero_le _),hqrecv]
      exact iff_of_eq (congrArg (·≤frameDataMaxLen) (Nat.zero_add _))
    · by_cases hbody : body.length≤announced len1 len2
      · exact iff_of_true (succeeds_body_short hqs hqrecv (by omega) (by omega) (by omega))
          (framesFit_body hbad hbody)
      · -- the data, their checksum and the rest of the stream
        obtain ⟨check,rest,hdrop⟩ : ∃ check rest,body.drop (announced len1 len2)=check::rest :=
          exists_cons_of_ne_nil (fun h => hbody (drop_eq_nil_iff.mp h))
        have hdata : (body.take (announced len1 len2)).length=announced len1 len2 := by
          rw [length_take]
          omega
        have hwhole : body=body.take (announced len1 len2)++check::rest := by
          rw [←hdrop,take_append_drop]
        generalize body.take (announced len1 len2)=data at hdata hwhole
        rw [hwhole,length_append,length_cons] at ih
        rw [hwhole,framesFit_checked hbad hdata]
        obtain ⟨r,hrun,hrs,_,hrcheck,hrdata⟩ := @run_body q hqs hqrecv hqcheck data
          (by omega) (by omega) (by omega)
        obtain ⟨t,hpump,hts,htdata,_⟩ := pump_check hrs check
        rw [succeeds_append hrun,succeeds_cons hpump]
        rw [hrcheck] at hts
        by_cases hsum : check=codeyCalcAddCheckSum data
        · rw [if_pos hsum] at hts
          rw [if_neg (fun h => h hsum)]
          cases rest with
          | nil => exact iff_of_true (succeeds_nil t) trivial
          | cons last rest =>
            have hid : t.data.toList.headD 0=data.headD 0 := by
              rw [htdata,←hrdata]
              cases r.data.toList with
              | nil => rw [take_nil]
              | cons d ds =>
                cases data with
                | nil => exact absurd (Or.inl hdata.symm) hbad
                | cons e es => rfl
            rcases pump_end hts last with ⟨hlast,hnum,herror⟩ | ⟨hnot,u,call,hok,hus⟩
            · rw [hid] at hnum
              exact iff_of_false (not_succeeds_cons herror) (fun h => h.1 ⟨hlast,hnum⟩)
            · rw [hid] at hnot
              rw [succeeds_cons hok,ih rest (by simp only [length_cons]; omega) u hus]
              exact (and_iff_right hnot).symm
        · rw [if_neg hsum] at hts
          rw [if_pos hsum]
          exact ih rest (by omega) t hts
  · rw [if_neg hright] at hqs
    rw [framesFit_wrong hright]
    exact ih body (Nat.le_refl _) q hqs

variable (p : Fsm) (bytes : List UInt8)

/-- A state machine that looks for a header runs through a stream exactly when the
frames of the stream fit. -/
theorem succeeds_iff_framesFit : ∀ p : Fsm,p.s=.sHead →
    (Succeeds Fsm.pump p bytes↔FramesFit bytes) := by
  induction hn : bytes.length using Nat.strongRecOn generalizing bytes with
  | ind n ih =>
    intro p hs
    cases bytes with
    | nil =>
      rw [FramesFit]
      exact iff_of_true (succeeds_nil p) trivial
    | cons c bytes =>
      rw [length_cons] at hn
      by_cases hc : c=frameHeader
      · subst hc
        by_cases hshort : bytes.length < 3
        · exact iff_of_true (succeeds_head_short hs hshort) (framesFit_short hshort)
        · obtain ⟨headCheck,len1,len2,body,rfl⟩ := exists_head_of_length hshort
          simp only [length_cons] at hn
          exact succeeds_frame_iff hs (fun rest hrest => ih rest.length (by omega) rest rfl)
      · rw [framesFit_skip hc,succeeds_cons (pump_head_skip hs hc)]
        exact ih bytes.length (by omega) bytes rfl p hs

/-! ## The channels -/

/-- What stands at a channel tag: a state machine, the place behind the last one,
which the guard lets through, or nothing. -/
inductive Channel where
  /-- `s_fsm_tab[chn_tag]` -/
  | fsm (p : Fsm)
  /-- The tag `COMM_CHN_NUM`. -/
  | outside
  | ignored

/-- A byte for a channel tag. -/
def Channel.pump : Channel→UInt8→Except Fault (Channel×Option Call)
  | .fsm p,c =>
    match p.pump c with
    | .error e => .error e
    | .ok (p,call) => .ok (.fsm p,call)
  | .outside,_ => .error .fsmTab
  | .ignored,_ => .ok (.ignored,none)

/-- What stands at a channel tag of a state. -/
def channel {W : Type} (st : State W) (chn : ℕ) : Channel :=
  if h : chn < commChnNum then .fsm (st.fsmTab.get ⟨chn,h⟩)
  else if chn=commChnNum then .outside else .ignored

variable {W : Type}

/-- The channels of the protocol are independent. -/
def channels (H : Handlers W) : Parts (codeyCommProtocolPumpChar H) Channel.pump ℕ where
  get := channel
  dest := Prod.fst
  input := Prod.snd
  view := Prod.snd
  step_ok := by
    rintro st ⟨chn,c⟩ s call h
    simp only [channel] at h
    rw [codeyCommProtocolPumpChar]
    split at h
    case isTrue hlt =>
      rw [if_neg (Nat.not_lt.mpr (Nat.le_of_lt hlt)),dif_pos hlt]
      simp only [Channel.pump] at h
      cases hpump : (st.fsmTab.get ⟨chn,hlt⟩).pump c with
      | error e =>
        rw [hpump] at h
        cases h
      | ok r =>
        rw [hpump] at h
        cases h
        refine ⟨_,_,rfl,rfl,?_,fun k hk => ?_⟩
        · rw [channel,dif_pos hlt]
          congr 1
          exact Vector.getElem_set_self hlt
        · simp only [channel]
          split
          case isTrue hk' =>
            congr 1
            exact Vector.getElem_set_ne hlt hk' (Ne.symm hk)
          · rfl
    case isFalse hlt =>
      split at h
      · cases h
      case isFalse hne =>
        cases h
        rw [if_pos (by omega)]
        refine ⟨st,_,rfl,rfl,?_,fun _ _ => rfl⟩
        rw [channel,dif_neg hlt,if_neg hne]
  step_error := by
    rintro st ⟨chn,c⟩ e h
    simp only [channel] at h
    rw [codeyCommProtocolPumpChar]
    split at h
    case isTrue hlt =>
      rw [if_neg (Nat.not_lt.mpr (Nat.le_of_lt hlt)),dif_pos hlt]
      simp only [Channel.pump] at h
      cases hpump : (st.fsmTab.get ⟨chn,hlt⟩).pump c with
      | error e =>
        rw [hpump] at h
        cases h
        rfl
      | ok r =>
        rw [hpump] at h
        cases h
    case isFalse hlt =>
      split at h
      case isTrue heq =>
        cases h
        rw [if_neg (by omega),dif_neg hlt]
      · cases h

/-- A channel with a state machine runs as the state machine does. -/
theorem run_fsm : ∀ p : Fsm,run Channel.pump (.fsm p) bytes=
      match run Fsm.pump p bytes with
      | .error e => .error e
      | .ok (q,calls) => .ok (.fsm q,calls) := by
  induction bytes with
  | nil => exact fun p => rfl
  | cons c bytes ih =>
    intro p
    cases hpump : p.pump c with
    | error e =>
      have hchn : Channel.pump (.fsm p) c=.error e := by
        rw [Channel.pump,hpump]
      rw [run_cons_error hpump,run_cons_error hchn]
    | ok r =>
      have hchn : Channel.pump (.fsm p) c=.ok (.fsm r.1,r.2) := by
        rw [Channel.pump,hpump]
      rw [run_cons_ok hpump,run_cons_ok hchn,ih]
      cases run Fsm.pump r.1 bytes <;> rfl

/-- A channel with a state machine succeeds when the state machine does. -/
theorem succeeds_fsm :
    Succeeds Channel.pump (.fsm p) bytes↔Succeeds Fsm.pump p bytes := by
  rw [Succeeds,Succeeds,run_fsm]
  cases run Fsm.pump p bytes with
  | error e => exact iff_of_false nofun nofun
  | ok r => exact iff_of_true ⟨_,rfl⟩ ⟨_,rfl⟩

/-- Bytes for a tag that the guard keeps out. -/
theorem succeeds_ignored : Succeeds Channel.pump .ignored bytes := by
  induction bytes with
  | nil => exact succeeds_nil _
  | cons c bytes ih =>
    have hpump : Channel.pump .ignored c=.ok (.ignored,none) := rfl
    exact (succeeds_cons hpump).mpr ih

/-- No byte may come for the tag behind the last channel. -/
theorem succeeds_outside : Succeeds Channel.pump .outside bytes↔bytes=[] := by
  cases bytes with
  | nil => exact iff_of_true (succeeds_nil _) rfl
  | cons c bytes =>
    have hpump : Channel.pump .outside c=.error .fsmTab := rfl
    exact iff_of_false (not_succeeds_cons hpump) (cons_ne_nil _ _)

/-- The bytes of a stream for one channel. -/
def bytesOf (chn : ℕ) (stream : List (ℕ×UInt8)) : List UInt8 :=
  stream.filterMap fun i => if i.1=chn then some i.2 else none

/-- The tag has bytes when one comes for it. -/
theorem bytesOf_eq_nil {chn : ℕ} {stream : List (ℕ×UInt8)} :
    bytesOf chn stream=[]↔∀ i∈stream,i.1≠chn := by
  rw [bytesOf,filterMap_eq_nil_iff]
  refine forall₂_congr fun i _ => ?_
  split
  case isTrue h => exact iff_of_false nofun (fun hne => hne h)
  case isFalse h => exact iff_of_true rfl h

/-- The indices stay in bounds for exactly those streams with nothing for the tag
behind the last channel, in which the frames of each channel fit. -/
theorem inBounds_iff (H : Handlers W) (w : W) (stream : List (ℕ×UInt8)) : InBounds H w stream↔
      (∀ i∈stream,i.1≠commChnNum)∧∀ chn < commChnNum,FramesFit (bytesOf chn stream) := by
  have hinitial : ∀ chn (h : chn < commChnNum),channel (State.initial w) chn=.fsm Fsm.initial := by
    intro chn h
    rw [channel,dif_pos h]
    congr 1
    exact Vector.getElem_replicate h
  have houtside : channel (State.initial w) commChnNum=.outside := by
    rw [channel,dif_neg (Nat.lt_irrefl _),if_pos rfl]
  have hbytes : ∀ chn,(channels H).inputsOf chn stream=bytesOf chn stream := fun _ => rfl
  rw [InBounds,(channels H).succeeds_iff]
  constructor
  · intro h
    constructor
    · have hout := h commChnNum
      rw [show (channels H).get=channel from rfl,houtside,hbytes,succeeds_outside] at hout
      exact bytesOf_eq_nil.mp hout
    · intro chn hchn
      have hown := h chn
      rw [show (channels H).get=channel from rfl,hinitial chn hchn,hbytes,succeeds_fsm] at hown
      exact (succeeds_iff_framesFit _ Fsm.initial rfl).mp hown
  · rintro ⟨htag,hfit⟩ chn
    rw [show (channels H).get=channel from rfl,hbytes]
    by_cases hchn : chn < commChnNum
    · rw [hinitial chn hchn,succeeds_fsm]
      exact (succeeds_iff_framesFit _ Fsm.initial rfl).mpr (hfit chn hchn)
    · by_cases heq : chn=commChnNum
      · rw [heq,houtside,succeeds_outside]
        exact bytesOf_eq_nil.mpr htag
      · rw [channel,dif_neg hchn,if_neg heq]
        exact succeeds_ignored _

/-- A machine without replies. -/
def silent : Handlers Unit := ⟨fun _ _ _ w => ([],w),fun _ _ w => ([],w),fun _ _ => true⟩

/-- Seven bytes on the first channel make a frame for the protocol id 13, which is
one more than the last one and which the guard lets through. -/
theorem frame13_outOfBounds :
    ¬InBounds silent () ([0xF3,0xF4,0x01,0x00,0x0D,0x0D,0xF4].map (0,·)) := by
  intro h
  obtain ⟨r,hr⟩ := h
  have hrun : run (codeyCommProtocolPumpChar silent) (State.initial ())
      ([0xF3,0xF4,0x01,0x00,0x0D,0x0D,0xF4].map (0,·))=.error .protocolTab := by
    rfl
  rw [hrun] at hr
  cases hr

end MicroPython.CommFrames
