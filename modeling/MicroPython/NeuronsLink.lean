import MicroPython.NeuronsCommands

/-!
# The link to the blocks

Bytes come in and commands go out, in any order. The bytes of a frame are put into
the package until an end byte, and nothing on the way asks whether there is room.
No index leaves the package exactly when no stretch of the stream from a head byte
on is longer than it, and no command has more data than fit.
-/

namespace MicroPython.NeuronsLink

open Nat List NeuronsProtocol NeuronsFrames NeuronsCommands InputMachine

/-- The index of the protocol of the blocks. -/
def blocksProtocol : Fin protocolNum := ⟨2,by decide⟩

/-- `codey_neurons_uart1_command_package_put` -/
def codeyNeuronsUart1CommandPackagePut (r : Receiver) (c : UInt8) :
    Except Fault (Receiver×Option Package) :=
  neuronsCommandPackagePutT startEsp32Online endEsp32Online blocksProtocol.val r c

/-- Nothing was received yet. -/
def start : Receiver := ⟨Package.reset,Vector.replicate protocolNum false⟩

/-- What happens on the link. -/
inductive Event where
  | received (c : UInt8)
  | command (cmd : Command)

/-- An event, with the package for the parser and the bytes that are sent. -/
def step (casts : FloatCasts) (r : Receiver) :
    Event→Except Fault (Receiver×Option Package×List UInt8)
  | .received c =>
    match codeyNeuronsUart1CommandPackagePut r c with
    | .error e => .error e
    | .ok (r,package) => .ok (r,package,[])
  | .command cmd =>
    match cmd.send casts with
    | .error e => .error e
    | .ok sent => .ok (r,none,sent)

/-- The byte stream. -/
def received : List Event→List UInt8
  | [] => []
  | .received c::events => c::received events
  | .command _::events => received events

/-- The commands. -/
def commands : List Event→List Command
  | [] => []
  | .received _::events => commands events
  | .command cmd::events => cmd::commands events

/-! ## Stretches of the stream -/

/-- Bytes that can follow a head in its frame: no other head, and an end only as the last. -/
def Body (bytes : List UInt8) : Prop :=
  startEsp32Online∉bytes∧endEsp32Online∉bytes.dropLast

/-- A head with the bytes of its frame is never longer than a package. -/
def FramesFit (bytes : List UInt8) : Prop :=
  ∀ before body after,bytes=before++startEsp32Online::body++after → Body body →
    (startEsp32Online::body).length≤packageSize

/-- A frame of which some bytes are there goes on and is not longer than a package. -/
def GoesOn (n : ℕ) (bytes : List UInt8) : Prop :=
  ∀ body after,bytes=body++after → Body body → n+body.length≤packageSize

/-- No bytes follow a head. -/
theorem body_nil : Body [] := ⟨not_mem_nil,not_mem_nil⟩

variable {c : UInt8} {n : ℕ} {r : Receiver}

/-- One byte follows a head. -/
theorem body_singleton (h : c≠startEsp32Online) : Body [c] :=
  ⟨fun hmem => h (mem_singleton.mp hmem).symm,not_mem_nil⟩

theorem body_end {body : List UInt8} (h : Body (endEsp32Online::body)) : body=[] := by
  cases body with
  | nil => rfl
  | cons c body => exact absurd mem_cons_self h.2

/-- A plain byte in a frame changes nothing for the bytes after it. -/
theorem body_cons {body : List UInt8} (hc : Plain c) : Body (c::body)↔Body body := by
  cases body with
  | nil => exact iff_of_true (body_singleton hc.1) body_nil
  | cons d body =>
    have hlast : (c::d::body).dropLast=c::(d::body).dropLast :=
      dropLast_cons_of_ne_nil (cons_ne_nil d body)
    rw [Body,hlast]
    constructor
    · exact fun h => ⟨fun hmem => h.1 (mem_cons_of_mem c hmem),
        fun hmem => h.2 (mem_cons_of_mem c hmem)⟩
    · intro h
      constructor
      · intro hmem
        cases mem_cons.mp hmem with
        | inl heq => exact hc.1 heq.symm
        | inr hrest => exact h.1 hrest
      · intro hmem
        cases mem_cons.mp hmem with
        | inl heq => exact hc.2 heq.symm
        | inr hrest => exact h.2 hrest

/-- Frames in an empty stream. -/
theorem framesFit_nil : FramesFit [] := by
  intro before body after h _
  cases before <;> cases h

/-- A head begins a frame, and what is behind it has its own. -/
theorem framesFit_cons (c : UInt8) (bytes : List UInt8) :
    FramesFit (c::bytes)↔(c=startEsp32Online → GoesOn 1 bytes)∧FramesFit bytes := by
  constructor
  · refine fun h => ⟨?_,?_⟩
    · rintro rfl body after rfl hbody
      rw [add_comm]
      exact h [] body after rfl hbody
    · rintro before body after rfl hbody
      exact h (c::before) body after rfl hbody
  · rintro ⟨hhead,htail⟩ before body after h hbody
    cases before with
    | nil =>
      obtain ⟨hc,hrest⟩ := List.cons.inj h
      rw [length_cons,add_comm]
      exact hhead hc body after hrest hbody
    | cons d before =>
      obtain ⟨_,hrest⟩ := List.cons.inj h
      exact htail before body after hrest hbody

theorem goesOn_nil (h : n≤packageSize) : GoesOn n [] := by
  intro body after hnil _
  rw [(append_eq_nil_iff.mp hnil.symm).1]
  exact h

/-- A head is not in the frame before it. -/
theorem goesOn_head (h : n≤packageSize) (bytes : List UInt8) :
    GoesOn n (startEsp32Online::bytes) := by
  intro body after hsplit hbody
  cases body with
  | nil => exact h
  | cons d body =>
    rw [←(List.cons.inj hsplit).1] at hbody
    exact absurd mem_cons_self hbody.1

/-- The end needs room, and nothing behind it. -/
theorem goesOn_end (bytes : List UInt8) : GoesOn n (endEsp32Online::bytes)↔n < packageSize := by
  constructor
  · exact fun h => h [endEsp32Online] bytes rfl (body_singleton (by decide))
  · intro h body after hsplit hbody
    cases body with
    | nil => exact le_of_lt h
    | cons d body =>
      rw [←(List.cons.inj hsplit).1] at hbody
      rw [body_end hbody]
      exact h

/-- A plain byte needs room, and what is behind it too. -/
theorem goesOn_plain (hc : Plain c) (bytes : List UInt8) :
    GoesOn n (c::bytes)↔n < packageSize∧GoesOn (n+1) bytes := by
  constructor
  · refine fun h => ⟨h [c] bytes rfl (body_singleton hc.1),?_⟩
    rintro body after rfl hbody
    have hle := h (c::body) after rfl ((body_cons hc).mpr hbody)
    rw [length_cons] at hle
    omega
  · rintro ⟨hlt,hrest⟩ body after hsplit hbody
    cases body with
    | nil => exact le_of_lt hlt
    | cons d body =>
      obtain ⟨hd,htail⟩ := List.cons.inj hsplit
      rw [←hd] at hbody
      have hle := hrest body after htail ((body_cons hc).mp hbody)
      rw [length_cons]
      omega

/-! ## Bytes that are received -/

/-- The package index of a frame is within the package. -/
def Within (r : Receiver) : Prop := r.package.dataInIndex≤packageSize

/-- A frame is received. -/
def Begun (r : Receiver) : Prop := r.packageInBegin.get blocksProtocol=true

/-- Whether a frame is received is a flag. -/
instance (r : Receiver) : Decidable (Begun r) :=
  inferInstanceAs (Decidable (r.packageInBegin.get blocksProtocol=true))

/-- A head begins a frame with one byte. -/
theorem put_begins (r : Receiver) :
    ∃ s o,codeyNeuronsUart1CommandPackagePut r startEsp32Online=.ok (s,o)∧
      Begun s∧s.package.dataInIndex=1 := by
  obtain ⟨s,hput,hbegin,_,hindex⟩ := @put_head blocksProtocol r
  exact ⟨s,none,hput,hbegin,hindex⟩

theorem put_outside (h : ¬Begun r) (hc : c≠startEsp32Online) :
    codeyNeuronsUart1CommandPackagePut r c=.ok (r,none) := by
  rw [codeyNeuronsUart1CommandPackagePut,neuronsCommandPackagePutT,
    dif_pos blocksProtocol.isLt,if_neg hc]
  exact if_neg h

/-- In a frame another byte needs room. -/
theorem put_full (h : Begun r) (hc : c≠startEsp32Online)
    (hfull : packageSize ≤ r.package.dataInIndex) :
    codeyNeuronsUart1CommandPackagePut r c=.error .data := by
  rw [codeyNeuronsUart1CommandPackagePut,neuronsCommandPackagePutT,
    dif_pos blocksProtocol.isLt,if_neg hc,Package.pushAll,push_full hfull]
  exact if_pos h

/-- The end closes the frame. -/
theorem put_ends (h : Begun r) (hroom : r.package.dataInIndex < packageSize) :
    ∃ s o,codeyNeuronsUart1CommandPackagePut r endEsp32Online=.ok (s,o)∧¬Begun s∧Within s := by
  obtain ⟨q,hpush,_,hindex⟩ := pushAll_spec [endEsp32Online] r.package hroom
  have hstays : ¬Begun ⟨q,r.packageInBegin.set blocksProtocol.val false blocksProtocol.isLt⟩ := by
    intro hset
    have hget : (r.packageInBegin.set blocksProtocol.val false blocksProtocol.isLt).get
        blocksProtocol=false := Vector.getElem_set_self _
    exact absurd (hget.symm.trans hset) (by decide)
  have hwithin : q.dataInIndex≤packageSize := by
    rw [hindex]
    exact hroom
  refine ⟨_,if neuronsPackageCheckSumT q then some q else none,?_,hstays,hwithin⟩
  rw [codeyNeuronsUart1CommandPackagePut,neuronsCommandPackagePutT,
    dif_pos blocksProtocol.isLt,if_neg (by decide),hpush]
  exact (if_pos h).trans (if_pos rfl)

/-- A plain byte in a frame is added. -/
theorem put_adds (h : Begun r) (hroom : r.package.dataInIndex < packageSize) (hc : Plain c) :
    ∃ s o,codeyNeuronsUart1CommandPackagePut r c=.ok (s,o)∧Begun s∧
      s.package.dataInIndex=r.package.dataInIndex+1 := by
  obtain ⟨q,hpush,_,hindex⟩ := pushAll_spec [c] r.package hroom
  refine ⟨⟨q,r.packageInBegin⟩,none,?_,h,hindex⟩
  rw [codeyNeuronsUart1CommandPackagePut,neuronsCommandPackagePutT,
    dif_pos blocksProtocol.isLt,if_neg hc.1,hpush]
  refine (if_pos h).trans ?_
  exact if_neg hc.2

/-- A stream is received exactly when the frame that has begun goes on within the
package and all others fit. -/
theorem received_iff (bytes : List UInt8) : ∀ {r : Receiver},Within r →
    (Succeeds codeyNeuronsUart1CommandPackagePut r bytes↔
      (Begun r → GoesOn r.package.dataInIndex bytes)∧FramesFit bytes) := by
  induction bytes with
  | nil =>
    exact fun h => iff_of_true (succeeds_nil _) ⟨fun _ => goesOn_nil h,framesFit_nil⟩
  | cons c bytes ih =>
    intro r hr
    rw [framesFit_cons]
    cases Decidable.em (c=startEsp32Online) with
    | inl hc =>
      obtain ⟨s,o,hput,hbegun,hindex⟩ := put_begins r
      have hs : Within s := by
        rw [Within,hindex]
        decide
      rw [hc,succeeds_cons hput,ih hs,hindex]
      constructor
      · exact fun h => ⟨fun _ => goesOn_head hr bytes,fun _ => h.1 hbegun,h.2⟩
      · exact fun h => ⟨fun _ => h.2.1 rfl,h.2.2⟩
    | inr hc =>
      have hno : (c=startEsp32Online → GoesOn 1 bytes)∧FramesFit bytes↔FramesFit bytes :=
        and_iff_right fun h => absurd h hc
      rw [hno]
      cases Decidable.em (Begun r) with
      | inr hb =>
        rw [succeeds_cons (put_outside hb hc),ih hr]
        exact and_congr_left fun _ => iff_of_true (fun h => absurd h hb) fun h => absurd h hb
      | inl hb =>
        rw [forall_prop_of_true hb]
        cases lt_or_ge r.package.dataInIndex packageSize with
        | inr hfull =>
          refine iff_of_false (not_succeeds_cons (put_full hb hc hfull)) fun h => ?_
          have hle := h.1 [c] bytes rfl (body_singleton hc)
          have hlen : [c].length=1 := rfl
          omega
        | inl hroom =>
          cases Decidable.em (c=endEsp32Online) with
          | inl hend =>
            obtain ⟨s,o,hput,hclosed,hs⟩ := put_ends hb hroom
            rw [hend,succeeds_cons hput,ih hs,goesOn_end]
            exact and_congr_left fun _ => iff_of_true (fun h => absurd h hclosed) hroom
          | inr hend =>
            obtain ⟨s,o,hput,hgoes,hindex⟩ := put_adds hb hroom ⟨hc,hend⟩
            have hs : Within s := by
              rw [Within,hindex]
              exact hroom
            rw [succeeds_cons hput,ih hs,goesOn_plain ⟨hc,hend⟩,hindex,
              forall_prop_of_true hgoes,and_iff_right hroom]

/-! ## The link -/

variable (casts : FloatCasts)

/-- The link does without a fault what the receiver and every command do. -/
theorem succeeds_iff_parts (events : List Event) : ∀ r : Receiver,Succeeds (step casts) r events↔
      Succeeds codeyNeuronsUart1CommandPackagePut r (received events)∧
        ∀ cmd∈commands events,cmd.Fits casts := by
  induction events with
  | nil =>
    exact fun r => iff_of_true (succeeds_nil r) ⟨succeeds_nil r,fun _ h => absurd h not_mem_nil⟩
  | cons event events ih =>
    intro r
    cases event with
    | received c =>
      rw [received,commands]
      cases hput : codeyNeuronsUart1CommandPackagePut r c with
      | error e =>
        have hstep : step casts r (.received c)=.error e := by rw [step,hput]
        exact iff_of_false (not_succeeds_cons hstep) fun h => not_succeeds_cons hput h.1
      | ok out =>
        obtain ⟨s,o⟩ := out
        have hstep : step casts r (.received c)=.ok (s,o,[]) := by rw [step,hput]
        rw [succeeds_cons hstep,succeeds_cons hput]
        exact ih s
    | command cmd =>
      rw [received,commands,forall_mem_cons,←cmd.send_iff casts]
      cases hsend : cmd.send casts with
      | error e =>
        have hstep : step casts r (.command cmd)=.error e := by rw [step,hsend]
        refine iff_of_false (not_succeeds_cons hstep) fun h => ?_
        obtain ⟨sent,hsent⟩ := h.2.1
        cases hsent
      | ok sent =>
        have hstep : step casts r (.command cmd)=.ok (r,none,sent) := by rw [step,hsend]
        rw [succeeds_cons hstep,ih r]
        exact and_congr_right fun _ => (and_iff_right ⟨sent,rfl⟩).symm

/-- Nothing is written past a package exactly when the frames of the stream and the
data of the commands fit. -/
theorem inPackage_iff (events : List Event) : Succeeds (step casts) start events↔
      FramesFit (received events)∧∀ cmd∈commands events,cmd.Fits casts := by
  have hstart : Within start := Nat.zero_le _
  have hidle : ¬Begun start := by
    intro h
    have hget : start.packageInBegin.get blocksProtocol=false := Vector.getElem_replicate _
    exact absurd (hget.symm.trans h) (by decide)
  rw [succeeds_iff_parts,received_iff (received events) hstart,
    and_iff_right (fun h : Begun start => absurd h hidle)]

/-- A head and 64 bytes without an end. -/
def unterminated : List Event :=
  .received startEsp32Online::List.replicate 64 (.received 0)

/-- A block with one command, a byte and then as many bytes as that says. -/
def alterableBlock : BlockInfo := ⟨1,0x63,0x10,fun i => [1,5,0x01,0xb1].getD i 0⟩

/-- The command with the number 100. -/
def alterableCommand : Event :=
  .command (.sendSingleCommand (some alterableBlock) ⟨5,fun _ => 0x42C80000⟩)

/-- The byte after 64 others of a frame, and the data of a command with a large number,
are written past the package. -/
theorem pastPackage : ¬Succeeds (step .wrapping) start unterminated∧
      ¬Succeeds (step .wrapping) start [alterableCommand] := by
  constructor
  · intro h
    have hfits := ((received_iff _ (Nat.zero_le _)).mp ((succeeds_iff_parts _ _ _).mp h).1).2
    have hbody : Body (List.replicate 64 (0 : UInt8)) := by
      unfold Body
      decide
    have hle := hfits [] (List.replicate 64 0) [] (by decide) hbody
    exact absurd hle (by decide)
  · intro h
    have hfits := ((succeeds_iff_parts _ _ _).mp h).2 _ List.mem_cons_self _ _ rfl
    have htypes := hfits alterableBlock (Option.mem_some_self _) 5 [0x01,0xb1] (by decide)
    unfold TypesFit at htypes
    exact absurd htypes (by decide)

end MicroPython.NeuronsLink
