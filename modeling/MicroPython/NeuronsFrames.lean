import MicroPython.InputMachine
import MicroPython.NeuronsGroups

/-!
# Frames of the neurons protocol

A message is encoded between the head and the end of its frame, the receiver gets
the frame byte by byte, and the values are read at their offsets. All of them
come back, and no byte between head and end looks like one, exactly when the ids
and the bytes of type `BYTE_8_T` have seven bits and the numbers of type
`SHORT_16_T` have fourteen.
-/

namespace MicroPython.NeuronsFrames

open NeuronsProtocol NeuronsGroups InputMachine
open List (append_nil length_cons append_assoc flatMap_cons length_append length_nil cons_append
  mem_cons not_mem_nil)

/-- The bytes of values. -/
def bytesOf (values : List Value) : List UInt8 := values.flatMap Value.bytes

/-- A message: the ids of its frame and its values. -/
structure Message where
  deviceId : UInt8
  serviceId : UInt8
  subServiceId : Option UInt8
  values : List Value
  /-- The frame fits a package. -/
  fits : 3+subServiceId.toList.length+(bytesOf values).length+2≤packageSize

namespace Message

/-- The frame structure of a message. -/
def commandFrame (m : Message) : CommandFrame :=
  ⟨startEsp32Online,m.deviceId,m.serviceId,m.subServiceId.getD 0,endEsp32Online⟩

/-- The head, the values and the end are added to a package. -/
def encode (m : Message) (package : Package) : Except Fault Package :=
  match neuronsBufferAddHeadFrameT m.commandFrame package m.subServiceId.isSome with
  | .error e => .error e
  | .ok package =>
    match addValues package m.values with
    | .error e => .error e
    | .ok package => neuronsBufferAddEndFrameT m.commandFrame package

/-- The ids after the head. -/
def ids (m : Message) : List UInt8 := [m.deviceId,m.serviceId]++m.subServiceId.toList

/-- Where the values begin. -/
def offset (m : Message) : ℕ := 1+m.ids.length

/-- The length of the frame. -/
def length (m : Message) : ℕ := m.offset+(bytesOf m.values).length+2

/-- All that an encoding should do: the frame is between its head and its end, the
bytes inside are below 128 and all of it is sent; at its last byte the callback is
called, once and with a package in which every value is read at its offset. -/
def Carried (m : Message) (data : Vector UInt8 packageSize) (r : Receiver)
    (protocolIndex : Fin protocolNum) : Prop :=
  ∃ package inner,m.encode ⟨data,0⟩=.ok package∧
    package.data.toList.take m.length=startEsp32Online::inner++[endEsp32Online]∧
    (∀ b∈inner,b < 0x80)∧
    neuronsCommandPackegeSendAll package=.ok (startEsp32Online::inner++[endEsp32Online])∧
    ∃ r' received,
      run (neuronsCommandPackagePutT startEsp32Online endEsp32Online protocolIndex.val) r
          (startEsp32Online::inner++[endEsp32Online])=
        .ok (r',List.replicate (inner.length+1) none++[some received])∧
      ∀ before v after,m.values=before++v::after →
        neuronsReadValueByTypeT received (m.offset+(bytesOf before).length) v.dataType=.ok v

end Message

/-- A value of which the type holds all bits. -/
def Small : Value→Prop
  | .byte8 val => val < 0x80
  | .short16 val => val < 0x4000
  | _ => True

/-- A message of which the types hold all bits. -/
def Message.Small (m : Message) : Prop :=
  (∀ b∈m.ids,b < 0x80)∧∀ v∈m.values,NeuronsFrames.Small v

/-! ## Packages -/

/-- The bytes that are in a package. -/
def contents (package : Package) : List UInt8 :=
  package.data.toList.take package.dataInIndex

/-- A byte is added at the end. -/
theorem push_spec {package : Package} (h : package.dataInIndex < packageSize) (b : UInt8) :
    ∃ q,package.push b=.ok q∧contents q=contents package++[b]∧
      q.dataInIndex=package.dataInIndex+1 := by
  refine ⟨_,dif_pos h,?_,rfl⟩
  have hlength : package.dataInIndex < package.data.toList.length := by
    rw [Vector.length_toList]
    exact h
  show (package.data.set package.dataInIndex b h).toList.take (package.dataInIndex+1)=_
  rw [Vector.toList_set,List.take_add_one,List.take_set_of_le (Nat.le_refl _),
    List.getElem?_set_self hlength]
  rfl

/-- Bytes are added at the end. -/
theorem pushAll_spec (bytes : List UInt8) : ∀ package : Package,
    package.dataInIndex+bytes.length≤packageSize →
      ∃ q,package.pushAll bytes=.ok q∧contents q=contents package++bytes∧
        q.dataInIndex=package.dataInIndex+bytes.length := by
  induction bytes with
  | nil => exact fun package _ => ⟨package,rfl,(append_nil _).symm,rfl⟩
  | cons b bytes ih =>
    intro package h
    rw [length_cons] at h
    obtain ⟨q,hpush,hcontents,hindex⟩ := @push_spec package (by omega) b
    obtain ⟨t,hrest,hall,hend⟩ := ih q (by omega)
    refine ⟨t,?_,?_,?_⟩
    · rw [Package.pushAll,hpush]
      exact hrest
    · rw [hall,hcontents,append_assoc]
      rfl
    · rw [hend,hindex,length_cons]
      omega

/-- Values are added at the end. -/
theorem addValues_spec (values : List Value) : ∀ package : Package,
    package.dataInIndex+(bytesOf values).length≤packageSize →
      ∃ q,addValues package values=.ok q∧contents q=contents package++bytesOf values∧
        q.dataInIndex=package.dataInIndex+(bytesOf values).length := by
  induction values with
  | nil => exact fun package _ => ⟨package,rfl,(append_nil _).symm,rfl⟩
  | cons v values ih =>
    intro package h
    rw [bytesOf,flatMap_cons,length_append] at h
    obtain ⟨q,hpush,hcontents,hindex⟩ := pushAll_spec v.bytes package (by omega)
    have hrest : q.dataInIndex+(bytesOf values).length≤packageSize := by
      rw [hindex,bytesOf]
      omega
    obtain ⟨t,hadd,hall,hend⟩ := ih q hrest
    refine ⟨t,?_,?_,?_⟩
    · rw [addValues,neuronsBufferAddDataT,hpush]
      exact hadd
    · rw [hall,hcontents,append_assoc]
      rfl
    · rw [hend,hindex,bytesOf,bytesOf,flatMap_cons,length_append]
      omega

/-! ## The frame -/

namespace Message

/-- What is between the head and the checksum. -/
def body (m : Message) : List UInt8 := m.ids++bytesOf m.values

/-- The checksum. -/
def checkOut (m : Message) : UInt8 := m.body.foldl (·+·) 0&&&0x7f

/-- What is between the head and the end. -/
def inner (m : Message) : List UInt8 := m.body++[m.checkOut]

/-- The frame. -/
def frame (m : Message) : List UInt8 := startEsp32Online::m.inner++[endEsp32Online]

theorem frame_length (m : Message) : m.frame.length=m.length := by
  simp only [frame,inner,body,length,offset,length_append,length_cons,length_nil]
  omega

/-- The frame is no longer than a package. -/
theorem length_le (m : Message) : m.length≤packageSize := by
  have hfits := m.fits
  simp only [length,offset,ids,length_append,length_cons,length_nil]
  omega

theorem headValues_bytes (m : Message) :
    bytesOf ([.byte8 m.commandFrame.head,.byte8 m.commandFrame.deviceId,
      .byte8 m.commandFrame.serviceId]++
        if m.subServiceId.isSome then [.byte8 m.commandFrame.subServiceId] else [])=
      startEsp32Online::m.ids := by
  rw [ids]
  unfold commandFrame
  cases m.subServiceId <;> rfl

/-- A message is encoded as its frame. -/
theorem encode_spec (m : Message) (data : Vector UInt8 packageSize) :
    ∃ package,m.encode ⟨data,0⟩=.ok package∧package.data.toList.take m.length=m.frame := by
  have hlength := m.length_le
  have hoffset : (startEsp32Online::m.ids).length=m.offset := by
    rw [length_cons,offset,Nat.add_comm]
  have hroom : m.offset+(bytesOf m.values).length+2≤packageSize := hlength
  -- the head
  have hhead := m.headValues_bytes
  obtain ⟨p,hp,hpc,hpi⟩ := addValues_spec ([.byte8 m.commandFrame.head,
    .byte8 m.commandFrame.deviceId,.byte8 m.commandFrame.serviceId]++
      if m.subServiceId.isSome then [.byte8 m.commandFrame.subServiceId] else []) ⟨data,0⟩ (by
    rw [hhead,hoffset]
    show 0+m.offset≤_
    omega)
  rw [hhead] at hpc hpi
  rw [hoffset] at hpi
  have hpi' : p.dataInIndex=m.offset := hpi.trans (Nat.zero_add _)
  -- the values
  obtain ⟨q,hq,hqc,hqi⟩ := addValues_spec m.values p (by omega)
  have hqall : contents q=startEsp32Online::m.body := by
    rw [hqc,hpc]
    rfl
  have hcheck : q.checkOut q.dataInIndex=m.checkOut := by
    show ((contents q).drop 1).foldl (·+·) 0&&&0x7f=_
    rw [hqall]
    rfl
  -- the end
  obtain ⟨t,ht,htc,hti⟩ := addValues_spec [.byte8 m.checkOut,.byte8 m.commandFrame.endByte] q (by
      show _+2≤_
      omega)
  have hindex : t.dataInIndex=m.length := by
    show _=m.offset+_+2
    rw [hti,hqi,hpi']
    rfl
  refine ⟨{t with dataInIndex := 0},?_,?_⟩
  · have hhead' : neuronsBufferAddHeadFrameT m.commandFrame ⟨data,0⟩
        m.subServiceId.isSome=.ok p := hp
    rw [encode,hhead']
    simp only [hq]
    rw [neuronsBufferAddEndFrameT,hcheck,ht]
  · have htake : contents t=t.data.toList.take m.length := by rw [contents,hindex]
    show t.data.toList.take m.length=_
    rw [←htake,htc,hqall,frame,inner,cons_append,cons_append,append_assoc]
    rfl

end Message

/-! ## Sending and receiving -/

/-- A byte of a frame that is neither its head nor its end. -/
def Plain (b : UInt8) : Prop := b≠startEsp32Online∧b≠endEsp32Online

/-- Bytes below 128 are plain. -/
theorem plain_of_lt {b : UInt8} (h : b < 0x80) : Plain b := by
  constructor
  · rintro rfl
    exact absurd h (by decide)
  · rintro rfl
    exact absurd h (by decide)

/-- A frame with plain bytes inside is sent as it is. -/
theorem sendAll_spec {package : Package} {inner : List UInt8}
    (hinner : ∀ b∈inner,Plain b) (hlength : inner.length+2≤packageSize)
    (h : package.data.toList.take (inner.length+2)=startEsp32Online::inner++[endEsp32Online]) :
    neuronsCommandPackegeSendAll package=.ok (startEsp32Online::inner++[endEsp32Online]) := by
  have hstart : ∀ b∈startEsp32Online::inner,decide (b≠endEsp32Online)=true := by
    intro b hb
    apply decide_eq_true
    cases List.mem_cons.mp hb with
    | inl heq =>
      rw [heq]
      decide
    | inr hmem => exact (hinner b hmem).2
  have hsent : package.data.toList.takeWhile (·≠endEsp32Online)=startEsp32Online::inner := by
    rw [←List.take_append_drop (inner.length+2) package.data.toList,h,append_assoc,
      List.takeWhile_append_of_pos hstart]
    exact append_nil _
  have hroom : (startEsp32Online::inner).length < packageSize := by
    rw [length_cons]
    omega
  rw [neuronsCommandPackegeSendAll]
  simp only [hsent]
  rw [if_pos hroom]

variable {k : Fin protocolNum}

/-- The receiver while a frame comes in. -/
def Receiving (r : Receiver) (k : Fin protocolNum) (bytes : List UInt8) : Prop :=
  r.packageInBegin.get k=true∧contents r.package=bytes∧r.package.dataInIndex=bytes.length

/-- The head begins a frame. -/
theorem put_head (r : Receiver) :
    ∃ r',neuronsCommandPackagePutT startEsp32Online endEsp32Online k.val r startEsp32Online=
        .ok (r',none)∧Receiving r' k [startEsp32Online] := by
  obtain ⟨q,hpush,hcontents,hindex⟩ :=
    pushAll_spec [startEsp32Online] Package.reset (by decide)
  refine ⟨⟨q,r.packageInBegin.set k.val true k.isLt⟩,?_,?_,hcontents,hindex⟩
  · rw [neuronsCommandPackagePutT,dif_pos k.isLt,if_pos rfl,hpush]
  · exact Vector.getElem_set_self _

theorem put_plain {r : Receiver} {bytes : List UInt8} (h : Receiving r k bytes) {b : UInt8}
    (hb : Plain b) (hroom : bytes.length < packageSize) :
    ∃ r',neuronsCommandPackagePutT startEsp32Online endEsp32Online k.val r b=
        .ok (r',none)∧Receiving r' k (bytes++[b]) := by
  obtain ⟨hbegin,hcontents,hindex⟩ := h
  obtain ⟨q,hpush,hall,hend⟩ := pushAll_spec [b] r.package (by rw [hindex]; exact hroom)
  refine ⟨⟨q,r.packageInBegin⟩,?_,hbegin,?_,?_⟩
  · rw [neuronsCommandPackagePutT,dif_pos k.isLt,if_neg hb.1,if_pos hbegin,hpush]
    exact if_neg hb.2
  · rw [hall,hcontents]
  · rw [hend,hindex,length_append]

/-- Plain bytes are added. -/
theorem run_plain (bs : List UInt8) (hplain : ∀ b∈bs,Plain b) :
    ∀ (r : Receiver) (bytes : List UInt8),Receiving r k bytes → bytes.length+bs.length≤packageSize →
      ∃ r',run (neuronsCommandPackagePutT startEsp32Online endEsp32Online k.val) r bs=
          .ok (r',List.replicate bs.length none)∧Receiving r' k (bytes++bs) := by
  induction bs with
  | nil =>
    intro r bytes h _
    rw [append_nil]
    exact ⟨r,rfl,h⟩
  | cons b bs ih =>
    intro r bytes h hroom
    rw [length_cons] at hroom
    obtain ⟨r1,hput,hr1⟩ := put_plain h (hplain b List.mem_cons_self) (by omega)
    obtain ⟨r2,hrun,hr2⟩ := ih (fun d hd => hplain d (List.mem_cons_of_mem _ hd)) r1 _ hr1 (by
      rw [length_append]
      show _+1+_≤_
      omega)
    refine ⟨r2,run_cons_eq_ok.mpr ⟨r1,none,_,hput,hrun,rfl⟩,?_⟩
    rw [append_assoc] at hr2
    exact hr2

/-- The checksum of a frame is that of its body. -/
theorem checkSum_spec {package : Package} (m : Message) (h : contents package=m.frame)
    (hindex : package.dataInIndex=m.frame.length) : neuronsPackageCheckSumT package=true := by
  have hfront : package.dataInIndex-2=(startEsp32Online::m.body).length := by
    rw [hindex,Message.frame,Message.inner]
    simp only [length_append,length_cons,length_nil]
    omega
  have hsplit : package.data.toList=(startEsp32Online::m.body)++
      (m.checkOut::endEsp32Online::package.data.toList.drop package.dataInIndex) := by
    have hall := (List.take_append_drop package.dataInIndex package.data.toList).symm
    have htake : package.data.toList.take package.dataInIndex=m.frame := h
    rw [htake,Message.frame,Message.inner] at hall
    refine hall.trans ?_
    simp only [cons_append,append_assoc,List.nil_append]
  rw [neuronsPackageCheckSumT,Package.checkOut,hfront,hsplit,List.take_left,beq_iff_eq,
    List.getD_eq_getElem?_getD,List.getElem?_append_right (Nat.le_refl _),Nat.sub_self]
  rfl

/-- A frame with plain bytes inside is received at its end. -/
theorem run_frame (m : Message) (r : Receiver) (hplain : ∀ b∈m.inner,Plain b) :
    ∃ r' received,run (neuronsCommandPackagePutT startEsp32Online endEsp32Online k.val) r m.frame=
        .ok (r',List.replicate (m.inner.length+1) none++[some received])∧
      contents received=m.frame := by
  have hroom : m.inner.length+2≤packageSize := by
    have hle := m.length_le
    rw [←m.frame_length,Message.frame,length_append,length_cons] at hle
    exact hle
  obtain ⟨r1,hhead,hr1⟩ := @put_head k r
  obtain ⟨r2,hinner,hbegin,hcontents,hindex⟩ := run_plain m.inner hplain r1 _ hr1 (by
    show 1+_≤_
    omega)
  obtain ⟨q,hpush,hall,hend⟩ := pushAll_spec [endEsp32Online] r2.package (by
    rw [hindex,length_append]
    show 1+_+1≤_
    omega)
  have hframe : contents q=m.frame := by
    rw [hall,hcontents]
    rfl
  have hqlen : q.dataInIndex=m.frame.length := by
    rw [hend,hindex,Message.frame]
    simp only [length_append,length_cons,length_nil]
    omega
  have hlast : neuronsCommandPackagePutT startEsp32Online endEsp32Online k.val r2
      endEsp32Online=.ok (⟨q,r2.packageInBegin.set k.val false k.isLt⟩,some q) := by
    rw [neuronsCommandPackagePutT,dif_pos k.isLt,if_neg (by decide),if_pos hbegin,hpush]
    simp only [if_true,checkSum_spec m hframe hqlen]
  refine ⟨⟨q,r2.packageInBegin.set k.val false k.isLt⟩,q,?_,hframe⟩
  have htail : run (neuronsCommandPackagePutT startEsp32Online endEsp32Online k.val) r2
      [endEsp32Online]=.ok (⟨q,r2.packageInBegin.set k.val false k.isLt⟩,[some q]) :=
    run_cons_eq_ok.mpr ⟨_,_,[],hlast,rfl,rfl⟩
  exact run_cons_eq_ok.mpr ⟨r1,none,_,hhead,run_append hinner htail,rfl⟩

/-! ## Values -/

/-- A value is read from its own bytes exactly when its type holds all its bits. -/
theorem read_iff {package : Package} {index : ℕ} {v : Value} {rest : List UInt8}
    (h : package.data.toList.drop index=v.bytes++rest) :
    neuronsReadValueByTypeT package index v.dataType=.ok v↔Small v := by
  rw [neuronsReadValueByTypeT.eq_def,h]
  cases v with
  | byte8 val =>
    simp only [Value.dataType,Value.bytes,valueToNeuronsByte8,cons_append,
      Except.ok.injEq,Value.byte8.injEq]
    exact byte8_roundTrip val
  | byte16 val =>
    simp only [Value.dataType,Value.bytes,valueToNeuronsByte16,cons_append,
      byte16_roundTrip val]
    exact iff_of_true trivial trivial
  | short16 val =>
    obtain ⟨h0,h1,_⟩ := groups16_toNat val
    simp only [Value.dataType,Value.bytes,valueToNeuronsShort16,cons_append,
      Except.ok.injEq,Value.short16.injEq]
    exact short16_roundTrip val _ _ h0 h1
  | short24 val =>
    obtain ⟨h0,h1,h2⟩ := groups16_toNat val.toUInt16
    simp only [Value.dataType,Value.bytes,valueToNeuronsShort24,cons_append,
      short24_roundTrip val _ _ _ h0 h1 h2]
    exact iff_of_true trivial trivial
  | long40 val =>
    have hall := ungroup40_roundTrip val.toUInt32 _ _ _ _ _ (groups40_toNat _)
    simp only [Value.dataType,Value.bytes,valueToNeuronsLong40,groups40,cons_append,
      long40ToValue,hall,Int32.toInt32_toUInt32]
    exact iff_of_true trivial trivial
  | float40 bits =>
    have hall := ungroup40_roundTrip bits _ _ _ _ _ (groups40_toNat _)
    simp only [Value.dataType,Value.bytes,valueToNeuronsFloat40,groups40,cons_append,
      float40ToValue,hall]
    exact iff_of_true trivial trivial

/-- Seven bits are below 128. -/
theorem mask_lt (a : UInt8) : a&&&0x7f < 0x80 := by
  rw [UInt8.lt_iff_toNat_lt,toNat_mask]
  exact Nat.mod_lt _ (by decide)

/-- The bytes of a value that its type holds are below 128. -/
theorem bytes_lt {v : Value} (h : Small v) : ∀ b∈v.bytes,b < 0x80 := by
  intro b hb
  cases v with
  | byte8 val =>
    rw [List.mem_singleton.mp hb]
    exact h
  | byte16 val =>
    simp only [Value.bytes,valueToNeuronsByte16,mem_cons,not_mem_nil,or_false] at hb
    rcases hb with rfl | rfl <;> exact mask_lt _
  | short16 val =>
    simp only [Value.bytes,valueToNeuronsShort16,mem_cons,not_mem_nil,or_false] at hb
    rcases hb with rfl | rfl <;> exact mask_lt _
  | short24 val =>
    simp only [Value.bytes,valueToNeuronsShort24,mem_cons,not_mem_nil,or_false] at hb
    rcases hb with rfl | rfl | rfl <;> exact mask_lt _
  | long40 val =>
    simp only [Value.bytes,valueToNeuronsLong40,groups40,mem_cons,not_mem_nil,
      or_false] at hb
    rcases hb with rfl | rfl | rfl | rfl | rfl <;> exact mask_lt _
  | float40 bits =>
    simp only [Value.bytes,valueToNeuronsFloat40,groups40,mem_cons,not_mem_nil,
      or_false] at hb
    rcases hb with rfl | rfl | rfl | rfl | rfl <;> exact mask_lt _

/-! ## Messages -/

namespace Message

/-- The bytes inside a frame are below 128 when the ids and the values are small. -/
theorem inner_lt {m : Message} (h : m.Small) : ∀ b∈m.inner,b < 0x80 := by
  intro b hb
  rw [inner,body,append_assoc] at hb
  cases List.mem_append.mp hb with
  | inl hid => exact h.1 b hid
  | inr hrest =>
    cases List.mem_append.mp hrest with
    | inl hvalue =>
      obtain ⟨v,hv,hmem⟩ := List.mem_flatMap.mp hvalue
      exact bytes_lt (h.2 v hv) b hmem
    | inr hcheck =>
      rw [List.mem_singleton.mp hcheck]
      exact mask_lt _

/-- Values are at their offsets in a package with the frame. -/
theorem drop_frame (m : Message) {package : Package} (h : contents package=m.frame)
    {before after : List Value} {v : Value} (hvalues : m.values=before++v::after) :
    ∃ rest,package.data.toList.drop (m.offset+(bytesOf before).length)=v.bytes++rest := by
  have hall := (List.take_append_drop package.dataInIndex package.data.toList).symm
  have htake : package.data.toList.take package.dataInIndex=m.frame := h
  have hsplit : m.frame=(startEsp32Online::m.ids++bytesOf before)++
      (v.bytes++(bytesOf after++[m.checkOut,endEsp32Online])) := by
    rw [frame,inner,body,hvalues]
    simp only [bytesOf,List.flatMap_append,flatMap_cons,cons_append,
      append_assoc,List.nil_append]
  have hlength : m.offset+(bytesOf before).length=
      (startEsp32Online::m.ids++bytesOf before).length := by
    rw [offset,length_append,length_cons,Nat.add_comm 1]
  rw [htake,hsplit,append_assoc] at hall
  rw [hall,hlength,List.drop_left,append_assoc]
  exact ⟨_,rfl⟩

theorem inner_length (m : Message) : m.length=m.inner.length+2 := by
  rw [←m.frame_length,frame,length_append,length_cons]
  rfl

variable {m : Message} {data : Vector UInt8 packageSize} {r : Receiver}
  {protocolIndex : Fin protocolNum}

/-- Messages that are carried are small. -/
theorem small_of_carried (h : m.Carried data r protocolIndex) : m.Small := by
  obtain ⟨package,inner,hencode,htake,hlt,_,r',received,hrun,hread⟩ := h
  obtain ⟨package',hencode',htake'⟩ := m.encode_spec data
  rw [hencode] at hencode'
  cases hencode'
  have hinner : inner=m.inner := by
    rw [htake',frame] at htake
    exact (List.append_cancel_right (List.cons.inj htake).2).symm
  rw [hinner] at hlt hrun
  obtain ⟨s',received',hrun',hcontents⟩ :=
    @run_frame protocolIndex m r fun b hb => plain_of_lt (hlt b hb)
  have hsame : received=received' := by
    have hout := congrArg (Except.map Prod.snd) (hrun.symm.trans hrun')
    have hlast := List.append_cancel_left (Except.ok.inj hout)
    exact Option.some.inj (List.cons.inj hlast).1
  constructor
  · intro b hb
    refine hlt b ?_
    rw [Message.inner,body]
    exact List.mem_append_left _ (List.mem_append_left _ hb)
  · intro v hv
    obtain ⟨before,after,hvalues⟩ := List.append_of_mem hv
    obtain ⟨rest,hdrop⟩ := m.drop_frame hcontents hvalues
    rw [←hsame] at hdrop
    exact (read_iff hdrop).mp (hread before v after hvalues)

/-- Messages that are small are carried. -/
theorem carried_of_small (h : m.Small) : m.Carried data r protocolIndex := by
  obtain ⟨package,hencode,htake⟩ := m.encode_spec data
  have hlt := inner_lt h
  have hplain : ∀ b∈m.inner,Plain b := fun b hb => plain_of_lt (hlt b hb)
  obtain ⟨r',received,hrun,hcontents⟩ := @run_frame protocolIndex m r hplain
  have hroom : m.inner.length+2≤packageSize := by
    rw [←m.inner_length]
    exact m.length_le
  have hsend : package.data.toList.take (m.inner.length+2)=
      startEsp32Online::m.inner++[endEsp32Online] := by
    rw [←m.inner_length]
    exact htake
  refine ⟨package,m.inner,hencode,htake,hlt,sendAll_spec hplain hroom hsend,r',received,hrun,?_⟩
  intro before v after hvalues
  obtain ⟨rest,hdrop⟩ := m.drop_frame hcontents hvalues
  refine (read_iff hdrop).mpr (h.2 v ?_)
  rw [hvalues]
  exact List.mem_append_right _ List.mem_cons_self

/-- A message is carried, from any package and receiver, exactly when its ids and
values are small. -/
theorem carried_iff (m : Message) (data : Vector UInt8 packageSize) (r : Receiver)
    (protocolIndex : Fin protocolNum) : m.Carried data r protocolIndex↔m.Small :=
  ⟨small_of_carried,carried_of_small⟩

end Message

/-- A number of fifteen bits in a message. -/
def fifteenBits : Message where
  deviceId := 1
  serviceId := 0x61
  subServiceId := some 2
  values := [.short16 0x4000]
  fits := by decide

/-- The number of fifteen bits comes back as zero. -/
theorem fifteenBits_lost : ¬∀ (m : Message) (data : Vector UInt8 packageSize) (r : Receiver)
    (protocolIndex : Fin protocolNum),m.Carried data r protocolIndex := by
  intro h
  have hcarried := h fifteenBits (Vector.replicate packageSize 0)
    ⟨.reset,Vector.replicate protocolNum false⟩ ⟨0,by decide⟩
  have hsmall := (Message.small_of_carried hcarried).2 (.short16 0x4000) List.mem_cons_self
  exact absurd hsmall (by decide : ¬(0x4000 : UInt16) < 0x4000)

example : short16ToValue 0 0=0∧bytesOf fifteenBits.values=[0,0] := by
  decide

end MicroPython.NeuronsFrames
