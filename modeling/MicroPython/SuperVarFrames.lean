import MicroPython.SuperVar

/-!
# Frames of super variables

The frame that is sent for a value, when it is parsed by another robot, gives the variable of the
name the same value there, unless the value is a string that is empty or too long for the eight
bits of its length. The send buffer is not looked at when the frame is built.
-/

namespace MicroPython.SuperVarFrames

open Nat List SuperVar

/-! ## Words -/

/-- A byte of a number. -/
theorem toNat_toUInt8 (n : ℕ) : n.toUInt8.toNat=n%256 := UInt8.toNat_ofNat'

/-- A word is read back. -/
theorem wordAt_wordBytes {n : ℕ} (h : n < 4294967296) : wordAt (wordBytes n)=n := by
  have h0 : (wordBytes n).getD 0 0=n.toUInt8 := rfl
  have h1 : (wordBytes n).getD 1 0=(n/256).toUInt8 := rfl
  have h2 : (wordBytes n).getD 2 0=(n/65536).toUInt8 := rfl
  have h3 : (wordBytes n).getD 3 0=(n/16777216).toUInt8 := rfl
  rw [wordAt,h0,h1,h2,h3,toNat_toUInt8,toNat_toUInt8,toNat_toUInt8,toNat_toUInt8]
  omega

/-- An `int` is read back. -/
theorem wordInt_intWord {i : ℤ} (h : fitsInt i) : wordInt (intWord i)=i := by
  obtain ⟨hlow,hhigh⟩ := h
  rw [wordInt,intWord]
  split
  case isTrue hlt => omega
  case isFalse hge => omega

/-- The bits of an `int` are a word. -/
theorem intWord_lt (i : ℤ) : intWord i < 4294967296 := by
  rw [intWord]
  omega

/-! ## Values -/

/-- A value that is accepted, with what is stored for it. -/
structure Accepted where
  value : Value
  type : UInt8
  bytes : List UInt8
  encodes : encode value=some (type,bytes)

/-- The variable after the value was set. -/
def sentVar (superVar : CodeySuperVarObj) (v : Accepted) : CodeySuperVarObj :=
  (codeySuperVarSetValue superVar v.value).getD superVar

/-- All bytes of a value have their length in eight bits, and there is one. -/
def Whole (v : Accepted) : Prop := 0 < v.bytes.length∧v.bytes.length < 256

variable (superVar : CodeySuperVarObj) (v : Accepted)

/-- What is stored for a value. -/
theorem sentVar_eq : sentVar superVar v=
      codeySuperVarUpdateValue superVar v.type v.bytes v.bytes.length.toUInt8 := by
  rw [sentVar,codeySuperVarSetValue,v.encodes]
  rfl

/-- A string that is stored is read as far as its length says. -/
theorem getValue_str {data : List UInt8} {len : UInt8}
    (h : len.toNat≤data.length) :
    codeySuperVarGetValue (codeySuperVarUpdateValue superVar superVarStrT data len)=
      .ok (.str (data.take len.toNat)) := by
  have hread : bytesRead (codeySuperVarUpdateValue superVar superVarStrT data len)=len.toNat := rfl
  have hvalue : readValue (codeySuperVarUpdateValue superVar superVarStrT data len)=
      .str ((data.take len.toNat).take len.toNat) := rfl
  have hlength : (codeySuperVarUpdateValue superVar superVarStrT data len).value.length=
      len.toNat := length_take_of_le h
  rw [codeySuperVarGetValue,hread,hlength,if_pos (le_refl _),hvalue,take_take,min_self]

/-- What is stored for a whole value is read as the value. -/
theorem getValue_update (h : Whole v) :
    codeySuperVarGetValue
      (codeySuperVarUpdateValue superVar v.type v.bytes v.bytes.length.toUInt8)=.ok v.value := by
  obtain ⟨value,type,bytes,hencodes⟩ := v
  have hlen : bytes.length.toUInt8.toNat=bytes.length := by
    rw [toNat_toUInt8]
    exact mod_eq_of_lt h.2
  rw [codeySuperVarUpdateValue,hlen,take_length]
  cases value with
  | bool b =>
    cases hencodes
    cases b with
    | false => rfl
    | true => rfl
  | int i =>
    rw [encode] at hencodes
    split at hencodes
    case isFalse => cases hencodes
    case isTrue hfits =>
      cases hencodes
      refine congrArg (fun i => Except.ok (Value.int i)) ?_
      rw [wordAt_wordBytes (intWord_lt i),wordInt_intWord hfits]
  | str s =>
    cases hencodes
    have hle : bytes.length.toUInt8.toNat≤bytes.length := le_of_eq hlen
    have hget := getValue_str superVar hle
    rw [codeySuperVarUpdateValue,hlen,take_length] at hget
    exact hget
  | float bits =>
    cases hencodes
    refine congrArg (fun i => Except.ok (Value.float i)) ?_
    rw [wordAt_wordBytes bits.toNat_lt]
    exact UInt32.ofNat_toNat
  | other => cases hencodes

instance (v : Accepted) : Decidable (Whole v) := inferInstanceAs (Decidable (_∧_))

/-- Only strings are not whole. -/
theorem str_of_not_whole (h : ¬Whole v) :
    v.value=.str v.bytes∧v.type=superVarStrT := by
  obtain ⟨value,type,bytes,hencodes⟩ := v
  cases value with
  | bool b =>
    cases hencodes
    exact absurd ⟨Nat.zero_lt_one,(by omega : 1 < 256)⟩ h
  | int i =>
    rw [encode] at hencodes
    split at hencodes
    case isFalse => cases hencodes
    case isTrue =>
      cases hencodes
      exact absurd ⟨zero_lt_succ 3,(by omega : 4 < 256)⟩ h
  | str s =>
    cases hencodes
    exact ⟨rfl,rfl⟩
  | float bits =>
    cases hencodes
    exact absurd ⟨zero_lt_succ 3,(by omega : 4 < 256)⟩ h
  | other => cases hencodes

/-! ## Frames -/

theorem cString_append (name : Name) (rest : List UInt8) : cString (name.bytes++0::rest)=name := by
  have htake : (name.bytes++0::rest).takeWhile (fun b => decide (b≠0))=name.bytes := by
    rw [takeWhile_append_of_pos]
    · exact append_nil _
    · exact fun b hb => decide_eq_true (name.nonzero b hb)
  rw [cString]
  congr 1

theorem buildData_eq :
    codeySuperVarBuildData superVar=superVar.name.bytes++
      0::superVar.type::superVar.value.take superVar.valueLen.toNat := by
  rw [codeySuperVarBuildData,append_assoc,append_assoc]
  rfl

theorem length_buildData :
    (codeySuperVarBuildData (sentVar superVar v)).length=
      superVar.name.bytes.length+2+v.bytes.length%256 := by
  have hle : v.bytes.length%256≤v.bytes.length := mod_le _ _
  rw [buildData_eq,sentVar_eq,codeySuperVarUpdateValue,length_append,length_cons,length_cons]
  dsimp only
  rw [toNat_toUInt8,take_take,min_self,length_take_of_le hle]
  omega

/-- A frame that is received is stored, if there is a byte of the value. -/
theorem parse_buildData (vars : SuperVars)
    (hfits : superVar.name.bytes.length+2+v.bytes.length%256 < 256) :
    codeySuperVarFrameParse vars (codeySuperVarBuildData (sentVar superVar v))
      (codeySuperVarBuildData (sentVar superVar v)).length.toUInt8=
    if 0 < v.bytes.length%256 then
      storeFrame vars superVar.name v.type (v.bytes.take (v.bytes.length%256))
        v.bytes.length.toUInt8
    else vars := by
  have hlen : (codeySuperVarBuildData (sentVar superVar v)).length.toUInt8.toNat=
      superVar.name.bytes.length+2+v.bytes.length%256 := by
    rw [toNat_toUInt8,length_buildData]
    exact mod_eq_of_lt hfits
  have hdata : codeySuperVarBuildData (sentVar superVar v)=
      superVar.name.bytes++0::v.type::v.bytes.take (v.bytes.length%256) := by
    rw [buildData_eq,sentVar_eq,codeySuperVarUpdateValue]
    rw [toNat_toUInt8,take_take,min_self]
  have hname : cString (codeySuperVarBuildData (sentVar superVar v))=superVar.name := by
    rw [hdata]
    exact cString_append superVar.name _
  have haccepts : accepts (codeySuperVarBuildData (sentVar superVar v))
      (codeySuperVarBuildData (sentVar superVar v)).length.toUInt8↔0 < v.bytes.length%256 := by
    rw [accepts,hname,hlen]
    omega
  have htype : frameType (codeySuperVarBuildData (sentVar superVar v))=v.type := by
    rw [frameType,hname,hdata,getD_eq_getElem?_getD,
      List.getElem?_append_right (Nat.le_add_right _ 1),Nat.add_sub_cancel_left]
    rfl
  have hdrop : (codeySuperVarBuildData (sentVar superVar v)).drop
      (superVar.name.bytes.length+2)=v.bytes.take (v.bytes.length%256) := by
    rw [hdata,drop_append,drop_of_length_le (Nat.le_add_right _ 2),Nat.add_sub_cancel_left]
    rfl
  have hvalue : frameValueLen (codeySuperVarBuildData (sentVar superVar v))
      (codeySuperVarBuildData (sentVar superVar v)).length.toUInt8=v.bytes.length.toUInt8 := by
    rw [frameValueLen,hname,hlen,Nat.add_sub_cancel_left]
    refine UInt8.toNat_inj.mp ?_
    rw [toNat_toUInt8,toNat_toUInt8,mod_mod]
  rw [codeySuperVarFrameParse,htype,hname,hdrop,hvalue]
  exact if_congr haccepts rfl rfl

/-! ## Variables of a name -/

/-- The variable of a name, and what it reads, when there is one or not. -/
def getByName (vars : SuperVars) (name : Name) : Option (Except Fault Value) :=
  let new := codeySuperVarNew vars name
  new.1[new.2]?.map codeySuperVarGetValue

theorem getByName_of_find {vars : SuperVars} {name : Name} {pos : ℕ}
    (h : codeySuperVarFindByName vars name=some pos) :
    getByName vars name=vars[pos]?.map codeySuperVarGetValue := by
  rw [getByName,codeySuperVarNew,h]

/-- A value that is stored changes no names. -/
theorem names_modify (vars : SuperVars) (pos : ℕ) {f : CodeySuperVarObj → CodeySuperVarObj}
    (hf : ∀ v,(f v).name=v.name) :
    (vars.modify pos f).map CodeySuperVarObj.name=vars.map CodeySuperVarObj.name := by
  refine ext_getElem? fun i => ?_
  rw [List.getElem?_map,List.getElem?_map,List.getElem?_modify]
  cases vars[i]? with
  | none => rfl
  | some v =>
    cases Decidable.em (pos=i) with
    | inr hne => exact congrArg (fun v => some (CodeySuperVarObj.name v)) (if_neg hne)
    | inl heq =>
      have hname : (if pos=i then f v else v).name=v.name := by
        rw [if_pos heq]
        exact hf v
      exact congrArg some hname

theorem find_eq (vars : SuperVars) (name : Name) : codeySuperVarFindByName vars name=
      (vars.map CodeySuperVarObj.name).findIdx? fun n => decide (n=name) := by
  rw [List.findIdx?_map]
  rfl

/-- The variable of a name after a value was stored for it. -/
theorem getByName_storeFrame (vars : SuperVars) (name : Name) (type : UInt8)
    (data : List UInt8) (len : UInt8) :
    ∃ superVar,getByName (storeFrame vars name type data len) name=
      some (codeySuperVarGetValue (codeySuperVarUpdateValue superVar type data len)) := by
  rw [storeFrame]
  cases hfind : codeySuperVarFindByName vars name with
  | none =>
    refine ⟨codeySuperVarCreate name,?_⟩
    have hlast : codeySuperVarFindByName
        (vars++[codeySuperVarUpdateValue (codeySuperVarCreate name) type data len]) name=
        some vars.length := by
      rw [find_eq] at hfind ⊢
      rw [map_append,List.findIdx?_append,hfind]
      have hself : ([codeySuperVarUpdateValue (codeySuperVarCreate name) type data len].map
          CodeySuperVarObj.name).findIdx? (fun n => decide (n=name))=some 0 :=
        if_pos (decide_eq_true rfl)
      rw [hself,length_map]
      exact congrArg some (Nat.zero_add _)
    rw [getByName_of_find hlast,List.getElem?_concat_length]
    rfl
  | some pos =>
    obtain ⟨hlt,hname,hbefore⟩ := List.findIdx?_eq_some_iff_getElem.mp hfind
    refine ⟨vars[pos],?_⟩
    have hsame : codeySuperVarFindByName
        (vars.modify pos fun v => codeySuperVarUpdateValue v type data len) name=some pos := by
      rw [find_eq] at hfind ⊢
      have hnames := @names_modify vars pos
        (fun v => codeySuperVarUpdateValue v type data len) fun _ => rfl
      rw [hnames]
      exact hfind
    rw [getByName_of_find hsame,List.getElem?_modify,List.getElem?_eq_getElem hlt]
    exact congrArg (fun v => some (codeySuperVarGetValue v)) (if_pos rfl)

theorem getByName_nil (name : Name) : getByName [] name=some (.ok (.int 0)) := rfl

/-! ## What is exchanged -/

/-- The frame of a value has room in the send buffer. -/
def FrameFits (superVar : CodeySuperVarObj) (v : Accepted) : Prop :=
  (codeySuperVarSendValue true (sentVar superVar v)).length≤txBufSize

/-- The data that are sent for a value, when they are parsed by a robot, make its variable of
the name read the same value. -/
def RoundTrips (superVar : CodeySuperVarObj) (v : Accepted) (peer : SuperVars) : Prop :=
  let data := codeySuperVarBuildData (sentVar superVar v)
  getByName (codeySuperVarFrameParse peer data data.length.toUInt8) superVar.name=some (.ok v.value)

/-- The data and the frame are written inside the send buffer, when there is memory for the frame
or not. -/
def WritesInside (allocated : Bool) (superVar : CodeySuperVarObj) (v : Accepted) : Prop :=
  (codeySuperVarBuildData (sentVar superVar v)).length≤txBufSize∧
    (codeySuperVarSendValue allocated (sentVar superVar v)).length≤txBufSize

/-- The length of a frame. -/
theorem length_sendValue (allocated : Bool) :
    (codeySuperVarSendValue allocated (sentVar superVar v)).length=
      if allocated then superVar.name.bytes.length+9+v.bytes.length%256 else 0 := by
  rw [codeySuperVarSendValue,CommProtocol.codeyCommBuildFrame]
  cases allocated with
  | false => rfl
  | true =>
    rw [if_pos rfl,if_pos rfl,length_append,length_append,length_buildData]
    dsimp only [length_cons,length_nil]
    omega

/-- A value whose frame fits is the same for all robots exactly when it is whole. -/
theorem roundTrips_iff
    (hfits : FrameFits superVar v) : (∀ peer,RoundTrips superVar v peer)↔Whole v := by
  rw [FrameFits,length_sendValue,if_pos rfl,txBufSize] at hfits
  have hparse := fun vars => parse_buildData superVar v vars (by omega)
  constructor
  · intro hall
    have hnew := hall []
    rw [RoundTrips,hparse] at hnew
    refine Decidable.not_not.mp fun hwhole => ?_
    obtain ⟨hvalue,htype⟩ := str_of_not_whole v hwhole
    rw [hvalue,htype] at hnew
    cases Nat.eq_zero_or_pos (v.bytes.length%256) with
    | inl hzero =>
      rw [hzero,if_neg (lt_irrefl 0),getByName_nil] at hnew
      cases hnew
    | inr hpos =>
      obtain ⟨var,hget⟩ := getByName_storeFrame [] superVar.name superVarStrT
        (v.bytes.take (v.bytes.length%256)) v.bytes.length.toUInt8
      have hle : v.bytes.length.toUInt8.toNat≤(v.bytes.take (v.bytes.length%256)).length := by
        rw [toNat_toUInt8,length_take_of_le (mod_le _ _)]
      rw [if_pos hpos,hget,getValue_str var hle] at hnew
      have hsame := Value.str.inj (Except.ok.inj (Option.some.inj hnew))
      have hlength := congrArg List.length hsame
      rw [toNat_toUInt8,take_take,min_self,length_take] at hlength
      exact hwhole ⟨by omega,by omega⟩
  · intro hwhole peer
    have hmod := mod_eq_of_lt hwhole.2
    rw [RoundTrips,hparse,hmod,if_pos hwhole.1,take_length]
    obtain ⟨var,hget⟩ := getByName_storeFrame peer superVar.name v.type v.bytes
      v.bytes.length.toUInt8
    rw [hget,getValue_update var v hwhole]

/-- The data of a value, and its frame if there is memory for one, have room in the send
buffer. -/
def HasRoom (allocated : Bool) (superVar : CodeySuperVarObj) (v : Accepted) : Prop :=
  superVar.name.bytes.length+2+v.bytes.length%256+(if allocated then 7 else 0)≤txBufSize

/-- Values are the same for all robots, and are written inside the send buffer, exactly when
they have room there and, if their frames do, are no strings that are empty or have 256 bytes or
more. -/
theorem exchange_iff (allocated : Bool) (superVar : CodeySuperVarObj) (v : Accepted) :
    ((FrameFits superVar v → ∀ peer,RoundTrips superVar v peer)∧WritesInside allocated superVar v)↔
    (HasRoom true superVar v → Whole v)∧HasRoom allocated superVar v := by
  have hframe : FrameFits superVar v↔HasRoom true superVar v := by
    rw [FrameFits,HasRoom,length_sendValue,if_pos rfl,if_pos rfl,txBufSize]
    omega
  refine and_congr (imp_congr_ctx hframe fun h => ?_) ?_
  · exact roundTrips_iff superVar v (hframe.mpr h)
  · rw [WritesInside,HasRoom,length_buildData,length_sendValue,txBufSize]
    cases allocated with
    | false =>
      rw [if_neg Bool.false_ne_true,if_neg Bool.false_ne_true]
      omega
    | true =>
      rw [if_pos rfl,if_pos rfl]
      omega

/-- An empty string as a value. -/
def emptyString : Accepted := ⟨.str [],superVarStrT,[],rfl⟩

/-- The name of one byte. -/
def shortName : Name where
  bytes := [97]
  nonzero := by
    intro b hb
    rw [List.mem_singleton.mp hb]
    decide

/-- A name of 300 bytes. -/
def longName : Name where
  bytes := List.replicate 300 97
  nonzero := by
    intro b hb
    rw [List.eq_of_mem_replicate hb]
    decide

/-- An empty string is not received, and a long name is written behind the send buffer. -/
theorem emptyAndLong : ¬(FrameFits (codeySuperVarCreate shortName) emptyString →
      ∀ peer,RoundTrips (codeySuperVarCreate shortName) emptyString peer)∧
    ¬WritesInside true (codeySuperVarCreate longName) emptyString := by
  constructor
  · intro hall
    have hfits : FrameFits (codeySuperVarCreate shortName) emptyString := by
      rw [FrameFits]
      decide
    have hnew := hall hfits []
    cases hnew
  · rintro ⟨hdata,_⟩
    exact absurd hdata (by decide +kernel)

end MicroPython.SuperVarFrames
