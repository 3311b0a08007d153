import MicroPython.OrderedMap
import MicroPython.ClassOrder
import MicroPython.FallibleRuns

/-!
# The cache of map lookups in the bytecode

A byte behind an instruction says in which slot of a map its name was found the last time. The
slot is used when its key is the name, and the map is searched otherwise. What is loaded is the
same as without the byte. The attribute of an instance is stored in the same place, but only
without the byte it is looked up in the class first, where a property comes before the members,
and only without the byte `__class__` is no member.
-/

namespace MicroPython.InlineCache

open OpenAddressing MapTable HashedMap ObjectAttributes ClassOrder FallibleRuns

/-! ## Instructions -/

/-- The instructions that have a cache byte, with the objects that they take from the stack. -/
inductive Instr where
  /-- `MP_BC_LOAD_NAME` -/
  | loadName (qst : String)
  /-- `MP_BC_LOAD_GLOBAL` -/
  | loadGlobal (qst : String)
  /-- `MP_BC_LOAD_ATTR` -/
  | loadAttr (top : Obj) (qst : String)
  /-- `MP_BC_STORE_ATTR`, where no value deletes the attribute. -/
  | storeAttr (top : Obj) (value : Option Obj) (qst : String)

/-- The slot of a key by the cache byte or by a lookup, and the byte afterwards. -/
def cachedSlot (rt : Runtime) (map : MpMap Obj Obj) (key : Obj) (x : ℕ) :
    Except Exc (Option (ℕ×ℕ)) :=
  if x < map.alloc∧(slotAt map x).key=.full key then .ok (some (x,x))
  else (lookup rt map key).map fun slot => slot.map fun slot => (slot,slot%256)

section
variable (rt : Runtime) (call : Calls) (depth : ℕ)

/-- `MP_BC_LOAD_NAME` with the cache byte. -/
def cachedLoadName (x : ℕ) (qst : String) : Act (Option Obj×ℕ) := do
  let mem ← get
  match ← orRaise (cachedSlot rt (dictMap mem mem.locals) (.qstr qst) x) with
  | some (slot,x) => pure ((dictMap mem mem.locals).valueAt slot,x)
  | none =>
    let value ← mpLoadName rt qst
    pure (value,x)

/-- `MP_BC_LOAD_GLOBAL` with the cache byte. -/
def cachedLoadGlobal (x : ℕ) (qst : String) : Act (Option Obj×ℕ) := do
  let mem ← get
  match ← orRaise (cachedSlot rt (dictMap mem mem.globals) (.qstr qst) x) with
  | some (slot,x) => pure ((dictMap mem mem.globals).valueAt slot,x)
  | none =>
    let value ← mpLoadGlobal rt qst
    pure (value,x)

/-- `load_attr_cache_fail` -/
def loadAttrCacheFail (x : ℕ) (top : Obj) (qst : String) : Act (Option Obj×ℕ) := do
  let value ← mpLoadAttr rt call depth top qst
  pure (value,x)

/-- `MP_BC_LOAD_ATTR` with the cache byte. -/
def cachedLoadAttr (x : ℕ) (top : Obj) (qst : String) : Act (Option Obj×ℕ) := do
  let mem ← get
  if (mpObjGetType rt mem top).attr=.instanceAttr then
    match ← orRaise (cachedSlot rt (membersOf mem top) (.qstr qst) x) with
    | some (slot,x) => pure ((membersOf mem top).valueAt slot,x)
    | none => loadAttrCacheFail rt call depth x top qst
  else loadAttrCacheFail rt call depth x top qst

/-- `store_attr_cache_fail` -/
def storeAttrCacheFail (x : ℕ) (top : Obj) (value : Option Obj) (qst : String) :
    Act (Option Obj×ℕ) := do
  mpStoreAttr rt call depth top qst value
  pure (none,x)

/-- `MP_BC_STORE_ATTR` with the cache byte. -/
def cachedStoreAttr (x : ℕ) (top : Obj) (value : Option Obj) (qst : String) :
    Act (Option Obj×ℕ) := do
  let mem ← get
  match value with
  | none => storeAttrCacheFail rt call depth x top value qst
  | some v =>
    if (mpObjGetType rt mem top).attr=.instanceAttr then
      match ← orRaise (cachedSlot rt (membersOf mem top) (.qstr qst) x) with
      | some (slot,x) =>
        writeMember top slot v
        pure (none,x)
      | none => storeAttrCacheFail rt call depth x top value qst
    else storeAttrCacheFail rt call depth x top value qst

/-- An instruction with its cache byte: what it loads, and the byte afterwards. -/
def cachedStep (x : ℕ) : Instr→Act (Option Obj×ℕ)
  | .loadName qst => cachedLoadName rt x qst
  | .loadGlobal qst => cachedLoadGlobal rt x qst
  | .loadAttr top qst => cachedLoadAttr rt call depth x top qst
  | .storeAttr top value qst => cachedStoreAttr rt call depth x top value qst

/-- An instruction without a cache byte. -/
def uncachedStep : Instr→Act (Option Obj)
  | .loadName qst => mpLoadName rt qst
  | .loadGlobal qst => mpLoadGlobal rt qst
  | .loadAttr top qst => mpLoadAttr rt call depth top qst
  | .storeAttr top value qst => do
    mpStoreAttr rt call depth top qst value
    pure none

end

/-! ## Lookups -/

variable {rt : Runtime} {mem : Memory}

/-- A map is a hash table or an ordered array as it should be. -/
def WellMade (rt : Runtime) (map : MpMap Obj Obj) : Prop :=
  Represents rt.keys map∨∃ entries room,OrderedMap.Lays rt.keys map entries room

theorem lookup_found {map : MpMap Obj Obj} (h : WellMade rt map) {index k : Obj} {pos : ℕ}
    (hk : cellAt map.cells pos=.full k) (hsame : rt.keys.same k index=true) :
    lookup rt map index=.ok (some pos) := by
  rw [lookup]
  cases h with
  | inl hrep => simp [mpMapLookup_found hrep hk hsame]
  | inr hlays =>
    obtain ⟨entries,room,hlays⟩ := hlays
    simp [OrderedMap.mpMapLookup_found hlays (hlays.findIdx?_full hk hsame)]

variable {map : MpMap Obj Obj} {index : Obj}

/-- A key that is in no slot is not found. -/
theorem lookup_absent (h : WellMade rt map)
    (habsent : Absent rt.keys.same map.cells index) : lookup rt map index=.ok none := by
  rw [lookup]
  cases h with
  | inl hrep => simp [mpMapLookup_absent hrep habsent]
  | inr hlays =>
    obtain ⟨entries,room,hlays⟩ := hlays
    simp [OrderedMap.mpMapLookup_absent hlays (hlays.get_eq_none habsent)]

/-- No key of a map is without a value. -/
def Filled (map : MpMap Obj Obj) : Prop :=
  ∀ pos k,cellAt map.cells pos=.full k → (map.valueAt pos).isSome=true

variable {k : Obj} {pos : ℕ}

theorem cachedSlot_found (h : WellMade rt map)
    (hk : cellAt map.cells pos=.full k) (hsame : rt.keys.same k index=true) (x : ℕ) :
    ∃ byte,cachedSlot rt map index x=.ok (some (pos,byte)) := by
  have hfound := lookup_found h hk hsame
  rw [cachedSlot]
  split
  case isTrue hx =>
    have hhit := lookup_found h ((cellAt_cells map x).trans hx.2) (same_refl rt.keys index)
    rw [hfound] at hhit
    cases hhit
    exact ⟨pos,rfl⟩
  case isFalse hx => exact ⟨pos%256,by rw [hfound]; rfl⟩

theorem cachedSlot_absent (h : WellMade rt map)
    (habsent : Absent rt.keys.same map.cells index) (x : ℕ) :
    cachedSlot rt map index x=.ok none := by
  rw [cachedSlot,if_neg fun hx => ?_,lookup_absent h habsent]
  · rfl
  · have hfalse := habsent x index ((cellAt_cells map x).trans hx.2)
    rw [same_refl] at hfalse
    cases hfalse

/-! ## Memory -/

/-- Memory in which names and attributes can be looked up: every map is as it should be, and an
object whose type has the attribute function of instances is an instance of a class. -/
structure WellFormed (rt : Runtime) (mem : Memory) : Prop where
  dicts : ∀ dict,WellMade rt (dictMap mem dict)
  /-- They have values for their keys. -/
  values : ∀ dict,Filled (dictMap mem dict)
  /-- The members of an instance are a hash table. -/
  members : ∀ obj,Represents rt.keys (membersOf mem obj)
  memberValues : ∀ obj,Filled (membersOf mem obj)
  /-- Objects with the attribute function of instances are instances. -/
  instances : ∀ obj,(mpObjGetType rt mem obj).attr=.instanceAttr →
    ∃ a members subobj,obj=.ptr a∧(mem.heap a).body=.inst members subobj
  /-- `mp_obj_new_type` leaves `iternext` out. -/
  noIternext : ∀ obj,(mpObjGetType rt mem obj).attr=.instanceAttr →
    (mpObjGetType rt mem obj).hasIternext=false
  subobjs : ∀ obj,(mpObjGetType rt mem obj).attr=.instanceAttr →
    (mpObjGetType rt mem (subobjOf mem obj)).attr≠.instanceAttr

theorem lookup_cases (h : WellMade rt map) (index : Obj) : lookup rt map index=.ok none∨
      ∃ pos k,cellAt map.cells pos=.full k∧lookup rt map index=.ok (some pos) := by
  cases @absent_or_found _ _ rt.keys _ map index with
  | inl habsent => exact .inl (lookup_absent h habsent)
  | inr hfound =>
    obtain ⟨pos,k,hk,hsame⟩ := hfound
    exact .inr ⟨pos,k,hk,lookup_found h hk hsame⟩

/-- What is in the dictionary of a type is a value. -/
theorem WellFormed.valued (h : WellFormed rt mem) (attr : String) : Valued rt mem attr := by
  intro self localsDict dest hlocals
  cases localsDict with
  | none => cases hlocals
  | some dict =>
    rw [lookupLocals] at hlocals
    cases lookup_cases (h.dicts dict) (.qstr attr) with
    | inl hnone =>
      simp only [hnone] at hlocals
      cases hlocals
    | inr hfound =>
      obtain ⟨pos,k,hk,hpos⟩ := hfound
      obtain ⟨member,hmember⟩ := Option.isSome_iff_exists.mp (h.values dict pos k hk)
      simp only [hpos,hmember,Except.ok.injEq,Option.some.injEq] at hlocals
      rw [←hlocals,mpConvertMemberLookup]
      split <;> rfl

variable {call : Calls} {depth : ℕ}

variable {obj : Obj}

/-- An object that is no instance of a class is loaded from without nested calls. -/
theorem mpLoadMethodMaybe_plain (hattr : (mpObjGetType rt mem obj).attr≠.instanceAttr)
    (attr : String) :
    mpLoadMethodMaybe rt call (depth+1) obj attr mem=orRaise (loadPlain rt mem obj attr) mem := by
  rw [mpLoadMethodMaybe]
  simp only [get_bind]
  split
  case isTrue hclass => simp [loadPlain,hclass]; rfl
  case isFalse hclass =>
    split
    case isTrue hnext => simp [loadPlain,hnext]; rfl
    case isFalse hnext => rfl

theorem classLookup_eq (h : WellFormed rt mem) {obj : Obj}
    (hattr : (mpObjGetType rt mem obj).attr=.instanceAttr) (attr : String) (type : ObjType) :
    mpObjClassLookup rt (mpLoadMethodMaybe rt call (depth+1)) obj attr type mem=
      orRaise (firstMember rt mem obj attr (linearize type)) mem :=
  mpObjClassLookup_eq (mpLoadMethodMaybe_plain (h.subobjs obj hattr) attr) (h.valued attr) type

/-! ## Instructions with and without the cache -/

/-- An instruction with its cache byte has the same result and leaves the same memory as
without. -/
def Agrees (rt : Runtime) (call : Calls) (depth : ℕ) (mem : Memory) (x : ℕ) (ins : Instr) : Prop :=
  (Prod.fst <$> cachedStep rt call depth x ins) mem=uncachedStep rt call depth ins mem

/-- The first part of a pair. -/
theorem fst_pair {α : Type} (m : Act α) (x : ℕ) :
    Prod.fst <$> (m >>= fun value => pure (value,x))=m := by simp

/-- What is left of a result without its byte. -/
theorem fst_map_of_eq {m m' : Act (Option Obj×ℕ)} (h : m mem=m' mem) :
    (Prod.fst <$> m) mem=(Prod.fst <$> m') mem := by
  simp only [Functor.map,EStateM.map,h]

/-- `MP_BC_LOAD_GLOBAL` -/
theorem loadGlobal_agrees (h : WellFormed rt mem) (x : ℕ) (qst : String) :
    Agrees rt call depth mem x (.loadGlobal qst) := by
  rw [Agrees,cachedStep,uncachedStep]
  cases @absent_or_found _ _ rt.keys _ (dictMap mem mem.globals) (.qstr qst) with
  | inl habsent =>
    refine (fst_map_of_eq ?_).trans (congrFun (fst_pair (mpLoadGlobal rt qst) x) mem)
    simp [cachedLoadGlobal,cachedSlot_absent (h.dicts _) habsent]
  | inr hfound =>
    obtain ⟨pos,k,hk,hsame⟩ := hfound
    obtain ⟨byte,hbyte⟩ := cachedSlot_found (h.dicts mem.globals) hk hsame x
    simp [cachedLoadGlobal,mpLoadGlobal,hbyte,lookup_found (h.dicts _) hk hsame]

/-- `MP_BC_LOAD_NAME` -/
theorem loadName_agrees (h : WellFormed rt mem) (x : ℕ) (qst : String) :
    Agrees rt call depth mem x (.loadName qst) := by
  rw [Agrees,cachedStep,uncachedStep]
  cases @absent_or_found _ _ rt.keys _ (dictMap mem mem.locals) (.qstr qst) with
  | inl habsent =>
    refine (fst_map_of_eq ?_).trans (congrFun (fst_pair (mpLoadName rt qst) x) mem)
    simp [cachedLoadName,cachedSlot_absent (h.dicts _) habsent]
  | inr hfound =>
    obtain ⟨pos,k,hk,hsame⟩ := hfound
    obtain ⟨byte,hbyte⟩ := cachedSlot_found (h.dicts mem.locals) hk hsame x
    have hlookup := lookup_found (h.dicts mem.locals) hk hsame
    by_cases hglobals : mem.locals=mem.globals
    · rw [hglobals] at hbyte hlookup
      simp [cachedLoadName,mpLoadName,mpLoadGlobal,hglobals,hbyte,hlookup]
    · simp [cachedLoadName,mpLoadName,hglobals,hbyte,hlookup]

/-- A member of an instance, with its value. -/
def IsMember (rt : Runtime) (mem : Memory) (obj : Obj) (attr : String) (value : Obj) : Prop :=
  (mpObjGetType rt mem obj).attr=.instanceAttr∧
    Holds rt.keys (membersOf mem obj) (.qstr attr) (some value)

variable {attr : String} {value : Obj}

/-- The slot of a member. -/
theorem isMember_of_found (h : WellFormed rt mem)
    (hattr : (mpObjGetType rt mem obj).attr=.instanceAttr)
    (hk : cellAt (membersOf mem obj).cells pos=.full k) (hsame : rt.keys.same k (.qstr attr)=true) :
    ∃ value,(membersOf mem obj).valueAt pos=some value∧IsMember rt mem obj attr value := by
  obtain ⟨value,hvalue⟩ := Option.isSome_iff_exists.mp (h.memberValues obj pos k hk)
  refine ⟨value,hvalue,hattr,pos,k,?_,hsame⟩
  rw [cellAt_cells] at hk
  rw [←hk,←hvalue]
  rfl

theorem isMember_unique (h : WellFormed rt mem) {value' : Obj}
    (hv : IsMember rt mem obj attr value) (hv' : IsMember rt mem obj attr value') :
    value=value' := Option.some.inj (holds_unique (h.members obj) hv.2 hv'.2)

/-- A member that is in no slot is none. -/
theorem not_isMember_of_absent
    (habsent : Absent rt.keys.same (membersOf mem obj).cells (.qstr attr)) :
    ¬IsMember rt mem obj attr value := fun hv =>
  (absent_iff rt.keys _ _).mp habsent _ hv.2

/-- A load of a member without the cache. -/
theorem mpLoadAttr_member (h : WellFormed rt mem) {top : Obj} {qst : String}
    (hattr : (mpObjGetType rt mem top).attr=.instanceAttr)
    (hk : cellAt (membersOf mem top).cells pos=.full k) (hsame : rt.keys.same k (.qstr qst)=true)
    (hvalue : (membersOf mem top).valueAt pos=some value) :
    mpLoadAttr rt call (depth+1) top qst mem=
      .ok (some (if qst="__class__" then .ptr (mpObjGetType rt mem top).address else value))
        mem := by
  have hlookup := lookup_found (.inl (h.members top)) hk hsame
  by_cases hclass : qst="__class__"
  · simp [mpLoadAttr,mpLoadMethodMaybe,hclass]
    rfl
  · simp [mpLoadAttr,mpLoadMethodMaybe,mpObjInstanceLoadAttr,hclass,hattr,hlookup,hvalue,
      h.noIternext top hattr]
    rfl

/-- The cache leaves a load of an attribute alone when the attribute is no member. -/
theorem loadAttr_agrees (h : WellFormed rt mem) (x : ℕ) (top : Obj) (qst : String) :
    Agrees rt call (depth+1) mem x (.loadAttr top qst)↔
      (qst="__class__" → ∀ value,IsMember rt mem top qst value →
        value=.ptr (mpObjGetType rt mem top).address) := by
  rw [Agrees,cachedStep,uncachedStep]
  have hfail := congrFun (fst_pair (mpLoadAttr rt call (depth+1) top qst) x) mem
  by_cases hattr : (mpObjGetType rt mem top).attr=.instanceAttr
  · cases @absent_or_found _ _ rt.keys _ (membersOf mem top) (.qstr qst) with
    | inl habsent =>
      refine iff_of_true ((fst_map_of_eq ?_).trans hfail)
        fun _ value hv => absurd hv (not_isMember_of_absent habsent)
      simp [cachedLoadAttr,loadAttrCacheFail,hattr,cachedSlot_absent (.inl (h.members top)) habsent]
    | inr hfound =>
      obtain ⟨pos,k,hk,hsame⟩ := hfound
      obtain ⟨byte,hbyte⟩ := cachedSlot_found (.inl (h.members top)) hk hsame x
      obtain ⟨value,hvalue,hmember⟩ := isMember_of_found h hattr hk hsame
      have hcached : (Prod.fst <$> cachedLoadAttr rt call (depth+1) x top qst) mem=
          .ok (some value) mem := by
        simp [cachedLoadAttr,hattr,hbyte,hvalue]
        rfl
      rw [hcached,mpLoadAttr_member h hattr hk hsame hvalue]
      by_cases hclass : qst="__class__"
      · rw [if_pos hclass]
        constructor
        · intro heq _ value' hv
          cases heq
          exact isMember_unique h hv hmember
        · intro hall
          rw [hall hclass value hmember]
      · rw [if_neg hclass]
        exact iff_of_true rfl fun heq => absurd heq hclass
  · refine iff_of_true ((fst_map_of_eq ?_).trans hfail) fun _ value hv => absurd hv.1 hattr
    simp [cachedLoadAttr,loadAttrCacheFail,hattr]

/-- The members of an instance are replaced by themselves. -/
theorem setMembers_self (h : WellFormed rt mem)
    (hattr : (mpObjGetType rt mem obj).attr=.instanceAttr) :
    setMembers obj (membersOf mem obj) mem=mem := by
  obtain ⟨a,members,subobj,rfl,hbody⟩ := h.instances obj hattr
  have hself : Object.mk (mem.heap a).type
      (.inst (membersOf mem (.ptr a)) (subobjOf mem (.ptr a)))=mem.heap a := by
    simp only [membersOf,subobjOf,bodyOf,hbody]
    rw [←hbody]
  rw [setMembers,hself,Function.update_eq_self]

/-- The search in the class and its bases returns nothing that is a property. -/
def NoProperty (rt : Runtime) (mem : Memory) (obj : Obj) (attr : String) : Prop :=
  ∃ dest,firstMember rt mem obj attr (linearize (mpObjGetType rt mem obj))=.ok dest∧
    dest.1.bind (mpObjPropertyGet mem)=none

/-- A store of a member without the cache, when the class has no property for it. -/
theorem mpStoreAttr_member (h : WellFormed rt mem) {top k value : Obj} {qst : String} {pos : ℕ}
    (hattr : (mpObjGetType rt mem top).attr=.instanceAttr)
    (hk : cellAt (membersOf mem top).cells pos=.full k)
    (hsame : rt.keys.same k (.qstr qst)=true) (hno : NoProperty rt mem top qst) :
    mpStoreAttr rt call (depth+1) top qst (some value) mem=
      .ok () (setMembers top ((membersOf mem top).setValue pos (some value)) mem) := by
  obtain ⟨dest,hdest,hplain⟩ := hno
  have hclass := @classLookup_eq rt mem call depth h top hattr qst (mpObjGetType rt mem top)
  have hadd : lookupMembers rt top (.qstr qst) .addIfNotFound mem=.ok (some pos) mem := by
    rw [lookupMembers,mpMapLookup_found (h.members top) hk hsame,if_neg nofun]
    dsimp only
    rw [setMembers_self h hattr]
  rw [hdest] at hclass
  have hstore : mpObjInstanceStoreAttr rt call (mpLoadMethodMaybe rt call (depth+1)) top qst
      (some value) mem=
        .ok true (setMembers top ((membersOf mem top).setValue pos (some value)) mem) := by
    rw [mpObjInstanceStoreAttr,get_bind,bind_ok hclass,get_bind,hplain]
    dsimp only
    rw [bind_ok hadd]
    rfl
  rw [mpStoreAttr,get_bind]
  rw [hattr]
  dsimp only
  rw [bind_ok hstore]
  rfl

/-- A store without the cache ends in another way when there is a property, and its setter raises
an exception. -/
theorem mpStoreAttr_property (h : WellFormed rt mem) {top : Obj} {qst : String}
    (hattr : (mpObjGetType rt mem top).attr=.instanceAttr) (hno : ¬NoProperty rt mem top qst)
    (value : Obj) :
    ∃ e,mpStoreAttr rt (fun _ _ => throw .memory) (depth+1) top qst (some value) mem=
      .error e mem := by
  have hclass := @classLookup_eq rt mem (fun _ _ => throw .memory) depth h top hattr qst
    (mpObjGetType rt mem top)
  rw [mpStoreAttr,get_bind]
  rw [hattr]
  dsimp only
  cases hfirst : firstMember rt mem top qst (linearize (mpObjGetType rt mem top)) with
  | error e =>
    rw [hfirst] at hclass
    refine ⟨e,bind_error ?_ _⟩
    rw [mpObjInstanceStoreAttr,get_bind]
    exact bind_error hclass _
  | ok dest =>
    rw [hfirst] at hclass
    cases hproperty : dest.1.bind (mpObjPropertyGet mem) with
    | none => exact absurd ⟨dest,hfirst,hproperty⟩ hno
    | some functions =>
      obtain ⟨getter,setter,deleter⟩ := functions
      rw [mpObjInstanceStoreAttr]
      simp only [bind_assoc,get_bind]
      rw [bind_ok hclass,get_bind,hproperty]
      cases setter with
      | none => exact ⟨_,rfl⟩
      | some f => exact ⟨_,rfl⟩

/-- A store of an attribute is the same with the cache when no property is there for a member. -/
theorem storeAttr_agrees (h : WellFormed rt mem) (x : ℕ) (top : Obj) (value : Option Obj)
    (qst : String) :
    (∀ call,Agrees rt call (depth+1) mem x (.storeAttr top value qst))↔
      (value≠none → (∃ old,IsMember rt mem top qst old) → NoProperty rt mem top qst) := by
  have hfail : ∀ call,(Prod.fst <$> storeAttrCacheFail rt call (depth+1) x top value qst) mem=
      uncachedStep rt call (depth+1) (.storeAttr top value qst) mem := by
    intro call
    simp [storeAttrCacheFail,uncachedStep]
  cases value with
  | none => exact iff_of_true hfail fun hne => absurd rfl hne
  | some v =>
    by_cases hattr : (mpObjGetType rt mem top).attr=.instanceAttr
    · cases @absent_or_found _ _ rt.keys _ (membersOf mem top) (.qstr qst) with
      | inl habsent =>
        refine iff_of_true (fun call => (fst_map_of_eq ?_).trans (hfail call))
          fun _ ⟨old,hold⟩ => absurd hold (not_isMember_of_absent habsent)
        simp [cachedStep,cachedStoreAttr,hattr,cachedSlot_absent (.inl (h.members top)) habsent]
      | inr hfound =>
        obtain ⟨pos,k,hk,hsame⟩ := hfound
        obtain ⟨byte,hbyte⟩ := cachedSlot_found (.inl (h.members top)) hk hsame x
        obtain ⟨old,_,hmember⟩ := isMember_of_found h hattr hk hsame
        have hcached : ∀ call,
            (Prod.fst <$> cachedStep rt call (depth+1) x (.storeAttr top (some v) qst)) mem=
              .ok none (setMembers top ((membersOf mem top).setValue pos (some v)) mem) := by
          intro call
          simp [cachedStep,cachedStoreAttr,hattr,hbyte]
          rfl
        constructor
        · intro hagrees _ _
          by_contra hno
          obtain ⟨e,herror⟩ := mpStoreAttr_property h hattr hno v
          have heq := hagrees fun _ _ => throw .memory
          rw [Agrees,hcached,uncachedStep,bind_error herror] at heq
          cases heq
        · intro hall call
          have hstore := @mpStoreAttr_member rt mem call depth h top k v qst pos hattr hk hsame
            (hall nofun ⟨old,hmember⟩)
          rw [Agrees,hcached,uncachedStep,bind_ok hstore]
          rfl
    · refine iff_of_true (fun call => (fst_map_of_eq ?_).trans (hfail call))
        fun _ ⟨old,hold⟩ => absurd hold.1 hattr
      simp [cachedStep,cachedStoreAttr,hattr]

/-! ## An instance with a property -/

/-- Objects that are compared by what they are. -/
def plainKeys : Keys Obj where
  isQstr
    | .qstr _ => true
    | _ => false
  isStr _ := false
  hash
    | .smallInt n => n.natAbs
    | .qstr s => s.length
    | .ptr a => a
  equal a b := decide (a=b)
  equal_symm := fun h => decide_eq_true (of_decide_eq_true h).symm
  equal_trans := fun h h' => decide_eq_true ((of_decide_eq_true h).trans (of_decide_eq_true h'))
  hash_eq := fun h => by rw [of_decide_eq_true h]
  qstr_eq := fun _ _ h => of_decide_eq_true h
  str_only := fun hq h => .inl (by rw [←of_decide_eq_true h]; exact hq)

/-- A type of objects that are no instances of a class. -/
def plainType : ObjType := ⟨0,"object",.native,.none,false,none,[]⟩

/-- A runtime in which nothing is native. -/
def plainRuntime : Runtime where
  keys := plainKeys
  mem _ := true
  typeInt := plainType
  typeStr := plainType
  builtinNext := .ptr 0
  nativeLoad _ _ _ := .ok (none,none)
  nativeStore _ _ _ := pure false
  newBoundMeth f _ := pure f
  newDict _ := throw .memory

/-- A map with one key. -/
def oneEntry (key value : Obj) : MpMap Obj Obj :=
  (addAt plainKeys (mpMapInit 1) 0 key).setValue 0 (some value)

/-- `class C: a = property(getter, setter)`, with its dictionary at 2. -/
def propertyClass : ObjType := ⟨1,"C",.instanceType,.instanceAttr,false,some 2,[]⟩

/-- An instance of the class at 5, which has had a member `a` before the class had the property. -/
def propertyMemory : Memory where
  heap a :=
    if a=2 then ⟨plainType,.dict (oneEntry (.qstr "a") (.ptr 3))⟩
    else if a=3 then ⟨plainType,.property (some (.ptr 4)) (some (.ptr 4)) none⟩
    else if a=5 then ⟨propertyClass,.inst (oneEntry (.qstr "a") (.smallInt 1)) (.smallInt 0)⟩
    else ⟨plainType,.function⟩
  locals := 0
  globals := 0
  override := none
  builtins := 0

/-- A map with one key is as it should be. -/
theorem represents_oneEntry (key value : Obj) : Represents plainKeys (oneEntry key value) := by
  refine represents_setValue (represents_addAt (represents_init 1) ?_ rfl ?_) 0 _
  · exact ⟨0,Nat.zero_lt_one,Nat.mod_one _,fun _ hj => absurd hj (Nat.not_lt_zero _)⟩
  · exact (absent_iff plainKeys _ key).mpr fun v => holds_null rfl key v

theorem filled_oneEntry (key value : Obj) : Filled (oneEntry key value) := by
  intro pos k hk
  cases pos with
  | zero => rfl
  | succ pos =>
    rw [cellAt_cells] at hk
    cases hk

theorem eq_instance
    (h : (mpObjGetType plainRuntime propertyMemory obj).attr=.instanceAttr) : obj=.ptr 5 := by
  cases obj with
  | smallInt n => cases h
  | qstr s => cases h
  | ptr a =>
    by_cases ha : a=5
    · rw [ha]
    · simp only [mpObjGetType,propertyMemory,if_neg ha] at h
      split at h
      · cases h
      · split at h <;> cases h

/-- The memory is well formed. -/
theorem wellFormed_property : WellFormed plainRuntime propertyMemory := by
  have hdict : ∀ dict,dictMap propertyMemory dict=mpMapInit 0∨
      dictMap propertyMemory dict=oneEntry (.qstr "a") (.ptr 3) := by
    intro dict
    by_cases h2 : dict=2
    · rw [h2]
      exact .inr rfl
    · refine .inl ?_
      simp only [dictMap,propertyMemory,if_neg h2]
      by_cases h3 : dict=3
      · rw [if_pos h3]
      · by_cases h5 : dict=5
        · rw [if_neg h3,if_pos h5]
        · rw [if_neg h3,if_neg h5]
  have hmembers : ∀ obj,membersOf propertyMemory obj=mpMapInit 0∨
      membersOf propertyMemory obj=oneEntry (.qstr "a") (.smallInt 1) := by
    intro obj
    cases obj with
    | smallInt n => exact .inl rfl
    | qstr s => exact .inl rfl
    | ptr a =>
      by_cases h5 : a=5
      · rw [h5]
        exact .inr rfl
      · refine .inl ?_
        simp only [membersOf,bodyOf,propertyMemory,if_neg h5]
        by_cases h2 : a=2
        · rw [if_pos h2]
        · by_cases h3 : a=3
          · rw [if_neg h2,if_pos h3]
          · rw [if_neg h2,if_neg h3]
  have hinit : Filled (mpMapInit 0) := fun pos k hk => nomatch hk
  constructor
  · intro dict
    cases hdict dict with
    | inl h => exact .inl (h▸represents_init 0)
    | inr h => exact .inl (h▸represents_oneEntry _ _)
  · intro dict
    cases hdict dict with
    | inl h => exact h▸hinit
    | inr h => exact h▸filled_oneEntry _ _
  · intro obj
    cases hmembers obj with
    | inl h => exact h▸represents_init 0
    | inr h => exact h▸represents_oneEntry _ _
  · intro obj
    cases hmembers obj with
    | inl h => exact h▸hinit
    | inr h => exact h▸filled_oneEntry _ _
  · exact fun obj h => ⟨5,_,_,eq_instance h,rfl⟩
  · intro obj h
    rw [eq_instance h]
    rfl
  · intro obj h
    rw [eq_instance h]
    exact nofun

theorem isMember_property : IsMember plainRuntime propertyMemory (.ptr 5) "a" (.smallInt 1) :=
  ⟨rfl,0,.qstr "a",rfl,same_refl plainKeys _⟩

/-- The class has the property. -/
theorem not_noProperty : ¬NoProperty plainRuntime propertyMemory (.ptr 5) "a" := by
  rintro ⟨dest,hdest,hnone⟩
  have hfirst : firstMember plainRuntime propertyMemory (.ptr 5) "a"
      (linearize (mpObjGetType plainRuntime propertyMemory (.ptr 5)))=
        .ok (some (.ptr 3),none) := by
    have hlookup := @lookup_found plainRuntime (oneEntry (.qstr "a") (.ptr 3))
      (.inl (represents_oneEntry _ _)) (.qstr "a") (.qstr "a") 0 rfl (same_refl plainKeys _)
    have hlocals : lookupLocals plainRuntime propertyMemory (.ptr 5) "a" (some 2)=
        .ok (some (some (.ptr 3),none)) := by
      have hmap : dictMap propertyMemory 2=oneEntry (.qstr "a") (.ptr 3) := rfl
      rw [lookupLocals,hmap,hlookup]
      rfl
    have hown : ownMember plainRuntime propertyMemory (.ptr 5) "a" propertyClass=
        .ok (some (some (.ptr 3),none)) := by
      have hkind : propertyClass.kind≠.native := nofun
      have hdict : propertyClass.localsDict=some 2 := rfl
      simp only [ownMember,if_neg hkind,hdict,hlocals]
    have hclass : linearize (mpObjGetType plainRuntime propertyMemory (.ptr 5))=
        [propertyClass] := rfl
    rw [hclass,firstMember,hown]
  rw [hfirst] at hdest
  cases hdest
  cases hnone

/-! ## The cache makes no difference -/

/-- When the cache makes no difference: always for a name, for a load when no instance has a
member `__class__` other than its class, and for a store to a member when the search in the class
and its bases finds no property. -/
def Undisturbed (rt : Runtime) (mem : Memory) : Instr→Prop
  | .loadName _ | .loadGlobal _ => True
  | .loadAttr top qst => qst="__class__" → ∀ value,IsMember rt mem top qst value →
    value=.ptr (mpObjGetType rt mem top).address
  | .storeAttr top value qst => value≠none → (∃ old,IsMember rt mem top qst old) →
    NoProperty rt mem top qst

/-- An instruction does the same with any cache byte as without, whatever Python functions do,
exactly when it is undisturbed. -/
theorem inlineCache_agrees_iff (h : WellFormed rt mem) (depth x : ℕ) (ins : Instr) :
    (∀ call,Agrees rt call (depth+1) mem x ins)↔Undisturbed rt mem ins := by
  cases ins with
  | loadName qst => exact iff_of_true (fun _ => loadName_agrees h x qst) trivial
  | loadGlobal qst => exact iff_of_true (fun _ => loadGlobal_agrees h x qst) trivial
  | loadAttr top qst =>
    constructor
    · exact fun hagrees =>
        (loadAttr_agrees h x top qst).mp (hagrees fun _ _ => throw .memory)
    · exact fun hplain _ => (loadAttr_agrees h x top qst).mpr hplain
  | storeAttr top value qst => exact storeAttr_agrees h x top value qst

/-- A member is loaded with any cache byte. -/
theorem inlineCache_loadsMember :
    Undisturbed plainRuntime propertyMemory (.loadAttr (.ptr 5) "a")∧∀ call,
      Agrees plainRuntime call 1 propertyMemory 0 (.loadAttr (.ptr 5) "a") := by
  have hplain : Undisturbed plainRuntime propertyMemory (.loadAttr (.ptr 5) "a") :=
    fun h => absurd h (by decide)
  exact ⟨hplain,(inlineCache_agrees_iff wellFormed_property 0 0 _).mpr hplain⟩

/-- A store to a member does not go to the property when the cache is there. -/
theorem propertyStore_disagrees :
    ¬∀ (rt : Runtime) (mem : Memory),WellFormed rt mem → ∀ (call : Calls) (depth x : ℕ)
      (ins : Instr),Agrees rt call (depth+1) mem x ins := fun h =>
  not_noProperty ((storeAttr_agrees wellFormed_property 0 (.ptr 5) (some (.smallInt 2)) "a").mp
    (fun call => h plainRuntime propertyMemory wellFormed_property call 0 0 _) nofun
      ⟨_,isMember_property⟩)

end MicroPython.InlineCache
