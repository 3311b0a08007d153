import Mathlib.Data.Int.Notation
import MicroPython.HashedMap

/-!
# Names and attributes

How names and attributes of objects are loaded and stored. An instance has a map of its own
members, and a class has a dictionary and bases, which are searched depth first and from left to
right. A property of the class is called. What Python functions do, and the attributes of native
types that are written in C, are left open.
-/

namespace MicroPython.ObjectAttributes

open OpenAddressing MapTable HashedMap

/-! ## Objects -/

/-- `mp_obj_t` -/
inductive Obj where
  | smallInt (n : ℤ)
  | qstr (s : String)
  | ptr (address : ℕ)
  deriving DecidableEq

/-- What `attr` of a type points to. -/
inductive AttrFun where
  /-- `NULL` -/
  | none
  /-- `mp_obj_instance_attr` -/
  | instanceAttr
  | native
  deriving DecidableEq

/-- What kind of type it is. -/
inductive TypeKind where
  /-- `mp_type_object` -/
  | object
  /-- Any other type for which `mp_obj_is_native_type` is true. -/
  | native
  /-- A class, whose `make_new` is `mp_obj_instance_make_new`. -/
  | instanceType
  deriving DecidableEq

/-- `mp_obj_type_t`. The bases of a class are there before the class, and do not change. -/
structure ObjType where
  /-- Where it is. -/
  address : ℕ
  /-- `name` -/
  name : String
  kind : TypeKind
  /-- `attr` -/
  attr : AttrFun
  /-- `iternext` is not `NULL`. -/
  hasIternext : Bool
  /-- The address of `locals_dict`, if there is one. -/
  localsDict : Option ℕ
  /-- `parent`: nothing, one base, or the items of a tuple. -/
  parents : List ObjType

/-- What is in an object. -/
inductive Body where
  /-- An instance of a class, with `members` and `subobj[0]`. -/
  | inst (members : MpMap Obj Obj) (subobj : Obj)
  | dict (map : MpMap Obj Obj)
  /-- A property, with the functions that get, set and delete, where `None` is nothing. -/
  | property (getter setter deleter : Option Obj)
  | staticmethod (function : Obj)
  | classmethod (function : Obj)
  | type (type : ObjType)
  /-- A function, a closure or a generator. -/
  | function
  | other

/-- An object in memory. -/
structure Object where
  /-- `base.type` -/
  type : ObjType
  /-- What follows. -/
  body : Body

/-- What names and attributes are looked up in. -/
structure Memory where
  heap : ℕ→Object
  /-- `mp_locals_get()` -/
  locals : ℕ
  /-- `mp_globals_get()` -/
  globals : ℕ
  /-- `mp_module_builtins_override_dict`, if there is one. -/
  override : Option ℕ
  /-- `mp_module_builtins_globals` -/
  builtins : ℕ

/-- What is raised. -/
inductive Exc where
  /-- `NameError` -/
  | nameError (message : String)
  /-- `AttributeError` -/
  | attributeError (message : String)
  /-- `MemoryError` -/
  | memory
  | recursion
  | raised (e : Obj)
  deriving DecidableEq

/-- A program that changes memory, and may raise something. -/
abbrev Act : Type→Type := EStateM Exc Memory

/-- A value, or what is raised instead. -/
def orRaise {α : Type} : Except Exc α→Act α
  | .ok a => pure a
  | .error e => throw e

/-- `dest[0]` and `dest[1]`, where nothing is `MP_OBJ_NULL`. -/
abbrev Dest : Type := Option Obj×Option Obj

/-- What Python functions do when they are called. -/
abbrev Calls : Type := Obj→List Obj→Act Obj

/-- What the code calls that is not described here. -/
structure Runtime where
  /-- How objects are compared. -/
  keys : Keys Obj
  /-- Whether there is memory for a table. -/
  mem : ℕ→Bool
  /-- `mp_type_int` -/
  typeInt : ObjType
  /-- `mp_type_str` -/
  typeStr : ObjType
  /-- `mp_builtin_next_obj` -/
  builtinNext : Obj
  nativeLoad : Obj→String→Memory→Except Exc Dest
  /-- The stores of native types, and whether they succeed. -/
  nativeStore : Obj→String→Option Obj→Act Bool
  /-- `mp_obj_new_bound_meth` -/
  newBoundMeth : Obj→Obj→Act Obj
  newDict : MpMap Obj Obj→Act Obj

/-- `mp_obj_get_type` -/
def mpObjGetType (rt : Runtime) (mem : Memory) : Obj→ObjType
  | .smallInt _ => rt.typeInt
  | .qstr _ => rt.typeStr
  | .ptr a => (mem.heap a).type

/-- What is in an object. -/
def bodyOf (mem : Memory) : Obj→Body
  | .ptr a => (mem.heap a).body
  | _ => .other

/-- `mp_obj_property_get`, of an object that may be no property. -/
def mpObjPropertyGet (mem : Memory) (obj : Obj) : Option (Option Obj×Option Obj×Option Obj) :=
  match bodyOf mem obj with
  | .property getter setter deleter => some (getter,setter,deleter)
  | _ => none

/-- The map of a dictionary. -/
def dictMap (mem : Memory) (dict : ℕ) : MpMap Obj Obj :=
  match (mem.heap dict).body with
  | .dict map => map
  | _ => mpMapInit 0

/-- The map of the members of an instance. -/
def membersOf (mem : Memory) (obj : Obj) : MpMap Obj Obj :=
  match bodyOf mem obj with
  | .inst members _ => members
  | _ => mpMapInit 0

/-- `subobj[0]` of an instance. -/
def subobjOf (mem : Memory) (obj : Obj) : Obj :=
  match bodyOf mem obj with
  | .inst _ subobj => subobj
  | _ => obj

/-- The map of the members of an instance is replaced. -/
def setMembers (obj : Obj) (members : MpMap Obj Obj) (mem : Memory) : Memory :=
  match obj with
  | .ptr a =>
    {mem with heap :=
      Function.update mem.heap a (Object.mk (mem.heap a).type (.inst members (subobjOf mem obj)))}
  | _ => mem

/-- `mp_map_lookup` that neither adds nor removes. -/
def lookup (rt : Runtime) (map : MpMap Obj Obj) (key : Obj) : Except Exc (Option ℕ) :=
  match mpMapLookup rt.keys rt.mem 2 map key .lookup with
  | .done _ slot => .ok slot
  | .raised _ => .error .memory
  | .stuck => .error .recursion

/-- `mp_map_lookup` in the members of an instance that adds or removes. -/
def lookupMembers (rt : Runtime) (obj : Obj) (key : Obj) (kind : LookupKind) :
    Act (Option ℕ) := fun mem =>
  match mpMapLookup rt.keys rt.mem 2 (membersOf mem obj) key kind with
  | .done members slot => .ok slot (setMembers obj members mem)
  | .raised members => .error .memory (setMembers obj members mem)
  | .stuck => .error .recursion mem

/-- `elem->value` of a member is written. -/
def writeMember (obj : Obj) (slot : ℕ) (value : Obj) : Act Unit :=
  modify fun mem => setMembers obj ((membersOf mem obj).setValue slot (some value)) mem

/-! ## Loads of attributes -/

/-- `mp_convert_member_lookup`, of a member that was found for an object. -/
def mpConvertMemberLookup (rt : Runtime) (mem : Memory) (self member : Obj) : Dest :=
  match bodyOf mem member with
  | .staticmethod function => (some function,none)
  | .classmethod function => (some function,some (.ptr (mpObjGetType rt mem self).address))
  | .function => (some member,some self)
  | _ => (some member,none)

/-- A member in the dictionary of a type, for an object. -/
def lookupLocals (rt : Runtime) (mem : Memory) (self : Obj) (attr : String)
    (localsDict : Option ℕ) : Except Exc (Option Dest) :=
  match localsDict with
  | none => .ok none
  | some dict =>
    match lookup rt (dictMap mem dict) (.qstr attr) with
    | .error e => .error e
    | .ok none => .ok none
    | .ok (some slot) =>
      .ok (some (match (dictMap mem dict).valueAt slot with
        | some member => mpConvertMemberLookup rt mem self member
        | none => (none,none)))

/-- `mp_load_method_maybe` of an object that is no instance of a class. -/
def loadPlain (rt : Runtime) (mem : Memory) (obj : Obj) (attr : String) : Except Exc Dest :=
  let type := mpObjGetType rt mem obj
  if attr="__class__" then .ok (some (.ptr type.address),none)
  else if attr="__next__"∧type.hasIternext=true then .ok (some rt.builtinNext,some obj)
  else if type.attr≠.none then rt.nativeLoad obj attr mem
  else (lookupLocals rt mem obj attr type.localsDict).map fun dest => dest.getD (none,none)

section
variable (rt : Runtime) (load : Obj→String→Act Dest) (obj : Obj) (attr : String)

mutual
/-- `mp_obj_class_lookup` of an attribute of an instance, with the loads of its native
sub-object. -/
def mpObjClassLookup : ObjType→Act Dest
  | ⟨_,_,kind,_,_,localsDict,parents⟩ => do
    let mem ← get
    let self := if kind=.native then subobjOf mem obj else obj
    match ← orRaise (lookupLocals rt mem self attr localsDict) with
    | some dest => pure dest
    | none =>
      if kind=.native then
        -- some attributes of a native type are not in its dictionary
        let dest ← load self attr
        if dest.1.isSome then pure dest else lookupBases parents
      else lookupBases parents
/-- The search in the bases of a type, from left to right. -/
def lookupBases : List ObjType→Act Dest
  | [] => pure (none,none)
  | type::types =>
    if type.kind=.object then lookupBases types
    else do
      let dest ← mpObjClassLookup type
      if dest.1.isSome then pure dest else lookupBases types
end

end

section
variable (rt : Runtime) (call : Calls) (load : Obj→String→Act Dest)

/-- `mp_obj_instance_load_attr` -/
def mpObjInstanceLoadAttr (self : Obj) (attr : String) : Act Dest := do
  let mem ← get
  match ← orRaise (lookup rt (membersOf mem self) (.qstr attr)) with
  | some slot => pure ((membersOf mem self).valueAt slot,none)
  | none =>
    if attr="__dict__" then
      let attrDict ← rt.newDict (membersOf mem self)
      pure (some attrDict,none)
    else
      let dest ← mpObjClassLookup rt load self attr (mpObjGetType rt mem self)
      match dest.1 with
      | some member =>
        match mpObjPropertyGet (← get) member with
        | some (none,_) => throw (.attributeError "unreadable attribute")
        | some (some f,_) =>
          let value ← call f [self]
          pure (some value,dest.2)
        | none => pure dest
      | none =>
        if attr="__getattr__" then pure dest
        else
          let dest2 ← load self "__getattr__"
          match dest2.1 with
          | none => pure dest
          | some f =>
            let value ← call f (dest2.2.toList++[.qstr attr])
            pure (some value,dest.2)

/-- `mp_obj_instance_store_attr`, where no value deletes the attribute. -/
def mpObjInstanceStoreAttr (self : Obj) (attr : String) (value : Option Obj) : Act Bool := do
  let member ← mpObjClassLookup rt load self attr (mpObjGetType rt (← get) self)
  match member.1.bind (mpObjPropertyGet (← get)) with
  | some (_,setter,deleter) =>
    match value with
    | none =>
      match deleter with
      | none => pure false
      | some f => do
        let _ ← call f [self]
        pure true
    | some v =>
      match setter with
      | none => pure false
      | some f => do
        let _ ← call f [self,v]
        pure true
  | none =>
    match value with
    | none => do
      let elem ← lookupMembers rt self (.qstr attr) .removeIfFound
      pure elem.isSome
    | some v => do
      match ← lookupMembers rt self (.qstr attr) .addIfNotFound with
      | none => throw .recursion
      | some slot =>
        writeMember self slot v
        pure true

/-- `mp_load_method_maybe`, with the depth of nested calls. -/
def mpLoadMethodMaybe : ℕ→Obj→String→Act Dest
  | 0,_,_ => throw .recursion
  | depth+1,obj,attr => do
    let mem ← get
    let type := mpObjGetType rt mem obj
    if attr="__class__" then pure (some (.ptr type.address),none)
    else if attr="__next__"∧type.hasIternext=true then pure (some rt.builtinNext,some obj)
    else if type.attr=.instanceAttr then
      mpObjInstanceLoadAttr rt call (mpLoadMethodMaybe depth) obj attr
    else orRaise (loadPlain rt mem obj attr)

/-- What is raised when an object has no such attribute. -/
def noAttribute (mem : Memory) (base : Obj) (attr : String) : Exc :=
  match bodyOf mem base with
  | .type type =>
    .attributeError ("type object '"++type.name++"' has no attribute '"++attr++"'")
  | _ =>
    .attributeError ("'"++(mpObjGetType rt mem base).name++"' object has no attribute '"++attr++"'")

/-- `mp_load_attr`, with `mp_load_method` -/
def mpLoadAttr (depth : ℕ) (base : Obj) (attr : String) : Act (Option Obj) := do
  match ← mpLoadMethodMaybe rt call depth base attr with
  | (none,_) => throw (noAttribute rt (← get) base attr)
  | (some value,none) => pure (some value)
  | (some f,some self) => some <$> rt.newBoundMeth f self

/-- `mp_store_attr`, where no value deletes the attribute. -/
def mpStoreAttr (depth : ℕ) (base : Obj) (attr : String) (value : Option Obj) : Act Unit := do
  let type := mpObjGetType rt (← get) base
  let success ←
    match type.attr with
    | .none => pure false
    | .instanceAttr =>
      mpObjInstanceStoreAttr rt call (mpLoadMethodMaybe rt call depth) base attr value
    | .native => rt.nativeStore base attr value
  if success then pure ()
  else throw (.attributeError
    ("'"++(mpObjGetType rt (← get) base).name++"' object has no attribute '"++attr++"'"))

end

/-! ## Loads of names -/

/-- `mp_load_global` -/
def mpLoadGlobal (rt : Runtime) (qst : String) : Act (Option Obj) := do
  let mem ← get
  match ← orRaise (lookup rt (dictMap mem mem.globals) (.qstr qst)) with
  | some slot => pure ((dictMap mem mem.globals).valueAt slot)
  | none =>
    let overrides := (mem.override.map (dictMap mem)).getD (mpMapInit 0)
    match ← orRaise (lookup rt overrides (.qstr qst)) with
    | some slot => pure (overrides.valueAt slot)
    | none =>
      match ← orRaise (lookup rt (dictMap mem mem.builtins) (.qstr qst)) with
      | some slot => pure ((dictMap mem mem.builtins).valueAt slot)
      | none => throw (.nameError ("name '"++qst++"' is not defined"))

/-- `mp_load_name` -/
def mpLoadName (rt : Runtime) (qst : String) : Act (Option Obj) := do
  let mem ← get
  if mem.locals=mem.globals then mpLoadGlobal rt qst
  else
    match ← orRaise (lookup rt (dictMap mem mem.locals) (.qstr qst)) with
    | some slot => pure ((dictMap mem mem.locals).valueAt slot)
    | none => mpLoadGlobal rt qst

end MicroPython.ObjectAttributes
