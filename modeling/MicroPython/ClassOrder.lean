import MicroPython.ObjectAttributes

/-!
# The order of classes

A class lookup searches the class and its bases depth first and from left to right, and stops at
the first that has the attribute. That is a search in a list of types. It changes nothing in
memory, as long as the native sub-object of an instance is no instance of a class itself.
-/

namespace MicroPython.ClassOrder

open MapTable ObjectAttributes

mutual
/-- The types in the order of their search. -/
def linearize : ObjType→List ObjType
  | ⟨address,name,kind,attr,hasIternext,localsDict,parents⟩ =>
    ⟨address,name,kind,attr,hasIternext,localsDict,parents⟩::linearizeBases parents
/-- The bases of a type in the order of their search. `object` is not searched. -/
def linearizeBases : List ObjType→List ObjType
  | [] => []
  | type::types => (if type.kind=.object then [] else linearize type)++linearizeBases types
end

section
variable (rt : Runtime) (mem : Memory) (obj : Obj) (attr : String)

/-- What one type has for an instance. -/
def ownMember (type : ObjType) : Except Exc (Option Dest) :=
  let self := if type.kind=.native then subobjOf mem obj else obj
  match lookupLocals rt mem self attr type.localsDict with
  | .error e => .error e
  | .ok (some dest) => .ok (some dest)
  | .ok none =>
    if type.kind=.native then
      (loadPlain rt mem self attr).map fun dest => if dest.1.isSome then some dest else none
    else .ok none

/-- What the first type has that has something. -/
def firstMember : List ObjType→Except Exc Dest
  | [] => .ok (none,none)
  | type::types =>
    match ownMember rt mem obj attr type with
    | .error e => .error e
    | .ok (some dest) => .ok dest
    | .ok none => firstMember types

end

variable {rt : Runtime} {mem : Memory} {obj : Obj} {attr : String}

variable {α β : Type}

/-- A value that is there. -/
@[simp] theorem orRaise_ok (a : α) (mem : Memory) :
    orRaise (.ok a) mem=.ok a mem := rfl

@[simp] theorem orRaise_error (e : Exc) (mem : Memory) :
    (orRaise (.error e) : Act α) mem=.error e mem := rfl

/-- What is done with a value, or with an exception. -/
theorem orRaise_bind (r : Except Exc α) (f : α→Act β) (mem : Memory) :
    (orRaise r >>= f) mem=
      match r with
      | .ok a => f a mem
      | .error e => .error e mem := by
  cases r <;> rfl

/-- What is done with a value that is there. -/
@[simp] theorem orRaise_ok_bind (a : α) (f : α→Act β) (mem : Memory) :
    (orRaise (.ok a) >>= f) mem=f a mem := rfl

/-- What is done with an exception. -/
@[simp] theorem orRaise_error_bind (e : Exc) (f : α→Act β) (mem : Memory) :
    (orRaise (.error e : Except Exc α) >>= f) mem=.error e mem := rfl

@[simp] theorem get_bind (f : Memory→Act β) (mem : Memory) :
    (get >>= f) mem=f mem mem := rfl

theorem bind_of_eq {m m' : Act α} (h : m mem=m' mem) (f : α→Act β) :
    (m >>= f) mem=(m' >>= f) mem := by
  simp only [bind,EStateM.bind,h]

/-- No key in a dictionary is without a value. -/
def Valued (rt : Runtime) (mem : Memory) (attr : String) : Prop :=
  ∀ self localsDict dest,lookupLocals rt mem self attr localsDict=.ok (some dest) →
    dest.1.isSome=true

/-- What a type has is a value. -/
theorem isSome_of_ownMember (hvalued : Valued rt mem attr) {type : ObjType} {dest : Dest}
    (h : ownMember rt mem obj attr type=.ok (some dest)) : dest.1.isSome=true := by
  simp only [ownMember] at h
  generalize hself : (if type.kind=.native then subobjOf mem obj else obj)=self at h
  cases hlocals : lookupLocals rt mem self attr type.localsDict with
  | error e => simp [hlocals] at h
  | ok found =>
    cases found with
    | some dest' =>
      simp only [hlocals,Except.ok.injEq,Option.some.injEq] at h
      exact h▸hvalued _ _ _ hlocals
    | none =>
      simp only [hlocals] at h
      split at h
      case isFalse hkind => simp at h
      case isTrue hkind =>
        cases hplain : loadPlain rt mem self attr with
        | error e => simp [hplain,Except.map] at h
        | ok dest' =>
          simp only [hplain,Except.map,Except.ok.injEq] at h
          split at h
          case isTrue hsome =>
            cases h
            exact hsome
          case isFalse hnone => cases h

/-- A search in one list after another. -/
theorem firstMember_append (hvalued : Valued rt mem attr) (before after : List ObjType) :
    firstMember rt mem obj attr (before++after)=
      match firstMember rt mem obj attr before with
      | .error e => .error e
      | .ok dest => if dest.1.isSome then .ok dest else firstMember rt mem obj attr after := by
  induction before with
  | nil => simp [firstMember]
  | cons type types ih =>
    rw [List.cons_append,firstMember,firstMember]
    cases hown : ownMember rt mem obj attr type with
    | error e => rfl
    | ok found =>
      cases found with
      | none => exact ih
      | some dest => simp [isSome_of_ownMember hvalued hown]

mutual
/-- A class lookup is a search in the list of the class and its bases. -/
theorem mpObjClassLookup_eq {load : Obj→String→Act Dest} (hload : load (subobjOf mem obj) attr mem=
      orRaise (loadPlain rt mem (subobjOf mem obj) attr) mem)
    (hvalued : Valued rt mem attr) : (type : ObjType) →
    mpObjClassLookup rt load obj attr type mem=
      orRaise (firstMember rt mem obj attr (linearize type)) mem
  | ⟨address,name,kind,attrFun,hasIternext,localsDict,parents⟩ => by
    have hbases := lookupBases_eq hload hvalued parents
    rw [mpObjClassLookup,linearize,firstMember,ownMember]
    simp only [get_bind]
    generalize hself : (if kind=.native then subobjOf mem obj else obj)=self
    cases hlocals : lookupLocals rt mem self attr localsDict with
    | error e => simp
    | ok found =>
      cases found with
      | some dest => simp; rfl
      | none =>
        simp only [orRaise_ok_bind]
        split
        case isFalse hkind => exact hbases
        case isTrue hkind =>
          rw [if_pos hkind] at hself
          subst hself
          rw [bind_of_eq hload]
          cases loadPlain rt mem (subobjOf mem obj) attr with
          | error e => rfl
          | ok dest =>
            simp only [orRaise_ok_bind,Except.map]
            split
            case isTrue hsome => rfl
            case isFalse hnone => exact hbases
/-- The search in the bases. -/
theorem lookupBases_eq {load : Obj→String→Act Dest} (hload : load (subobjOf mem obj) attr mem=
      orRaise (loadPlain rt mem (subobjOf mem obj) attr) mem)
    (hvalued : Valued rt mem attr) : (types : List ObjType) →
    lookupBases rt load obj attr types mem=
      orRaise (firstMember rt mem obj attr (linearizeBases types)) mem
  | [] => rfl
  | type::types => by
    have htype := mpObjClassLookup_eq hload hvalued type
    have htypes := lookupBases_eq hload hvalued types
    rw [lookupBases,linearizeBases]
    split
    case isTrue hkind => exact htypes
    case isFalse hkind =>
      rw [firstMember_append hvalued,bind_of_eq htype]
      cases firstMember rt mem obj attr (linearize type) with
      | error e => rfl
      | ok dest =>
        simp only [orRaise_ok_bind]
        split
        case isTrue hsome => rfl
        case isFalse hnone => exact htypes
end

end MicroPython.ClassOrder
