import MicroPython.OpenAddressing

/-!
# Maps and sets

The hash tables behind dicts and sets. A map is a hash table or an ordered array; a
lookup can add or remove its key, and a table in which nothing is free is made
larger. Keys are objects of any kind: interned strings, which are compared by their
address, other strings, and whatever else has a hash and can be compared. Maps are
not fixed ones.
-/

namespace MicroPython.MapTable

open OpenAddressing

/-! ## Keys -/

/-- Objects as they are used for keys. -/
structure Keys (κ : Type) where
  /-- `MP_OBJ_IS_QSTR` -/
  isQstr : κ→Bool
  /-- `MP_OBJ_IS_TYPE` of `mp_type_str`, of objects that are no qstrs. -/
  isStr : κ→Bool
  /-- `qstr_hash` and `MP_UNARY_OP_HASH` -/
  hash : κ→ℕ
  /-- `mp_obj_equal` -/
  equal : κ→κ→Bool
  equal_symm : ∀ {a b},equal a b=true → equal b a=true
  equal_trans : ∀ {a b c},equal a b=true → equal b c=true → equal a c=true
  hash_eq : ∀ {a b},equal a b=true → hash a=hash b
  /-- There is one qstr for each string. -/
  qstr_eq : ∀ {a b},isQstr a=true → isQstr b=true → equal a b=true → a=b
  /-- A string is never equal to anything else. -/
  str_only : ∀ {a b},isQstr a=true → equal a b=true → isQstr b=true∨isStr b=true

/-- Small integers as keys. -/
def smallInts : Keys ℕ where
  isQstr _ := false
  isStr _ := false
  hash n := n
  equal a b := decide (a=b)
  equal_symm := fun h => decide_eq_true (of_decide_eq_true h).symm
  equal_trans := fun h h' => decide_eq_true ((of_decide_eq_true h).trans (of_decide_eq_true h'))
  hash_eq := fun h => of_decide_eq_true h
  qstr_eq := fun h => by cases h
  str_only := fun h => by cases h

variable {κ ν : Type} [DecidableEq κ]

/-- The comparison of the key of a slot with an index: `mp_obj_equal` also sees objects
that are not equal to themselves. -/
def Keys.same (keys : Keys κ) (key index : κ) : Bool := decide (key=index)||keys.equal key index

/-- The comparison, by the address only when the flag says so. -/
def Keys.matching (keys : Keys κ) (compareOnlyPtrs : Bool) (index key : κ) : Bool :=
  decide (key=index)||!compareOnlyPtrs&&keys.equal key index

/-- `mp_map_lookup_kind_t` -/
inductive LookupKind where
  /-- `MP_MAP_LOOKUP` -/
  | lookup
  /-- `MP_MAP_LOOKUP_ADD_IF_NOT_FOUND` -/
  | addIfNotFound
  /-- `MP_MAP_LOOKUP_REMOVE_IF_FOUND` -/
  | removeIfFound
  /-- `MP_MAP_LOOKUP_ADD_IF_NOT_FOUND_OR_REMOVE_IF_FOUND`, for sets. -/
  | addIfNotFoundOrRemoveIfFound
  deriving DecidableEq

/-- The bit of `MP_MAP_LOOKUP_ADD_IF_NOT_FOUND`. -/
def LookupKind.adds : LookupKind→Bool
  | .addIfNotFound | .addIfNotFoundOrRemoveIfFound => true
  | _ => false

/-- The bit of `MP_MAP_LOOKUP_REMOVE_IF_FOUND`. -/
def LookupKind.removes : LookupKind→Bool
  | .removeIfFound | .addIfNotFoundOrRemoveIfFound => true
  | _ => false

/-- How an operation ends. -/
inductive Outcome (σ α : Type) where
  | done (state : σ) (result : α)
  /-- The allocation of memory raises an exception. -/
  | raised (state : σ)
  /-- A loop has not ended, or calls are nested too deep. -/
  | stuck

/-- What is done after an operation that returns. -/
def Outcome.andThen {σ α β : Type} : Outcome σ α→(σ→α→Outcome σ β)→Outcome σ β
  | .done s a,f => f s a
  | .raised s,_ => .raised s
  | .stuck,_ => .stuck

/-- How an operation fails. -/
inductive Failure where
  | memory
  | endless
  deriving DecidableEq

/-- The result of an operation that returns. -/
def returned {σ α : Type} : Outcome σ α→Except Failure (σ×α)
  | .done s a => .ok (s,a)
  | .raised _ => .error .memory
  | .stuck => .error .endless

/-- All memory that is asked for is there. -/
def plenty : ℕ→Bool := fun _ => true

/-! ## Sizes -/

/-- `hash_allocation_sizes` -/
def hashAllocationSizes : List ℕ :=
  [0,2,4,6,8,10,12,17,23,29,37,47,59,73,97,127,167,223,293,389,521,691,919,1223,1627,2161,
    3229,4831,7243,10861,16273,24407,36607,54907]

/-- `get_hash_alloc_greater_or_equal_to` -/
def getHashAllocGreaterOrEqualTo (x : ℕ) : ℕ :=
  match hashAllocationSizes.find? (x≤·) with
  | some size => size
  | none => (x+x/2)|||1

/-! ## Maps -/

/-- `mp_map_elem_t` -/
structure Elem (κ ν : Type) where
  /-- `key`, which can be `MP_OBJ_NULL` or `MP_OBJ_SENTINEL`. -/
  key : Cell κ
  /-- `value`, which can be `MP_OBJ_NULL`. -/
  value : Option ν

/-- An element of zeros. -/
def Elem.null : Elem κ ν := ⟨.empty,none⟩

/-- `mp_map_t` -/
structure MpMap (κ ν : Type) where
  /-- `all_keys_are_qstrs` -/
  allKeysAreQstrs : Bool
  /-- `is_ordered` -/
  isOrdered : Bool
  /-- `used` -/
  used : ℕ
  /-- `alloc` -/
  alloc : ℕ
  /-- `table` -/
  table : List (Elem κ ν)

namespace MpMap

/-- The keys of the table. -/
def cells (map : MpMap κ ν) : List (Cell κ) := map.table.map Elem.key

/-- The value in a slot. -/
def valueAt (map : MpMap κ ν) (slot : ℕ) : Option ν := (map.table.getD slot .null).value

/-- The value in a slot is written. -/
def setValue (map : MpMap κ ν) (slot : ℕ) (value : Option ν) : MpMap κ ν :=
  {map with table := map.table.modify slot fun e => {e with value := value}}

end MpMap

/-- `mp_map_init` -/
def mpMapInit (n : ℕ) : MpMap κ ν := ⟨true,false,0,n,List.replicate n .null⟩

/-- `mp_map_clear` -/
def mpMapClear (map : MpMap κ ν) : MpMap κ ν :=
  {map with
    alloc := 0
    used := 0
    allKeysAreQstrs := true
    table := []}

/-- The flag of the keys after an index was added. -/
def stillQstrs (keys : Keys κ) (map : MpMap κ ν) (index : κ) : Bool :=
  if keys.isQstr index then map.allKeysAreQstrs else false

/-- `compare_only_ptrs`, or nothing when the index cannot be in the map. -/
def compareOnlyPtrs (keys : Keys κ) (map : MpMap κ ν) (index : κ) (kind : LookupKind) :
    Option Bool :=
  if map.allKeysAreQstrs then
    if keys.isQstr index then some true
    else if keys.isStr index then some false
    else if kind≠.addIfNotFound then none
    else some true
  else some false

/-- An index is put into a free slot. -/
def addAt (keys : Keys κ) (map : MpMap κ ν) (slot : ℕ) (index : κ) : MpMap κ ν :=
  {map with
    used := map.used+1
    allKeysAreQstrs := stillQstrs keys map index
    table := map.table.set slot ⟨.full index,none⟩}

/-- The key of a slot is taken out, and its value stays. -/
def removeAt (map : MpMap κ ν) (slot : ℕ) : MpMap κ ν :=
  {map with
    used := map.used-1
    table := map.table.modify slot fun e =>
      {e with key := vacated map.cells map.alloc slot}}

/-- The elements of a table are added to a map. -/
def reinsert (add : MpMap κ ν→κ→Outcome (MpMap κ ν) (Option ℕ)) :
    List (Elem κ ν)→MpMap κ ν→Outcome (MpMap κ ν) Unit
  | [],map => .done map ()
  | e::elems,map =>
    match e.key with
    | .full key =>
      (add map key).andThen fun map slot =>
        match slot with
        | none => .stuck
        | some slot => reinsert add elems (map.setValue slot e.value)
    | _ => reinsert add elems map

/-- `mp_map_rehash`, with the memory there is and the lookup that adds. -/
def mpMapRehash (mem : ℕ→Bool) (add : MpMap κ ν→κ→Outcome (MpMap κ ν) (Option ℕ))
    (map : MpMap κ ν) : Outcome (MpMap κ ν) Unit :=
  let newAlloc := getHashAllocGreaterOrEqualTo (map.alloc+1)
  if mem newAlloc then
    reinsert add (map.table.take map.alloc) {map with
      alloc := newAlloc
      used := 0
      allKeysAreQstrs := true
      table := List.replicate newAlloc .null}
  else .raised map

/-- The search in a hash table, and what is done at its end. When nothing is free, the
table is made larger and the search begins again. -/
def hashLookup (keys : Keys κ) (rehash : MpMap κ ν→Outcome (MpMap κ ν) Unit)
    (comparePtrs : Bool) (index : κ) (kind : LookupKind) :
    ℕ→MpMap κ ν→Outcome (MpMap κ ν) (Option ℕ)
  | 0,_ => .stuck
  | n+1,map =>
    match search (keys.matching comparePtrs index) map.cells map.alloc
      (keys.hash index%map.alloc) map.alloc (keys.hash index%map.alloc) none with
    | none => .stuck
    | some (.key slot) =>
      .done (if kind=.removeIfFound then removeAt map slot else map) (some slot)
    | some (.free slot) =>
      if kind=.addIfNotFound then .done (addAt keys map slot index) (some slot)
      else .done map none
    | some .nowhere =>
      if kind=.addIfNotFound then
        (rehash map).andThen fun map _ => hashLookup keys rehash comparePtrs index kind n map
      else .done map none

/-- The key of an element matches. -/
def elemMatches (keys : Keys κ) (comparePtrs : Bool) (index : κ) (e : Elem κ ν) : Bool :=
  match e.key with
  | .full key => keys.matching comparePtrs index key
  | _ => false

/-- An element of an ordered array is taken out: the rest moves down, and the value is
kept after the end. -/
def removeOrdered (map : MpMap κ ν) (slot : ℕ) : MpMap κ ν :=
  {map with
    used := map.used-1
    table := (map.table.take map.used).eraseIdx slot++
      ⟨.empty,map.valueAt slot⟩::map.table.drop map.used}

/-- An index is put behind the elements of an ordered array. -/
def addOrdered (keys : Keys κ) (map : MpMap κ ν) (index : κ) : MpMap κ ν :=
  {map with
    used := map.used+1
    allKeysAreQstrs := stillQstrs keys map index
    table := map.table.modify map.used fun e => {e with key := .full index}}

/-- An ordered array gets four slots more. -/
def growOrdered (mem : ℕ→Bool) (map : MpMap κ ν) : Outcome (MpMap κ ν) Unit :=
  let map := {map with alloc := map.alloc+4}
  if mem map.alloc then
    .done {map with
      table := map.table.take map.used++List.replicate (map.alloc-map.used) .null} ()
  else .raised map

/-- The branch of an ordered array. -/
def orderedLookup (keys : Keys κ) (mem : ℕ→Bool) (comparePtrs : Bool) (index : κ)
    (kind : LookupKind) (map : MpMap κ ν) : Outcome (MpMap κ ν) (Option ℕ) :=
  match (map.table.take map.used).findIdx? (elemMatches keys comparePtrs index) with
  | some slot =>
    if kind=.removeIfFound then .done (removeOrdered map slot) (some (map.used-1))
    else .done map (some slot)
  | none =>
    if kind≠.addIfNotFound then .done map none
    else if map.used=map.alloc then
      (growOrdered mem map).andThen fun map _ =>
        .done (addOrdered keys map index) (some map.used)
    else .done (addOrdered keys map index) (some map.used)

/-- `mp_map_lookup`, with the depth of nested calls. -/
def mpMapLookup (keys : Keys κ) (mem : ℕ→Bool) :
    ℕ→MpMap κ ν→κ→LookupKind→Outcome (MpMap κ ν) (Option ℕ)
  | 0,_,_,_ => .stuck
  | depth+1,map,index,kind =>
    let rehash := mpMapRehash mem fun map key =>
      mpMapLookup keys mem depth map key .addIfNotFound
    match compareOnlyPtrs keys map index kind with
    | none => .done map none
    | some comparePtrs =>
      if map.isOrdered then orderedLookup keys mem comparePtrs index kind map
      else if map.alloc=0 then
        if kind=.addIfNotFound then
          (rehash map).andThen fun map _ =>
            hashLookup keys rehash comparePtrs index kind (depth+1) map
        else .done map none
      else hashLookup keys rehash comparePtrs index kind (depth+1) map

/-! ## Sets -/

/-- `mp_set_t` -/
structure MpSet (κ : Type) where
  /-- `used` -/
  used : ℕ
  /-- `alloc` -/
  alloc : ℕ
  /-- `table` -/
  table : List (Cell κ)

/-- `mp_set_init` -/
def mpSetInit (n : ℕ) : MpSet κ := ⟨0,n,List.replicate n .empty⟩

/-- `mp_set_clear` -/
def mpSetClear : MpSet κ := ⟨0,0,[]⟩

/-- The key of a slot is taken out. -/
def MpSet.removeAt (set : MpSet κ) (slot : ℕ) : MpSet κ :=
  {set with
    used := set.used-1
    table := set.table.set slot (vacated set.table set.alloc slot)}

/-- The keys of a table are added to a set. -/
def setReinsert (add : MpSet κ→κ→Outcome (MpSet κ) (Cell κ)) :
    List (Cell κ)→MpSet κ→Outcome (MpSet κ) Unit
  | [],set => .done set ()
  | .full key::cells,set => (add set key).andThen fun set _ => setReinsert add cells set
  | _::cells,set => setReinsert add cells set

/-- `mp_set_rehash` -/
def mpSetRehash (mem : ℕ→Bool) (add : MpSet κ→κ→Outcome (MpSet κ) (Cell κ))
    (set : MpSet κ) : Outcome (MpSet κ) Unit :=
  let oldTable := set.table.take set.alloc
  let set : MpSet κ := ⟨0,getHashAllocGreaterOrEqualTo (set.alloc+1),set.table⟩
  if mem set.alloc then
    setReinsert add oldTable {set with table := List.replicate set.alloc .empty}
  else .raised set

/-- The search in the table of a set, and what is done at its end. -/
def setHashLookup (keys : Keys κ) (rehash : MpSet κ→Outcome (MpSet κ) Unit) (index : κ)
    (kind : LookupKind) : ℕ→MpSet κ→Outcome (MpSet κ) (Cell κ)
  | 0,_ => .stuck
  | n+1,set =>
    match search (keys.equal · index) set.table set.alloc (keys.hash index%set.alloc)
      set.alloc (keys.hash index%set.alloc) none with
    | none => .stuck
    | some (.key slot) =>
      .done (if kind.removes then set.removeAt slot else set) (cellAt set.table slot)
    | some (.free slot) =>
      if kind.adds then
        .done ⟨set.used+1,set.alloc,set.table.set slot (.full index)⟩ (.full index)
      else .done set .empty
    | some .nowhere =>
      if kind.adds then
        (rehash set).andThen fun set _ => setHashLookup keys rehash index kind n set
      else .done set .empty

/-- `mp_set_lookup`, with the depth of nested calls. -/
def mpSetLookup (keys : Keys κ) (mem : ℕ→Bool) : ℕ→MpSet κ→κ→LookupKind→Outcome (MpSet κ) (Cell κ)
  | 0,_,_,_ => .stuck
  | depth+1,set,index,kind =>
    let rehash := mpSetRehash mem fun set key =>
      mpSetLookup keys mem depth set key .addIfNotFound
    if set.alloc=0 then
      if kind.adds then
        (rehash set).andThen fun set _ =>
          setHashLookup keys rehash index kind (depth+1) set
      else .done set .empty
    else setHashLookup keys rehash index kind (depth+1) set

/-- `mp_set_remove_first` -/
def mpSetRemoveFirst (set : MpSet κ) : MpSet κ×Cell κ :=
  match (set.table.take set.alloc).findIdx? Cell.isFull with
  | some slot => (set.removeAt slot,cellAt set.table slot)
  | none => (set,.empty)

end MicroPython.MapTable
