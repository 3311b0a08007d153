import MicroPython.MapTable

/-!
# Dicts

The objects that have maps: a dict has a hash table, an OrderedDict an ordered array, and
their methods are the same. Most of them look a key up, in one of the ways in which that is done;
others go through the slots that have a key.
-/

namespace MicroPython.DictObject

open Option OpenAddressing MapTable

variable {κ ν : Type}

/-- `base.type` -/
inductive DictType where
  /-- `mp_type_dict` -/
  | dict
  /-- `mp_type_ordereddict` -/
  | ordereddict
  deriving DecidableEq

/-- `mp_obj_dict_t` -/
structure MpObjDict (κ ν : Type) where
  /-- `base.type` -/
  type : DictType
  /-- `map` -/
  map : MpMap κ ν

/-- Exceptions of methods. -/
inductive Raised (κ : Type) where
  /-- `mp_type_KeyError` with a key. -/
  | missing (index : κ)
  /-- `mp_type_KeyError` with a message. -/
  | keyError (message : String)
  /-- `mp_type_ValueError` -/
  | valueError (message : String)

/-- What a method returns. -/
inductive Reply (κ ν : Type) where
  /-- `mp_const_none`, or the dict itself. -/
  | nothing
  | value (value : ν)
  | item (key : Cell κ) (value : Option ν)
  | object (self : ℕ)
  | raised (exception : Raised κ)
  | noObject

/-! ## Slots with keys -/

/-- The key and the value of a slot that is filled, `MP_MAP_SLOT_IS_FILLED`. -/
def slotItem (e : Elem κ ν) : Option (κ×Option ν) :=
  match e.key with
  | .full k => some (k,e.value)
  | _ => none

/-- `dict_iter_next`: the next slot that is filled. The cursor goes behind it. -/
def dictIterNext (map : MpMap κ ν) (cur : ℕ) : Option ℕ :=
  (((map.table.take map.alloc).drop cur).findIdx? fun e => (slotItem e).isSome).map (cur+·)

/-- What `dict_iter_next` gives one after another, from a cursor on. -/
def itemsFrom (map : MpMap κ ν) (cur : ℕ) : List (κ×Option ν) :=
  ((map.table.take map.alloc).drop cur).filterMap slotItem

/-- The items of a dict. -/
def dictItems (map : MpMap κ ν) : List (κ×Option ν) := itemsFrom map 0

/-- The first element that a partial function takes is the first of its values. -/
theorem filterMap_of_findIdx? {α β : Type} {f : α→Option β} {l : List α} {i : ℕ}
    (h : l.findIdx? (fun e => (f e).isSome)=some i) :
    ∃ e b,l[i]?=some e∧f e=some b∧l.filterMap f=b::(l.drop (i+1)).filterMap f := by
  induction l generalizing i with
  | nil => cases h
  | cons d ds ih =>
    rw [List.findIdx?_cons] at h
    cases hd : f d with
    | some b =>
      rw [hd,isSome_some,if_pos rfl] at h
      cases h
      exact ⟨d,b,rfl,hd,List.filterMap_cons_some hd⟩
    | none =>
      rw [hd,isSome_none,if_neg Bool.false_ne_true] at h
      obtain ⟨j,hj,heq⟩ := map_eq_some_iff.mp h
      obtain ⟨e,b,hat,hb,hvalues⟩ := ih hj
      rw [←heq,List.filterMap_cons_none hd]
      exact ⟨e,b,hat,hb,hvalues⟩

theorem itemsFrom_none {map : MpMap κ ν} {cur : ℕ} (h : dictIterNext map cur=none) :
    itemsFrom map cur=[] := by
  rw [dictIterNext,map_eq_none_iff,List.findIdx?_eq_none_iff] at h
  refine List.filterMap_eq_nil_iff.mpr fun e he => ?_
  exact isNone_iff_eq_none.mp (isSome_eq_false_iff.mp (h e he))

/-- The next slot has the first of the items that are left. -/
theorem itemsFrom_some {map : MpMap κ ν} {cur next : ℕ} (h : dictIterNext map cur=some next) :
    ∃ item,slotItem (map.table.getD next .null)=some item∧
      itemsFrom map cur=item::itemsFrom map (next+1) := by
  rw [dictIterNext] at h
  obtain ⟨i,hi,heq⟩ := map_eq_some_iff.mp h
  obtain ⟨e,item,hat,hitem,hvalues⟩ := filterMap_of_findIdx? hi
  rw [List.getElem?_drop,heq] at hat
  rw [List.drop_drop,←Nat.add_assoc,heq] at hvalues
  refine ⟨item,?_,hvalues⟩
  have hget : map.table[next]?=some e := by
    rw [List.getElem?_take] at hat
    split at hat
    case isTrue => exact hat
    case isFalse => cases hat
  rw [List.getD_eq_getElem?_getD,hget]
  exact hitem

/-! ## Methods -/

variable [DecidableEq κ] (keys : Keys κ) (depth : ℕ)

/-- A value is stored in the slot that a lookup finds or adds. -/
def storeValue (map : MpMap κ ν) (k : κ) (v : Option ν) : Outcome (MpMap κ ν) Unit :=
  (mpMapLookup keys plenty depth map k .addIfNotFound).andThen fun map slot =>
    match slot with
    | none => .stuck
    | some slot => .done (map.setValue slot v) ()

/-- What `dict_get_helper` returns for a key without a value: the third argument if there is
one. -/
def missingValue (constNone : ν) (k : κ) (default : Option ν) (kind : LookupKind) :
    Except (Raised κ) ν :=
  match default with
  | some value => .ok value
  | none => if kind=.removeIfFound then .error (.missing k) else .ok constNone

/-- `dict_get_helper` -/
def dictGetHelper (constNone : ν) (map : MpMap κ ν) (k : κ) (default : Option ν)
    (kind : LookupKind) : Outcome (MpMap κ ν) (Except (Raised κ) ν) :=
  (mpMapLookup keys plenty depth map k kind).andThen fun map slot =>
    match slot.bind fun slot => (map.valueAt slot).map (slot,·) with
    | some (slot,value) =>
      -- so that the value that was removed can be collected
      .done (if kind=.removeIfFound then map.setValue slot none else map) (.ok value)
    | none =>
      match missingValue constNone k default kind with
      | .error e => .done map (.error e)
      | .ok value =>
        if kind=.addIfNotFound then
          match slot with
          | none => .stuck
          | some slot => .done (map.setValue slot (some value)) (.ok value)
        else .done map (.ok value)

/-- A value as a reply. -/
def Reply.ofValue : Except (Raised κ) ν→Reply κ ν
  | .ok v => .value v
  | .error e => .raised e

/-- No value as a reply. -/
def Reply.ofDone : Except (Raised κ) ν→Reply κ ν
  | .ok _ => .nothing
  | .error e => .raised e

/-- `dict_popitem` -/
def dictPopitem (map : MpMap κ ν) : MpMap κ ν×Reply κ ν :=
  match dictIterNext map 0 with
  | none => (map,.raised (.keyError "popitem(): dictionary is empty"))
  | some next =>
    let elem := map.table.getD next .null
    ({map with
        used := map.used-1
        table := map.table.set next ⟨.deleted,none⟩},.item elem.key elem.value)

/-- What a dict is updated from. -/
inductive Source (κ ν : Type) where
  | dict (other : ℕ)
  /-- An iterable: its items are pairs or have another length. -/
  | pairs (items : List (Option (κ×ν)))

/-- The items of a dict are stored. -/
def storeItems : List (κ×Option ν)→MpMap κ ν→Outcome (MpMap κ ν) Unit
  | [],map => .done map ()
  | (k,v)::items,map => (storeValue keys depth map k v).andThen fun map _ => storeItems items map

/-- The items of an iterable are stored, as far as they are pairs. -/
def storePairs : List (Option (κ×ν))→MpMap κ ν→Outcome (MpMap κ ν) (Option (Raised κ))
  | [],map => .done map none
  | none::_,map => .done map (some (.valueError "dict update sequence has wrong length"))
  | some (k,v)::pairs,map =>
    (storeValue keys depth map k (some v)).andThen fun map _ => storePairs pairs map

/-- The positional argument of `dict_update`. -/
def updateFrom (dicts : List (MpObjDict κ ν)) (self : ℕ) (map : MpMap κ ν) :
    Option (Source κ ν)→Outcome (MpMap κ ν) (Option (Raised κ))
  | none => .done map none
  | some (.dict other) =>
    -- a dict is not updated from itself
    if other=self then .done map none
    else (storeItems keys depth ((dicts[other]?.map fun d => dictItems d.map).getD []) map).andThen
      fun map _ => .done map none
  | some (.pairs items) => storePairs keys depth items map

/-- `dict_update` -/
def dictUpdate (dicts : List (MpObjDict κ ν)) (self : ℕ) (map : MpMap κ ν)
    (source : Option (Source κ ν)) (kwargs : List (κ×ν)) :
    Outcome (MpMap κ ν) (Option (Raised κ)) :=
  (updateFrom keys depth dicts self map source).andThen fun map e =>
    match e with
    | some e => .done map (some e)
    | none =>
      (storeItems keys depth (kwargs.map fun p => (p.1,some p.2)) map).andThen fun map _ =>
        .done map none

/-- The map of a new dict. -/
def newMap (type : DictType) : MpMap κ ν :=
  {(mpMapInit 0 : MpMap κ ν) with isOrdered := decide (type=.ordereddict)}

/-- An operation on dicts. -/
inductive DictOp (κ ν : Type) where
  /-- `dict_make_new` -/
  | makeNew (type : DictType) (source : Option (Source κ ν)) (kwargs : List (κ×ν))
  /-- `mp_obj_dict_store` -/
  | store (self : ℕ) (k : κ) (v : ν)
  /-- `mp_obj_dict_delete` -/
  | delete (self : ℕ) (k : κ)
  /-- `dict_get` -/
  | get (self : ℕ) (k : κ) (default : Option ν)
  /-- `dict_pop` -/
  | pop (self : ℕ) (k : κ) (default : Option ν)
  /-- `dict_popitem` -/
  | popitem (self : ℕ)
  /-- `dict_setdefault` -/
  | setdefault (self : ℕ) (k : κ) (default : Option ν)
  /-- `dict_update` -/
  | update (self : ℕ) (source : Option (Source κ ν)) (kwargs : List (κ×ν))
  /-- `dict_copy` -/
  | copy (self : ℕ)
  /-- `dict_clear` -/
  | clear (self : ℕ)

/-- A method of a dict, with its map. -/
def onDict (dicts : List (MpObjDict κ ν)) (self : ℕ)
    (method : MpMap κ ν→Outcome (MpMap κ ν) (Reply κ ν)) :
    Outcome (List (MpObjDict κ ν)) (Reply κ ν) :=
  match dicts[self]? with
  | none => .done dicts .noObject
  | some d =>
    match method d.map with
    | .done map reply => .done (dicts.set self ⟨d.type,map⟩) reply
    | .raised map => .raised (dicts.set self ⟨d.type,map⟩)
    | .stuck => .stuck

/-- An exception or no value as a reply. -/
def Reply.ofRaised : Option (Raised κ)→Reply κ ν
  | none => .nothing
  | some e => .raised e

/-- `dict_make_new`: the dict is there when nothing was raised. -/
def dictMakeNew (dicts : List (MpObjDict κ ν)) (type : DictType) (source : Option (Source κ ν))
    (kwargs : List (κ×ν)) : Outcome (List (MpObjDict κ ν)) (Reply κ ν) :=
  match dictUpdate keys depth dicts dicts.length (newMap type) source kwargs with
  | .done _ (some e) => .done dicts (.raised e)
  | .done map none => .done (dicts++[⟨type,map⟩]) (.object dicts.length)
  | .raised _ => .raised dicts
  | .stuck => .stuck

/-- `dict_copy`, of the table and of all that is counted. -/
def dictCopy (dicts : List (MpObjDict κ ν)) (self : ℕ) :
    Outcome (List (MpObjDict κ ν)) (Reply κ ν) :=
  match dicts[self]? with
  | none => .done dicts .noObject
  | some d => .done (dicts++[d]) (.object dicts.length)

/-- An operation. -/
def DictOp.step (constNone : ν) (dicts : List (MpObjDict κ ν)) (op : DictOp κ ν) :
    Except Failure (List (MpObjDict κ ν)×Reply κ ν) :=
  returned <| match op with
  | .makeNew type source kwargs => dictMakeNew keys depth dicts type source kwargs
  | .store self k v => onDict dicts self fun map =>
      (storeValue keys depth map k (some v)).andThen fun map _ => .done map .nothing
  | .delete self k => onDict dicts self fun map =>
      (dictGetHelper keys depth constNone map k none .removeIfFound).andThen fun map value =>
        .done map (.ofDone value)
  | .get self k default => onDict dicts self fun map =>
      (dictGetHelper keys depth constNone map k default .lookup).andThen fun map value =>
        .done map (.ofValue value)
  | .pop self k default => onDict dicts self fun map =>
      (dictGetHelper keys depth constNone map k default .removeIfFound).andThen fun map value =>
        .done map (.ofValue value)
  | .popitem self => onDict dicts self fun map =>
      .done (dictPopitem map).1 (dictPopitem map).2
  | .setdefault self k default => onDict dicts self fun map =>
      (dictGetHelper keys depth constNone map k default .addIfNotFound).andThen fun map value =>
        .done map (.ofValue value)
  | .update self source kwargs => onDict dicts self fun map =>
      (dictUpdate keys depth dicts self map source kwargs).andThen fun map e =>
        .done map (.ofRaised e)
  | .copy self => dictCopy dicts self
  | .clear self => onDict dicts self fun map => .done (mpMapClear map) .nothing

end MicroPython.DictObject
