import MicroPython.AssociationList
import MicroPython.HashedMap
import Mathlib.Data.List.InsertIdx

/-!
# Ordered arrays

A map that is ordered keeps its elements at the beginning of the table, in the order in
which they were added: it is an association list with free slots behind it. A lookup goes
through the elements, one that adds puts its key behind them, and one that removes moves the
elements behind its key down.
-/

namespace MicroPython.OrderedMap

open List OpenAddressing MapTable AssociationList
open HashedMap (laws_same matching_eq_same same_eq_false compareOnlyPtrs_add)

theorem modify_append_length {α : Type} (l r : List α) (f : α→α) :
    (l++r).modify l.length f=l++r.modify 0 f := by
  induction l with
  | nil => rfl
  | cons a as ih => exact congrArg (a::·) ih

/-- An element of a first part is changed. -/
theorem modify_map_append {α β : Type} {f : α→β} {g : β→β} {g' : α→α}
    (hg : ∀ a,g (f a)=f (g' a)) (l : List α) (r : List β) :
    ∀ {n : ℕ},n < l.length → (l.map f++r).modify n g=(l.modify n g').map f++r := by
  induction l with
  | nil => exact fun h => absurd h (Nat.not_lt_zero _)
  | cons a as ih =>
    intro n h
    cases n with
    | zero => exact congrArg (·::(as.map f++r)) (hg a)
    | succ n => exact congrArg (f a::·) (ih (Nat.lt_of_succ_lt_succ h))

variable {κ ν : Type} [DecidableEq κ] {keys : Keys κ}

theorem comparison_same (keys : Keys κ) : Comparison keys.same :=
  have laws := laws_same keys
  ⟨laws.symm,laws.trans⟩

/-- The slot of a key with its value. -/
def slotOf (e : κ×Option ν) : Elem κ ν := ⟨.full e.1,e.2⟩

/-- An ordered array has entries, and free slots behind them. -/
structure Lays (keys : Keys κ) (map : MpMap κ ν) (entries : List (κ×Option ν))
    (room : List (Elem κ ν)) : Prop where
  ordered : map.isOrdered=true
  /-- `alloc` is the number of slots. -/
  alloc_eq : map.alloc=map.table.length
  table_eq : map.table=entries.map slotOf++room
  /-- `used` is the number of entries. -/
  used_eq : map.used=entries.length
  free : ∀ e∈room,e.key.isFull=false
  /-- The flag of the keys is right. -/
  qstrs : map.allKeysAreQstrs=true → ∀ e∈entries,keys.isQstr e.1=true
  distinct : Distinct keys.same entries

variable {map : MpMap κ ν} {entries : List (κ×Option ν)} {room : List (Elem κ ν)}

/-- The slots that a lookup goes through. -/
theorem Lays.take_used (h : Lays keys map entries room) :
    map.table.take map.used=entries.map slotOf := by
  rw [h.table_eq,h.used_eq,←length_map slotOf]
  exact take_left

/-- The slots behind them. -/
theorem Lays.drop_used (h : Lays keys map entries room) : map.table.drop map.used=room := by
  rw [h.table_eq,h.used_eq,←length_map slotOf]
  exact drop_left

/-- The number of slots. -/
theorem Lays.alloc_length (h : Lays keys map entries room) :
    map.alloc=entries.length+room.length := by
  rw [h.alloc_eq,h.table_eq,length_append,length_map]

variable {pos : ℕ}

/-- The keys of the slots are those of the entries. -/
theorem Lays.cellAt_full (h : Lays keys map entries room) {k : κ} :
    cellAt map.cells pos=.full k↔∃ e,entries[pos]?=some e∧e.1=k := by
  rw [cellAt,MpMap.cells,h.table_eq,getD_eq_getElem?_getD,List.getElem?_map,
    List.getElem?_append,length_map,List.getElem?_map]
  split
  case isTrue hlt => simp [List.getElem?_eq_getElem hlt,slotOf]
  case isFalse hge =>
    rw [List.getElem?_eq_none (Nat.not_lt.mp hge)]
    refine iff_of_false (fun hk => ?_) (by rintro ⟨_,⟨⟩,_⟩)
    cases hroom : room[pos-entries.length]? with
    | none =>
      rw [hroom] at hk
      cases hk
    | some r =>
      have hfree := h.free r (mem_of_getElem? hroom)
      rw [hroom] at hk
      rw [show r.key=.full k from hk] at hfree
      cases hfree

variable {index : κ}

theorem Lays.findIdx?_full (h : Lays keys map entries room) {k : κ}
    (hk : cellAt map.cells pos=.full k) (hsame : keys.same k index=true) :
    entries.findIdx? (fun e => keys.same e.1 index)=some pos := by
  obtain ⟨e,he,hkey⟩ := h.cellAt_full.mp hk
  exact findIdx?_of_distinct (comparison_same keys) h.distinct he (by rw [hkey]; exact hsame)

/-- A key that is in no slot has no value. -/
theorem Lays.get_eq_none (h : Lays keys map entries room)
    (habsent : Absent keys.same map.cells index) : get keys.same entries index=none := by
  refine get_eq_none_iff.mpr fun e he => ?_
  obtain ⟨pos,hpos⟩ := mem_iff_getElem?.mp he
  exact habsent pos e.1 (h.cellAt_full.mpr ⟨e,hpos,rfl⟩)

theorem Lays.valueAt_eq (h : Lays keys map entries room) {e : κ×Option ν}
    (he : entries[pos]?=some e) : map.valueAt pos=e.2 := by
  obtain ⟨hlt,_⟩ := List.getElem?_eq_some_iff.mp he
  rw [MpMap.valueAt,h.table_eq,getD_eq_getElem?_getD,
    List.getElem?_append_left (by rw [length_map]; exact hlt),List.getElem?_map,he]
  rfl

variable {r : Elem κ ν}

/-- The value in the first free slot. -/
theorem Lays.valueAt_room (h : Lays keys map entries (r::room)) :
    map.valueAt entries.length=r.value := by
  rw [MpMap.valueAt,h.table_eq,getD_eq_getElem?_getD,←length_map slotOf,
    List.getElem?_append_right (Nat.le_refl _),Nat.sub_self]
  rfl

/-! ## Lookups -/

theorem Lays.findIdx?_eq (h : Lays keys map entries room) {kind : LookupKind}
    {comparePtrs : Bool} (hptrs : compareOnlyPtrs keys map index kind=some comparePtrs) :
    (map.table.take map.used).findIdx? (elemMatches keys comparePtrs index)=
      entries.findIdx? fun e => keys.same e.1 index := by
  rw [h.take_used,List.findIdx?_map]
  refine findIdx?_congr fun e he => ?_
  exact matching_eq_same (fun hflag => h.qstrs hflag e he) hptrs

theorem mpMapLookup_absent (h : Lays keys map entries room)
    (habsent : get keys.same entries index=none) {kind : LookupKind}
    (hkind : kind≠.addIfNotFound) (mem : ℕ→Bool) (depth : ℕ) :
    mpMapLookup keys mem (depth+1) map index kind=.done map none := by
  rw [mpMapLookup]
  cases hptrs : compareOnlyPtrs keys map index kind with
  | none => rfl
  | some comparePtrs =>
    have hfind := findIdx?_eq_none.mpr habsent
    rw [←h.findIdx?_eq hptrs] at hfind
    simp only [h.ordered,if_true,orderedLookup,hfind,if_pos hkind]

/-- A lookup of a key that is there. -/
theorem mpMapLookup_found (h : Lays keys map entries room)
    (hfind : entries.findIdx? (fun e => keys.same e.1 index)=some pos) (kind : LookupKind)
    (mem : ℕ→Bool) (depth : ℕ) :
    mpMapLookup keys mem (depth+1) map index kind=
      if kind=.removeIfFound then .done (removeOrdered map pos) (some (map.used-1))
      else .done map (some pos) := by
  rw [mpMapLookup]
  cases hptrs : compareOnlyPtrs keys map index kind with
  | none =>
    have habsent : get keys.same entries index=none := get_eq_none_iff.mpr fun e he =>
      same_eq_false (fun hflag => h.qstrs hflag e he) hptrs
    rw [findIdx?_eq_none.mpr habsent] at hfind
    cases hfind
  | some comparePtrs =>
    rw [←h.findIdx?_eq hptrs] at hfind
    simp only [h.ordered,if_true,orderedLookup,hfind]

/-- A lookup that adds a key that is not there. -/
theorem mpMapLookup_new (h : Lays keys map entries room)
    (habsent : get keys.same entries index=none) (mem : ℕ→Bool) (depth : ℕ) :
    mpMapLookup keys mem (depth+1) map index .addIfNotFound=
      if map.used=map.alloc then
        (growOrdered mem map).andThen fun map _ =>
          .done (addOrdered keys map index) (some map.used)
      else .done (addOrdered keys map index) (some map.used) := by
  rw [mpMapLookup]
  cases hptrs : compareOnlyPtrs keys map index .addIfNotFound with
  | none => exact absurd hptrs (compareOnlyPtrs_add keys map index)
  | some comparePtrs =>
    have hfind := findIdx?_eq_none.mpr habsent
    rw [←h.findIdx?_eq hptrs] at hfind
    simp only [h.ordered,if_true,orderedLookup,hfind,ne_eq,not_true_eq_false,if_false]

/-! ## Elements that are added, removed and written -/

/-- A key that is put into the first free slot is the last entry, with the value that was
left there. -/
theorem lays_addOrdered (h : Lays keys map entries (r::room))
    (habsent : get keys.same entries index=none) :
    Lays keys (addOrdered keys map index) (entries++[(index,r.value)]) room := by
  have hlen : map.used=(entries.map slotOf).length := by rw [h.used_eq,length_map]
  refine ⟨h.ordered,?_,?_,?_,fun e he => h.free e (mem_cons_of_mem r he),?_,?_⟩
  · rw [addOrdered,length_modify]
    exact h.alloc_eq
  · rw [addOrdered,h.table_eq,hlen,modify_append_length,map_append,append_assoc]
    rfl
  · rw [addOrdered,length_append,h.used_eq]
    rfl
  · intro hflag e he
    have hflags : map.allKeysAreQstrs=true∧keys.isQstr index=true := by
      cases hq : keys.isQstr index with
      | true =>
        rw [addOrdered,stillQstrs,hq,if_pos rfl] at hflag
        exact ⟨hflag,rfl⟩
      | false =>
        rw [addOrdered,stillQstrs,hq,if_neg Bool.false_ne_true] at hflag
        cases hflag
    cases mem_append.mp he with
    | inl hold => exact h.qstrs hflags.1 e hold
    | inr hnew =>
      rw [mem_singleton.mp hnew]
      exact hflags.2
  · rw [←store_of_none habsent]
    exact distinct_store h.distinct index r.value

/-- An array with more room has the same entries. -/
theorem growOrdered_full (h : Lays keys map entries room) (hfull : map.used=map.alloc)
    {mem : ℕ→Bool} (hmem : mem (map.alloc+4)=true) :
    ∃ map',growOrdered mem map=.done map' ()∧map'.used=map.used∧
      Lays keys map' entries (List.replicate 4 .null) := by
  have hused : map.used ≤ map.table.length := by
    rw [←h.alloc_eq]
    exact Nat.le_of_eq hfull
  refine ⟨_,if_pos hmem,rfl,h.ordered,?_,?_,h.used_eq,?_,h.qstrs,h.distinct⟩
  · show map.alloc+4=
      (map.table.take map.used++List.replicate (map.alloc+4-map.used) Elem.null).length
    rw [length_append,length_take_of_le hused,length_replicate]
    omega
  · have hsub : map.alloc+4-map.used=4 := by omega
    rw [h.take_used]
    exact congrArg (fun n => entries.map slotOf++List.replicate n .null) hsub
  · intro e he
    rw [eq_of_mem_replicate he]
    rfl

/-- An entry that is taken out leaves its value behind the others. -/
theorem lays_removeOrdered (h : Lays keys map entries room) {e : κ×Option ν}
    (he : entries[pos]?=some e) :
    Lays keys (removeOrdered map pos) (entries.eraseIdx pos) (⟨.empty,e.2⟩::room) := by
  obtain ⟨hlt,_⟩ := List.getElem?_eq_some_iff.mp he
  have htable : (removeOrdered map pos).table=
      (entries.eraseIdx pos).map slotOf++⟨.empty,e.2⟩::room := by
    rw [removeOrdered,h.take_used,h.drop_used,h.valueAt_eq he,eraseIdx_map]
  refine ⟨h.ordered,?_,htable,?_,?_,?_,?_⟩
  · rw [htable,length_append,length_map,length_eraseIdx_of_lt hlt,length_cons]
    have halloc := h.alloc_length
    show map.alloc=_
    omega
  · rw [length_eraseIdx_of_lt hlt,←h.used_eq]
    rfl
  · intro r hr
    cases mem_cons.mp hr with
    | inl heq =>
      rw [heq]
      rfl
    | inr hmem => exact h.free r hmem
  · exact fun hflag d hd => h.qstrs hflag d (mem_of_mem_eraseIdx hd)
  · exact h.distinct.sublist (eraseIdx_sublist entries pos)

/-- The value of an entry is written. -/
theorem lays_setValue (h : Lays keys map entries room)
    (hfind : entries.findIdx? (fun e => keys.same e.1 index)=some pos) (v : Option ν) :
    Lays keys (map.setValue pos v) (store keys.same entries index v) room := by
  obtain ⟨⟨e,he,_,hget⟩,hstore,_⟩ := get_of_findIdx? hfind v
  obtain ⟨hlt,_⟩ := List.getElem?_eq_some_iff.mp he
  have htable : (map.setValue pos v).table=(store keys.same entries index v).map slotOf++room := by
    rw [MpMap.setValue,h.table_eq,hstore]
    have hslot : ∀ a : κ×Option ν,({slotOf a with value := v} : Elem κ ν)=slotOf (a.1,v) :=
      fun _ => rfl
    exact modify_map_append hslot entries room hlt
  refine ⟨h.ordered,?_,htable,?_,h.free,fun hflag d hd => ?_,distinct_store h.distinct index v⟩
  · rw [MpMap.setValue,length_modify]
    exact h.alloc_eq
  · rw [hstore,length_modify]
    exact h.used_eq
  · cases key_of_mem_store d hd with
    | inl hnew =>
      rw [hget] at hnew
      cases hnew.2
    | inr hold =>
      obtain ⟨d',hd',heq⟩ := hold
      rw [←heq]
      exact h.qstrs hflag d' hd'

/-- The value that is left in the first free slot is written. -/
theorem lays_setValue_room (h : Lays keys map entries (r::room)) (v : Option ν) :
    Lays keys (map.setValue entries.length v) entries ({r with value := v}::room) := by
  have htable : (map.setValue entries.length v).table=
      entries.map slotOf++{r with value := v}::room := by
    rw [MpMap.setValue,h.table_eq,←length_map slotOf,modify_append_length]
    rfl
  refine ⟨h.ordered,?_,htable,h.used_eq,?_,h.qstrs,h.distinct⟩
  · rw [MpMap.setValue,length_modify]
    exact h.alloc_eq
  · intro e he
    cases mem_cons.mp he with
    | inl heq =>
      rw [heq]
      exact h.free r mem_cons_self
    | inr hmem => exact h.free e (mem_cons_of_mem r hmem)

theorem lays_clear (h : Lays keys map entries room) : Lays keys (mpMapClear map) [] [] := by
  refine ⟨h.ordered,rfl,rfl,rfl,?_,?_,List.Pairwise.nil⟩
  · exact fun e he => nomatch he
  · exact fun _ e he => nomatch he

end MicroPython.OrderedMap
