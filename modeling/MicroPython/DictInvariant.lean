import MicroPython.DictObject
import MicroPython.MapFaithful
import MicroPython.OrderedMap

/-!
# Dicts as association lists

The items of a dict are what its iterator gives. For a dict they are the entries of a finite
map, in any order; for an OrderedDict they are the association list itself. Whatever the
layout, a lookup finds the value of an item, one that adds stores a value, and one that removes
takes the item out.
-/

namespace MicroPython.DictInvariant

open OpenAddressing MapTable AssociationList HashedMap MapFaithful DictObject
open OrderedMap (Lays comparison_same slotOf)

variable {κ ν : Type}

/-! ## The items of a hash table -/

/-- The item of a slot. -/
theorem slotItem_eq_some {e : Elem κ ν} {k : κ} {v : Option ν} :
    slotItem e=some (k,v)↔e=⟨.full k,v⟩ := by
  obtain ⟨key,value⟩ := e
  cases key with
  | empty => exact iff_of_false (fun h => nomatch h) fun h => nomatch h
  | deleted => exact iff_of_false (fun h => nomatch h) fun h => nomatch h
  | full k' =>
    constructor
    · intro h
      cases h
      rfl
    · intro h
      cases h
      rfl

variable {map : MpMap κ ν}

/-- The items of a table that is as long as `alloc` says. -/
theorem dictItems_eq (h : map.alloc=map.table.length) :
    dictItems map=map.table.filterMap slotItem := by
  rw [dictItems,itemsFrom,List.drop_zero,h,List.take_length]

/-- A value that is written again changes nothing. -/
theorem setValue_valueAt (map : MpMap κ ν) (slot : ℕ) :
    map.setValue slot (map.valueAt slot)=map := by
  have htable : map.table.modify slot (fun e => {e with value := map.valueAt slot})=map.table := by
    refine List.ext_getElem? fun pos => ?_
    rw [List.getElem?_modify]
    cases hat : map.table[pos]? with
    | none => rfl
    | some e =>
      cases Decidable.em (slot=pos) with
      | inr hne => exact congrArg some (if_neg hne)
      | inl heq =>
        have hvalue : map.valueAt slot=e.value := by
          rw [MpMap.valueAt,List.getD_eq_getElem?_getD,heq,hat]
          rfl
        rw [hvalue]
        exact congrArg some (if_pos heq)
  rw [MpMap.setValue,htable]

theorem vacated_popitem {next : ℕ} (hnext : dictIterNext map 0=some next) :
    Vacated map (dictPopitem map).1 next .deleted := by
  rw [dictPopitem,hnext]
  refine ⟨rfl,rfl,rfl,rfl,List.map_set,fun pos hne => ?_⟩
  rw [slotAt,slotAt,List.getD_eq_getElem?_getD,List.getD_eq_getElem?_getD,List.getElem?_set_ne hne]

variable [DecidableEq κ] {keys : Keys κ}

theorem distinct_dictItems (h : Represents keys map) : Distinct keys.same (dictItems map) := by
  rw [dictItems_eq h.alloc_eq]
  refine List.Pairwise.filterMap slotItem (fun e e' hdiffer => ?_) (keysDiffer_table h)
  rintro ⟨k,v⟩ hitem ⟨k',v'⟩ hitem'
  rw [slotItem_eq_some] at hitem hitem'
  exact hdiffer k k' (by rw [hitem]) (by rw [hitem'])

/-- A hash table holds its items. -/
theorem models_dictItems (h : Represents keys map) :
    Models keys map (get keys.same (dictItems map)) := by
  refine ⟨h,fun x v => ?_⟩
  rw [holds_iff_elem]
  constructor
  · rintro ⟨e,he,k,heq,hsame⟩
    have hmem : (k,v)∈dictItems map := by
      rw [dictItems_eq h.alloc_eq]
      exact List.mem_filterMap.mpr ⟨e,he,slotItem_eq_some.mpr heq⟩
    exact get_of_mem (comparison_same keys) (distinct_dictItems h) _ hmem x hsame
  · intro hget
    obtain ⟨⟨k,w⟩,hitem,hsame,hvalue⟩ := exists_of_get hget
    rw [dictItems_eq h.alloc_eq] at hitem
    obtain ⟨e,he,heq⟩ := List.mem_filterMap.mp hitem
    cases hvalue
    exact ⟨e,he,k,slotItem_eq_some.mp heq,hsame⟩

theorem get_of_models {c : Content κ ν} (h : Models keys map c) (x : κ) :
    get keys.same (dictItems map) x=c x := by
  refine Option.ext fun v => ?_
  rw [←(models_dictItems h.represents).holds x v,h.holds]

theorem used_dictItems (h : Represents keys map) : map.used=(dictItems map).length := by
  rw [dictItems_eq h.alloc_eq,h.used_eq,count,MpMap.cells,List.countP_map,
    List.length_filterMap_eq_countP]
  refine List.countP_congr fun e _ => ?_
  obtain ⟨key,value⟩ := e
  cases key with
  | empty => exact Iff.rfl
  | deleted => exact Iff.rfl
  | full k => exact Iff.rfl

/-! ## The items of an ordered array -/

variable {room : List (Elem κ ν)} {d : MpObjDict κ ν} {items : List (κ×Option ν)}

/-- The items of an ordered array are its entries. -/
theorem dictItems_lays {entries : List (κ×Option ν)}
    (h : Lays keys map entries room) : dictItems map=entries := by
  have hroom : room.filterMap slotItem=[] := by
    refine List.filterMap_eq_nil_iff.mpr fun e he => ?_
    have hfree := h.free e he
    obtain ⟨key,value⟩ := e
    cases key with
    | empty => rfl
    | deleted => rfl
    | full k => cases hfree
  have hentries : (entries.map slotOf).filterMap slotItem=entries := by
    rw [List.filterMap_map]
    exact List.filterMap_some
  rw [dictItems_eq h.alloc_eq,h.table_eq,List.filterMap_append,hentries,hroom,List.append_nil]

/-! ## Dicts -/

/-- Items are alike: the same finite map, and the same list where the order counts. -/
structure Alike (keys : Keys κ) (type : DictType) (items items' : List (κ×Option ν)) : Prop where
  order : type=.ordereddict → items=items'
  values : ∀ x,get keys.same items x=get keys.same items' x

/-- A dict is as it should be. -/
inductive Good (keys : Keys κ) : MpObjDict κ ν→Prop
  /-- A dict has a hash table, with a value for each key. -/
  | dict {map : MpMap κ ν} (represents : Represents keys map)
    (valued : ∀ x v,Holds keys map x v → v≠none) : Good keys ⟨.dict,map⟩
  /-- An OrderedDict has an ordered array, with a value for each key and none behind them. -/
  | ordereddict {map : MpMap κ ν} {items : List (κ×Option ν)} {room : List (Elem κ ν)}
    (lays : Lays keys map items room) (valued : ∀ e∈items,e.2≠none)
    (cleared : ∀ e∈room,e.value=none) : Good keys ⟨.ordereddict,map⟩

/-- Items are like themselves. -/
theorem Alike.refl (keys : Keys κ) (type : DictType) (items : List (κ×Option ν)) :
    Alike keys type items items := ⟨fun _ => rfl,fun _ => rfl⟩

theorem Good.distinct (h : Good keys d) : Distinct keys.same (dictItems d.map) := by
  cases h with
  | dict hrepresents _ => exact distinct_dictItems hrepresents
  | ordereddict hlays _ _ =>
    rw [dictItems_lays hlays]
    exact hlays.distinct

theorem Good.used_eq (h : Good keys d) : d.map.used=(dictItems d.map).length := by
  cases h with
  | dict hrepresents _ => exact used_dictItems hrepresents
  | ordereddict hlays _ _ =>
    rw [dictItems_lays hlays]
    exact hlays.used_eq

theorem Good.valued (h : Good keys d) (x : κ) : get keys.same (dictItems d.map) x≠some none := by
  intro hget
  cases h with
  | dict hrepresents hvalued =>
    exact hvalued x none (((models_dictItems hrepresents).holds x none).mpr hget) rfl
  | ordereddict hlays hvalued _ =>
    rw [dictItems_lays hlays] at hget
    obtain ⟨e,he,_,hnone⟩ := exists_of_get hget
    exact hvalued e he hnone

/-! ## Lookups -/

/-- A lookup finds the value of an item. -/
theorem Good.lookup (h : Good keys d) (depth : ℕ) (k : κ) :
    ∃ slot,mpMapLookup keys plenty (depth+2) d.map k .lookup=.done d.map slot∧
      slot.map d.map.valueAt=get keys.same (dictItems d.map) k := by
  have hkind : LookupKind.lookup≠.addIfNotFound := by decide
  cases h with
  | dict hrepresents _ =>
    have hmodels := models_dictItems hrepresents
    cases @absent_or_found _ _ keys _ _ k with
    | inl habsent =>
      refine ⟨none,mpMapLookup_absent hrepresents habsent hkind plenty (depth+1),?_⟩
      rw [hmodels.eq_none habsent]
      rfl
    | inr hfound =>
      obtain ⟨pos,k',hk,hsame⟩ := hfound
      refine ⟨some pos,mpMapLookup_found hrepresents hk hsame plenty _ (depth+1),?_⟩
      rw [hmodels.eq_value hk hsame]
      rfl
  | @ordereddict map items room hlays _ _ =>
    rw [dictItems_lays hlays]
    cases hfind : items.findIdx? fun e => keys.same e.1 k with
    | none =>
      have habsent := findIdx?_eq_none.mp hfind
      refine ⟨none,OrderedMap.mpMapLookup_absent hlays habsent hkind plenty (depth+1),?_⟩
      rw [habsent]
      rfl
    | some pos =>
      obtain ⟨⟨e,he,_,hget⟩,_,_⟩ := get_of_findIdx? hfind none
      refine ⟨some pos,OrderedMap.mpMapLookup_found hlays hfind _ plenty (depth+1),?_⟩
      rw [hget,←hlays.valueAt_eq he]
      rfl

/-- What a lookup that adds does to the items of a dict. -/
structure AddsItem (keys : Keys κ) (type : DictType) (items : List (κ×Option ν))
    (map' : MpMap κ ν) (k : κ) (slot : ℕ) : Prop where
  value_eq : map'.valueAt slot=(get keys.same items k).getD none
  stores : ∀ v : ν,Good keys ⟨type,map'.setValue slot (some v)⟩∧
    Alike keys type (dictItems (map'.setValue slot (some v))) (store keys.same items k (some v))

/-- A value is stored where one was, and every key still has one. -/
theorem valued_store (h : ∀ e∈items,e.2≠none) (k : κ) (v : ν) :
    ∀ e∈store keys.same items k (some v),e.2≠none := by
  induction items with
  | nil =>
    intro e he
    rw [List.mem_singleton.mp he]
    exact fun hnone => by cases hnone
  | cons d ds ih =>
    intro e he
    rw [store] at he
    split at he
    case isTrue hk =>
      cases List.mem_cons.mp he with
      | inl heq =>
        rw [heq]
        exact fun hnone => by cases hnone
      | inr hmem => exact h e (List.mem_cons_of_mem d hmem)
    case isFalse hk =>
      cases List.mem_cons.mp he with
      | inl heq =>
        rw [heq]
        exact h d List.mem_cons_self
      | inr hmem => exact ih (fun e he => h e (List.mem_cons_of_mem d he)) e hmem

/-- A lookup adds a key to an ordered array that has room. -/
theorem addsItem_room {r : Elem κ ν}
    (h : Lays keys map items (r::room)) (hvalued : ∀ e∈items,e.2≠none)
    (hcleared : ∀ e∈r::room,e.value=none) {k : κ} (habsent : get keys.same items k=none) :
    AddsItem keys .ordereddict items (addOrdered keys map k) k map.used := by
  have hadded := OrderedMap.lays_addOrdered h habsent
  have hat : (items++[(k,r.value)])[map.used]?=some (k,r.value) := by
    rw [h.used_eq]
    exact List.getElem?_concat_length
  constructor
  · rw [habsent,hadded.valueAt_eq hat]
    exact hcleared r List.mem_cons_self
  · intro v
    have hself := same_refl keys k
    have hstored := OrderedMap.lays_setValue hadded (findIdx?_concat habsent hself r.value) (some v)
    rw [←h.used_eq,←store_of_none habsent,store_store hself] at hstored
    refine ⟨.ordereddict hstored (valued_store hvalued k v) fun e he =>
      hcleared e (List.mem_cons_of_mem r he),?_⟩
    rw [dictItems_lays hstored]
    exact Alike.refl keys _ _

/-- A lookup that adds stores a value in the items of a hash table. -/
theorem add_dict (h : Represents keys map)
    (hvalued : ∀ x v,Holds keys map x v → v≠none) (depth : ℕ) (k : κ) :
    ∃ map' slot,mpMapLookup keys plenty (depth+2) map k .addIfNotFound=.done map' (some slot)∧
      AddsItem keys .dict (dictItems map) map' k slot := by
  have hmodels := models_dictItems h
  obtain ⟨map',slot,hlookup,hvalue,hstores⟩ := mpMapLookup_adds hmodels depth k
  refine ⟨map',slot,hlookup,hvalue,fun v => ⟨.dict (hstores (some v)).represents ?_,
    (fun h => nomatch h),fun x => ?_⟩⟩
  · intro x w hholds hnone
    have hw := ((hstores (some v)).holds x w).mp hholds
    rw [hnone] at hw
    split at hw
    case isTrue => cases hw
    case isFalse => exact hvalued x none ((hmodels.holds x none).mpr hw) rfl
  · rw [get_of_models (hstores (some v)),get_store (comparison_same keys)]

/-- A lookup that adds stores a value in the items of an ordered array. -/
theorem add_ordereddict (h : Lays keys map items room) (hvalued : ∀ e∈items,e.2≠none)
    (hcleared : ∀ e∈room,e.value=none) (depth : ℕ) (k : κ) :
    ∃ map' slot,mpMapLookup keys plenty (depth+2) map k .addIfNotFound=.done map' (some slot)∧
      AddsItem keys .ordereddict items map' k slot := by
  cases hfind : items.findIdx? fun e => keys.same e.1 k with
  | some pos =>
    obtain ⟨⟨e,he,_,hget⟩,_,_⟩ := get_of_findIdx? hfind none
    refine ⟨map,pos,OrderedMap.mpMapLookup_found h hfind _ plenty (depth+1),?_,fun v => ?_⟩
    · rw [hget,h.valueAt_eq he]
      rfl
    · have hstored := OrderedMap.lays_setValue h hfind (some v)
      refine ⟨.ordereddict hstored (valued_store hvalued k v) hcleared,?_⟩
      rw [dictItems_lays hstored]
      exact Alike.refl keys _ _
  | none =>
    have habsent := findIdx?_eq_none.mp hfind
    have hlookup := OrderedMap.mpMapLookup_new h habsent plenty (depth+1)
    cases Decidable.em (map.used=map.alloc) with
    | inl hfull =>
      obtain ⟨larger,hgrow,_,hlarger⟩ :=
        @OrderedMap.growOrdered_full _ _ _ keys map items room h hfull plenty rfl
      rw [if_pos hfull,hgrow] at hlookup
      refine ⟨_,_,hlookup,addsItem_room hlarger hvalued (fun e he => ?_) habsent⟩
      have hmem : e∈List.replicate 4 Elem.null := he
      rw [List.eq_of_mem_replicate hmem]
      rfl
    | inr hroom =>
      rw [if_neg hroom] at hlookup
      refine ⟨_,_,hlookup,?_⟩
      cases room with
      | nil =>
        have halloc := h.alloc_length
        rw [List.length_nil,←h.used_eq] at halloc
        exact absurd halloc.symm hroom
      | cons r room => exact addsItem_room h hvalued hcleared habsent

theorem Good.add (h : Good keys d) (depth : ℕ) (k : κ) :
    ∃ map' slot,mpMapLookup keys plenty (depth+2) d.map k .addIfNotFound=.done map' (some slot)∧
      AddsItem keys d.type (dictItems d.map) map' k slot := by
  cases h with
  | dict hrepresents hvalued => exact add_dict hrepresents hvalued depth k
  | ordereddict hlays hvalued hcleared =>
    rw [dictItems_lays hlays]
    exact add_ordereddict hlays hvalued hcleared depth k

/-- What a lookup that removes does to the items of a dict. -/
structure RemovesItem (keys : Keys κ) (type : DictType) (items : List (κ×Option ν))
    (map' : MpMap κ ν) (k : κ) (slot : ℕ) : Prop where
  value_eq : get keys.same items k=some (map'.valueAt slot)
  good : Good keys ⟨type,map'.setValue slot none⟩
  /-- The other items are still there. -/
  alike : Alike keys type (dictItems (map'.setValue slot none)) (erase keys.same items k)

/-- What is in a slot without a key is not held. -/
theorem holds_setValue_free {slot : ℕ}
    (hfree : (cellAt map.cells slot).isFull=false) (w : Option ν) (x : κ) (v : Option ν) :
    Holds keys (map.setValue slot w) x v↔Holds keys map x v := by
  have hother : ∀ {pos k},cellAt map.cells pos=.full k → slot≠pos := by
    rintro pos k hk rfl
    rw [hk] at hfree
    cases hfree
  have hslotAt : ∀ pos,slot≠pos → slotAt (map.setValue slot w) pos=slotAt map pos := by
    intro pos hne
    rw [slotAt,MpMap.setValue,List.getD_eq_getElem?_getD,List.getElem?_modify,slotAt,
      List.getD_eq_getElem?_getD]
    cases map.table[pos]? with
    | none => rfl
    | some e => exact if_neg hne
  constructor
  · rintro ⟨pos,k,hat,hsame⟩
    have hkey : cellAt (map.setValue slot w).cells pos=.full k := by rw [cellAt_cells,hat]
    rw [cells_setValue] at hkey
    rw [hslotAt pos (hother hkey)] at hat
    exact ⟨pos,k,hat,hsame⟩
  · rintro ⟨pos,k,hat,hsame⟩
    have hkey : cellAt map.cells pos=.full k := by rw [cellAt_cells,hat]
    exact ⟨pos,k,(hslotAt pos (hother hkey)).trans hat,hsame⟩

/-- A lookup that removes takes an item out of a hash table. -/
theorem remove_dict (h : Represents keys map)
    (hvalued : ∀ x v,Holds keys map x v → v≠none) (depth : ℕ) (k : κ) :
    (get keys.same (dictItems map) k=none∧
      mpMapLookup keys plenty (depth+2) map k .removeIfFound=.done map none)∨
      ∃ map' slot,mpMapLookup keys plenty (depth+2) map k .removeIfFound=.done map' (some slot)∧
        RemovesItem keys .dict (dictItems map) map' k slot := by
  have hmodels := models_dictItems h
  cases mpMapLookup_removes hmodels depth k with
  | inl habsent => exact .inl habsent
  | inr hfound =>
    obtain ⟨map',slot,hlookup,hremoves⟩ := hfound
    have hcleared : Models keys (map'.setValue slot none) fun x =>
        if keys.same k x then none else get keys.same (dictItems map) x :=
      ⟨represents_setValue hremoves.models.represents slot none,fun x v =>
        (holds_setValue_free hremoves.free none x v).trans (hremoves.models.holds x v)⟩
    refine .inr ⟨map',slot,hlookup,hremoves.value_eq,.dict hcleared.represents ?_,
      (fun h => nomatch h),fun x => ?_⟩
    · intro x v hholds hnone
      have hv := (hcleared.holds x v).mp hholds
      rw [hnone] at hv
      split at hv
      case isTrue => cases hv
      case isFalse => exact hvalued x none ((hmodels.holds x none).mpr hv) rfl
    · rw [get_of_models hcleared,get_erase (comparison_same keys) (distinct_dictItems h)]

/-- A lookup that removes takes an item out of an ordered array. -/
theorem remove_ordereddict (h : Lays keys map items room) (hvalued : ∀ e∈items,e.2≠none)
    (hcleared : ∀ e∈room,e.value=none) (depth : ℕ) (k : κ) :
    (get keys.same items k=none∧
      mpMapLookup keys plenty (depth+2) map k .removeIfFound=.done map none)∨
      ∃ map' slot,mpMapLookup keys plenty (depth+2) map k .removeIfFound=.done map' (some slot)∧
        RemovesItem keys .ordereddict items map' k slot := by
  cases hfind : items.findIdx? fun e => keys.same e.1 k with
  | none =>
    have habsent := findIdx?_eq_none.mp hfind
    have hkind : LookupKind.removeIfFound≠.addIfNotFound := by decide
    exact .inl ⟨habsent,OrderedMap.mpMapLookup_absent h habsent hkind plenty (depth+1)⟩
  | some pos =>
    obtain ⟨⟨e,he,_,hget⟩,_,herase⟩ := get_of_findIdx? hfind none
    have hremoved := OrderedMap.lays_removeOrdered h he
    obtain ⟨hlt,_⟩ := List.getElem?_eq_some_iff.mp he
    have hslot : map.used-1=(items.eraseIdx pos).length := by
      rw [List.length_eraseIdx_of_lt hlt,h.used_eq]
    have hset := OrderedMap.lays_setValue_room hremoved none
    rw [←hslot] at hset
    refine .inr ⟨_,_,OrderedMap.mpMapLookup_found h hfind _ plenty (depth+1),?_,
      .ordereddict hset (fun d hd => hvalued d (List.mem_of_mem_eraseIdx hd)) ?_,?_⟩
    · rw [hget,hslot,hremoved.valueAt_room]
    · intro r hr
      cases List.mem_cons.mp hr with
      | inl heq => rw [heq]
      | inr hmem => exact hcleared r hmem
    · rw [dictItems_lays hset,herase]
      exact Alike.refl keys _ _

theorem Good.remove (h : Good keys d) (depth : ℕ) (k : κ) :
    (get keys.same (dictItems d.map) k=none∧
      mpMapLookup keys plenty (depth+2) d.map k .removeIfFound=.done d.map none)∨
      ∃ map' slot,mpMapLookup keys plenty (depth+2) d.map k .removeIfFound=.done map' (some slot)∧
          RemovesItem keys d.type (dictItems d.map) map' k slot := by
  cases h with
  | dict hrepresents hvalued => exact remove_dict hrepresents hvalued depth k
  | ordereddict hlays hvalued hcleared =>
    rw [dictItems_lays hlays]
    exact remove_ordereddict hlays hvalued hcleared depth k

end MicroPython.DictInvariant
