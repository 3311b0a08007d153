import MicroPython.MapTable

/-!
# Maps that are hash tables

The slots of a hash table are in the order that open addressing asks for, the
number of its keys is counted and the flag of the keys is right. Every lookup
keeps this, every search ends, and what a map holds afterwards is what it held
before but for the key of the lookup. A table that is made larger holds the same.
-/

namespace MicroPython.HashedMap

open OpenAddressing MapTable

variable {κ ν : Type} {keys : Keys κ}

/-! ## Slots -/

/-- A slot of a map. -/
def slotAt (map : MpMap κ ν) (pos : ℕ) : Elem κ ν := map.table.getD pos .null

variable (map : MpMap κ ν) (slot : ℕ)

theorem cellAt_cells (pos : ℕ) : cellAt map.cells pos=(slotAt map pos).key := by
  rw [cellAt,slotAt,MpMap.cells,List.getD_eq_getElem?_getD,List.getD_eq_getElem?_getD,
    List.getElem?_map]
  cases map.table[pos]? <;> rfl

/-- There are as many keys as slots. -/
theorem length_cells : map.cells.length=map.table.length := List.length_map _

variable {map : MpMap κ ν}

/-- An index was put into a slot. -/
theorem slotAt_addAt {slot : ℕ} (hslot : slot < map.table.length) (k : κ) (pos : ℕ) :
    slotAt (addAt keys map slot k) pos=if slot=pos then ⟨.full k,none⟩ else slotAt map pos := by
  rw [slotAt,addAt,List.getD_eq_getElem?_getD,List.getElem?_set,if_pos hslot]
  split
  · rfl
  · rw [slotAt,List.getD_eq_getElem?_getD]

/-- A value was put into a slot. -/
theorem slotAt_setValue {slot : ℕ} (hslot : slot < map.table.length) (v : Option ν) (pos : ℕ) :
    slotAt (map.setValue slot v) pos=
      if slot=pos then ⟨(slotAt map pos).key,v⟩ else slotAt map pos := by
  rw [slotAt,MpMap.setValue,List.getD_eq_getElem?_getD,List.getElem?_modify]
  split
  case isTrue heq =>
    rw [slotAt,List.getD_eq_getElem?_getD,←heq,List.getElem?_eq_getElem hslot]
    rfl
  case isFalse hne =>
    rw [slotAt,List.getD_eq_getElem?_getD]
    cases map.table[pos]? <;> rfl

/-- A key was taken out of a slot. -/
theorem slotAt_removeAt {slot : ℕ} (hslot : slot < map.table.length) (pos : ℕ) :
    slotAt (removeAt map slot) pos=
      if slot=pos then ⟨vacated map.cells map.alloc slot,(slotAt map pos).value⟩
      else slotAt map pos := by
  rw [slotAt,removeAt,List.getD_eq_getElem?_getD,List.getElem?_modify]
  split
  case isTrue heq =>
    rw [slotAt,List.getD_eq_getElem?_getD,←heq,List.getElem?_eq_getElem hslot]
    rfl
  case isFalse hne =>
    rw [slotAt,List.getD_eq_getElem?_getD]
    cases map.table[pos]? <;> rfl

theorem cells_addAt (k : κ) :
    (addAt keys map slot k).cells=map.cells.set slot (.full k) := List.map_set

/-- A new value changes no keys. -/
theorem cells_setValue (v : Option ν) :
    (map.setValue slot v).cells=map.cells := by
  refine List.ext_getElem? fun pos => ?_
  rw [MpMap.cells,MpMap.cells,MpMap.setValue,List.getElem?_map,List.getElem?_map,
    List.getElem?_modify]
  cases map.table[pos]? with
  | none => rfl
  | some e => split <;> rfl

/-- The keys after one was taken out. -/
theorem cells_removeAt (map : MpMap κ ν) (slot : ℕ) :
    (removeAt map slot).cells=map.cells.set slot (vacated map.cells map.alloc slot) := by
  refine List.ext_getElem? fun pos => ?_
  rw [MpMap.cells,removeAt,List.getElem?_map,List.getElem?_modify,List.getElem?_set,
    MpMap.cells,List.length_map,List.getElem?_map]
  split
  case isTrue heq =>
    rw [heq]
    cases Nat.lt_or_ge pos map.table.length with
    | inl hlt =>
      rw [List.getElem?_eq_getElem hlt,if_pos hlt]
      rfl
    | inr hge =>
      rw [List.getElem?_eq_none hge,if_neg (Nat.not_lt.mpr hge)]
      rfl
  case isFalse hne => cases map.table[pos]? <;> rfl

/-- A slot of a map has no key any more. -/
structure Vacated (map map' : MpMap κ ν) (slot : ℕ) (c : Cell κ) : Prop where
  flag_eq : map'.allKeysAreQstrs=map.allKeysAreQstrs
  /-- It is a hash table or not, as before. -/
  ordered_eq : map'.isOrdered=map.isOrdered
  /-- It has one key less. -/
  used_eq : map'.used=map.used-1
  /-- It has as many slots. -/
  alloc_eq : map'.alloc=map.alloc
  /-- The key is gone. -/
  cells_eq : map'.cells=map.cells.set slot c
  others : ∀ pos,slot≠pos → slotAt map' pos=slotAt map pos

/-- A key is taken out of its slot. -/
theorem vacated_removeAt {slot : ℕ} (hslot : slot < map.table.length) :
    Vacated map (removeAt map slot) slot (vacated map.cells map.alloc slot) := by
  refine ⟨rfl,rfl,rfl,rfl,cells_removeAt map slot,fun pos hne => ?_⟩
  rw [slotAt_removeAt hslot,if_neg hne]

/-! ## Keys -/

theorem absent_of_not_self {cells : List (Cell κ)} {k : κ} (hself : ¬keys.equal k k=true) :
    Absent keys.equal cells k := by
  intro pos k' _
  cases hequal : keys.equal k' k with
  | false => rfl
  | true => exact absurd (keys.equal_trans (keys.equal_symm hequal) hequal) hself

variable [DecidableEq κ] (keys)
/-- The comparison of keys is that of open addressing. -/
theorem laws_same : KeyLaws keys.hash keys.same := by
  constructor
  · intro a b h
    rw [Keys.same,Bool.or_eq_true,decide_eq_true_iff] at h ⊢
    exact h.imp Eq.symm keys.equal_symm
  · intro a b c hab hbc
    rw [Keys.same,Bool.or_eq_true,decide_eq_true_iff] at hab hbc ⊢
    cases hab with
    | inl hab =>
      rw [hab]
      exact hbc
    | inr hab =>
      cases hbc with
      | inl hbc =>
        rw [←hbc]
        exact .inr hab
      | inr hbc => exact .inr (keys.equal_trans hab hbc)
  · intro a b h
    rw [Keys.same,Bool.or_eq_true,decide_eq_true_iff] at h
    cases h with
    | inl h => rw [h]
    | inr h => exact keys.hash_eq h

/-- An object is the same as itself. -/
theorem same_refl (k : κ) : keys.same k k=true := by
  rw [Keys.same,decide_eq_true rfl,Bool.true_or]

/-! ## What a map holds -/

/-- A map holds a value for a key. -/
def Holds (map : MpMap κ ν) (x : κ) (v : Option ν) : Prop :=
  ∃ pos k,slotAt map pos=⟨.full k,v⟩∧keys.same k x=true

/-- No key of the map is the same. -/
theorem absent_iff (map : MpMap κ ν) (x : κ) :
    Absent keys.same map.cells x↔∀ v,¬Holds keys map x v := by
  constructor
  · rintro h v ⟨pos,k,hslot,hsame⟩
    have hfalse := h pos k (by rw [cellAt_cells,hslot])
    rw [hsame] at hfalse
    cases hfalse
  · intro h pos k hk
    rw [cellAt_cells] at hk
    cases hsame : keys.same k x with
    | false => rfl
    | true =>
      refine absurd ⟨pos,k,?_,hsame⟩ (h (slotAt map pos).value)
      rw [←hk]

/-- A hash table is as it should be. -/
structure Represents (map : MpMap κ ν) : Prop where
  unordered : map.isOrdered=false
  /-- `alloc` is the number of slots. -/
  alloc_eq : map.alloc=map.table.length
  /-- `used` is the number of keys. -/
  used_eq : map.used=count map.cells
  /-- The flag of the keys is right. -/
  qstrs : map.allKeysAreQstrs=true → ∀ pos k,cellAt map.cells pos=.full k → keys.isQstr k=true
  /-- The keys are where a search finds them. -/
  proper : Proper keys.hash keys.same map.cells

variable {keys}

/-- The cells of a map are as many as `alloc` says. -/
theorem Represents.length_eq (h : Represents keys map) :
    map.cells.length=map.alloc := (length_cells map).trans h.alloc_eq.symm

/-- A new map. -/
theorem represents_init (n : ℕ) : Represents keys (mpMapInit n : MpMap κ ν) := by
  have hcells : (mpMapInit n : MpMap κ ν).cells=List.replicate n .empty := List.map_replicate
  constructor
  · rfl
  · exact (List.length_replicate).symm
  · rw [hcells,count_replicate]
    rfl
  · intro _ pos k hk
    rw [hcells,cellAt,List.getD_eq_getElem?_getD,List.getElem?_replicate] at hk
    split at hk <;> cases hk
  · rw [hcells]
    exact proper_replicate keys.hash keys.same n

theorem represents_clear (h : Represents keys map) : Represents keys (mpMapClear map) := by
  constructor
  · exact h.unordered
  · rfl
  · rfl
  · exact fun _ _ _ hk => nomatch hk
  · exact proper_replicate keys.hash keys.same 0

theorem holds_unique (h : Represents keys map) {x : κ} {v w : Option ν}
    (hv : Holds keys map x v) (hw : Holds keys map x w) : v=w := by
  obtain ⟨pos,k,hslot,hsame⟩ := hv
  obtain ⟨pos',k',hslot',hsame'⟩ := hw
  have laws := laws_same keys
  have hpos := h.proper.distinct (by rw [cellAt_cells,hslot]) (by rw [cellAt_cells,hslot'])
    (laws.trans hsame (laws.symm hsame'))
  rw [hpos,hslot'] at hslot
  cases hslot
  rfl

/-! ## Adding and removing -/

variable {k : κ}

/-- An index goes into a free slot on its way. -/
theorem represents_addAt (h : Represents keys map) {slot : ℕ}
    (hreach : Reached map.cells (keys.hash k%map.cells.length) slot)
    (hfree : (cellAt map.cells slot).isFull=false) (habsent : Absent keys.same map.cells k) :
    Represents keys (addAt keys map slot k) := by
  have hslot := hreach.lt
  constructor
  · exact h.unordered
  · rw [addAt,List.length_set]
    exact h.alloc_eq
  · rw [cells_addAt,count_insert hslot hfree,addAt,h.used_eq]
  · intro hflag pos k' hk'
    rw [addAt,stillQstrs] at hflag
    split at hflag
    case isFalse hk => cases hflag
    case isTrue hk =>
      rw [cells_addAt] at hk'
      cases Decidable.em (slot=pos) with
      | inl heq =>
        rw [←heq,cellAt_set_self hslot] at hk'
        cases hk'
        exact hk
      | inr hne =>
        rw [cellAt_set_ne hne] at hk'
        exact h.qstrs hflag pos k' hk'
  · rw [cells_addAt]
    exact proper_insert (laws_same keys) h.proper hreach habsent

/-- What a map holds after an index was added. -/
theorem holds_addAt {slot : ℕ} (hslot : slot < map.cells.length)
    (hfree : (cellAt map.cells slot).isFull=false) (x : κ) (v : Option ν) :
    Holds keys (addAt keys map slot k) x v↔(keys.same k x=true∧v=none)∨Holds keys map x v := by
  rw [length_cells] at hslot
  constructor
  · rintro ⟨pos,k',hat,hsame⟩
    rw [slotAt_addAt hslot] at hat
    split at hat
    case isTrue heq =>
      cases hat
      exact .inl ⟨hsame,rfl⟩
    case isFalse hne => exact .inr ⟨pos,k',hat,hsame⟩
  · intro h
    cases h with
    | inl hnew =>
      refine ⟨slot,k,?_,hnew.1⟩
      rw [slotAt_addAt hslot,if_pos rfl,hnew.2]
    | inr hold =>
      obtain ⟨pos,k',hat,hsame⟩ := hold
      refine ⟨pos,k',?_,hsame⟩
      rw [slotAt_addAt hslot]
      refine (if_neg ?_).trans hat
      rintro rfl
      rw [cellAt_cells,hat] at hfree
      cases hfree

/-- A new value keeps the order of the slots. -/
theorem represents_setValue (h : Represents keys map) (slot : ℕ)
    (v : Option ν) : Represents keys (map.setValue slot v) := by
  constructor
  · exact h.unordered
  · rw [MpMap.setValue,List.length_modify]
    exact h.alloc_eq
  · rw [cells_setValue]
    exact h.used_eq
  · rw [cells_setValue]
    exact h.qstrs
  · rw [cells_setValue]
    exact h.proper

/-- What a map holds after a value was put into the slot of a key. -/
theorem holds_setValue (h : Represents keys map) {slot : ℕ}
    (hk : cellAt map.cells slot=.full k) (w : Option ν) (x : κ) (v : Option ν) :
    Holds keys (map.setValue slot w) x v↔
      (keys.same k x=true∧v=w)∨(keys.same k x=false∧Holds keys map x v) := by
  have hslot : slot < map.table.length := length_cells map▸lt_of_full hk
  have hkey : (slotAt map slot).key=.full k := (cellAt_cells map slot).symm.trans hk
  have laws := laws_same keys
  constructor
  · rintro ⟨pos,k',hat,hsame⟩
    rw [slotAt_setValue hslot] at hat
    split at hat
    case isTrue heq =>
      rw [←heq,hkey] at hat
      cases hat
      exact .inl ⟨hsame,rfl⟩
    case isFalse hne =>
      refine .inr ⟨?_,pos,k',hat,hsame⟩
      cases hkx : keys.same k x with
      | false => rfl
      | true =>
        refine absurd (h.proper.distinct hk ?_ (laws.trans hkx (laws.symm hsame))) hne
        rw [cellAt_cells,hat]
  · intro hor
    cases hor with
    | inl hnew =>
      refine ⟨slot,k,?_,hnew.1⟩
      rw [slotAt_setValue hslot,if_pos rfl,hkey,hnew.2]
    | inr hold =>
      obtain ⟨hkx,pos,k',hat,hsame⟩ := hold
      refine ⟨pos,k',?_,hsame⟩
      rw [slotAt_setValue hslot]
      refine (if_neg ?_).trans hat
      rintro rfl
      rw [hat] at hkey
      cases hkey
      rw [hkx] at hsame
      cases hsame

/-- A map of which a key was taken out is as it should be. -/
theorem Vacated.represents {map' : MpMap κ ν} {slot : ℕ} {c : Cell κ}
    (hv : Vacated map map' slot c) (h : Represents keys map)
    (hk : cellAt map.cells slot=.full k) (hc : Vacates map.cells slot c) :
    Represents keys map' := by
  have hlength := congrArg List.length hv.cells_eq
  rw [List.length_set,length_cells,length_cells] at hlength
  constructor
  · exact hv.ordered_eq.trans h.unordered
  · rw [hv.alloc_eq,hlength]
    exact h.alloc_eq
  · have hcount := count_remove hk hc.isFull_eq
    rw [hv.used_eq,hv.cells_eq,h.used_eq]
    omega
  · intro hflag pos k' hk'
    rw [hv.flag_eq] at hflag
    rw [hv.cells_eq] at hk'
    exact h.qstrs hflag pos k' (cellAt_set_full hc.isFull_eq hk').2
  · rw [hv.cells_eq]
    exact proper_remove h.proper hk hc

/-- What a map holds after a key was taken out. -/
theorem Vacated.holds {map' : MpMap κ ν} {slot : ℕ} {c : Cell κ}
    (hv : Vacated map map' slot c) (h : Represents keys map)
    (hk : cellAt map.cells slot=.full k) (hc : c.isFull=false) (x : κ) (v : Option ν) :
    Holds keys map' x v↔keys.same k x=false∧Holds keys map x v := by
  have laws := laws_same keys
  constructor
  · rintro ⟨pos,k',hat,hsame⟩
    have hkey : cellAt map'.cells pos=.full k' := by rw [cellAt_cells,hat]
    rw [hv.cells_eq] at hkey
    obtain ⟨hne,hold⟩ := cellAt_set_full hc hkey
    rw [hv.others pos hne] at hat
    refine ⟨?_,pos,k',hat,hsame⟩
    cases hkx : keys.same k x with
    | false => rfl
    | true =>
      exact absurd (h.proper.distinct hk hold (laws.trans hkx (laws.symm hsame))) hne
  · rintro ⟨hkx,pos,k',hat,hsame⟩
    refine ⟨pos,k',?_,hsame⟩
    rw [hv.others pos]
    · exact hat
    · rintro rfl
      rw [cellAt_cells,hat] at hk
      cases hk
      rw [hkx] at hsame
      cases hsame

theorem represents_removeAt (h : Represents keys map) {slot : ℕ}
    (hk : cellAt map.cells slot=.full k) : Represents keys (removeAt map slot) := by
  have hslot : slot < map.table.length := length_cells map▸lt_of_full hk
  have hc := vacates_vacated map.cells slot
  rw [h.length_eq] at hc
  exact (vacated_removeAt hslot).represents h hk hc

theorem holds_removeAt (h : Represents keys map) {slot : ℕ}
    (hk : cellAt map.cells slot=.full k) (x : κ) (v : Option ν) :
    Holds keys (removeAt map slot) x v↔keys.same k x=false∧Holds keys map x v := by
  have hslot : slot < map.table.length := length_cells map▸lt_of_full hk
  have hc := vacates_vacated map.cells slot
  rw [h.length_eq] at hc
  exact (vacated_removeAt hslot).holds h hk hc.isFull_eq x v

/-! ## The search -/

variable {comparePtrs : Bool} {index : κ}

variable {kind : LookupKind}

/-- The fast comparison is enough when it is chosen. -/
theorem matching_eq_same (hq : map.allKeysAreQstrs=true → keys.isQstr k=true)
    (hptrs : compareOnlyPtrs keys map index kind=some comparePtrs) :
    keys.matching comparePtrs index k=keys.same k index := by
  cases comparePtrs with
  | false => rw [Keys.matching,Keys.same,Bool.not_false,Bool.true_and]
  | true =>
    rw [Keys.matching,Keys.same,Bool.not_true,Bool.false_and,Bool.or_false]
    cases hequal : keys.equal k index with
    | false => rw [Bool.or_false]
    | true =>
      rw [compareOnlyPtrs] at hptrs
      split at hptrs
      case isFalse hflag => cases hptrs
      case isTrue hflag =>
        split at hptrs
        case isTrue hindex =>
          rw [decide_eq_true (keys.qstr_eq (hq hflag) hindex hequal),Bool.true_or]
        case isFalse hindex =>
          have hstring := keys.str_only (hq hflag) hequal
          split at hptrs
          case isTrue hstr => cases hptrs
          case isFalse hstr =>
            cases hstring with
            | inl h => exact absurd h hindex
            | inr h => exact absurd h hstr

/-- A key is not the same as an index for which no search is made. -/
theorem same_eq_false (hq : map.allKeysAreQstrs=true → keys.isQstr k=true)
    (hptrs : compareOnlyPtrs keys map index kind=none) : keys.same k index=false := by
  rw [compareOnlyPtrs] at hptrs
  split at hptrs
  case isFalse hflag => cases hptrs
  case isTrue hflag =>
    split at hptrs
    case isTrue hindex => cases hptrs
    case isFalse hindex =>
      split at hptrs
      case isTrue hstr => cases hptrs
      case isFalse hstr =>
        cases hsame : keys.same k index with
        | false => rfl
        | true =>
          rw [Keys.same,Bool.or_eq_true,decide_eq_true_iff] at hsame
          cases hsame with
          | inl heq => exact absurd (heq▸hq hflag) hindex
          | inr hequal =>
            cases keys.str_only (hq hflag) hequal with
            | inl h => exact absurd h hindex
            | inr h => exact absurd h hstr

/-- A search is made for every index that is to be added. -/
theorem compareOnlyPtrs_add {α β : Type} (keys : Keys α) (map : MpMap α β) (index : α) :
    compareOnlyPtrs keys map index .addIfNotFound≠none := by
  rw [compareOnlyPtrs]
  split
  case isFalse => exact fun h => nomatch h
  case isTrue =>
    split
    case isTrue => exact fun h => nomatch h
    case isFalse =>
      split
      case isTrue => exact fun h => nomatch h
      case isFalse =>
        rw [if_neg fun h => h rfl]
        exact fun h => nomatch h

/-- The comparison of a lookup is that of the keys, for the keys of a map. -/
def Agrees (keys : Keys κ) (map : MpMap κ ν) (comparePtrs : Bool) (index : κ) : Prop :=
  ∀ pos k,cellAt map.cells pos=.full k → keys.matching comparePtrs index k=keys.same k index

theorem agrees_of_compareOnlyPtrs (h : Represents keys map)
    (hptrs : compareOnlyPtrs keys map index kind=some comparePtrs) :
    Agrees keys map comparePtrs index :=
  fun pos k hk => matching_eq_same (fun hflag => h.qstrs hflag pos k hk) hptrs

theorem absent_of_compareOnlyPtrs (h : Represents keys map)
    (hptrs : compareOnlyPtrs keys map index kind=none) : Absent keys.same map.cells index :=
  fun pos k hk => same_eq_false (fun hflag => h.qstrs hflag pos k hk) hptrs

theorem search_ends (h : Represents keys map) (halloc : 0 < map.alloc)
    (comparePtrs : Bool) (index : κ) :
    ∃ r,search (keys.matching comparePtrs index) map.cells map.alloc
        (keys.hash index%map.alloc) map.alloc (keys.hash index%map.alloc) none=some r∧
      Answers (keys.matching comparePtrs index) map.cells (keys.hash index%map.cells.length) r := by
  have hstart : keys.hash index%map.cells.length < map.cells.length :=
    Nat.mod_lt _ (by rw [h.length_eq]; exact halloc)
  obtain ⟨r,hr,ha⟩ := search_answers (keys.matching comparePtrs index) hstart
  rw [h.length_eq] at hr
  exact ⟨r,hr,ha⟩

/-! ## A larger table -/

/-- An index that is not in a table with room gets a slot on its way. -/
theorem hashLookup_room (h : Represents keys map) (hagree : Agrees keys map comparePtrs index)
    (habsent : Absent keys.same map.cells index) (hroom : map.used < map.alloc)
    (rehash : MpMap κ ν→Outcome (MpMap κ ν) Unit) (n : ℕ) :
    ∃ slot,hashLookup keys rehash comparePtrs index .addIfNotFound (n+1) map=
        .done (addAt keys map slot index) (some slot)∧
      Reached map.cells (keys.hash index%map.cells.length) slot∧
      (cellAt map.cells slot).isFull=false := by
  obtain ⟨r,hr,ha⟩ := search_ends h (by omega) comparePtrs index
  rw [hashLookup,hr]
  cases r with
  | key slot =>
    obtain ⟨_,k,hk,hmatch⟩ := ha
    rw [hagree slot k hk,habsent slot k hk] at hmatch
    cases hmatch
  | free slot => exact ⟨slot,rfl,ha.1,ha.2.1⟩
  | nowhere =>
    have hall := count_of_nowhere ha
    rw [←h.used_eq,h.length_eq] at hall
    omega

/-- A lookup that adds such an index. -/
theorem mpMapLookup_room {map : MpMap κ ν} (h : Represents keys map) {index : κ}
    (habsent : Absent keys.same map.cells index) (hroom : map.used < map.alloc)
    (mem : ℕ→Bool) (depth : ℕ) :
    ∃ slot,mpMapLookup keys mem (depth+1) map index .addIfNotFound=
        .done (addAt keys map slot index) (some slot)∧
      Reached map.cells (keys.hash index%map.cells.length) slot∧
      (cellAt map.cells slot).isFull=false := by
  rw [mpMapLookup]
  cases hptrs : compareOnlyPtrs keys map index .addIfNotFound with
  | none => exact absurd hptrs (compareOnlyPtrs_add keys map index)
  | some comparePtrs =>
    have hpos : map.alloc≠0 := by omega
    simp only [h.unordered,Bool.false_eq_true,if_false,if_neg hpos]
    exact hashLookup_room h (agrees_of_compareOnlyPtrs h hptrs) habsent hroom _ depth

/-- An element is one for a key. -/
def HoldsElem (keys : Keys κ) (e : Elem κ ν) (x : κ) (v : Option ν) : Prop :=
  ∃ k,e=⟨.full k,v⟩∧keys.same k x=true

/-- The elements of a list have keys that are not the same. -/
def KeysDiffer (keys : Keys κ) (elems : List (Elem κ ν)) : Prop :=
  elems.Pairwise fun e e' => ∀ k k',e.key=.full k → e'.key=.full k' → keys.same k k'=false

/-- What a map holds after elements were added to it. -/
structure Reinserted (keys : Keys κ) (map map' : MpMap κ ν) (elems : List (Elem κ ν)) : Prop where
  /-- It is as it should be. -/
  represents : Represents keys map'
  /-- It is as large as before. -/
  alloc_eq : map'.alloc=map.alloc
  /-- It has as many keys more as there are in the list. -/
  used_eq : map'.used=map.used+count (elems.map Elem.key)
  holds : ∀ x v,Holds keys map' x v↔Holds keys map x v∨∃ e∈elems,HoldsElem keys e x v

/-- An element without a key adds nothing. -/
theorem reinserted_skip {map' : MpMap κ ν} {e : Elem κ ν} {elems : List (Elem κ ν)}
    (hfree : e.key.isFull=false) (h : Reinserted keys map map' elems) :
    Reinserted keys map map' (e::elems) := by
  refine ⟨h.represents,h.alloc_eq,?_,fun x v => ?_⟩
  · rw [h.used_eq,List.map_cons,count,count,List.countP_cons_of_neg]
    rw [hfree]
    exact Bool.false_ne_true
  · have hnot : ¬HoldsElem keys e x v := by
      rintro ⟨k,he,_⟩
      rw [he] at hfree
      cases hfree
    rw [h.holds,List.exists_mem_cons_iff,or_iff_right hnot]

/-- Elements with new keys are added to a table with room for them. -/
theorem reinsert_spec (mem : ℕ→Bool) (depth : ℕ) (elems : List (Elem κ ν)) :
    ∀ {map : MpMap κ ν},Represents keys map → KeysDiffer keys elems →
      (∀ e∈elems,∀ k,e.key=.full k → Absent keys.same map.cells k) →
      map.used+count (elems.map Elem.key) ≤ map.alloc →
      ∃ map',reinsert (fun map key => mpMapLookup keys mem (depth+1) map key .addIfNotFound)
          elems map=.done map' ()∧Reinserted keys map map' elems := by
  have laws := laws_same keys
  induction elems with
  | nil =>
    intro map h _ _ _
    refine ⟨map,rfl,h,rfl,rfl,fun x v => ?_⟩
    rw [or_iff_left]
    rintro ⟨e,he,_⟩
    exact absurd he List.not_mem_nil
  | cons e elems ih =>
    intro map h hdiffer habsent hroom
    obtain ⟨hhead,htail⟩ := List.pairwise_cons.mp hdiffer
    cases hkey : e.key with
    | full k =>
      have hcount : count ((e::elems).map Elem.key)=count (elems.map Elem.key)+1 := by
        rw [List.map_cons,hkey,count,List.countP_cons_of_pos rfl,count]
      rw [hcount] at hroom
      have hk := habsent e List.mem_cons_self k hkey
      obtain ⟨slot,hlookup,hreach,hfree⟩ :=
        @mpMapLookup_room _ _ keys _ map h k hk (by omega) mem depth
      have hadd := represents_addAt h hreach hfree hk
      have hat : cellAt (addAt keys map slot k).cells slot=.full k := by
        rw [cells_addAt,cellAt_set_self hreach.lt]
      have hset := represents_setValue hadd slot e.value
      have hholds : ∀ x v,Holds keys ((addAt keys map slot k).setValue slot e.value) x v↔
          Holds keys map x v∨HoldsElem keys e x v := by
        intro x v
        rw [holds_setValue hadd hat,holds_addAt hreach.lt hfree]
        constructor
        · intro hor
          cases hor with
          | inl hnew =>
            refine .inr ⟨k,?_,hnew.1⟩
            rw [hnew.2,←hkey]
          | inr hold =>
            cases hold.2 with
            | inl hnew =>
              rw [hold.1] at hnew
              cases hnew.1
            | inr hin => exact .inl hin
        · intro hor
          cases hor with
          | inl hin =>
            refine .inr ⟨?_,.inr hin⟩
            cases hkx : keys.same k x with
            | false => rfl
            | true =>
              obtain ⟨pos,k',hslot,hsame⟩ := hin
              have hfalse := hk pos k' (by rw [cellAt_cells,hslot])
              rw [laws.trans hsame (laws.symm hkx)] at hfalse
              cases hfalse
          | inr helem =>
            obtain ⟨k',he,hsame⟩ := helem
            rw [he] at hkey
            cases hkey
            exact .inl ⟨hsame,by rw [he]⟩
      obtain ⟨map',hrest,hall⟩ := @ih ((addAt keys map slot k).setValue slot e.value) hset htail (by
          intro e' he' k' hk'
          refine (absent_iff keys _ k').mpr fun v hv => ?_
          cases (hholds k' v).mp hv with
          | inl hin =>
            exact (absent_iff keys map k').mp (habsent e' (List.mem_cons_of_mem e he') k' hk') v hin
          | inr helem =>
            obtain ⟨k'',he,hsame⟩ := helem
            rw [hhead e' he' k'' k' (by rw [he]) hk'] at hsame
            cases hsame)
        (by
          show map.used+1+_ ≤ map.alloc
          omega)
      refine ⟨map',?_,hall.represents,hall.alloc_eq,?_,fun x v => ?_⟩
      · rw [reinsert,hkey]
        dsimp only
        rw [hlookup]
        exact hrest
      · rw [hall.used_eq,hcount]
        show map.used+1+_=_
        omega
      · rw [hall.holds,hholds,or_assoc]
        refine or_congr_right ?_
        rw [List.exists_mem_cons_iff]
    | empty =>
      rw [List.map_cons,hkey,count,List.countP_cons_of_neg Bool.false_ne_true] at hroom
      obtain ⟨map',hrest,hall⟩ := ih h htail
        (fun e' he' => habsent e' (List.mem_cons_of_mem e he')) hroom
      refine ⟨map',?_,reinserted_skip (by rw [hkey]; rfl) hall⟩
      rw [reinsert,hkey]
      exact hrest
    | deleted =>
      rw [List.map_cons,hkey,count,List.countP_cons_of_neg Bool.false_ne_true] at hroom
      obtain ⟨map',hrest,hall⟩ := ih h htail
        (fun e' he' => habsent e' (List.mem_cons_of_mem e he')) hroom
      refine ⟨map',?_,reinserted_skip (by rw [hkey]; rfl) hall⟩
      rw [reinsert,hkey]
      exact hrest

/-- The next size is larger. -/
theorem lt_getHashAlloc (n : ℕ) : n < getHashAllocGreaterOrEqualTo (n+1) := by
  rw [getHashAllocGreaterOrEqualTo]
  split
  case h_1 size hfind =>
    have hle := List.find?_some hfind
    exact of_decide_eq_true hle
  case h_2 hfind =>
    have hle : n+1+(n+1)/2≤(n+1+(n+1)/2)|||1 := Nat.left_le_or
    omega

/-- The elements of a table have keys that are not the same. -/
theorem keysDiffer_table (h : Represents keys map) : KeysDiffer keys map.table := by
  refine List.pairwise_iff_getElem.mpr fun i j hi hj hlt k k' hk hk' => ?_
  have hat : ∀ {l : ℕ} (hl : l < map.table.length),cellAt map.cells l=(map.table[l]).key := by
    intro l hl
    rw [cellAt_cells,slotAt,List.getD_eq_getElem?_getD,List.getElem?_eq_getElem hl]
    rfl
  cases hsame : keys.same k k' with
  | false => rfl
  | true =>
    have heq := h.proper.distinct ((hat hi).trans hk) ((hat hj).trans hk') hsame
    omega

/-- What a map holds is in an element of its table. -/
theorem holds_iff_elem (x : κ) (v : Option ν) :
    Holds keys map x v↔∃ e∈map.table,HoldsElem keys e x v := by
  constructor
  · rintro ⟨pos,k,hslot,hsame⟩
    have hat : cellAt map.cells pos=.full k := by rw [cellAt_cells,hslot]
    have hlt : pos < map.table.length := length_cells map▸lt_of_full hat
    rw [slotAt,List.getD_eq_getElem?_getD,List.getElem?_eq_getElem hlt] at hslot
    exact ⟨_,List.getElem_mem hlt,k,hslot,hsame⟩
  · rintro ⟨e,he,k,heq,hsame⟩
    obtain ⟨pos,hlt,hat⟩ := List.mem_iff_getElem.mp he
    refine ⟨pos,k,?_,hsame⟩
    rw [slotAt,List.getD_eq_getElem?_getD,List.getElem?_eq_getElem hlt,hat,heq]
    rfl

theorem holds_null {n : ℕ} (h : map.table=List.replicate n .null) (x : κ)
    (v : Option ν) : ¬Holds keys map x v := by
  rw [holds_iff_elem,h]
  rintro ⟨e,he,k,heq,_⟩
  rw [(List.mem_replicate.mp he).2] at heq
  cases heq

/-- What a map holds after its table was made larger. -/
structure Rehashed (keys : Keys κ) (map map' : MpMap κ ν) : Prop where
  /-- It is as it should be. -/
  represents : Represents keys map'
  room : map'.used < map'.alloc
  /-- It has as many keys as before. -/
  used_eq : map'.used=map.used
  /-- It holds what it held. -/
  holds : ∀ x v,Holds keys map' x v↔Holds keys map x v

variable {mem : ℕ→Bool}

/-- A table is made larger. -/
theorem mpMapRehash_spec (h : Represents keys map)
    (hmem : mem (getHashAllocGreaterOrEqualTo (map.alloc+1))=true) (depth : ℕ) :
    ∃ map',mpMapRehash mem (fun map key =>
        mpMapLookup keys mem (depth+1) map key .addIfNotFound) map=.done map' ()∧
      Rehashed keys map map' := by
  have hall : map.table.take map.alloc=map.table := by
    rw [h.alloc_eq]
    exact List.take_length
  have hsize := lt_getHashAlloc map.alloc
  have hcount : count (map.table.map Elem.key)=map.used := h.used_eq.symm
  have hle : map.used ≤ map.alloc := by
    rw [h.used_eq,←h.length_eq]
    exact List.countP_le_length
  have hnew : Represents keys ({map with
      alloc := getHashAllocGreaterOrEqualTo (map.alloc+1)
      used := 0
      allKeysAreQstrs := true
      table := List.replicate (getHashAllocGreaterOrEqualTo (map.alloc+1)) .null} : MpMap κ ν) := by
    have hinit := @represents_init _ ν keys _ (getHashAllocGreaterOrEqualTo (map.alloc+1))
    exact ⟨h.unordered,hinit.alloc_eq,hinit.used_eq,hinit.qstrs,hinit.proper⟩
  obtain ⟨map',hadd,hre⟩ := reinsert_spec mem depth map.table hnew (keysDiffer_table h)
    (fun e _ k _ => (absent_iff keys _ k).mpr fun v => holds_null rfl k v) (by
      rw [hcount]
      show 0+map.used≤getHashAllocGreaterOrEqualTo (map.alloc+1)
      omega)
  refine ⟨map',?_,hre.represents,?_,?_,fun x v => ?_⟩
  · rw [mpMapRehash,if_pos hmem,hall]
    exact hadd
  · rw [hre.used_eq,hre.alloc_eq,hcount]
    show 0+map.used < getHashAllocGreaterOrEqualTo (map.alloc+1)
    omega
  · rw [hre.used_eq,hcount]
    exact Nat.zero_add _
  · rw [hre.holds,←holds_iff_elem,or_iff_right (holds_null rfl x v)]

/-! ## Lookups -/

/-- A key that is the same as an index is found by the search. -/
theorem hashLookup_found (h : Represents keys map) {pos : ℕ}
    (hagree : Agrees keys map comparePtrs index)
    (hk : cellAt map.cells pos=.full k) (hsame : keys.same k index=true)
    (rehash : MpMap κ ν→Outcome (MpMap κ ν) Unit) (kind : LookupKind) (n : ℕ) :
    hashLookup keys rehash comparePtrs index kind (n+1) map=
      .done (if kind=.removeIfFound then removeAt map pos else map) (some pos) := by
  have laws := laws_same keys
  have halloc : 0 < map.alloc := by
    have hlt := lt_of_full hk
    rw [h.length_eq] at hlt
    omega
  obtain ⟨r,hr,ha⟩ := search_ends h halloc comparePtrs index
  have hpresent : (∀ slot,r≠.key slot) → False := by
    intro hnot
    have hfalse := absent_of_answers laws h.proper hagree ha hnot pos k hk
    rw [hsame] at hfalse
    cases hfalse
  rw [hashLookup,hr]
  cases r with
  | key slot =>
    obtain ⟨_,k',hk',hmatch⟩ := ha
    rw [hagree slot k' hk'] at hmatch
    have heq := h.proper.distinct hk' hk (laws.trans hmatch (laws.symm hsame))
    rw [heq]
  | free slot => exact absurd (fun _ h => nomatch h) hpresent
  | nowhere => exact absurd (fun _ h => nomatch h) hpresent

/-- A lookup of a key that is in the map. -/
theorem mpMapLookup_found (h : Represents keys map) {pos : ℕ}
    (hk : cellAt map.cells pos=.full k) (hsame : keys.same k index=true) (mem : ℕ→Bool)
    (kind : LookupKind) (depth : ℕ) :
    mpMapLookup keys mem (depth+1) map index kind=
      .done (if kind=.removeIfFound then removeAt map pos else map) (some pos) := by
  have halloc : map.alloc≠0 := by
    have hlt := lt_of_full hk
    rw [h.length_eq] at hlt
    omega
  rw [mpMapLookup]
  cases hptrs : compareOnlyPtrs keys map index kind with
  | none =>
    have hfalse := absent_of_compareOnlyPtrs h hptrs pos k hk
    rw [hsame] at hfalse
    cases hfalse
  | some comparePtrs =>
    simp only [h.unordered,Bool.false_eq_true,if_false,if_neg halloc]
    exact hashLookup_found h (agrees_of_compareOnlyPtrs h hptrs) hk hsame _ kind depth

/-- A lookup that does not add, of a key that is not in the map. -/
theorem mpMapLookup_absent (h : Represents keys map) (habsent : Absent keys.same map.cells index)
    (hkind : kind≠.addIfNotFound) (mem : ℕ→Bool) (depth : ℕ) :
    mpMapLookup keys mem (depth+1) map index kind=.done map none := by
  rw [mpMapLookup]
  cases hptrs : compareOnlyPtrs keys map index kind with
  | none => rfl
  | some comparePtrs =>
    have hagree := agrees_of_compareOnlyPtrs h hptrs
    simp only [h.unordered,Bool.false_eq_true,if_false,if_neg hkind]
    split
    case isTrue halloc => rfl
    case isFalse halloc =>
      obtain ⟨r,hr,ha⟩ := search_ends h (Nat.pos_of_ne_zero halloc) comparePtrs index
      rw [hashLookup,hr]
      cases r with
      | key slot =>
        obtain ⟨_,k,hk,hmatch⟩ := ha
        rw [hagree slot k hk,habsent slot k hk] at hmatch
        cases hmatch
      | free slot => exact if_neg hkind
      | nowhere => exact if_neg hkind

/-- What a map holds after an index was added to it. -/
structure Added (keys : Keys κ) (map map' : MpMap κ ν) (index : κ) (slot : ℕ) : Prop where
  /-- It is as it should be. -/
  represents : Represents keys map'
  key_eq : cellAt map'.cells slot=.full index
  value_eq : map'.valueAt slot=none
  /-- It has one key more. -/
  used_eq : map'.used=map.used+1
  holds : ∀ x v,Holds keys map' x v↔(keys.same index x=true∧v=none)∨Holds keys map x v

/-- An index that was put into a slot is added. -/
theorem added_addAt (h : Represents keys map) {slot : ℕ}
    (hreach : Reached map.cells (keys.hash index%map.cells.length) slot)
    (hfree : (cellAt map.cells slot).isFull=false)
    (habsent : Absent keys.same map.cells index) :
    Added keys map (addAt keys map slot index) index slot := by
  have hslot : slotAt (addAt keys map slot index) slot=⟨.full index,none⟩ := by
    rw [slotAt_addAt (length_cells map▸hreach.lt),if_pos rfl]
  exact ⟨represents_addAt h hreach hfree habsent,(cellAt_cells _ slot).trans (by rw [hslot]),
    congrArg Elem.value hslot,rfl,holds_addAt hreach.lt hfree⟩

variable {map' : MpMap κ ν}

theorem Rehashed.absent (h : Rehashed keys map map')
    (habsent : Absent keys.same map.cells index) : Absent keys.same map'.cells index :=
  (absent_iff keys map' index).mpr fun v hv =>
    (absent_iff keys map index).mp habsent v ((h.holds index v).mp hv)

/-- An index is added to a table that was made larger. -/
theorem added_rehashed {map'' : MpMap κ ν} {slot : ℕ}
    (h : Rehashed keys map map') (hadd : Added keys map' map'' index slot) :
    Added keys map map'' index slot := by
  refine ⟨hadd.represents,hadd.key_eq,hadd.value_eq,?_,fun x v => ?_⟩
  · rw [hadd.used_eq,h.used_eq]
  · rw [hadd.holds,h.holds]

/-- The comparison for an index that is in no slot says so. -/
theorem agrees_of_absent
    (habsent : Absent keys.same map.cells index) : Agrees keys map comparePtrs index := by
  intro pos k hk
  have hfalse := habsent pos k hk
  rw [hfalse]
  rw [Keys.same,Bool.or_eq_false_iff] at hfalse
  rw [Keys.matching,hfalse.1,hfalse.2,Bool.and_false,Bool.or_false]

/-- A lookup that adds a key that is not in the map, with memory for a larger table. -/
theorem mpMapLookup_add (h : Represents keys map) (habsent : Absent keys.same map.cells index)
    (hmem : mem (getHashAllocGreaterOrEqualTo (map.alloc+1))=true) (depth : ℕ) :
    ∃ map' slot,mpMapLookup keys mem (depth+2) map index .addIfNotFound=
      .done map' (some slot)∧Added keys map map' index slot := by
  obtain ⟨larger,hlarger,hre⟩ := mpMapRehash_spec h hmem depth
  have habsent' := hre.absent habsent
  rw [mpMapLookup]
  cases hptrs : compareOnlyPtrs keys map index .addIfNotFound with
  | none => exact absurd hptrs (compareOnlyPtrs_add keys map index)
  | some comparePtrs =>
    simp only [h.unordered,Bool.false_eq_true,if_false,if_true]
    split
    case isTrue halloc =>
      obtain ⟨slot,hlookup,hreach,hfree⟩ := hashLookup_room hre.represents
        (agrees_of_absent habsent') habsent' hre.room
        (mpMapRehash mem fun map key => mpMapLookup keys mem (depth+1) map key .addIfNotFound)
        (depth+1)
      rw [hlarger]
      exact ⟨_,slot,hlookup,added_rehashed hre (added_addAt hre.represents hreach hfree habsent')⟩
    case isFalse halloc =>
      have hagree := agrees_of_compareOnlyPtrs h hptrs
      obtain ⟨r,hr,ha⟩ := search_ends h (Nat.pos_of_ne_zero halloc) comparePtrs index
      rw [hashLookup,hr]
      cases r with
      | key slot =>
        obtain ⟨_,k,hk,hmatch⟩ := ha
        rw [hagree slot k hk,habsent slot k hk] at hmatch
        cases hmatch
      | free slot => exact ⟨_,slot,rfl,added_addAt h ha.1 ha.2.1 habsent⟩
      | nowhere =>
        obtain ⟨slot,hlookup,hreach,hfree⟩ := hashLookup_room hre.represents
          (agrees_of_absent habsent') habsent' hre.room
          (mpMapRehash mem fun map key => mpMapLookup keys mem (depth+1) map key .addIfNotFound)
          depth
        simp only [if_true,hlarger]
        exact ⟨_,slot,hlookup,added_rehashed hre (added_addAt hre.represents hreach hfree habsent')⟩

theorem absent_or_found (map : MpMap κ ν) (index : κ) : Absent keys.same map.cells index∨
      ∃ pos k,cellAt map.cells pos=.full k∧keys.same k index=true := by
  cases Classical.em (Absent keys.same map.cells index) with
  | inl habsent => exact .inl habsent
  | inr hnot =>
    simp only [Absent,not_forall,Bool.not_eq_false] at hnot
    obtain ⟨pos,k,hk,hsame⟩ := hnot
    exact .inr ⟨pos,k,hk,hsame⟩

/-- A lookup without memory for a larger table changes nothing. -/
theorem mpMapLookup_raised (h : Represents keys map) {depth : ℕ}
    (hraised : mpMapLookup keys mem (depth+2) map index kind=.raised map') : map'=map := by
  cases @absent_or_found _ _ keys _ map index with
  | inr hfound =>
    obtain ⟨pos,k,hk,hsame⟩ := hfound
    rw [mpMapLookup_found h hk hsame] at hraised
    cases hraised
  | inl habsent =>
    cases Decidable.em (kind=.addIfNotFound) with
    | inr hkind =>
      rw [mpMapLookup_absent h habsent hkind] at hraised
      cases hraised
    | inl hkind =>
      cases hmem : mem (getHashAllocGreaterOrEqualTo (map.alloc+1)) with
      | true =>
        obtain ⟨larger,slot,hlookup,_⟩ := mpMapLookup_add h habsent hmem depth
        rw [hkind,hlookup] at hraised
        cases hraised
      | false =>
        have hrehash : mpMapRehash mem (fun map key =>
            mpMapLookup keys mem (depth+1) map key .addIfNotFound) map=.raised map := by
          rw [mpMapRehash,hmem]
          exact if_neg Bool.false_ne_true
        rw [hkind,mpMapLookup] at hraised
        cases hptrs : compareOnlyPtrs keys map index .addIfNotFound with
        | none => exact absurd hptrs (compareOnlyPtrs_add keys map index)
        | some comparePtrs =>
          simp only [hptrs,h.unordered,Bool.false_eq_true,if_false,if_true,hrehash] at hraised
          split at hraised
          case isTrue halloc =>
            cases hraised
            rfl
          case isFalse halloc =>
            obtain ⟨r,hr,_⟩ := search_ends h (Nat.pos_of_ne_zero halloc) comparePtrs index
            rw [hashLookup,hr] at hraised
            cases r with
            | key slot => cases hraised
            | free slot => cases hraised
            | nowhere =>
              simp only [if_true,hrehash] at hraised
              cases hraised
              rfl

end MicroPython.HashedMap
