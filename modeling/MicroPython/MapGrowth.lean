import MicroPython.OrderedMap
import MicroPython.HashedSet

/-!
# Growth without memory

A lookup that adds a key makes a full table larger, and the memory for that may not be there.
A hash map asks for it before it changes anything. An ordered array counts the new slots before
they are there, and a set counts them and forgets its keys: both are no longer what their table
says when the exception is raised.
-/

namespace MicroPython.MapGrowth

open OpenAddressing MapTable AssociationList HashedMap

variable {κ : Type} [DecidableEq κ]

/-- A map or a set that is as it should be. -/
inductive Container (keys : Keys κ) (ν : Type) where
  | hashed (map : MpMap κ ν) (represents : Represents keys map)
  /-- An ordered array with its entries and the free slots behind them. -/
  | ordered (map : MpMap κ ν) (entries : List (κ×Option ν)) (room : List (Elem κ ν))
    (lays : OrderedMap.Lays keys map entries room)
  | set (set : MpSet κ) (represents : HashedSet.Represents keys set)

variable {keys : Keys κ} {ν : Type}

/-- It is a hash map. -/
def Container.isHashed : Container keys ν→Bool
  | .hashed _ _ => true
  | _ => false

/-- A lookup that adds a key for which there is no memory leaves a map or a set that is as it
should be, with the same elements. -/
def KeptOnFailure (mem : ℕ→Bool) (depth : ℕ) (k : κ) : Container keys ν→Prop
  | .hashed map _ => ∀ map',mpMapLookup keys mem depth map k .addIfNotFound=.raised map' →
      Represents keys map'∧∀ x v,Holds keys map' x v↔Holds keys map x v
  | .ordered map entries _ _ => ∀ map',
      mpMapLookup keys mem depth map k .addIfNotFound=.raised map' →
        ∃ room',OrderedMap.Lays keys map' entries room'
  | .set set _ => ∀ set',mpSetLookup keys mem depth set k .addIfNotFound=.raised set' →
      HashedSet.Represents keys set'∧
        ∀ x,HashedSet.Member keys set' x↔HashedSet.Member keys set x

/-- A key is not found, nothing is free for it, and there is no memory for a larger table. -/
def OutOfMemory (mem : ℕ→Bool) (k : κ) : Container keys ν→Prop
  | .hashed map _ => Absent keys.same map.cells k∧map.used=map.alloc∧
      mem (getHashAllocGreaterOrEqualTo (map.alloc+1))=false
  | .ordered map entries _ _ => get keys.same entries k=none∧map.used=map.alloc∧
      mem (map.alloc+4)=false
  | .set set _ => Absent keys.equal set.table k∧set.used=set.alloc∧
      mem (getHashAllocGreaterOrEqualTo (set.alloc+1))=false

theorem kept_hashed (mem : ℕ→Bool) (depth : ℕ) (k : κ) {map : MpMap κ ν}
    (h : Represents keys map) : KeptOnFailure mem (depth+2) k (.hashed map h) := by
  intro map' hraised
  have hsame := mpMapLookup_raised h hraised
  rw [hsame]
  exact ⟨h,fun x v => Iff.rfl⟩

/-- An ordered array is kept exactly when it does not run out of memory. -/
theorem kept_ordered_iff (mem : ℕ→Bool) (depth : ℕ) (k : κ) {map : MpMap κ ν}
    {entries : List (κ×Option ν)} {room : List (Elem κ ν)}
    (h : OrderedMap.Lays keys map entries room) :
    KeptOnFailure mem (depth+1) k (.ordered map entries room h)↔
      ¬OutOfMemory mem k (.ordered map entries room h) := by
  constructor
  · rintro hkept ⟨habsent,hfull,hmem⟩
    have hgrow : growOrdered mem map=.raised {map with alloc := map.alloc+4} :=
      if_neg (Bool.eq_false_iff.mp hmem)
    have hraised := OrderedMap.mpMapLookup_new h habsent mem depth
    rw [if_pos hfull,hgrow] at hraised
    obtain ⟨room',h'⟩ := hkept _ hraised
    -- The slots are counted and not there.
    have halloc : map.alloc+4=map.table.length := h'.alloc_eq
    rw [←h.alloc_eq] at halloc
    omega
  · intro henough map' hraised
    refine absurd ?_ henough
    cases hfind : entries.findIdx? fun e => keys.same e.1 k with
    | some pos =>
      rw [OrderedMap.mpMapLookup_found h hfind,if_neg fun h => nomatch h] at hraised
      cases hraised
    | none =>
      have habsent := findIdx?_eq_none.mp hfind
      rw [OrderedMap.mpMapLookup_new h habsent mem depth] at hraised
      split at hraised
      case isFalse hroom => cases hraised
      case isTrue hfull =>
        refine ⟨habsent,hfull,?_⟩
        cases hmem : mem (map.alloc+4) with
        | false => rfl
        | true =>
          obtain ⟨larger,hgrow,_⟩ := OrderedMap.growOrdered_full h hfull hmem
          rw [hgrow] at hraised
          cases hraised

/-- A set without room and memory counts new slots and forgets its keys. -/
theorem mpSetLookup_raised {set : MpSet κ} (h : HashedSet.Represents keys set) {k : κ}
    (habsent : Absent keys.equal set.table k) (hfull : set.used=set.alloc) {mem : ℕ→Bool}
    (hmem : mem (getHashAllocGreaterOrEqualTo (set.alloc+1))=false) (depth : ℕ) :
    mpSetLookup keys mem (depth+1) set k .addIfNotFound=
      .raised ⟨0,getHashAllocGreaterOrEqualTo (set.alloc+1),set.table⟩ := by
  have hrehash : mpSetRehash mem (fun set key => mpSetLookup keys mem depth set key
      .addIfNotFound) set=.raised ⟨0,getHashAllocGreaterOrEqualTo (set.alloc+1),set.table⟩ :=
    if_neg (Bool.eq_false_iff.mp hmem)
  have hadds : LookupKind.adds .addIfNotFound=true := rfl
  rw [mpSetLookup]
  simp only [hadds,if_true,hrehash]
  split
  case isTrue halloc => rfl
  case isFalse halloc =>
    obtain ⟨r,hr,ha⟩ := HashedSet.search_ends h.stored (Nat.pos_of_ne_zero halloc) k
    rw [setHashLookup,hr]
    cases r with
    | key slot =>
      obtain ⟨_,k',hk,hmatch⟩ := ha
      have hequal : keys.equal k' k=true := hmatch
      rw [habsent slot k' hk] at hequal
      cases hequal
    | free slot =>
      have hall : set.table.countP Cell.isFull=set.table.length := by
        rw [←h.alloc_eq,←hfull]
        exact h.used_eq.symm
      have hlt := ha.1.lt
      have hcell := List.countP_eq_length.mp hall _ (List.getElem_mem hlt)
      have hfree := ha.2.1
      rw [cellAt_eq_getElem hlt,hcell] at hfree
      cases hfree
    | nowhere =>
      simp only [hadds,if_true,hrehash]
      rfl

/-- A set is kept exactly when it does not run out of memory. -/
theorem kept_set_iff (mem : ℕ→Bool) (depth : ℕ) (k : κ) {set : MpSet κ}
    (h : HashedSet.Represents keys set) :
    KeptOnFailure mem (depth+2) k (.set set h : Container keys ν)↔
      ¬OutOfMemory mem k (.set set h : Container keys ν) := by
  constructor
  · rintro hkept ⟨habsent,hfull,hmem⟩
    obtain ⟨h',_⟩ := hkept _ (mpSetLookup_raised h habsent hfull hmem (depth+1))
    have halloc : getHashAllocGreaterOrEqualTo (set.alloc+1)=set.table.length := h'.alloc_eq
    have hlarger := lt_getHashAlloc set.alloc
    rw [←h.alloc_eq] at halloc
    omega
  · intro henough set' hraised
    refine absurd ?_ henough
    cases Classical.em (Absent keys.equal set.table k) with
    | inr hfound =>
      simp only [Absent,not_forall,Bool.not_eq_false] at hfound
      obtain ⟨pos,k',hk,hequal⟩ := hfound
      rw [HashedSet.mpSetLookup_found h.stored hk hequal] at hraised
      cases hraised
    | inl habsent =>
      have hle : set.used ≤ set.alloc := by
        rw [h.used_eq,h.alloc_eq]
        exact List.countP_le_length
      cases Nat.lt_or_ge set.used set.alloc with
      | inl hroom =>
        obtain ⟨slot,hlookup,_⟩ := HashedSet.mpSetLookup_room h.stored habsent hroom mem (depth+1)
        rw [hlookup] at hraised
        cases hraised
      | inr hge =>
        refine ⟨habsent,Nat.le_antisymm hle hge,?_⟩
        cases hmem : mem (getHashAllocGreaterOrEqualTo (set.alloc+1)) with
        | false => rfl
        | true =>
          obtain ⟨larger,hlookup,_⟩ := @HashedSet.mpSetLookup_add _ _ keys set h k habsent mem hmem
            .addIfNotFound rfl depth
          rw [hlookup] at hraised
          cases hraised

/-- A container is kept exactly when it is a hash map or does not run out of memory. -/
theorem keptOnFailure_iff (mem : ℕ→Bool) (depth : ℕ) (k : κ) (c : Container keys ν) :
    KeptOnFailure mem (depth+2) k c↔c.isHashed=true∨¬OutOfMemory mem k c := by
  cases c with
  | hashed map h => exact iff_of_true (kept_hashed mem depth k h) (.inl rfl)
  | ordered map entries room h =>
    rw [kept_ordered_iff mem (depth+1) k h]
    exact (or_iff_right fun h => nomatch h).symm
  | set set h =>
    rw [kept_set_iff mem depth k h]
    exact (or_iff_right fun h => nomatch h).symm

/-- A new set to which 5 is added without memory has two slots in a table that has none. -/
theorem newSet_notKept : ¬KeptOnFailure (fun _ => false) 2 5
      (.set (mpSetInit 0) (HashedSet.represents_init 0) : Container smallInts Unit) := by
  intro hkept
  have hraised : mpSetLookup smallInts (fun _ => false) 2 (mpSetInit 0) 5 .addIfNotFound=
      .raised ⟨0,2,[]⟩ := rfl
  obtain ⟨h,_⟩ := hkept _ hraised
  cases h.alloc_eq

end MicroPython.MapGrowth
