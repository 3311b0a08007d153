import MicroPython.HashedMap

/-!
# Sets

The table of a set is searched with `mp_obj_equal` alone. An object that is not
equal to itself is not found by that, though it may be in the set; for all others
a lookup finds what is in the set, adds what is not and takes out what it finds.
-/

namespace MicroPython.HashedSet

open OpenAddressing MapTable HashedMap

section Tables

variable {κ : Type} {keys : Keys κ}

/-! ## Tables in which searches end -/

theorem laws_equal (keys : Keys κ) : KeyLaws keys.hash keys.equal :=
  ⟨keys.equal_symm,keys.equal_trans,keys.hash_eq⟩

/-- The keys of a set in the order of their slots. -/
def elems (set : MpSet κ) : List κ := keysOf set.table

/-- A table in which a search for a key that is equal to one in it ends there. A key that is not
equal to itself may be in it more than once. -/
structure Stored (keys : Keys κ) (set : MpSet κ) : Prop where
  /-- `alloc` is the number of slots. -/
  alloc_eq : set.alloc=set.table.length
  /-- `used` is the number of keys. -/
  used_eq : set.used=count set.table
  /-- The keys are where a search finds them. -/
  proper : Proper keys.hash keys.equal set.table

theorem absent_equal_iff (set : MpSet κ) (x : κ) :
    Absent keys.equal set.table x↔∀ k∈elems set,keys.equal k x=false := by
  simp only [elems,mem_keysOf]
  exact ⟨fun h k ⟨pos,hk⟩ => h pos k hk,fun h pos k hk => h k ⟨pos,hk⟩⟩

variable {set : MpSet κ}

theorem Stored.pairwise (h : Stored keys set) :
    (elems set).Pairwise fun a b => keys.equal a b=false :=
  (distinct_iff (laws_equal keys) set.table).mp h.proper.distinct

/-- `used` is the number of keys. -/
theorem Stored.used_length (h : Stored keys set) :
    set.used=(elems set).length := h.used_eq.trans (length_keysOf set.table).symm

/-- A new table. -/
theorem stored_init (n : ℕ) : Stored keys (mpSetInit n)∧elems (mpSetInit n : MpSet κ)=[] := by
  refine ⟨⟨List.length_replicate.symm,(count_replicate n).symm,
    proper_replicate keys.hash keys.equal n⟩,?_⟩
  rw [←List.length_eq_zero_iff,elems,length_keysOf]
  exact count_replicate n

/-- An index goes into a free slot on its way. -/
theorem stored_add (h : Stored keys set) {slot : ℕ} {k : κ}
    (hreach : Reached set.table (keys.hash k%set.table.length) slot)
    (hfree : (cellAt set.table slot).isFull=false) (habsent : Absent keys.equal set.table k) :
    Stored keys ⟨set.used+1,set.alloc,set.table.set slot (.full k)⟩∧
      (elems ⟨set.used+1,set.alloc,set.table.set slot (.full k)⟩).Perm (k::elems set) := by
  have hslot := hreach.lt
  refine ⟨⟨?_,?_,?_⟩,?_⟩
  · rw [List.length_set]
    exact h.alloc_eq
  · rw [count_insert hslot hfree,h.used_eq]
  · exact proper_insert (laws_equal keys) h.proper hreach habsent
  · exact keysOf_insert hslot hfree k

/-- The keys that are left when a key is taken out of its slot. -/
theorem stored_removeAt (h : Stored keys set) {slot : ℕ} {k : κ}
    (hk : cellAt set.table slot=.full k) :
    Stored keys (set.removeAt slot)∧(elems set).Perm (k::elems (set.removeAt slot)) := by
  have hc := vacates_vacated set.table slot
  rw [←h.alloc_eq] at hc
  have hcount := count_remove hk hc.isFull_eq
  have hused := h.used_eq
  refine ⟨⟨?_,?_,?_⟩,?_⟩
  · rw [MpSet.removeAt,List.length_set]
    exact h.alloc_eq
  · show set.used-1=count (set.table.set slot (vacated set.table set.alloc slot))
    omega
  · exact proper_remove h.proper hk hc
  · exact keysOf_remove hk hc.isFull_eq

theorem search_ends (h : Stored keys set) (halloc : 0 < set.alloc) (index : κ) :
    ∃ r,search (keys.equal · index) set.table set.alloc (keys.hash index%set.alloc) set.alloc
        (keys.hash index%set.alloc) none=some r∧
      Answers (keys.equal · index) set.table (keys.hash index%set.table.length) r := by
  have hstart : keys.hash index%set.table.length < set.table.length :=
    Nat.mod_lt _ (by rw [←h.alloc_eq]; exact halloc)
  obtain ⟨r,hr,ha⟩ := search_answers (keys.equal · index) hstart
  rw [←h.alloc_eq] at hr
  exact ⟨r,hr,ha⟩

/-! ## The search -/

variable {index : κ}

/-- A key that is equal to an index is found. -/
theorem setHashLookup_found (h : Stored keys set) {k : κ} {pos : ℕ}
    (hk : cellAt set.table pos=.full k) (hequal : keys.equal k index=true)
    (rehash : MpSet κ→Outcome (MpSet κ) Unit) (kind : LookupKind) (n : ℕ) :
    setHashLookup keys rehash index kind (n+1) set=
      .done (if kind.removes then set.removeAt pos else set) (.full k) := by
  have halloc : 0 < set.alloc := by
    have hlt := lt_of_full hk
    rw [h.alloc_eq]
    omega
  obtain ⟨r,hr,ha⟩ := search_ends h halloc index
  have hpresent : (∀ slot,r≠.key slot) → False := by
    intro hnot
    have hfalse := absent_of_answers (laws_equal keys) h.proper (fun _ _ _ => rfl) ha hnot pos k hk
    rw [hequal] at hfalse
    cases hfalse
  rw [setHashLookup,hr]
  cases r with
  | key slot =>
    obtain ⟨_,k',hk',hmatch⟩ := ha
    have heq := h.proper.distinct hk' hk (keys.equal_trans hmatch (keys.equal_symm hequal))
    rw [heq]
    simp only [hk]
  | free slot => exact absurd (fun _ h => nomatch h) hpresent
  | nowhere => exact absurd (fun _ h => nomatch h) hpresent

/-- An index that is equal to no key of a table with room gets a slot on its way. -/
theorem setHashLookup_room {set : MpSet κ} (h : Stored keys set) {index : κ}
    (habsent : Absent keys.equal set.table index) (hroom : set.used < set.alloc)
    {kind : LookupKind} (hkind : kind.adds=true)
    (rehash : MpSet κ→Outcome (MpSet κ) Unit) (n : ℕ) :
    ∃ slot,setHashLookup keys rehash index kind (n+1) set=
        .done ⟨set.used+1,set.alloc,set.table.set slot (.full index)⟩ (.full index)∧
      Reached set.table (keys.hash index%set.table.length) slot∧
      (cellAt set.table slot).isFull=false := by
  obtain ⟨r,hr,ha⟩ := search_ends h (by omega) index
  rw [setHashLookup,hr]
  cases r with
  | key slot =>
    obtain ⟨_,k,hk,hmatch⟩ := ha
    have hequal : keys.equal k index=true := hmatch
    rw [habsent slot k hk] at hequal
    cases hequal
  | free slot => exact ⟨slot,if_pos hkind,ha.1,ha.2.1⟩
  | nowhere =>
    have hall := count_of_nowhere ha
    rw [←h.used_eq,←h.alloc_eq] at hall
    omega

theorem mpSetLookup_room (h : Stored keys set)
    (habsent : Absent keys.equal set.table index) (hroom : set.used < set.alloc)
    (mem : ℕ→Bool) (depth : ℕ) :
    ∃ slot,mpSetLookup keys mem (depth+1) set index .addIfNotFound=
        .done ⟨set.used+1,set.alloc,set.table.set slot (.full index)⟩ (.full index)∧
      Reached set.table (keys.hash index%set.table.length) slot∧
      (cellAt set.table slot).isFull=false := by
  have hpos : set.alloc≠0 := by omega
  rw [mpSetLookup]
  simp only [if_neg hpos]
  exact @setHashLookup_room _ keys set h index habsent hroom .addIfNotFound rfl _ depth

/-! ## A larger table -/

/-- New keys are added to a table with room for them. -/
theorem setReinsert_spec (mem : ℕ→Bool) (depth : ℕ) (cells : List (Cell κ)) :
    ∀ {set : MpSet κ},Stored keys set →
      (keysOf cells++elems set).Pairwise (fun a b => keys.equal a b=false) →
      set.used+count cells ≤ set.alloc →
      ∃ set',setReinsert (fun set key => mpSetLookup keys mem (depth+1) set key .addIfNotFound)
          cells set=.done set' ()∧Stored keys set'∧set'.alloc=set.alloc∧
        (elems set').Perm (keysOf cells++elems set) := by
  induction cells with
  | nil => exact fun h _ _ => ⟨_,rfl,h,rfl,List.Perm.refl _⟩
  | cons c cells ih =>
    intro set h hdiffer hroom
    cases c with
    | full k =>
      have hkeys : keysOf (.full k::cells)=k::keysOf cells := rfl
      have hcount : count (.full k::cells)=count cells+1 := List.countP_cons_of_pos rfl
      rw [hkeys,List.cons_append] at hdiffer
      rw [hcount] at hroom
      have hk : Absent keys.equal set.table k := (absent_equal_iff set k).mpr fun k' hk' => by
        have hfalse := (List.pairwise_cons.mp hdiffer).1 k' (List.mem_append_right _ hk')
        cases hequal : keys.equal k' k with
        | false => rfl
        | true =>
          rw [keys.equal_symm hequal] at hfalse
          cases hfalse
      obtain ⟨slot,hlookup,hreach,hfree⟩ := mpSetLookup_room h hk (by omega) mem depth
      obtain ⟨hstored,hperm⟩ := stored_add h hreach hfree hk
      have hmiddle : (keysOf cells++elems ⟨set.used+1,set.alloc,set.table.set slot (.full k)⟩).Perm
            (k::(keysOf cells++elems set)) :=
        (hperm.append_left _).trans List.perm_middle
      obtain ⟨set',hrest,hstored',halloc,hall⟩ := ih hstored
        (((laws_equal keys).pairwise_iff hmiddle).mpr hdiffer) (by
          show set.used+1+_ ≤ set.alloc
          omega)
      refine ⟨set',?_,hstored',halloc,hall.trans hmiddle⟩
      rw [setReinsert,hlookup]
      exact hrest
    | empty =>
      have hcount : count (.empty::cells)=count cells :=
        List.countP_cons_of_neg Bool.false_ne_true
      rw [hcount] at hroom
      exact ih h hdiffer hroom
    | deleted =>
      have hcount : count (.deleted::cells)=count cells :=
        List.countP_cons_of_neg Bool.false_ne_true
      rw [hcount] at hroom
      exact ih h hdiffer hroom

/-- A table is made larger and keeps its keys. -/
theorem mpSetRehash_spec (h : Stored keys set) {mem : ℕ→Bool}
    (hmem : mem (getHashAllocGreaterOrEqualTo (set.alloc+1))=true) (depth : ℕ) :
    ∃ set',mpSetRehash mem (fun set key =>
        mpSetLookup keys mem (depth+1) set key .addIfNotFound) set=.done set' ()∧
      Stored keys set'∧set'.used < set'.alloc∧(elems set').Perm (elems set) := by
  have hall : set.table.take set.alloc=set.table := by
    rw [h.alloc_eq]
    exact List.take_length
  have hsize := lt_getHashAlloc set.alloc
  have hle : set.used ≤ set.alloc := by
    rw [h.used_eq,h.alloc_eq]
    exact List.countP_le_length
  obtain ⟨hnew,hnone⟩ :=
    @stored_init _ keys (getHashAllocGreaterOrEqualTo (set.alloc+1))
  obtain ⟨set',hadd,hstored,halloc,hperm⟩ := setReinsert_spec mem depth set.table hnew (by
    rw [hnone,List.append_nil]
    exact h.pairwise) (by
      rw [←h.used_eq]
      show 0+set.used ≤ getHashAllocGreaterOrEqualTo (set.alloc+1)
      omega)
  rw [hnone,List.append_nil] at hperm
  refine ⟨set',?_,hstored,?_,hperm⟩
  · rw [mpSetRehash]
    simp only [hmem,if_true,hall]
    exact hadd
  · rw [hstored.used_length,hperm.length_eq,halloc,length_keysOf,←h.used_eq]
    show set.used < getHashAllocGreaterOrEqualTo (set.alloc+1)
    omega

/-! ## Lookups -/

theorem mpSetLookup_found (h : Stored keys set) {k : κ} {pos : ℕ}
    (hk : cellAt set.table pos=.full k) (hequal : keys.equal k index=true) (mem : ℕ→Bool)
    (kind : LookupKind) (depth : ℕ) :
    mpSetLookup keys mem (depth+1) set index kind=
      .done (if kind.removes then set.removeAt pos else set) (.full k) := by
  have halloc : set.alloc≠0 := by
    have hlt := lt_of_full hk
    rw [h.alloc_eq]
    omega
  rw [mpSetLookup]
  simp only [if_neg halloc]
  exact setHashLookup_found h hk hequal _ kind depth

/-- A lookup that does not add, of a key that is equal to none in the set. -/
theorem mpSetLookup_absent (h : Stored keys set)
    (habsent : Absent keys.equal set.table index) {kind : LookupKind}
    (hkind : kind.adds=false) (mem : ℕ→Bool) (depth : ℕ) :
    mpSetLookup keys mem (depth+1) set index kind=.done set .empty := by
  rw [mpSetLookup]
  simp only [hkind,Bool.false_eq_true,if_false]
  split
  case isTrue halloc => rfl
  case isFalse halloc =>
    obtain ⟨r,hr,ha⟩ := search_ends h (Nat.pos_of_ne_zero halloc) index
    rw [setHashLookup,hr]
    cases r with
    | key slot =>
      obtain ⟨_,k,hk,hmatch⟩ := ha
      have hequal : keys.equal k index=true := hmatch
      rw [habsent slot k hk] at hequal
      cases hequal
    | free slot => exact if_neg (by rw [hkind]; exact Bool.false_ne_true)
    | nowhere => exact if_neg (by rw [hkind]; exact Bool.false_ne_true)

/-- A lookup that adds an index that is equal to no key. -/
theorem mpSetLookup_new (h : Stored keys set)
    (habsent : Absent keys.equal set.table index) {mem : ℕ→Bool}
    (hmem : mem (getHashAllocGreaterOrEqualTo (set.alloc+1))=true) {kind : LookupKind}
    (hkind : kind.adds=true) (depth : ℕ) :
    ∃ set',mpSetLookup keys mem (depth+2) set index kind=.done set' (.full index)∧
      Stored keys set'∧(elems set').Perm (index::elems set) := by
  obtain ⟨larger,hlarger,hstored,hroom,hperm⟩ := mpSetRehash_spec h hmem depth
  have habsent' : Absent keys.equal larger.table index :=
    (absent_equal_iff larger index).mpr fun k hk =>
      (absent_equal_iff set index).mp habsent k (hperm.mem_iff.mp hk)
  rw [mpSetLookup]
  split
  case isTrue halloc =>
    obtain ⟨slot,hlookup,hreach,hfree⟩ := setHashLookup_room hstored habsent' hroom
      hkind (mpSetRehash mem fun set key =>
        mpSetLookup keys mem (depth+1) set key .addIfNotFound) (depth+1)
    obtain ⟨hadd,hkeys⟩ := stored_add hstored hreach hfree habsent'
    rw [hlarger]
    exact ⟨_,hlookup,hadd,hkeys.trans (hperm.cons index)⟩
  case isFalse halloc =>
    obtain ⟨r,hr,ha⟩ := search_ends h (Nat.pos_of_ne_zero halloc) index
    rw [setHashLookup,hr]
    cases r with
    | key slot =>
      obtain ⟨_,k,hk,hmatch⟩ := ha
      have hequal : keys.equal k index=true := hmatch
      rw [habsent slot k hk] at hequal
      cases hequal
    | free slot => exact ⟨_,if_pos hkind,stored_add h ha.1 ha.2.1 habsent⟩
    | nowhere =>
      obtain ⟨slot,hlookup,hreach,hfree⟩ := setHashLookup_room hstored habsent'
        hroom hkind (mpSetRehash mem fun set key =>
          mpSetLookup keys mem (depth+1) set key .addIfNotFound) depth
      obtain ⟨hadd,hkeys⟩ := stored_add hstored hreach hfree habsent'
      simp only [hkind,if_true,hlarger]
      exact ⟨_,hlookup,hadd,hkeys.trans (hperm.cons index)⟩

end Tables

/-! ## Sets -/

variable {κ : Type} [DecidableEq κ] (keys : Keys κ)

/-- A key is in the set. -/
def Member (set : MpSet κ) (x : κ) : Prop :=
  ∃ pos k,cellAt set.table pos=.full k∧keys.same k x=true

/-- The table of a set is as it should be, and no key is in two slots. -/
structure Represents (set : MpSet κ) : Prop where
  /-- `alloc` is the number of slots. -/
  alloc_eq : set.alloc=set.table.length
  /-- `used` is the number of keys. -/
  used_eq : set.used=count set.table
  /-- The keys are where a search finds them. -/
  proper : Proper keys.hash keys.same set.table

variable {keys}

theorem absent_iff (set : MpSet κ) (x : κ) : Absent keys.same set.table x↔¬Member keys set x := by
  constructor
  · rintro h ⟨pos,k,hk,hsame⟩
    rw [h pos k hk] at hsame
    cases hsame
  · intro h pos k hk
    cases hsame : keys.same k x with
    | false => rfl
    | true => exact absurd ⟨pos,k,hk,hsame⟩ h

theorem same_of_equal {a b : κ} (h : keys.equal a b=true) : keys.same a b=true := by
  rw [Keys.same,h,Bool.or_true]

variable {set : MpSet κ}

/-- What no key is the same as is equal to none. -/
theorem absent_equal {x : κ} (h : Absent keys.same set.table x) :
    Absent keys.equal set.table x := by
  intro pos k hk
  cases hequal : keys.equal k x with
  | false => rfl
  | true =>
    have hfalse := h pos k hk
    rw [same_of_equal hequal] at hfalse
    cases hfalse

theorem represents_init (n : ℕ) : Represents keys (mpSetInit n) :=
  ⟨List.length_replicate.symm,(count_replicate n).symm,proper_replicate keys.hash keys.same n⟩

/-! ## The keys of a set -/

theorem Represents.stored (h : Represents keys set) : Stored keys set :=
  ⟨h.alloc_eq,h.used_eq,h.proper.reached,fun h1 h2 hequal =>
    h.proper.distinct h1 h2 (same_of_equal hequal)⟩

theorem member_iff (set : MpSet κ) (x : κ) :
    Member keys set x↔∃ k∈elems set,keys.same k x=true := by
  simp only [Member,elems,mem_keysOf]
  constructor
  · rintro ⟨pos,k,hk,hsame⟩
    exact ⟨k,⟨pos,hk⟩,hsame⟩
  · rintro ⟨k,⟨pos,hk⟩,hsame⟩
    exact ⟨pos,k,hk,hsame⟩

theorem Stored.represents (h : Stored keys set)
    (hdiffer : (elems set).Pairwise fun a b => keys.same a b=false) : Represents keys set :=
  ⟨h.alloc_eq,h.used_eq,h.proper.reached,(distinct_iff (laws_same keys) set.table).mpr hdiffer⟩

theorem Represents.pairwise (h : Represents keys set) :
    (elems set).Pairwise fun a b => keys.same a b=false :=
  (distinct_iff (laws_same keys) set.table).mp h.proper.distinct

/-! ## Changes of one slot -/

/-- A key is taken out of its slot. -/
theorem represents_removeAt (h : Represents keys set) {slot : ℕ} {k : κ}
    (hk : cellAt set.table slot=.full k) :
    Represents keys (set.removeAt slot)∧(set.removeAt slot).used+1=set.used := by
  have hc := vacates_vacated set.table slot
  rw [←h.alloc_eq] at hc
  have hcount := count_remove hk hc.isFull_eq
  have hused := h.used_eq
  refine ⟨⟨?_,?_,?_⟩,?_⟩
  · rw [MpSet.removeAt,List.length_set]
    exact h.alloc_eq
  · show set.used-1=count (set.table.set slot (vacated set.table set.alloc slot))
    omega
  · exact proper_remove h.proper hk hc
  · show set.used-1+1=set.used
    omega

/-- What a set has after a key was taken out. -/
theorem member_removeAt {set : MpSet κ} (h : Represents keys set) {slot : ℕ} {k : κ}
    (hk : cellAt set.table slot=.full k) (x : κ) :
    Member keys (set.removeAt slot) x↔Member keys set x∧keys.same k x=false := by
  have laws := laws_same keys
  have hslot := lt_of_full hk
  constructor
  · rintro ⟨pos,k',hk',hsame⟩
    rw [MpSet.removeAt] at hk'
    cases Decidable.em (slot=pos) with
    | inl heq =>
      rw [←heq,cellAt_set_self hslot,vacated] at hk'
      split at hk' <;> cases hk'
    | inr hne =>
      rw [cellAt_set_ne hne] at hk'
      refine ⟨⟨pos,k',hk',hsame⟩,?_⟩
      cases hkx : keys.same k x with
      | false => rfl
      | true =>
        exact absurd (h.proper.distinct hk hk' (laws.trans hkx (laws.symm hsame))) hne
  · rintro ⟨⟨pos,k',hk',hsame⟩,hkx⟩
    refine ⟨pos,k',?_,hsame⟩
    rw [MpSet.removeAt]
    rw [cellAt_set_ne]
    · exact hk'
    · rintro rfl
      rw [hk] at hk'
      cases hk'
      rw [hkx] at hsame
      cases hsame

/-- What a set has after an index was added to it that was equal to no key. -/
structure Added (keys : Keys κ) (set set' : MpSet κ) (index : κ) : Prop where
  /-- It has one key more. -/
  used_eq : set'.used=set.used+1
  represents : Absent keys.same set.table index → Represents keys set'
  /-- It has what it had, and the index. -/
  member : ∀ x,Member keys set' x↔Member keys set x∨keys.same index x=true

/-- A lookup that adds a key that is equal to none in the set. -/
theorem mpSetLookup_add {set : MpSet κ} (h : Represents keys set) {index : κ}
    (habsent : Absent keys.equal set.table index) {mem : ℕ→Bool}
    (hmem : mem (getHashAllocGreaterOrEqualTo (set.alloc+1))=true) {kind : LookupKind}
    (hkind : kind.adds=true) (depth : ℕ) :
    ∃ set',mpSetLookup keys mem (depth+2) set index kind=.done set' (.full index)∧
      Added keys set set' index := by
  obtain ⟨set',hlookup,hstored,hperm⟩ := mpSetLookup_new h.stored habsent hmem hkind depth
  refine ⟨set',hlookup,?_,fun hnone => hstored.represents ?_,fun x => ?_⟩
  · rw [hstored.used_length,hperm.length_eq,h.stored.used_length,List.length_cons]
  · refine ((laws_same keys).pairwise_iff (hperm.trans (List.perm_append_singleton ..).symm)).mpr
      (List.pairwise_append.mpr ⟨h.pairwise,List.pairwise_singleton ..,fun k hk k' hk' => ?_⟩)
    obtain ⟨pos,hat⟩ := mem_keysOf.mp hk
    rw [List.mem_singleton.mp hk']
    exact hnone pos k hat
  · rw [member_iff,member_iff,or_comm]
    simp only [hperm.mem_iff,List.mem_cons,exists_eq_or_imp]

end MicroPython.HashedSet
