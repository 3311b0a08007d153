import MicroPython.HashedSet
import MicroPython.InputMachine

/-!
# Maps and sets over runs

A hash table behaves as a finite map over every run of lookups, additions and
removals. A set behaves as a finite set as long as no object that is not equal to
itself is looked up while it is in the set: the table of a map also compares
addresses, that of a set does not.
-/

namespace MicroPython.MapFaithful

open OpenAddressing MapTable HashedMap InputMachine

variable {κ ν : Type} [DecidableEq κ] (keys : Keys κ)

/-! ## Maps -/

/-- What is done with a map. -/
inductive MapOp (κ ν : Type) where
  | lookup (k : κ)
  /-- A key is added if it is not found, and the value of its slot is made of the one that
  is there. -/
  | add (k : κ) (store : Option ν→Option ν)
  | remove (k : κ)

/-- An operation on a map, with the value of the slot when there is one. -/
def MapOp.step (depth : ℕ) (map : MpMap κ ν) (op : MapOp κ ν) :
    Except Failure (MpMap κ ν×Option (Option ν)) :=
  returned <| match op with
  | .lookup k => (mpMapLookup keys plenty depth map k .lookup).andThen fun map slot =>
      .done map (slot.map map.valueAt)
  | .add k store => (mpMapLookup keys plenty depth map k .addIfNotFound).andThen fun map slot =>
      match slot with
      | none => .stuck
      | some slot =>
        .done (map.setValue slot (store (map.valueAt slot))) (some (map.valueAt slot))
  | .remove k => (mpMapLookup keys plenty depth map k .removeIfFound).andThen fun map slot =>
      .done map (slot.map map.valueAt)

/-- A finite map: the value that was last stored for a key since it was last removed. -/
def Content (κ ν : Type) : Type := κ→Option (Option ν)

/-- The finite map after an operation. -/
def Content.next (c : Content κ ν) : MapOp κ ν → Content κ ν
  | .lookup _ => c
  | .add k store => fun x => if keys.same k x then some (store ((c k).getD none)) else c x
  | .remove k => fun x => if keys.same k x then none else c x

/-- The value that a finite map has for the key of an operation. -/
def Content.answer (c : Content κ ν) : MapOp κ ν→Option (Option ν)
  | .lookup k => c k
  | .add k _ => some ((c k).getD none)
  | .remove k => c k

/-- The finite map after operations, and its answers to them. -/
def Content.run (c : Content κ ν) : List (MapOp κ ν) → Content κ ν×List (Option (Option ν))
  | [] => (c,[])
  | op::ops => ((c.next keys op).run ops).map id (c.answer op::·)

/-- A table stands for a finite map. -/
structure Models (map : MpMap κ ν) (c : Content κ ν) : Prop where
  /-- The table is as it should be. -/
  represents : Represents keys map
  holds : ∀ x v,Holds keys map x v↔c x=some v

variable {keys}

variable {k : κ}

/-- Two keys that are the same compare in the same way. -/
theorem same_congr {k' : κ} (h : keys.same k' k=true) (x : κ) : keys.same k' x=keys.same k x := by
  have laws := laws_same keys
  cases hx : keys.same k x with
  | true => exact laws.trans h hx
  | false =>
    cases hx' : keys.same k' x with
    | false => rfl
    | true =>
      rw [laws.trans (laws.symm h) hx'] at hx
      cases hx

variable {map : MpMap κ ν}

variable {c : Content κ ν}

theorem Models.eq_none (h : Models keys map c)
    (habsent : Absent keys.same map.cells k) : c k=none := by
  cases hc : c k with
  | none => rfl
  | some v => exact absurd ((h.holds k v).mpr hc) ((absent_iff keys map k).mp habsent v)

theorem Models.eq_value (h : Models keys map c) {k' : κ}
    {pos : ℕ} (hk : cellAt map.cells pos=.full k') (hsame : keys.same k' k=true) :
    c k=some (map.valueAt pos) := by
  refine (h.holds k (map.valueAt pos)).mp ⟨pos,k',?_,hsame⟩
  rw [cellAt_cells] at hk
  rw [←hk]
  rfl

/-- A lookup finds what the finite map has. -/
theorem lookup_models (h : Models keys map c) (depth : ℕ) (k : κ) :
    (MapOp.lookup k).step keys (depth+2) map=.ok (map,c k) := by
  rw [MapOp.step]
  cases @absent_or_found _ _ keys _ map k with
  | inl habsent =>
    have hkind : LookupKind.lookup≠.addIfNotFound := by decide
    rw [mpMapLookup_absent h.represents habsent hkind,h.eq_none habsent]
    rfl
  | inr hfound =>
    obtain ⟨pos,k',hk,hsame⟩ := hfound
    rw [mpMapLookup_found h.represents hk hsame,h.eq_value hk hsame]
    rfl

/-- A lookup that adds has a slot for its key, with the value that is there, and a value that is
written to the slot is stored for the key. -/
theorem mpMapLookup_adds (h : Models keys map c) (depth : ℕ) (k : κ) :
    ∃ map' slot,mpMapLookup keys plenty (depth+2) map k .addIfNotFound=.done map' (some slot)∧
      map'.valueAt slot=(c k).getD none∧
      ∀ v,Models keys (map'.setValue slot v) fun x => if keys.same k x then some v else c x := by
  cases @absent_or_found _ _ keys _ map k with
  | inl habsent =>
    obtain ⟨map',slot,hlookup,hadded⟩ :=
      @mpMapLookup_add _ _ keys map _ k plenty h.represents habsent rfl depth
    refine ⟨map',slot,hlookup,?_,fun v => ⟨represents_setValue hadded.represents _ _,
      fun x w => ?_⟩⟩
    · rw [hadded.value_eq,h.eq_none habsent]
      rfl
    · rw [holds_setValue hadded.represents hadded.key_eq,hadded.holds,h.holds]
      cases hsame : keys.same k x with
      | true =>
        rw [if_pos rfl]
        constructor
        · intro hor
          cases hor with
          | inl hnew => rw [hnew.2]
          | inr hold => cases hold.1
        · exact fun heq => .inl ⟨rfl,(Option.some.inj heq).symm⟩
      | false =>
        rw [if_neg Bool.false_ne_true]
        constructor
        · intro hor
          cases hor with
          | inl hnew => cases hnew.1
          | inr hold =>
            cases hold.2 with
            | inl hnew => cases hnew.1
            | inr hc => exact hc
        · exact fun hc => .inr ⟨rfl,.inr hc⟩
  | inr hfound =>
    obtain ⟨pos,k',hk,hsame⟩ := hfound
    refine ⟨map,pos,mpMapLookup_found h.represents hk hsame plenty _ (depth+1),?_,
      fun v => ⟨represents_setValue h.represents _ _,fun x w => ?_⟩⟩
    · rw [h.eq_value hk hsame]
      rfl
    · rw [holds_setValue h.represents hk,h.holds,same_congr hsame x]
      cases hkx : keys.same k x with
      | true =>
        rw [if_pos rfl]
        constructor
        · intro hor
          cases hor with
          | inl hnew => rw [hnew.2]
          | inr hold => cases hold.1
        · exact fun heq => .inl ⟨rfl,(Option.some.inj heq).symm⟩
      | false =>
        rw [if_neg Bool.false_ne_true]
        constructor
        · intro hor
          cases hor with
          | inl hnew => cases hnew.1
          | inr hold => exact hold.2
        · exact fun hc => .inr ⟨rfl,hc⟩

/-- A value is stored for a key, whether it was there or not. -/
theorem add_models (h : Models keys map c) (depth : ℕ) (k : κ) (store : Option ν→Option ν) :
    ∃ map',(MapOp.add k store).step keys (depth+2) map=.ok (map',some ((c k).getD none))∧
      Models keys map' (c.next keys (.add k store)) := by
  obtain ⟨map',slot,hlookup,hvalue,hstored⟩ := mpMapLookup_adds h depth k
  refine ⟨_,?_,hstored (store ((c k).getD none))⟩
  rw [MapOp.step,hlookup,←hvalue]
  rfl

/-- What a lookup that removes does to a table and the finite map of it. -/
structure Removes (keys : Keys κ) (map map' : MpMap κ ν) (c : Content κ ν) (k : κ)
    (slot : ℕ) : Prop where
  /-- The slot has no key any more. -/
  free : (cellAt map'.cells slot).isFull=false
  value_eq : c k=some (map'.valueAt slot)
  /-- The others are still there. -/
  models : Models keys map' fun x => if keys.same k x then none else c x

/-- A lookup that removes finds its key exactly when it is there, and takes it out. -/
theorem mpMapLookup_removes (h : Models keys map c) (depth : ℕ) (k : κ) :
    (c k=none∧mpMapLookup keys plenty (depth+2) map k .removeIfFound=.done map none)∨
      ∃ map' slot,mpMapLookup keys plenty (depth+2) map k .removeIfFound=.done map' (some slot)∧
        Removes keys map map' c k slot := by
  cases @absent_or_found _ _ keys _ map k with
  | inl habsent =>
    have hkind : LookupKind.removeIfFound≠.addIfNotFound := by decide
    exact .inl ⟨h.eq_none habsent,mpMapLookup_absent h.represents habsent hkind plenty (depth+1)⟩
  | inr hfound =>
    obtain ⟨pos,k',hk,hsame⟩ := hfound
    have hslot : pos < map.table.length := length_cells map▸lt_of_full hk
    have hat := @slotAt_removeAt _ ν map pos hslot pos
    rw [if_pos rfl] at hat
    refine .inr ⟨removeAt map pos,pos,?_,?_,?_,represents_removeAt h.represents hk,
      fun x v => ?_⟩
    · rw [mpMapLookup_found h.represents hk hsame]
      rfl
    · have hc := (vacates_vacated map.cells pos).isFull_eq
      rw [h.represents.length_eq] at hc
      rw [cellAt_cells,hat]
      exact hc
    · have hvalue : (slotAt (removeAt map pos) pos).value=(slotAt map pos).value := by rw [hat]
      rw [h.eq_value hk hsame]
      exact congrArg some hvalue.symm
    · rw [holds_removeAt h.represents hk,h.holds,same_congr hsame x]
      cases hkx : keys.same k x with
      | true =>
        rw [if_pos rfl]
        refine iff_of_false (fun hand => ?_) (fun hnone => nomatch hnone)
        cases hand.1
      | false =>
        rw [if_neg Bool.false_ne_true]
        exact and_iff_right rfl

/-- A finite map of which a key that is not there is removed. -/
theorem Models.remove_none (h : Models keys map c)
    (hk : c k=none) : (fun x => if keys.same k x then none else c x)=c := by
  have laws := laws_same keys
  funext x
  cases hsame : keys.same k x with
  | false => exact if_neg Bool.false_ne_true
  | true =>
    rw [if_pos rfl]
    cases hx : c x with
    | none => rfl
    | some v =>
      obtain ⟨pos,k',hslot,hk'⟩ := (h.holds x v).mpr hx
      have hkey : cellAt map.cells pos=.full k' := by rw [cellAt_cells,hslot]
      rw [h.eq_value hkey (laws.trans hk' (laws.symm hsame))] at hk
      cases hk

theorem remove_models (h : Models keys map c) (depth : ℕ) (k : κ) :
    ∃ map',(MapOp.remove k).step keys (depth+2) map=.ok (map',c k)∧
      Models keys map' (c.next keys (.remove k)) := by
  rw [MapOp.step,Content.next]
  cases mpMapLookup_removes h depth k with
  | inl habsent =>
    rw [habsent.2,habsent.1,h.remove_none habsent.1]
    exact ⟨map,rfl,h⟩
  | inr hfound =>
    obtain ⟨map',slot,hlookup,hremoves⟩ := hfound
    rw [hlookup,hremoves.value_eq]
    exact ⟨map',rfl,hremoves.models⟩

/-- An operation on a table does what it does on the finite map. -/
theorem step_models (h : Models keys map c) (depth : ℕ) (op : MapOp κ ν) :
    ∃ map',op.step keys (depth+2) map=.ok (map',c.answer op)∧Models keys map' (c.next keys op) := by
  cases op with
  | lookup k => exact ⟨map,lookup_models h depth k,h⟩
  | add k store => exact add_models h depth k store
  | remove k => exact remove_models h depth k

/-- Operations on a table do what they do on the finite map. -/
theorem run_models (depth : ℕ) (ops : List (MapOp κ ν)) :
    ∀ {map : MpMap κ ν} {c : Content κ ν},Models keys map c →
      ∃ map',run (MapOp.step keys (depth+2)) map ops=.ok (map',(c.run keys ops).2)∧
        Models keys map' (c.run keys ops).1 := by
  induction ops with
  | nil => exact fun h => ⟨_,rfl,h⟩
  | cons op ops ih =>
    intro map c h
    obtain ⟨map',hstep,hnext⟩ := step_models h depth op
    obtain ⟨map'',hrest,hend⟩ := ih hnext
    exact ⟨map'',run_cons_eq_ok.mpr ⟨map',_,_,hstep,hrest,rfl⟩,hend⟩

/-- A new table has nothing. -/
theorem models_init (n : ℕ) : Models keys (mpMapInit n : MpMap κ ν) fun _ => none :=
  ⟨represents_init n,fun x v => iff_of_false (holds_null rfl x v) fun h => nomatch h⟩

/-! ## Sets -/

open HashedSet (Member)

/-- What is done with a set. -/
inductive SetOp (κ : Type) where
  /-- `mp_set_lookup` -/
  | lookup (kind : LookupKind) (k : κ)
  /-- `mp_set_remove_first` -/
  | removeFirst

/-- An operation on a set, with the key that it returns. -/
def SetOp.step (keys : Keys κ) (depth : ℕ) (set : MpSet κ) : SetOp κ→Except Failure (MpSet κ×Cell κ)
  | .lookup kind k => returned (mpSetLookup keys plenty depth set k kind)
  | .removeFirst => .ok (mpSetRemoveFirst set)

/-- A key was taken out of a set. -/
def TakenOut (keys : Keys κ) (set set' : MpSet κ) (k : κ) : Prop :=
  set'.used+1=set.used∧∀ x,Member keys set' x↔Member keys set x∧keys.same k x=false

/-- A key was put into a set. -/
def PutIn (keys : Keys κ) (set set' : MpSet κ) (k : κ) : Prop :=
  set'.used=set.used+1∧∀ x,Member keys set' x↔Member keys set x∨keys.same k x=true

/-- What an operation does on a finite set. A key that is in the set is found, and taken
out if that is asked for, and one that is not is put in if that is asked for. -/
def Effect (keys : Keys κ) (set set' : MpSet κ) (result : Cell κ) : SetOp κ→Prop
  | .lookup kind k =>
    (Member keys set k → (∃ k',result=.full k'∧keys.same k' k=true)∧
      if kind.removes then TakenOut keys set set' k else set'=set)∧
    (¬Member keys set k →
      if kind.adds then result=.full k∧PutIn keys set set' k else result=.empty∧set'=set)
  | .removeFirst =>
    (∃ k,result=.full k∧Member keys set k∧TakenOut keys set set' k)∨
      (result=.empty∧set'=set∧∀ x,¬Member keys set x)

/-- An operation returns and does what it does on a finite set, and the table is as it
should be. -/
def SetFaithful (keys : Keys κ) (depth : ℕ) (set : MpSet κ) (op : SetOp κ) : Prop :=
  ∃ set' result,op.step keys depth set=.ok (set',result)∧
    HashedSet.Represents keys set'∧Effect keys set set' result op

/-- A key that is in the set is equal to itself. -/
def SetSound (keys : Keys κ) (set : MpSet κ) : SetOp κ→Prop
  | .lookup _ k => Member keys set k → keys.equal k k=true
  | .removeFirst => True

theorem equal_of_member {set : MpSet κ} (hmember : Member keys set k)
    (hself : keys.equal k k=true) :
    ∃ pos k',cellAt set.table pos=.full k'∧keys.equal k' k=true := by
  obtain ⟨pos,k',hk',hsame⟩ := hmember
  refine ⟨pos,k',hk',?_⟩
  rw [Keys.same,Bool.or_eq_true,decide_eq_true_iff] at hsame
  cases hsame with
  | inl heq =>
    rw [heq]
    exact hself
  | inr hequal => exact hequal

variable {set : MpSet κ}

section

variable (h : HashedSet.Represents keys set) (depth : ℕ)
include h

/-- A lookup that is sound does what it does on a finite set. -/
theorem lookup_faithful (kind : LookupKind)
    (k : κ) (hsound : SetSound keys set (.lookup kind k)) :
    SetFaithful keys (depth+2) set (.lookup kind k) := by
  cases Classical.em (Member keys set k) with
  | inl hmember =>
    obtain ⟨pos,k',hk',hequal⟩ := equal_of_member hmember (hsound hmember)
    have hsame := HashedSet.same_of_equal hequal
    have hlookup := HashedSet.mpSetLookup_found h.stored hk' hequal plenty kind (depth+1)
    refine ⟨_,_,by rw [SetOp.step,hlookup]; rfl,?_,fun _ => ⟨⟨k',rfl,hsame⟩,?_⟩,
      fun hnot => absurd hmember hnot⟩
    · cases kind.removes with
      | false => exact h
      | true => exact (HashedSet.represents_removeAt h hk').1
    · cases kind.removes with
      | false => exact if_neg Bool.false_ne_true
      | true =>
        refine ⟨(HashedSet.represents_removeAt h hk').2,fun x => ?_⟩
        have hremoved := @HashedSet.member_removeAt _ _ keys set h pos k' hk' x
        rw [same_congr hsame x] at hremoved
        exact hremoved
  | inr hmember =>
    have habsent := (HashedSet.absent_iff set k).mpr hmember
    have hnone := HashedSet.absent_equal habsent
    cases hadds : kind.adds with
    | false =>
      have hlookup := HashedSet.mpSetLookup_absent h.stored hnone hadds plenty (depth+1)
      refine ⟨set,.empty,by rw [SetOp.step,hlookup]; rfl,h,fun hin => absurd hin hmember,
        fun _ => ?_⟩
      rw [hadds]
      exact ⟨rfl,rfl⟩
    | true =>
      obtain ⟨set',hlookup,hadded⟩ := @HashedSet.mpSetLookup_add _ _ keys set h k hnone plenty
        rfl kind hadds depth
      refine ⟨set',.full k,by rw [SetOp.step,hlookup]; rfl,hadded.represents habsent,
        fun hin => absurd hin hmember,fun _ => ?_⟩
      rw [hadds]
      exact ⟨rfl,hadded.used_eq,hadded.member⟩

/-- A lookup of a key that is in the set and not equal to itself does not. -/
theorem lookup_not_faithful
    (kind : LookupKind) {k : κ} (hmember : Member keys set k)
    (hself : ¬keys.equal k k=true) : ¬SetFaithful keys (depth+2) set (.lookup kind k) := by
  rintro ⟨set',result,hstep,_,heffect,_⟩
  obtain ⟨⟨k',hresult,_⟩,hafter⟩ := heffect hmember
  have hnone := @absent_of_not_self _ keys set.table k hself
  cases hadds : kind.adds with
  | false =>
    rw [SetOp.step,HashedSet.mpSetLookup_absent h.stored hnone hadds] at hstep
    cases hstep
    cases hresult
  | true =>
    obtain ⟨set'',hlookup,hadded⟩ := @HashedSet.mpSetLookup_add _ _ keys set h k hnone plenty
      rfl kind hadds depth
    rw [SetOp.step,hlookup] at hstep
    cases hstep
    have hused := hadded.used_eq
    cases hremoves : kind.removes with
    | false =>
      rw [hremoves,if_neg Bool.false_ne_true] at hafter
      rw [hafter] at hused
      omega
    | true =>
      rw [hremoves,if_pos rfl] at hafter
      have hless := hafter.1
      omega

/-- The first key is taken out. -/
theorem removeFirst_faithful :
    SetFaithful keys depth set .removeFirst := by
  have hall : set.table.take set.alloc=set.table := by
    rw [h.alloc_eq]
    exact List.take_length
  cases hfind : (set.table.take set.alloc).findIdx? Cell.isFull with
  | none =>
    refine ⟨set,.empty,by simp only [SetOp.step,mpSetRemoveFirst,hfind],h,.inr ⟨rfl,rfl,?_⟩⟩
    rintro x ⟨pos,k,hk,_⟩
    have hfalse := List.findIdx?_eq_none_iff.mp hfind (.full k) (by
      rw [hall,←hk,cellAt_eq_getElem (lt_of_full hk)]
      exact List.getElem_mem _)
    cases hfalse
  | some pos =>
    obtain ⟨hlt,hfull,_⟩ := List.findIdx?_eq_some_iff_getElem.mp hfind
    have hpos : pos < set.table.length := by
      rw [hall] at hlt
      exact hlt
    have hcell : (cellAt set.table pos).isFull=true := by
      rw [cellAt_eq_getElem hpos]
      rw [List.getElem_take] at hfull
      exact hfull
    cases hk : cellAt set.table pos with
    | empty =>
      rw [hk] at hcell
      cases hcell
    | deleted =>
      rw [hk] at hcell
      cases hcell
    | full k =>
      have hremoved := HashedSet.represents_removeAt h hk
      refine ⟨set.removeAt pos,.full k,by simp only [SetOp.step,mpSetRemoveFirst,hfind,hk],
        hremoved.1,.inl ⟨k,rfl,⟨pos,k,hk,same_refl keys k⟩,hremoved.2,?_⟩⟩
      exact HashedSet.member_removeAt h hk

/-- An operation does what it does on a finite set exactly when it is sound. -/
theorem setFaithful_iff (op : SetOp κ) :
    SetFaithful keys (depth+2) set op↔SetSound keys set op := by
  cases op with
  | removeFirst => exact iff_of_true (removeFirst_faithful h (depth+2)) trivial
  | lookup kind k =>
    refine ⟨fun hfaithful hmember => ?_,lookup_faithful h depth kind k⟩
    cases Decidable.em (keys.equal k k=true) with
    | inl hself => exact hself
    | inr hself => exact absurd hfaithful (lookup_not_faithful h depth kind hmember hself)

end

/-- Objects: a float that is not a number, and integers. -/
inductive Object where
  /-- `float('nan')` -/
  | notANumber
  | smallInt (n : ℕ)
  deriving DecidableEq

/-- `mp_obj_equal`, which holds of no object and one that is not a number. -/
def Object.equal : Object→Object→Bool
  | .smallInt m,.smallInt n => decide (m=n)
  | _,_ => false

theorem Object.eq_of_equal {a b : Object} (h : a.equal b=true) : a=b := by
  cases a with
  | notANumber => cases h
  | smallInt m =>
    cases b with
    | notANumber => cases h
    | smallInt n => exact congrArg smallInt (of_decide_eq_true h)

/-- Floats and integers as keys. -/
def objectKeys : Keys Object where
  isQstr _ := false
  isStr _ := false
  hash
    | .notANumber => 0
    | .smallInt n => n
  equal := Object.equal
  equal_symm := fun h => Object.eq_of_equal h▸h
  equal_trans := fun h h' => Object.eq_of_equal h▸h'
  hash_eq := fun h => by rw [Object.eq_of_equal h]
  qstr_eq := fun h => nomatch h
  str_only := fun h => nomatch h

/-- The set with one object that is not a number. -/
def oneNan : MpSet Object := ⟨1,2,[.full .notANumber,.empty]⟩

end MicroPython.MapFaithful
