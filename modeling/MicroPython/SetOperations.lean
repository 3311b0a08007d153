import MicroPython.HashedSet
import MicroPython.Slices
import Mathlib.Data.List.Count
import Mathlib.Data.List.Dedup

/-!
# Operations on sets

The methods of sets go over an iterable and look each item up in a table. Those that compare
first make a set of an iterable that is none.
-/

namespace MicroPython.SetOperations

open OpenAddressing MapTable HashedMap HashedSet
open Slices (wrap)

variable {κ : Type} (keys : Keys κ)

/-- What a method of a set is given. -/
inductive Iterable (κ : Type) where
  /-- An object that is no set, with the items that it gives. -/
  | items (xs : List κ)
  | set (other : MpSet κ)
  | self

/-- The items that are given. -/
def Iterable.elems (set : MpSet κ) : Iterable κ→List κ
  | .items xs => xs
  | .set other => HashedSet.elems other
  | .self => HashedSet.elems set

/-- The argument of a method that changes a copy of the set. -/
def Iterable.detach (set : MpSet κ) : Iterable κ→Iterable κ
  | .self => .set set
  | arg => arg

/-- `mp_set_lookup`, with the memory it needs. -/
def lookup (kind : LookupKind) (set : MpSet κ) (x : κ) : Outcome (MpSet κ) (Cell κ) :=
  mpSetLookup keys plenty 2 set x kind

/-- A loop over items that does something to a set. -/
def forItems (f : MpSet κ→κ→Outcome (MpSet κ) (Cell κ)) : List κ→MpSet κ→Outcome (MpSet κ) Unit
  | [],set => .done set ()
  | x::xs,set => (f set x).andThen fun set _ => forItems f xs set

/-- `set_it_iternext`: the next slot with a key, and the key. -/
def setItIternext (set : MpSet κ) (cur : ℕ) : Option (ℕ×κ) :=
  ((List.range set.alloc).drop cur).findSome? fun i =>
    (keyOf (cellAt set.table i)).map fun k => (i,k)

/-- A loop over the set itself that changes it. The fuel bounds its turns. -/
def forSelf (f : MpSet κ→κ→Outcome (MpSet κ) (Cell κ)) : ℕ→ℕ→MpSet κ→Outcome (MpSet κ) Unit
  | 0,_,_ => .stuck
  | n+1,cur,set =>
    match setItIternext set cur with
    | none => .done set ()
    | some (i,k) => (f set k).andThen fun set _ => forSelf f n (i+1) set

/-- A loop over an iterable. -/
def forEach (fuel : ℕ) (f : MpSet κ→κ→Outcome (MpSet κ) (Cell κ)) (set : MpSet κ) :
    Iterable κ→Outcome (MpSet κ) Unit
  | .items xs => forItems f xs set
  | .set other => forItems f (HashedSet.elems other) set
  | .self => forSelf f fuel 0 set

/-- `set_make_new` of an iterable. -/
def setMakeNew (xs : List κ) : Outcome (MpSet κ) Unit :=
  forItems (lookup keys .addIfNotFound) xs (mpSetInit 0)

/-- `set_diff_int` -/
def setDiffInt (fuel : ℕ) (set : MpSet κ) (arg : Iterable κ) (update : Bool) :
    Outcome (MpSet κ) Unit :=
  match if update then arg else arg.detach set with
  | .self => .done mpSetClear ()
  | arg => forEach fuel (lookup keys .removeIfFound) set arg

/-- `set_intersect_int`: the set that is returned or that takes the place of the first. -/
def setIntersectInt (fuel : ℕ) (set : MpSet κ) : Iterable κ→Outcome (MpSet κ) Unit
  | .self => .done set ()
  | arg => forEach fuel (fun out next =>
      match lookup keys .lookup set next with
      | .done _ found => if found.isFull then lookup keys .addIfNotFound out next
        else .done out .empty
      | .raised _ => .raised out
      | .stuck => .stuck) (mpSetInit 0) arg

/-- `set_symmetric_difference_update` -/
def setSymmetricDifferenceUpdate (fuel : ℕ) (set : MpSet κ) (arg : Iterable κ) :
    Outcome (MpSet κ) Unit :=
  forEach fuel (lookup keys .addIfNotFoundOrRemoveIfFound) set arg

/-- `set_update_int` -/
def setUpdateInt (fuel : ℕ) (set : MpSet κ) (arg : Iterable κ) : Outcome (MpSet κ) Unit :=
  forEach fuel (lookup keys .addIfNotFound) set arg

/-- The methods that make a set or change theirs. -/
inductive Combine where
  /-- `difference` and `difference_update` -/
  | difference
  /-- `intersection` and `intersection_update` -/
  | intersection
  /-- `symmetric_difference` and `symmetric_difference_update` -/
  | symmetricDifference
  /-- `union` and `update` -/
  | union
  deriving DecidableEq

/-- The set that is made, or that is left when the set is changed. -/
def Combine.run (fuel : ℕ) (set : MpSet κ) (arg : Iterable κ) (update : Bool) :
    Combine→Outcome (MpSet κ) Unit
  | .difference => setDiffInt keys fuel set arg update
  | .intersection => setIntersectInt keys fuel set arg
  | .symmetricDifference =>
    setSymmetricDifferenceUpdate keys fuel set (if update then arg else arg.detach set)
  | .union => setUpdateInt keys fuel set (if update then arg else arg.detach set)

/-- The loop of `set_issubset_internal` over the keys of a set. -/
def allFound (other : MpSet κ) : List κ→Outcome (MpSet κ) Bool
  | [] => .done other true
  | k::ks => (lookup keys .lookup other k).andThen fun other found =>
    if found.isFull then allFound other ks else .done other false

/-- `set_issubset_internal` of two sets. -/
def setIssubsetInternal (self other : MpSet κ) (proper : Bool) : Outcome (MpSet κ) Bool :=
  if proper∧self.used=other.used then .done other false
  else allFound keys other (HashedSet.elems self)

/-- A set is made of an iterable that is none. -/
def asSet (set : MpSet κ) : Iterable κ→Outcome (MpSet κ) Unit
  | .items xs => setMakeNew keys xs
  | .set other => .done other ()
  | .self => .done set ()

/-- `set_equal` of two sets. -/
def equalSets (set other : MpSet κ) : Outcome (MpSet κ) Bool :=
  if set.used≠other.used then .done other false
  else setIssubsetInternal keys set other false

/-- The methods that compare. -/
inductive Compare where
  /-- `issubset` -/
  | issubset
  /-- `issuperset` -/
  | issuperset
  /-- `set_equal` -/
  | equal

/-- The result of a comparison. -/
def Compare.run (set : MpSet κ) (arg : Iterable κ) : Compare→Outcome (MpSet κ) Bool
  | .issubset => (asSet keys set arg).andThen fun other _ =>
    setIssubsetInternal keys set other false
  | .issuperset => (asSet keys set arg).andThen fun other _ =>
    setIssubsetInternal keys other set false
  | .equal =>
    match arg with
    | .items _ => .done set false
    | .set other => equalSets keys set other
    | .self => equalSets keys set set

/-- `set_unary_op`: the hash of a frozenset, where the type has an address. -/
def frozensetHash (bits : ℕ) (type : ℤ) (set : MpSet κ) : ℤ :=
  wrap (bits-1) ((HashedSet.elems set).foldl (fun hash k => wrap bits (hash+keys.hash k))
    (wrap bits type))

variable {keys}

/-! ## Equal keys -/

/-- The set has a key that is equal. -/
def Has (keys : Keys κ) (set : MpSet κ) (x : κ) : Prop := ∃ k∈elems set,keys.equal k x=true

theorem self_of_equal {a b : κ} (h : keys.equal a b=true) : keys.equal b b=true :=
  keys.equal_trans (keys.equal_symm h) h

theorem equal_congr {a b : κ} (h : keys.equal a b=true) (x : κ) :
    keys.equal a x=keys.equal b x := by
  rw [Bool.eq_iff_iff]
  exact ⟨fun hax => keys.equal_trans (keys.equal_symm h) hax,fun hbx => keys.equal_trans h hbx⟩

theorem not_has_of_not_self {ks : List κ} {x : κ} (hx : keys.equal x x=false) :
    ¬∃ k∈ks,keys.equal k x=true := by
  rintro ⟨k,-,hk⟩
  rw [self_of_equal hk] at hx
  cases hx

/-! ## One lookup -/

/-- What a lookup does to a set. -/
def Changed (keys : Keys κ) (kind : LookupKind) (set : MpSet κ) (x : κ) (set' : MpSet κ) : Prop :=
  (∃ pos k,cellAt set.table pos=.full k∧keys.equal k x=true∧
    set'=if kind.removes then set.removeAt pos else set)∨
  ¬Has keys set x∧if kind.adds then (elems set').Perm (x::elems set) else set'=set

/-- A lookup ends, and the key that it finds or adds is returned. -/
theorem lookup_step {set : MpSet κ} (h : Stored keys set) (kind : LookupKind) (x : κ) :
    ∃ set' c,lookup keys kind set x=.done set' c∧Stored keys set'∧Changed keys kind set x set'∧
      (c.isFull=true↔Has keys set x∨kind.adds=true) := by
  by_cases hx : Has keys set x
  · obtain ⟨k,hk,hequal⟩ := hx
    obtain ⟨pos,hat⟩ := mem_keysOf.mp hk
    refine ⟨_,_,mpSetLookup_found h hat hequal plenty kind 1,?_,Or.inl ⟨pos,k,hat,hequal,rfl⟩,
      iff_of_true rfl (Or.inl ⟨k,hk,hequal⟩)⟩
    split
    · exact (stored_removeAt h hat).1
    · exact h
  · have habsent : Absent keys.equal set.table x := (absent_equal_iff set x).mpr fun k hk =>
      Bool.eq_false_iff.mpr fun hequal => hx ⟨k,hk,hequal⟩
    cases hadds : kind.adds with
    | false =>
      exact ⟨set,.empty,mpSetLookup_absent h habsent hadds plenty 1,h,
        Or.inr ⟨hx,by rw [hadds]; rfl⟩,iff_of_false Bool.false_ne_true (by simp [hx])⟩
    | true =>
      obtain ⟨set',hlookup,hstored,hperm⟩ := mpSetLookup_new h habsent
        (show plenty _=true from rfl) hadds 0
      exact ⟨set',_,hlookup,hstored,Or.inr ⟨hx,by rw [hadds]; exact hperm⟩,
        iff_of_true rfl (Or.inr rfl)⟩

/-- A key that is found and taken out. -/
theorem has_removed {set : MpSet κ} (h : Stored keys set) {pos : ℕ} {k x : κ}
    (hat : cellAt set.table pos=.full k) (hequal : keys.equal k x=true) (y : κ) :
    Has keys (set.removeAt pos) y↔Has keys set y∧keys.equal x y=false := by
  obtain ⟨-,hperm⟩ := stored_removeAt h hat
  have hdiffer := ((laws_equal keys).pairwise_iff hperm).mp h.pairwise
  rw [←equal_congr hequal y]
  constructor
  · rintro ⟨k',hk',hy⟩
    refine ⟨⟨k',hperm.mem_iff.mpr (List.mem_cons_of_mem _ hk'),hy⟩,?_⟩
    refine Bool.eq_false_iff.mpr fun hky => ?_
    have hfalse := (List.pairwise_cons.mp hdiffer).1 k' hk'
    rw [keys.equal_trans hky (keys.equal_symm hy)] at hfalse
    cases hfalse
  · rintro ⟨⟨k',hk',hy⟩,hky⟩
    rcases List.mem_cons.mp (hperm.mem_iff.mp hk') with rfl | hmem
    · rw [hky] at hy
      cases hy
    · exact ⟨k',hmem,hy⟩

theorem has_added {set set' : MpSet κ} {x : κ} (hperm : (elems set').Perm (x::elems set)) (y : κ) :
    Has keys set' y↔Has keys set y∨keys.equal x y=true := by
  simp only [Has,hperm.mem_iff,List.mem_cons,exists_eq_or_imp]
  exact or_comm

/-! ## One lookup and equal keys -/

section Steps

variable {set set' : MpSet κ} {x : κ}

theorem has_of_equal {y : κ} (hxy : keys.equal x y=true) : Has keys set x↔Has keys set y :=
  ⟨fun ⟨k,hk,hx⟩ => ⟨k,hk,keys.equal_trans hx hxy⟩,
    fun ⟨k,hk,hy⟩ => ⟨k,hk,keys.equal_trans hy (keys.equal_symm hxy)⟩⟩

/-- What is left when a key is taken out. -/
theorem Changed.has_remove (h : Stored keys set)
    (hchange : Changed keys .removeIfFound set x set') (y : κ) :
    Has keys set' y↔Has keys set y∧keys.equal x y=false := by
  rcases hchange with ⟨pos,k,hat,hequal,rfl⟩ | ⟨hnone,hafter⟩
  · exact has_removed h hat hequal y
  · obtain rfl : set'=set := hafter
    refine (and_iff_left_of_imp fun hy => Bool.eq_false_iff.mpr fun hxy => ?_).symm
    exact hnone ((has_of_equal hxy).mpr hy)

theorem Changed.has_add (hchange : Changed keys .addIfNotFound set x set') (y : κ) :
    Has keys set' y↔Has keys set y∨keys.equal x y=true := by
  rcases hchange with ⟨pos,k,hat,hequal,rfl⟩ | ⟨hnone,hafter⟩
  · refine (or_iff_left_of_imp fun hxy => ?_).symm
    exact ⟨k,mem_keysOf.mpr ⟨pos,hat⟩,keys.equal_trans hequal hxy⟩
  · exact has_added hafter y

/-- What is there when a key is added or taken out. -/
theorem Changed.has_toggle (h : Stored keys set)
    (hchange : Changed keys .addIfNotFoundOrRemoveIfFound set x set') (y : κ) :
    Has keys set' y↔(Has keys set y↔keys.equal x y=false) := by
  rcases hchange with ⟨pos,k,hat,hequal,rfl⟩ | ⟨hnone,hafter⟩
  · have hremoved := has_removed h hat hequal y
    have hfound : keys.equal x y=true→Has keys set y := fun hxy =>
      ⟨k,mem_keysOf.mpr ⟨pos,hat⟩,keys.equal_trans hequal hxy⟩
    change Has keys (set.removeAt pos) y↔_
    rw [hremoved]
    cases hxy : keys.equal x y with
    | false => simp
    | true => simp [hfound hxy]
  · have hadded := @has_added κ keys set set' x hafter y
    have habsent : keys.equal x y=true→¬Has keys set y := fun hxy hy =>
      hnone ((has_of_equal hxy).mpr hy)
    rw [hadded]
    cases hxy : keys.equal x y with
    | false => simp
    | true => simp [habsent hxy]

end Steps

/-! ## Loops over items -/

/-- Lookups one after the other. -/
inductive Run (keys : Keys κ) (kind : LookupKind) : MpSet κ→List κ→MpSet κ→Prop where
  | nil (set : MpSet κ) : Run keys kind set [] set
  /-- An item is looked up, then the others. -/
  | cons {set set' set'' : MpSet κ} {x : κ} {xs : List κ} (stored : Stored keys set)
    (changed : Changed keys kind set x set') (run : Run keys kind set' xs set'') :
    Run keys kind set (x::xs) set''

/-- The loop over items ends. -/
theorem forItems_run (kind : LookupKind) (xs : List κ) {set : MpSet κ} (h : Stored keys set) :
    ∃ set',forItems (lookup keys kind) xs set=.done set' ()∧Stored keys set'∧
      Run keys kind set xs set' := by
  induction xs generalizing set with
  | nil => exact ⟨set,rfl,h,.nil set⟩
  | cons x xs ih =>
    obtain ⟨set₁,c,hlookup,hstored,hchange,-⟩ := lookup_step h kind x
    obtain ⟨set₂,hrest,hstored₂,hrun⟩ := ih hstored
    refine ⟨set₂,?_,hstored₂,.cons h hchange hrun⟩
    rw [forItems,hlookup]
    exact hrest

section Runs

variable {set set' : MpSet κ} {xs : List κ}

/-- Items are taken out. -/
theorem Run.has_remove (h : Run keys .removeIfFound set xs set') (y : κ) :
    Has keys set' y↔Has keys set y∧¬∃ x∈xs,keys.equal x y=true := by
  induction h with
  | nil => simp
  | cons hstored hchange _ ih =>
    rw [ih,hchange.has_remove hstored]
    simp only [List.mem_cons,exists_eq_or_imp,not_or,Bool.not_eq_true,and_assoc]

theorem Run.has_add (h : Run keys .addIfNotFound set xs set') (y : κ) :
    Has keys set' y↔Has keys set y∨∃ x∈xs,keys.equal x y=true := by
  induction h with
  | nil => simp
  | cons _ hchange _ ih =>
    rw [ih,hchange.has_add]
    simp only [List.mem_cons,exists_eq_or_imp,or_assoc]

/-- Items are added and taken out in turn. -/
theorem Run.has_toggle (h : Run keys .addIfNotFoundOrRemoveIfFound set xs set') (y : κ) :
    Has keys set' y↔(Has keys set y↔Even (xs.countP (keys.equal · y))) := by
  induction h with
  | nil => simp
  | cons hstored hchange _ ih =>
    rw [ih,hchange.has_toggle hstored,List.countP_cons]
    split
    case isTrue hxy =>
      rw [Nat.even_add_one,hxy]
      simp only [Bool.true_eq_false,iff_false]
      exact not_iff_comm.trans iff_comm
    case isFalse hxy => simp [Bool.eq_false_iff.mpr hxy]

/-- Items that are found in a set are added to another. -/
theorem forItems_intersect (h : Stored keys set) (xs : List κ) {out : MpSet κ}
    (hout : Stored keys out) :
    ∃ out',forItems (fun out next =>
        match lookup keys .lookup set next with
        | .done _ found => if found.isFull then lookup keys .addIfNotFound out next
          else .done out .empty
        | .raised _ => .raised out
        | .stuck => .stuck) xs out=.done out' ()∧Stored keys out'∧
      Run keys .addIfNotFound out (xs.filter fun x => (elems set).any (keys.equal · x)) out' := by
  induction xs generalizing out with
  | nil => exact ⟨out,rfl,hout,.nil out⟩
  | cons x xs ih =>
    obtain ⟨set₁,found,hlookup,-,-,hfound⟩ := lookup_step h .lookup x
    have hany : (elems set).any (keys.equal · x)=true↔Has keys set x := List.any_eq_true
    rw [forItems,hlookup]
    dsimp only
    by_cases hx : Has keys set x
    · obtain ⟨out₁,c,hadd,hstored,hchange,-⟩ := lookup_step hout .addIfNotFound x
      obtain ⟨out₂,hrest,hstored₂,hrun⟩ := ih hstored
      rw [if_pos (hfound.mpr (Or.inl hx)),hadd,
        @List.filter_cons_of_pos κ (fun x => (elems set).any (keys.equal · x)) x xs (hany.mpr hx)]
      exact ⟨out₂,hrest,hstored₂,.cons hout hchange hrun⟩
    · obtain ⟨out₂,hrest,hstored₂,hrun⟩ := ih hout
      rw [if_neg (fun hfull => (hfound.mp hfull).elim hx (by decide)),
        @List.filter_cons_of_neg κ (fun x => (elems set).any (keys.equal · x)) x xs fun hpos =>
          hx (hany.mp hpos)]
      exact ⟨out₂,hrest,hstored₂,hrun⟩

/-- The loop of a comparison tells whether the set has all keys. -/
theorem allFound_eq (h : Stored keys set) (ks : List κ) :
    ∃ found,allFound keys set ks=.done set found∧(found=true↔∀ k∈ks,Has keys set k) := by
  induction ks with
  | nil => exact ⟨true,rfl,by simp⟩
  | cons k ks ih =>
    obtain ⟨set₁,c,hlookup,-,hchange,hfound⟩ := lookup_step h .lookup k
    have hsame : set₁=set := by
      rcases hchange with ⟨_,_,_,_,hafter⟩ | ⟨_,hafter⟩
      · exact hafter
      · exact hafter
    rw [allFound,hlookup,hsame]
    simp only [Outcome.andThen]
    by_cases hk : Has keys set k
    · obtain ⟨found,hrest,hiff⟩ := ih
      rw [if_pos (hfound.mpr (Or.inl hk))]
      exact ⟨found,hrest,hiff.trans (by simp [hk])⟩
    · rw [if_neg (fun hfull => (hfound.mp hfull).elim hk (by decide))]
      exact ⟨false,rfl,by simp [hk]⟩

end Runs

/-- A key of a set is equal to one of its keys. -/
theorem countP_elems {set : MpSet κ} (h : Stored keys set) {x : κ} (hx : x∈elems set)
    (hself : keys.equal x x=true) : (elems set).countP (keys.equal · x)=1 := by
  obtain ⟨front,back,hsplit⟩ := List.append_of_mem hx
  have hperm : (elems set).Perm (x::(front++back)) := by
    rw [hsplit]
    exact List.perm_middle
  have hdiffer := ((laws_equal keys).pairwise_iff hperm).mp h.pairwise
  have hnone : (front++back).countP (keys.equal · x)=0 :=
    List.countP_eq_zero.mpr fun k hk hequal => by
      have hfalse := (List.pairwise_cons.mp hdiffer).1 k hk
      rw [keys.equal_symm hequal] at hfalse
      cases hfalse
  rw [hperm.countP_eq,@List.countP_cons_of_pos κ (keys.equal · x) x (front++back) hself,hnone]

theorem countP_congr_equal {x y : κ} (hxy : keys.equal x y=true) (ks : List κ) :
    ks.countP (keys.equal · x)=ks.countP (keys.equal · y) := by
  refine List.countP_congr fun k _ => ?_
  exact ⟨fun hk => keys.equal_trans hk hxy,fun hk => keys.equal_trans hk (keys.equal_symm hxy)⟩

/-! ## Loops over the set itself -/

section Self

variable {set : MpSet κ} {arg : Iterable κ} {cur : ℕ}

/-- A loop over anything but the set itself goes over its items. -/
theorem forEach_items (hself : arg≠.self) (fuel : ℕ)
    (f : MpSet κ→κ→Outcome (MpSet κ) (Cell κ)) (out : MpSet κ) :
    forEach fuel f out arg=forItems f (arg.elems set) out := by
  cases arg with
  | items xs => rfl
  | set other => rfl
  | self => exact absurd rfl hself

theorem elems_detach (set : MpSet κ) (arg : Iterable κ) :
    arg.detach set≠.self∧(arg.detach set).elems set=arg.elems set := by
  cases arg with
  | self => exact ⟨nofun,rfl⟩
  | _ => exact ⟨nofun,rfl⟩

/-- A method of one of the copies, or one that is not given the set itself, loops over items. -/
theorem forEach_argument {update : Bool} (hself : ¬(arg=.self∧update=true)) (fuel : ℕ)
    (f : MpSet κ→κ→Outcome (MpSet κ) (Cell κ)) :
    forEach fuel f set (if update then arg else arg.detach set)=forItems f (arg.elems set) set := by
  cases update with
  | true => exact forEach_items (fun heq => hself ⟨heq,rfl⟩) fuel f set
  | false =>
    obtain ⟨hother,helems⟩ := elems_detach set arg
    exact (@forEach_items κ set _ hother fuel f set).trans (by rw [helems])

/-- The next slot is the first one with a key. -/
theorem setItIternext_some {i : ℕ} {k : κ} (h : setItIternext set cur=some (i,k)) :
    cur ≤ i∧i < set.alloc∧cellAt set.table i=.full k∧
      ∀ j,cur ≤ j→j < i→∀ k',cellAt set.table j≠.full k' := by
  rw [setItIternext,List.findSome?_eq_some_iff] at h
  obtain ⟨front,a,back,hsplit,ha,hfront⟩ := h
  obtain ⟨k₀,hk₀,heq⟩ := Option.map_eq_some_iff.mp ha
  cases heq
  have hmem : ∀ j,j∈(List.range set.alloc).drop cur↔cur ≤ j∧j < set.alloc := fun j => by
    rw [List.range_eq_range',List.drop_range',List.mem_range'_1]
    omega
  have hi : i∈(List.range set.alloc).drop cur := by
    rw [hsplit]
    exact List.mem_append_right _ List.mem_cons_self
  refine ⟨((hmem i).mp hi).1,((hmem i).mp hi).2,keyOf_eq_some.mp hk₀,fun j hj hlt k' hk' => ?_⟩
  have hjmem := (hmem j).mpr ⟨hj,hlt.trans ((hmem i).mp hi).2⟩
  have hsorted : ((List.range set.alloc).drop cur).Pairwise (· < ·) :=
    List.pairwise_lt_range.sublist (List.drop_sublist ..)
  rw [hsplit] at hjmem hsorted
  have hback := (List.pairwise_cons.mp (List.pairwise_append.mp hsorted).2.1).1
  rcases List.mem_append.mp hjmem with hin | hin
  · have hnone := hfront j hin
    rw [hk'] at hnone
    cases hnone
  · rcases List.mem_cons.mp hin with rfl | hin
    · exact Nat.lt_irrefl _ hlt
    · have hgt := hback j hin
      omega

/-- There is no slot with a key any more. -/
theorem setItIternext_none (h : setItIternext set cur=none) {j : ℕ} (hj : cur ≤ j)
    (hlt : j < set.alloc) (k : κ) : cellAt set.table j≠.full k := fun hk => by
  rw [setItIternext,List.findSome?_eq_none_iff] at h
  have hnone := h j (by
    rw [List.range_eq_range',List.drop_range',List.mem_range'_1]
    omega)
  rw [hk] at hnone
  cases hnone

/-- The keys of a set are added to it, which has them. -/
theorem forSelf_add (h : Stored keys set) (hself : ∀ k∈elems set,keys.equal k k=true) (n : ℕ) :
    ∀ cur,set.alloc-cur < n→forSelf (lookup keys .addIfNotFound) n cur set=.done set () := by
  induction n with
  | zero => exact fun cur hn => absurd hn (Nat.not_lt_zero _)
  | succ n ih =>
    intro cur hn
    rw [forSelf]
    split
    case h_1 => rfl
    case h_2 i k hnext =>
      obtain ⟨hcur,hlt,hat,-⟩ := setItIternext_some hnext
      have hk := hself k (mem_keysOf.mpr ⟨i,hat⟩)
      have hfound : lookup keys .addIfNotFound set k=.done set (.full k) :=
        mpSetLookup_found h hat hk plenty .addIfNotFound 1
      rw [hfound]
      exact ih (i+1) (by omega)

/-- The keys of a set are taken out of it one after the other. -/
theorem forSelf_toggle (n : ℕ) : ∀ {set : MpSet κ} (cur : ℕ),Stored keys set→
    (∀ k∈elems set,keys.equal k k=true)→(∀ pos k,cellAt set.table pos=.full k→cur ≤ pos)→
    set.alloc-cur < n→
    ∃ set',forSelf (lookup keys .addIfNotFoundOrRemoveIfFound) n cur set=.done set' ()∧
      Stored keys set'∧elems set'=[] := by
  induction n with
  | zero => exact fun cur _ _ _ hn => absurd hn (Nat.not_lt_zero _)
  | succ n ih =>
    intro set cur h hself hrest hn
    rw [forSelf]
    split
    case h_1 hnext =>
      refine ⟨set,rfl,h,List.eq_nil_iff_forall_not_mem.mpr fun k hk => ?_⟩
      obtain ⟨pos,hat⟩ := mem_keysOf.mp hk
      have hlt := lt_of_full hat
      rw [←h.alloc_eq] at hlt
      exact setItIternext_none hnext (hrest pos k hat) hlt k hat
    case h_2 i k hnext =>
      obtain ⟨hcur,hlt,hat,hbetween⟩ := setItIternext_some hnext
      have hk := hself k (mem_keysOf.mpr ⟨i,hat⟩)
      have hfound : lookup keys .addIfNotFoundOrRemoveIfFound set k=
          .done (set.removeAt i) (.full k) :=
        mpSetLookup_found h hat hk plenty .addIfNotFoundOrRemoveIfFound 1
      obtain ⟨hstored,hperm⟩ := stored_removeAt h hat
      have hfree : (vacated set.table set.alloc i).isFull=false := by
        have hc := vacates_vacated set.table i
        rw [←h.alloc_eq] at hc
        exact hc.isFull_eq
      rw [hfound]
      refine ih (i+1) hstored (fun k' hk' => hself k' (hperm.mem_iff.mpr
        (List.mem_cons_of_mem _ hk'))) (fun pos k' hat' => ?_) ?_
      · obtain ⟨hne,hold⟩ := cellAt_set_full hfree hat'
        have hpos := hrest pos k' hold
        by_contra hless
        exact hbetween pos hpos (by omega) k' hold
      · show set.alloc-(i+1) < n
        omega

end Self

/-! ## Comparisons -/

/-- Keys of which no two are equal are matched with others that they are equal to. -/
theorem exists_matching {la : List κ} : ∀ {lb : List κ},
    la.Pairwise (fun a b => keys.equal a b=false)→(∀ k∈la,∃ k'∈lb,keys.equal k' k=true)→
    ∃ m rest,lb.Perm (m++rest)∧List.Forall₂ (fun k' k => keys.equal k' k=true) m la := by
  induction la with
  | nil => exact fun _ _ => ⟨[],_,List.Perm.refl _,.nil⟩
  | cons k la ih =>
    intro lb hdiffer hall
    obtain ⟨hk,hla⟩ := List.pairwise_cons.mp hdiffer
    obtain ⟨k',hmem,hequal⟩ := hall k List.mem_cons_self
    obtain ⟨front,back,rfl⟩ := List.append_of_mem hmem
    obtain ⟨m,rest,hperm,hmatch⟩ := @ih (front++back) hla fun a ha => by
      obtain ⟨a',ha',hequal'⟩ := hall a (List.mem_cons_of_mem k ha)
      rcases List.mem_append.mp ha' with hin | hin
      · exact ⟨a',List.mem_append_left _ hin,hequal'⟩
      · rcases List.mem_cons.mp hin with rfl | hin
        · have hfalse := hk a ha
          rw [keys.equal_trans (keys.equal_symm hequal) hequal'] at hfalse
          cases hfalse
        · exact ⟨a',List.mem_append_right _ hin,hequal'⟩
    exact ⟨k'::m,rest,List.perm_middle.trans (hperm.cons k'),.cons hequal hmatch⟩

theorem matched {a b : MpSet κ} (ha : Stored keys a) (hb : Stored keys b) (hused : a.used=b.used)
    (hall : ∀ k∈elems a,Has keys b k) :
    ∃ m,(elems b).Perm m∧List.Forall₂ (fun k' k => keys.equal k' k=true) m (elems a) := by
  obtain ⟨m,rest,hperm,hmatch⟩ := exists_matching ha.pairwise hall
  have hlength := hperm.length_eq
  rw [List.length_append,hmatch.length_eq,←ha.used_length,←hb.used_length,hused] at hlength
  have hrest : rest=[] := List.length_eq_zero_iff.mp (by omega)
  rw [hrest,List.append_nil] at hperm
  exact ⟨m,hperm,hmatch⟩

theorem hash_of_matched {m la : List κ} (h : List.Forall₂ (fun k' k => keys.equal k' k=true) m la) :
    m.map keys.hash=la.map keys.hash := by
  induction h with
  | nil => rfl
  | cons hequal _ ih => rw [List.map_cons,List.map_cons,keys.hash_eq hequal,ih]

theorem exists_of_matched {m la : List κ}
    (h : List.Forall₂ (fun k' k => keys.equal k' k=true) m la) {k' : κ} (hk' : k'∈m) :
    ∃ k∈la,keys.equal k k'=true := by
  induction h with
  | nil => cases hk'
  | cons hequal _ ih =>
    rcases List.mem_cons.mp hk' with rfl | hin
    · exact ⟨_,List.mem_cons_self,keys.equal_symm hequal⟩
    · obtain ⟨k,hk,hkk'⟩ := ih hin
      exact ⟨k,List.mem_cons_of_mem _ hk,hkk'⟩

/-- A sum of hashes that wraps does not depend on the order. -/
theorem foldl_wrap (bits : ℕ) (ks : List κ) (hash : ℤ) :
    ks.foldl (fun hash k => wrap bits (hash+keys.hash k)) (wrap bits hash)=
      wrap bits (hash+((ks.map keys.hash).sum : ℕ)) := by
  induction ks generalizing hash with
  | nil => simp
  | cons k ks ih =>
    have hstep : wrap bits (wrap bits hash+keys.hash k)=wrap bits (hash+keys.hash k) :=
      Int.bmod_add_bmod
    rw [List.foldl_cons,hstep,ih,List.map_cons,List.sum_cons]
    push_cast
    rw [Int.add_assoc]

section Compare

variable {set other : MpSet κ} {arg : Iterable κ}

theorem setIssubsetInternal_eq (set other : MpSet κ) :
    setIssubsetInternal keys set other false=allFound keys other (elems set) :=
  if_neg fun h : false=true∧set.used=other.used => Bool.false_ne_true h.1

/-- Two sets are equal when they have as many keys and those of the first are in the second. -/
theorem equalSets_eq (hother : Stored keys other) :
    ∃ found,equalSets keys set other=.done other found∧
      (found=true↔set.used=other.used∧∀ k∈elems set,Has keys other k) := by
  rw [equalSets]
  by_cases hused : set.used=other.used
  · rw [if_neg (not_not.mpr hused),setIssubsetInternal_eq]
    obtain ⟨found,hrun,hiff⟩ := allFound_eq hother (elems set)
    exact ⟨found,hrun,hiff.trans (and_iff_right hused).symm⟩
  · exact ⟨false,if_pos hused,iff_of_false Bool.false_ne_true fun h => hused h.1⟩

theorem hash_eq_of_equalSets (hset : Stored keys set) (hother : Stored keys other)
    (h : equalSets keys set other=.done other true) (bits : ℕ) (type : ℤ) :
    frozensetHash keys bits type set=frozensetHash keys bits type other := by
  obtain ⟨found,hrun,hiff⟩ := @equalSets_eq κ keys set other hother
  rw [hrun] at h
  cases h
  obtain ⟨hused,hall⟩ := hiff.mp rfl
  obtain ⟨m,hperm,hmatch⟩ := matched hset hother hused hall
  rw [frozensetHash,frozensetHash,foldl_wrap,foldl_wrap,(hperm.map keys.hash).sum_nat,
    hash_of_matched hmatch]

/-- The keys of an argument as a set are found exactly when the items are. -/
theorem asSet_found {o : MpSet κ} (hhas : ∀ y,Has keys o y↔∃ x∈arg.elems set,keys.equal x y=true)
    (hmem : ∀ n,keys.equal n n=false→(n∈elems o↔n∈arg.elems set)) :
    (∀ k∈elems o,Has keys set k)↔∀ k∈arg.elems set,Has keys set k := by
  constructor
  · intro hall k hk
    cases hself : keys.equal k k with
    | true =>
      obtain ⟨k',hk',hequal⟩ := (hhas k).mpr ⟨k,hk,hself⟩
      exact (has_of_equal hequal).mp (hall k' hk')
    | false => exact hall k ((hmem k hself).mpr hk)
  · intro hall k hk
    cases hself : keys.equal k k with
    | true =>
      obtain ⟨k',hk',hequal⟩ := (hhas k).mp ⟨k,hk,hself⟩
      exact (has_of_equal hequal).mp (hall k' hk')
    | false => exact hall k ((hmem k hself).mp hk)

end Compare

end MicroPython.SetOperations
