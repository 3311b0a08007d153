import MicroPython.SetOperations

/-!
# Sets and their elements

What the methods of sets make is compared with the operations on the elements, where two objects
are one element when they are the same object or equal. A lookup finds no object that is not equal
to itself, and the symmetric difference adds and takes out an item each time that it comes.
-/

namespace MicroPython.SetOperations

open Nat List OpenAddressing MapTable HashedMap HashedSet
open Slices (wrap)

/-! ## Keys that are not equal to themselves -/

variable {κ : Type} [DecidableEq κ] {keys : Keys κ}

variable {x n : κ} {kind : LookupKind}

theorem exists_same_of_self {ks : List κ} (hx : keys.equal x x=true) :
    (∃ k∈ks,keys.same k x=true)↔∃ k∈ks,keys.equal k x=true := by
  refine exists_congr fun k => and_congr_right fun _ => ?_
  rw [Keys.same,Bool.or_eq_true,decide_eq_true_iff]
  exact or_iff_right_of_imp fun heq => heq ▸ hx

/-- A key that is not equal to itself is the same as itself alone. -/
theorem exists_same_of_not_self {ks : List κ} (hx : keys.equal x x=false) :
    (∃ k∈ks,keys.same k x=true)↔0 < ks.count x := by
  have hnone : ∀ k,keys.equal k x=true→False := fun k hk => by
    rw [self_of_equal hk] at hx
    cases hx
  rw [count_pos_iff]
  constructor
  · rintro ⟨k,hk,hsame⟩
    rw [Keys.same,Bool.or_eq_true,decide_eq_true_iff] at hsame
    rcases hsame with rfl | hequal
    · exact hk
    · exact (hnone k hequal).elim
  · exact fun hmem => ⟨x,hmem,by simp [Keys.same]⟩

/-- A table is a set exactly when no key that is not equal to itself is in it twice. -/
theorem represents_iff {set : MpSet κ} (h : Stored keys set) :
    Represents keys set↔∀ n,keys.equal n n=false→(elems set).count n ≤ 1 := by
  constructor
  · intro hset n _
    refine nodup_iff_count_le_one.mp (hset.pairwise.imp fun {a b} hab => ?_) n
    rintro rfl
    simp [Keys.same] at hab
  · intro hcount
    have hnodup : (elems set).Nodup := nodup_iff_count_le_one.mpr fun n => by
      cases hn : keys.equal n n with
      | false => exact hcount n hn
      | true =>
        by_contra hlt
        have hsub : [n,n].Sublist (elems set) :=
          replicate_sublist_iff.mpr (Nat.lt_of_not_le hlt)
        have hpair := pairwise_pair.mp (h.pairwise.sublist hsub)
        rw [hn] at hpair
        cases hpair
    refine h.represents ((hnodup.and h.pairwise).imp fun {a b} hab => ?_)
    rw [Keys.same,hab.2,Bool.or_false]
    exact decide_eq_false hab.1

/-- A key that is taken out is equal to itself. -/
theorem count_removed {set : MpSet κ} (h : Stored keys set) {pos : ℕ} {k : κ}
    (hat : cellAt set.table pos=.full k) (hequal : keys.equal k x=true)
    (hn : keys.equal n n=false) : (elems (set.removeAt pos)).count n=(elems set).count n := by
  have hne : k≠n := fun heq => by
    rw [←heq,self_of_equal (keys.equal_symm hequal)] at hn
    cases hn
  rw [(stored_removeAt h hat).2.count_eq,count_cons_of_ne hne]

/-- How a lookup changes the number of a key that is not equal to itself. -/
theorem Changed.count {set set' : MpSet κ} (h : Stored keys set)
    (hchange : Changed keys kind set x set') (hn : keys.equal n n=false) :
    (elems set').count n=(elems set).count n+if kind.adds∧x=n then 1 else 0 := by
  rcases hchange with ⟨pos,k,hat,hequal,rfl⟩ | ⟨hnone,hafter⟩
  · have hne : x≠n := fun heq => by
      rw [←heq,self_of_equal hequal] at hn
      cases hn
    rw [if_neg (fun hx : kind.adds=true∧x=n => hne hx.2),add_zero]
    split
    · exact count_removed h hat hequal hn
    · rfl
  · cases hadds : kind.adds with
    | false =>
      rw [hadds] at hafter
      rw [if_neg (fun hx => Bool.false_ne_true hx.1),add_zero]
      exact congrArg (fun s => (elems s).count n) hafter
    | true =>
      rw [hadds] at hafter
      have hperm : (elems set').Perm (x::elems set) := hafter
      rw [hperm.count_eq,count_cons]
      simp

/-- Items that are not equal to themselves are added each time and never taken out. -/
theorem Run.count {set set' : MpSet κ} {xs : List κ}
    (h : Run keys kind set xs set') (hn : keys.equal n n=false) :
    (elems set').count n=(elems set).count n+if kind.adds then xs.count n else 0 := by
  induction h with
  | nil => simp
  | @cons set set₁ set₂ x xs hstored hchange _ ih =>
    rw [ih,hchange.count hstored hn,count_cons]
    cases kind.adds with
    | false => simp
    | true =>
      by_cases hx : x=n
      · simp [hx]
        omega
      · simp [hx]

/-- A key that is in a set twice stays there. -/
theorem forSelf_twice (hn : keys.equal n n=false) (fuel : ℕ) :
    ∀ {set r : MpSet κ} (cur : ℕ),Stored keys set→2 ≤ (elems set).count n→
      forSelf (lookup keys kind) fuel cur set=.done r ()→
      Stored keys r∧2 ≤ (elems r).count n := by
  induction fuel with
  | zero => exact fun cur _ _ h => nomatch h
  | succ fuel ih =>
    intro set r cur hstored htwice h
    rw [forSelf] at h
    split at h
    case h_1 =>
      cases h
      exact ⟨hstored,htwice⟩
    case h_2 i k hnext =>
      obtain ⟨set₁,c,hlookup,hstored₁,hchange,-⟩ := lookup_step hstored kind k
      rw [hlookup] at h
      refine ih (i+1) hstored₁ ?_ h
      rw [hchange.count hstored hn]
      omega

/-- A key that is not equal to itself is in the set twice after it was added to it. -/
theorem forSelf_not_self (hadds : kind.adds=true) (hn : keys.equal n n=false) (fuel : ℕ) :
    ∀ {set r : MpSet κ} (cur pos : ℕ),Stored keys set→cur ≤ pos→cellAt set.table pos=.full n→
      forSelf (lookup keys kind) fuel cur set=.done r ()→
      ∃ k,keys.equal k k=false∧Stored keys r∧2 ≤ (elems r).count k := by
  induction fuel with
  | zero => exact fun cur pos _ _ _ h => nomatch h
  | succ fuel ih =>
    intro set r cur pos hstored hcur hat h
    rw [forSelf] at h
    split at h
    case h_1 hnone =>
      have hlt := lt_of_full hat
      rw [←hstored.alloc_eq] at hlt
      exact absurd hat (setItIternext_none hnone hcur hlt n)
    case h_2 i k hnext =>
      obtain ⟨hi,-,hk,hbetween⟩ := setItIternext_some hnext
      have hle : i ≤ pos := by
        by_contra hlt
        exact hbetween pos hcur (Nat.lt_of_not_le hlt) n hat
      cases hself : keys.equal k k with
      | false =>
        obtain ⟨set₁,c,hlookup,hstored₁,hchange,-⟩ := lookup_step hstored kind k
        rw [hlookup] at h
        have hone : 0 < (elems set).count k :=
          count_pos_iff.mpr (mem_keysOf.mpr ⟨i,hk⟩)
        have hcount := hchange.count hstored hself
        rw [if_pos ⟨hadds,rfl⟩] at hcount
        exact ⟨k,hself,forSelf_twice hself fuel (i+1) hstored₁ (by omega) h⟩
      | true =>
        have hfound : lookup keys kind set k=
            .done (if kind.removes then set.removeAt i else set) (.full k) :=
          mpSetLookup_found hstored hk hself plenty kind 1
        have hne : i≠pos := fun heq => by
          rw [heq,hat] at hk
          cases hk
          rw [hn] at hself
          cases hself
        rw [hfound] at h
        refine ih (i+1) pos ?_ (by omega) ?_ h
        · split
          · exact (stored_removeAt hstored hk).1
          · exact hstored
        · split
          · exact (cellAt_set_ne hne _).trans hat
          · exact hat

/-! ## What the methods are to give -/

/-- The mathematical operation on the elements. -/
def Combine.meaning (p q : Prop) : Combine→Prop
  | .difference => p∧¬q
  | .intersection => p∧q
  | .symmetricDifference => ¬(p↔q)
  | .union => p∨q

/-- Something is among the items that are given. -/
def Among (keys : Keys κ) (set : MpSet κ) (arg : Iterable κ) (x : κ) : Prop :=
  ∃ y∈arg.elems set,keys.same y x=true

/-- The method ends with a set of the elements that the operation gives. -/
def Combine.Agrees (keys : Keys κ) (set : MpSet κ) (arg : Iterable κ) (update : Bool)
    (op : Combine) : Prop :=
  ∃ fuel r,op.run keys fuel set arg update=.done r ()∧Represents keys r∧
    ∀ x,Member keys r x↔op.meaning (Member keys set x) (Among keys set arg x)

/-- What the items have to be. An item that is not equal to itself is not found in the set, and
one that comes an even number of times is added and taken out again. -/
def Combine.Sound (keys : Keys κ) (set : MpSet κ) (arg : Iterable κ) (update : Bool) : Combine→Prop
  | .difference => arg=.self∧update=true∨
    ∀ n∈arg.elems set,keys.equal n n=false→¬Member keys set n
  | .intersection => arg=.self∨∀ n∈arg.elems set,keys.equal n n=false→¬Member keys set n
  | .symmetricDifference =>
    (∀ x∈arg.elems set,keys.equal x x=true→Odd ((arg.elems set).countP (keys.equal · x)))∧
      ∀ n∈arg.elems set,keys.equal n n=false→ ¬Member keys set n∧(arg.elems set).count n=1
  | .union => ∀ n∈arg.elems set,keys.equal n n=false→
    ¬Member keys set n∧(arg.elems set).count n=1

section Agreement

variable {set r : MpSet κ} {arg : Iterable κ}

/-- The elements of a result, told apart by whether they are equal to themselves. -/
theorem members_iff (op : Combine) (set r : MpSet κ) (arg : Iterable κ) :
    (∀ x,Member keys r x↔op.meaning (Member keys set x) (Among keys set arg x))↔
      (∀ x,keys.equal x x=true→(Has keys r x↔
        op.meaning (Has keys set x) (∃ y∈arg.elems set,keys.equal y x=true)))∧
      ∀ n,keys.equal n n=false→(0 < (elems r).count n↔
        op.meaning (0 < (elems set).count n) (0 < (arg.elems set).count n)) := by
  constructor
  · intro h
    refine ⟨fun x hx => ?_,fun n hn => ?_⟩
    · have hx' := h x
      rw [member_iff,member_iff,Among,exists_same_of_self hx,exists_same_of_self hx,
        exists_same_of_self hx] at hx'
      exact hx'
    · have hn' := h n
      rw [member_iff,member_iff,Among,exists_same_of_not_self hn,exists_same_of_not_self hn,
        exists_same_of_not_self hn] at hn'
      exact hn'
  · rintro ⟨hself,hother⟩ x
    rw [member_iff,member_iff,Among]
    cases hx : keys.equal x x with
    | true =>
      rw [exists_same_of_self hx,exists_same_of_self hx,exists_same_of_self hx]
      exact hself x hx
    | false =>
      rw [exists_same_of_not_self hx,exists_same_of_not_self hx,exists_same_of_not_self hx]
      exact hother x hx

theorem member_iff_count {n : κ} (hn : keys.equal n n=false) :
    Member keys set n↔0 < (elems set).count n := by
  rw [member_iff,exists_same_of_not_self hn]

variable {update : Bool}

/-- A method that ends with one result agrees when that result does. -/
theorem agrees_iff {op : Combine} (hrun : ∀ fuel,op.run keys fuel set arg update=.done r ()) :
    op.Agrees keys set arg update↔Represents keys r∧
      ∀ x,Member keys r x↔op.meaning (Member keys set x) (Among keys set arg x) := by
  constructor
  · rintro ⟨fuel,r',hrun',hresult⟩
    rw [hrun fuel] at hrun'
    cases hrun'
    exact hresult
  · exact fun h => ⟨0,r,hrun 0,h⟩

/-- `difference` over items. -/
theorem difference_iff (h : Represents keys set) (hself : ¬(arg=.self∧update=true)) :
    Combine.difference.Agrees keys set arg update↔
      ∀ n∈arg.elems set,keys.equal n n=false→¬Member keys set n := by
  obtain ⟨r,hloop,hstored,hrun⟩ := forItems_run .removeIfFound (arg.elems set) h.stored
  have hresult : ∀ fuel,Combine.difference.run keys fuel set arg update=.done r () := fun fuel => by
    have heach := @forEach_argument κ set arg update hself fuel (lookup keys .removeIfFound)
    rw [hloop] at heach
    have hother : (if update then arg else arg.detach set)≠.self := by
      cases update with
      | true => exact fun heq => hself ⟨heq,rfl⟩
      | false => exact (elems_detach set arg).1
    rw [Combine.run,setDiffInt]
    split
    case h_1 heq => exact absurd heq hother
    case h_2 => exact heach
  have hcount : ∀ n,keys.equal n n=false→(elems r).count n=(elems set).count n := fun n hn => by
    rw [hrun.count hn]
    exact add_zero _
  have hr : Represents keys r := (represents_iff hstored).mpr fun n hn => by
    rw [hcount n hn]
    exact (represents_iff h.stored).mp h n hn
  rw [agrees_iff hresult,and_iff_right hr,members_iff]
  constructor
  · rintro ⟨-,hother⟩ n hmem hn hin
    have hiff := hother n hn
    rw [hcount n hn] at hiff
    exact (hiff.mp ((member_iff_count hn).mp hin)).2 (count_pos_iff.mpr hmem)
  · refine fun hsound => ⟨fun x _ => hrun.has_remove x,fun n hn => ?_⟩
    rw [hcount n hn]
    refine (and_iff_left_of_imp fun hpos hmem => ?_).symm
    exact hsound n (count_pos_iff.mp hmem) hn ((member_iff_count hn).mpr hpos)

/-- `intersection` over items. -/
theorem intersection_iff (h : Represents keys set) (hself : arg≠.self) :
    Combine.intersection.Agrees keys set arg update↔
      ∀ n∈arg.elems set,keys.equal n n=false→¬Member keys set n := by
  obtain ⟨hinit,hempty⟩ := @stored_init κ keys 0
  obtain ⟨r,hloop,hstored,hrun⟩ := forItems_intersect h.stored (arg.elems set) hinit
  have hresult : ∀ fuel,Combine.intersection.run keys fuel set arg update=.done r () :=
    fun fuel => by
      rw [Combine.run]
      cases arg with
      | self => exact absurd rfl hself
      | items xs => exact hloop
      | set other => exact hloop
  have hshared : ∀ x,x∈(arg.elems set).filter (fun x => (elems set).any (keys.equal · x))↔
      x∈arg.elems set∧Has keys set x := fun x => by
    rw [mem_filter,any_eq_true]
    exact Iff.rfl
  have hcount : ∀ n,keys.equal n n=false→(elems r).count n=0 := fun n hn => by
    rw [hrun.count hn,hempty,count_nil,zero_add]
    refine count_eq_zero.mpr fun hmem => ?_
    exact not_has_of_not_self hn ((hshared n).mp hmem).2
  have hr : Represents keys r := (represents_iff hstored).mpr fun n hn => by
    rw [hcount n hn]
    exact zero_le 1
  rw [agrees_iff hresult,and_iff_right hr,members_iff]
  constructor
  · rintro ⟨-,hother⟩ n hmem hn hin
    have hiff := hother n hn
    rw [hcount n hn] at hiff
    exact lt_irrefl 0 (hiff.mpr ⟨(member_iff_count hn).mp hin,count_pos_iff.mpr hmem⟩)
  · refine fun hsound => ⟨fun y _ => ?_,fun n hn => ?_⟩
    · rw [hrun.has_add]
      constructor
      · rintro (⟨k,hk,-⟩ | ⟨x,hx,hxy⟩)
        · rw [hempty] at hk
          cases hk
        · obtain ⟨hmem,hhas⟩ := (hshared x).mp hx
          exact ⟨(has_of_equal hxy).mp hhas,x,hmem,hxy⟩
      · rintro ⟨hhas,x,hmem,hxy⟩
        exact Or.inr ⟨x,(hshared x).mpr ⟨hmem,(has_of_equal hxy).mpr hhas⟩,hxy⟩
    · rw [hcount n hn]
      refine iff_of_false (lt_irrefl 0) fun ⟨hin,hmem⟩ => ?_
      exact hsound n (count_pos_iff.mp hmem) hn ((member_iff_count hn).mpr hin)

end Agreement

section Toggles

variable {set : MpSet κ} {arg : Iterable κ}

variable {r : MpSet κ} {update : Bool}

/-- The counts of a key that is not equal to itself are right exactly when each item of that kind
is new. -/
theorem new_iff (h : Represents keys set) (hr : Stored keys r) {xs : List κ}
    (hcount : ∀ n,keys.equal n n=false→(elems r).count n=(elems set).count n+xs.count n) :
    Represents keys r↔∀ n∈xs,keys.equal n n=false→¬Member keys set n∧xs.count n=1 := by
  rw [represents_iff hr]
  constructor
  · intro hle n hmem hn
    have hone := hle n hn
    have hpos := count_pos_iff.mpr hmem
    rw [hcount n hn] at hone
    rw [member_iff_count hn]
    omega
  · intro hnew n hn
    rw [hcount n hn]
    have hle := (represents_iff h.stored).mp h n hn
    by_cases hmem : n∈xs
    · obtain ⟨hnot,hone⟩ := hnew n hmem hn
      rw [member_iff_count hn] at hnot
      omega
    · rw [count_eq_zero.mpr hmem]
      exact hle

/-- `symmetric_difference` over items. -/
theorem symmetricDifference_iff (h : Represents keys set) (hself : ¬(arg=.self∧update=true)) :
    Combine.symmetricDifference.Agrees keys set arg update↔
      Combine.symmetricDifference.Sound keys set arg update := by
  obtain ⟨r,hloop,hstored,hrun⟩ :=
    forItems_run .addIfNotFoundOrRemoveIfFound (arg.elems set) h.stored
  have hresult : ∀ fuel,Combine.symmetricDifference.run keys fuel set arg update=.done r () :=
    fun fuel => (forEach_argument hself fuel _).trans hloop
  have hcount : ∀ n,keys.equal n n=false→
      (elems r).count n=(elems set).count n+(arg.elems set).count n := fun n hn => hrun.count hn
  have hnew := new_iff h hstored hcount
  have hexists : ∀ y,(∃ x∈arg.elems set,keys.equal x y=true)↔
      (arg.elems set).countP (keys.equal · y)≠0 := fun y => by
    rw [Ne,countP_eq_zero]
    simp
  have hself : (∀ x,keys.equal x x=true→(Has keys r x↔¬(Has keys set x↔
      ∃ y∈arg.elems set,keys.equal y x=true)))↔
        ∀ x∈arg.elems set,keys.equal x x=true→Odd ((arg.elems set).countP (keys.equal · x)) := by
    constructor
    · intro hall x hmem hx
      have hiff := hall x hx
      have hsome : ∃ y∈arg.elems set,keys.equal y x=true := ⟨x,hmem,hx⟩
      rw [hrun.has_toggle x] at hiff
      refine not_even_iff_odd.mp fun heven => ?_
      simp only [hsome,heven,iff_true] at hiff
      exact iff_not_self hiff
    · intro hodd y _
      rw [hrun.has_toggle y]
      by_cases hy : ∃ x∈arg.elems set,keys.equal x y=true
      · obtain ⟨x,hmem,hxy⟩ := hy
        have hoddx := hodd x hmem (self_of_equal (keys.equal_symm hxy))
        rw [countP_congr_equal hxy] at hoddx
        have hsome : ∃ x∈arg.elems set,keys.equal x y=true := ⟨x,hmem,hxy⟩
        simp only [hsome,not_even_iff_odd.mpr hoddx,iff_true,iff_false]
      · have hzero := Decidable.not_not.mp (mt (hexists y).mpr hy)
        have heven : Even 0 := by decide
        simp only [hzero,hy,heven,iff_true,iff_false,not_not]
  rw [agrees_iff hresult,members_iff,hnew]
  change _∧(∀ x,_→(_↔¬(_↔_)))∧(∀ n,_→(_↔¬(_↔_)))↔_
  rw [hself]
  constructor
  · rintro ⟨hnew,hodd,-⟩
    exact ⟨hodd,hnew⟩
  · rintro ⟨hodd,hnew⟩
    refine ⟨hnew,hodd,fun n hn => ?_⟩
    rw [hcount n hn]
    by_cases hmem : n∈arg.elems set
    · obtain ⟨hnot,hone⟩ := hnew n hmem hn
      rw [member_iff_count hn] at hnot
      omega
    · rw [count_eq_zero.mpr hmem]
      omega

/-- `union` over items. -/
theorem union_iff (h : Represents keys set) (hself : ¬(arg=.self∧update=true)) :
    Combine.union.Agrees keys set arg update↔Combine.union.Sound keys set arg update := by
  obtain ⟨r,hloop,hstored,hrun⟩ := forItems_run .addIfNotFound (arg.elems set) h.stored
  have hresult : ∀ fuel,Combine.union.run keys fuel set arg update=.done r () :=
    fun fuel => (forEach_argument hself fuel _).trans hloop
  have hcount : ∀ n,keys.equal n n=false→
      (elems r).count n=(elems set).count n+(arg.elems set).count n := fun n hn => hrun.count hn
  rw [agrees_iff hresult,members_iff,new_iff h hstored hcount]
  refine and_iff_left ⟨fun x _ => hrun.has_add x,fun n hn => ?_⟩
  rw [hcount n hn]
  exact add_pos_iff_pos_or_pos

/-- What is in a table without keys. -/
theorem not_member_of_elems (hr : Stored keys r) (hempty : elems r=[]) :
    Represents keys r∧∀ x,¬Member keys r x := by
  refine ⟨(represents_iff hr).mpr fun n _ => by rw [hempty]; exact zero_le 1,fun x hx => ?_⟩
  obtain ⟨k,hk,-⟩ := (member_iff r x).mp hx
  rw [hempty] at hk
  cases hk

/-- A set that is given itself is sound when all its keys are equal to themselves. -/
theorem self_iff (h : Represents keys set) :
    (Combine.symmetricDifference.Sound keys set .self update↔
      ∀ k∈elems set,keys.equal k k=true)∧
    (Combine.union.Sound keys set .self update↔∀ k∈elems set,keys.equal k k=true) := by
  have hmember : ∀ k∈elems set,Member keys set k := fun k hk =>
    (member_iff set k).mpr ⟨k,hk,by simp [Keys.same]⟩
  constructor
  · constructor
    · rintro ⟨-,hnew⟩ k hk
      by_contra hself
      exact (hnew k hk (Bool.eq_false_of_not_eq_true hself)).1 (hmember k hk)
    · intro hself
      refine ⟨fun x hx hxx => ?_,fun n hn hnn => ?_⟩
      · change Odd ((elems set).countP _)
        rw [countP_elems h.stored hx hxx]
        decide
      · rw [hself n hn] at hnn
        cases hnn
  · constructor
    · intro hnew k hk
      by_contra hself
      exact (hnew k hk (Bool.eq_false_of_not_eq_true hself)).1 (hmember k hk)
    · intro hself n hn hnn
      rw [hself n hn] at hnn
      cases hnn

/-- A key that is not equal to itself spoils the loop of a set that is given itself. -/
theorem not_represents_of_self (h : Stored keys set) {kind : LookupKind} (hadds : kind.adds=true)
    (hsome : ¬∀ k∈elems set,keys.equal k k=true) {fuel : ℕ}
    (hrun : forSelf (lookup keys kind) fuel 0 set=.done r ()) : ¬Represents keys r := by
  intro hr
  push Not at hsome
  obtain ⟨n,hn,hself⟩ := hsome
  obtain ⟨pos,hat⟩ := mem_keysOf.mp hn
  obtain ⟨k,hk,hstored,htwice⟩ := forSelf_not_self hadds (Bool.eq_false_of_not_eq_true hself) fuel
    0 pos h (zero_le pos) hat hrun
  have hone := (represents_iff hstored).mp hr k hk
  omega

/-- A set that is changed by itself. -/
theorem self_update_iff (h : Represents keys set) (op : Combine) :
    op.Agrees keys set .self true↔op.Sound keys set .self true := by
  cases op with
  | difference =>
    refine iff_of_true ⟨0,mpSetClear,rfl,?_⟩ (Or.inl ⟨rfl,rfl⟩)
    obtain ⟨hinit,hempty⟩ := @stored_init κ keys 0
    obtain ⟨hr,hnone⟩ := not_member_of_elems hinit hempty
    exact ⟨hr,fun x => iff_of_false (hnone x) fun hx => hx.2 ((member_iff set x).mp hx.1)⟩
  | intersection =>
    refine iff_of_true ⟨0,set,rfl,h,fun x => ?_⟩ (Or.inl rfl)
    exact (and_iff_left_of_imp fun hx => (member_iff set x).mp hx).symm
  | symmetricDifference =>
    rw [(self_iff h).1]
    constructor
    · rintro ⟨fuel,r,hrun,hr,-⟩
      by_contra hsome
      exact not_represents_of_self h.stored rfl hsome hrun hr
    · intro hself
      obtain ⟨r,hrun,hstored,hempty⟩ := forSelf_toggle (set.alloc+1) 0 h.stored hself
        (fun _ _ _ => zero_le _) (by omega)
      obtain ⟨hr,hnone⟩ := not_member_of_elems hstored hempty
      refine ⟨set.alloc+1,r,hrun,hr,fun x => iff_of_false (hnone x) fun hx => hx ?_⟩
      exact member_iff set x
  | union =>
    rw [(self_iff h).2]
    constructor
    · rintro ⟨fuel,r,hrun,hr,-⟩
      by_contra hsome
      exact not_represents_of_self h.stored rfl hsome hrun hr
    · intro hself
      refine ⟨set.alloc+1,set,forSelf_add h.stored hself _ 0 (by omega),h,fun x => ?_⟩
      exact (or_iff_left_of_imp fun hx => (member_iff set x).mpr hx).symm

/-- A method that makes or changes a set agrees with the operation exactly for sound items. -/
theorem combine_iff (h : Represents keys set) (arg : Iterable κ) (update : Bool) (op : Combine) :
    op.Agrees keys set arg update↔op.Sound keys set arg update := by
  by_cases hself : arg=.self∧update=true
  · obtain ⟨rfl,rfl⟩ := hself
    exact self_update_iff h op
  · cases op with
    | difference =>
      exact (difference_iff h hself).trans (or_iff_right hself).symm
    | intersection =>
      by_cases hother : arg=.self
      · rw [hother]
        refine iff_of_true ⟨0,set,rfl,h,fun x => ?_⟩ (Or.inl rfl)
        exact (and_iff_left_of_imp fun hx => (member_iff set x).mp hx).symm
      · exact (intersection_iff h hother).trans (or_iff_right hother).symm
    | symmetricDifference => exact symmetricDifference_iff h hself
    | union => exact union_iff h hself

end Toggles

section Comparisons

variable {set : MpSet κ} {arg : Iterable κ}

/-- The sets that are given are as they should be. -/
def Iterable.Valid (keys : Keys κ) : Iterable κ→Prop
  | .set other => Represents keys other
  | _ => True

/-- The mathematical comparison of the elements. A set is only equal to sets. -/
def Compare.Holds (keys : Keys κ) (set : MpSet κ) (arg : Iterable κ) : Compare→Prop
  | .issubset => ∀ x,Member keys set x→Among keys set arg x
  | .issuperset => ∀ x,Among keys set arg x→Member keys set x
  | .equal => (∀ xs,arg≠.items xs)∧∀ x,Member keys set x↔Among keys set arg x

/-- The comparison ends and tells the truth. -/
def Compare.Agrees (keys : Keys κ) (set : MpSet κ) (arg : Iterable κ) (op : Compare) : Prop :=
  ∃ s found,op.run keys set arg=.done s found∧(found=true↔op.Holds keys set arg)

/-- What the keys have to be that are looked up. One that is not equal to itself is not found, so
that it may only be there when the comparison does not hold. -/
def Compare.Sound (keys : Keys κ) (set : MpSet κ) (arg : Iterable κ) (op : Compare) : Prop :=
  op.Holds keys set arg→match op with
    | .issuperset => ∀ k∈arg.elems set,keys.equal k k=true
    | _ => ∀ k∈elems set,keys.equal k k=true

/-- Keys that are found among others, and keys that are the same as some. -/
theorem found_iff {la lb : List κ} : (∀ k∈la,∃ k'∈lb,keys.equal k' k=true)↔
      (∀ x,(∃ k∈la,keys.same k x=true)→∃ k'∈lb,keys.same k' x=true)∧
        ∀ k∈la,keys.equal k k=true := by
  have hsplit : ∀ {a b},keys.same a b=true↔a=b∨keys.equal a b=true := fun {a b} => by
    rw [Keys.same,Bool.or_eq_true,decide_eq_true_iff]
  constructor
  · refine fun hall => ⟨?_,fun k hk => ?_⟩
    · rintro x ⟨k,hk,hsame⟩
      obtain ⟨k',hk',hequal⟩ := hall k hk
      refine ⟨k',hk',hsplit.mpr (Or.inr ?_)⟩
      rcases hsplit.mp hsame with rfl | hkx
      · exact hequal
      · exact keys.equal_trans hequal hkx
    · obtain ⟨k',-,hequal⟩ := hall k hk
      exact self_of_equal hequal
  · rintro ⟨hsame,hself⟩ k hk
    obtain ⟨k',hk',hrel⟩ := hsame k ⟨k,hk,hsplit.mpr (Or.inl rfl)⟩
    refine ⟨k',hk',?_⟩
    rcases hsplit.mp hrel with rfl | hequal
    · exact hself _ hk
    · exact hequal

theorem told_iff {p q : Prop} {found : Bool} (h : found=true↔p∧q) : (found=true↔p)↔(p→q) := by
  rw [h]
  exact and_iff_left_iff_imp

/-- A comparison that ends with one answer agrees when that answer does. -/
theorem compare_agrees_iff {op : Compare} {s : MpSet κ} {found : Bool}
    (hrun : op.run keys set arg=.done s found) :
    op.Agrees keys set arg↔(found=true↔op.Holds keys set arg) := by
  constructor
  · rintro ⟨s',found',hrun',hiff⟩
    rw [hrun] at hrun'
    cases hrun'
    exact hiff
  · exact fun h => ⟨s,found,hrun,h⟩

/-- The set that an argument is. -/
theorem equal_iff (h : Represents keys set) {other : MpSet κ} (hother : Represents keys other)
    (harg : arg.elems set=elems other) (hset : ∀ xs,arg≠.items xs)
    (hrun : Compare.equal.run keys set arg=equalSets keys set other) :
    Compare.equal.Agrees keys set arg↔Compare.equal.Sound keys set arg := by
  obtain ⟨found,hequal,hiff⟩ := @equalSets_eq κ keys set other hother.stored
  rw [compare_agrees_iff (hrun.trans hequal)]
  refine told_iff (hiff.trans ?_)
  have hmembers : Compare.equal.Holds keys set arg↔
      ∀ x,(∃ k∈elems set,keys.same k x=true)↔∃ k∈elems other,keys.same k x=true := by
    rw [Compare.Holds,and_iff_right hset]
    simp only [member_iff,Among,harg]
  rw [hmembers]
  constructor
  · rintro ⟨hused,hall⟩
    obtain ⟨m,hperm,hmatch⟩ := matched h.stored hother.stored hused hall
    obtain ⟨hsub,hself⟩ := found_iff.mp hall
    have hback : ∀ k∈elems other,∃ k'∈elems set,keys.equal k' k=true := fun k hk => by
      exact exists_of_matched hmatch (hperm.mem_iff.mp hk)
    exact ⟨fun x => ⟨hsub x,(found_iff.mp hback).1 x⟩,hself⟩
  · rintro ⟨hsame,hself⟩
    have hall := found_iff.mpr ⟨fun x => (hsame x).mp,hself⟩
    have hotherSelf : ∀ k∈elems other,keys.equal k k=true := fun k hk => by
      obtain ⟨k',hk',hrel⟩ := (hsame k).mpr ⟨k,hk,by simp [Keys.same]⟩
      rw [Keys.same,Bool.or_eq_true,decide_eq_true_iff] at hrel
      rcases hrel with rfl | hequal
      · exact hself _ hk'
      · exact self_of_equal hequal
    have hback := found_iff.mpr ⟨fun x => (hsame x).mpr,hotherSelf⟩
    obtain ⟨m,rest,hperm,hmatch⟩ := exists_matching h.stored.pairwise hall
    obtain ⟨m',rest',hperm',hmatch'⟩ := exists_matching hother.stored.pairwise hback
    have hle := hperm.length_eq
    have hle' := hperm'.length_eq
    rw [length_append,hmatch.length_eq] at hle
    rw [length_append,hmatch'.length_eq] at hle'
    refine ⟨?_,hall⟩
    rw [h.stored.used_length,hother.stored.used_length]
    omega

/-- An iterable as a set has the items that are given. -/
theorem asSet_eq (h : Represents keys set) (harg : arg.Valid keys) :
    ∃ o,asSet keys set arg=.done o ()∧Stored keys o∧
      (∀ y,Has keys o y↔∃ x∈arg.elems set,keys.equal x y=true)∧
      ∀ n,keys.equal n n=false→(n∈elems o↔n∈arg.elems set) := by
  cases arg with
  | items xs =>
    obtain ⟨hinit,hempty⟩ := @stored_init κ keys 0
    obtain ⟨o,hloop,hstored,hrun⟩ := forItems_run .addIfNotFound xs hinit
    refine ⟨o,hloop,hstored,fun y => (hrun.has_add y).trans (or_iff_right ?_),fun n hn => ?_⟩
    · rintro ⟨k,hk,-⟩
      rw [hempty] at hk
      cases hk
    · rw [←count_pos_iff,hrun.count hn,hempty,count_nil,zero_add]
      exact count_pos_iff
  | set o => exact ⟨o,rfl,Represents.stored harg,fun y => Iff.rfl,fun n _ => Iff.rfl⟩
  | self => exact ⟨set,rfl,h.stored,fun y => Iff.rfl,fun n _ => Iff.rfl⟩

/-- A comparison tells the truth exactly for sound keys. -/
theorem compare_iff (h : Represents keys set) (harg : arg.Valid keys) (op : Compare) :
    op.Agrees keys set arg↔op.Sound keys set arg := by
  obtain ⟨o,ho,hstored,hhas,hmem⟩ := asSet_eq h harg
  cases op with
  | issubset =>
    obtain ⟨found,hrun,hiff⟩ := allFound_eq hstored (elems set)
    have hcompare : Compare.issubset.run keys set arg=.done o found := by
      rw [Compare.run,ho]
      exact (setIssubsetInternal_eq ..).trans hrun
    rw [compare_agrees_iff hcompare]
    refine told_iff (hiff.trans ?_)
    simp only [hhas,found_iff,Compare.Holds,member_iff,Among]
  | issuperset =>
    obtain ⟨found,hrun,hiff⟩ := allFound_eq h.stored (elems o)
    have hcompare : Compare.issuperset.run keys set arg=.done set found := by
      rw [Compare.run,ho]
      exact (setIssubsetInternal_eq ..).trans hrun
    rw [compare_agrees_iff hcompare]
    refine told_iff (hiff.trans ((asSet_found hhas hmem).trans ?_))
    refine found_iff.trans ?_
    simp only [Compare.Holds,member_iff,Among]
  | equal =>
    cases arg with
    | items xs =>
      refine iff_of_true ⟨set,false,rfl,?_⟩ fun hholds => absurd rfl (hholds.1 xs)
      exact iff_of_false Bool.false_ne_true fun hholds => hholds.1 xs rfl
    | set other => exact equal_iff h harg rfl (fun _ h => by cases h) rfl
    | self => exact equal_iff h h rfl (fun _ h => by cases h) rfl

end Comparisons

end MicroPython.SetOperations
